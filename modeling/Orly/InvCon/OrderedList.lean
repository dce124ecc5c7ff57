import Orly.Lib.SentinelList
import Orly.InvCon.Collections

/-! `InvCon::OrderedList` (`inv_con/ordered_list.h`): an intrusive, ordered, doubly linked
list. A `TCollection` holds `FirstMembership` and `LastMembership`; a `TMembership` holds
its `Key`, its `Collection`, `PrevMembership` and `NextMembership`. All of these, for every
collection and every membership, make one state `Links`, memberships named by `ι` and
collections by `κ`; a null pointer is `none`.

`FixupLinkage` writes "the previous membership's `NextMembership`, or the collection's
`FirstMembership` when there is none". Read with the null membership standing for the
collection, that is one successor field (`Links.succ`), and a collection's list is a cycle
through the sentinel `none`, as `SentinelList` describes. The loops of `Insert`,
`ReverseInsert` and the two lookups by key are `SentinelList.scan` over these fields; they
and the loop of `RemoveEachMember` run on fuel and give nothing if it runs out.

`Member` and `Collector`, the owners the objects point back to, are read by none of the
calls here and are left out. -/
namespace Orly.InvCon.OrderedList

open SentinelList

variable {ι κ K : Type}

/-- The fields of every membership and every collection. -/
structure Links (ι κ K : Type) where
  key : ι → K
  collection : ι → Option κ
  prevMembership : ι → Option ι
  nextMembership : ι → Option ι
  firstMembership : κ → Option ι
  lastMembership : κ → Option ι

namespace Links

/-- Every membership unlinked, as its constructor leaves it (`ZeroLinkage`), and every
collection empty. -/
def empty (key : ι → K) : Links ι κ K :=
  ⟨key, fun _ => none, fun _ => none, fun _ => none, fun _ => none, fun _ => none⟩

/-- `NextMembership`, with the null membership standing for the collection `c`, whose
`FirstMembership` it reads. -/
def succ (s : Links ι κ K) (c : κ) : Option ι → Option ι
  | none => s.firstMembership c
  | some n => s.nextMembership n

/-- `PrevMembership`, with the null membership standing for the collection `c`, whose
`LastMembership` it reads. -/
def pred (s : Links ι κ K) (c : κ) : Option ι → Option ι
  | none => s.lastMembership c
  | some n => s.prevMembership n

section Writes

variable [DecidableEq ι] [DecidableEq κ]

/-- `(p ? p->NextMembership : Collection->FirstMembership) = v`. -/
def setSucc (s : Links ι κ K) (c : κ) : Option ι → Option ι → Links ι κ K
  | none, v => { s with firstMembership := Function.update s.firstMembership c v }
  | some n, v => { s with nextMembership := Function.update s.nextMembership n v }

/-- `(n ? n->PrevMembership : Collection->LastMembership) = v`. -/
def setPred (s : Links ι κ K) (c : κ) : Option ι → Option ι → Links ι κ K
  | none, v => { s with lastMembership := Function.update s.lastMembership c v }
  | some n, v => { s with prevMembership := Function.update s.prevMembership n v }

/-- `FixupLinkage(prev_fixup, next_fixup)` of the membership `m`, in the collection `c` it
is in: the source asserts `Collection`, and both callers hold it. The second write reads
`NextMembership` after the first. -/
def fixupLinkage (s : Links ι κ K) (c : κ) (m : ι) (prevFixup nextFixup : Option ι) :
    Links ι κ K :=
  let s := s.setSucc c (s.prevMembership m) prevFixup
  s.setPred c (s.nextMembership m) nextFixup

/-- `ZeroLinkage`. -/
def zeroLinkage (s : Links ι κ K) (m : ι) : Links ι κ K :=
  { s with
    collection := Function.update s.collection m none
    nextMembership := Function.update s.nextMembership m none
    prevMembership := Function.update s.prevMembership m none }

/-- `TMembership::Remove`, also run by `~TMembership`. -/
def remove (s : Links ι κ K) (m : ι) : Links ι κ K :=
  match s.collection m with
  | none => s
  | some c => (s.fixupLinkage c m (s.nextMembership m) (s.prevMembership m)).zeroLinkage m

/-- `Collection = collection; PrevMembership = prev_membership; NextMembership =
next_membership;` of the membership `m`. -/
def setLinkage (s : Links ι κ K) (m : ι) (c : κ) (prevM nextM : Option ι) : Links ι κ K :=
  { s with
    collection := Function.update s.collection m (some c)
    prevMembership := Function.update s.prevMembership m prevM
    nextMembership := Function.update s.nextMembership m nextM }

/-- What `Insert` and `ReverseInsert` do once they decide to move `m`: `Remove()`, the new
linkage, then `FixupLinkage(this, this)`. -/
def relink (s : Links ι κ K) (m : ι) (c : κ) (prevM nextM : Option ι) : Links ι κ K :=
  ((s.remove m).setLinkage m c prevM nextM).fixupLinkage c m (some m) (some m)

variable [LinearOrder K]

/-- `TMembership::Insert(collection)`: from the first membership, stepping over `m`
itself, pass those whose key is at most `m`'s; then move `m` there unless it is there
already. -/
def insert (fuel : Nat) (s : Links ι κ K) (m : ι) (c : κ) : Option (Links ι κ K) := do
  let step := skipping (s.succ c) (some m)
  let (prevM, nextM) ←
    scan step none (fun u => u.any fun n => s.key n ≤ s.key m) fuel none (step none)
  if s.collection m ≠ some c ∨ s.prevMembership m ≠ prevM ∨ s.nextMembership m ≠ nextM then
    return s.relink m c prevM nextM
  else
    return s

/-- `TMembership::ReverseInsert(collection)`: from the last membership, stepping over `m`
itself, pass backwards those whose key is greater than `m`'s; then move `m` there unless
it is there already. -/
def reverseInsert (fuel : Nat) (s : Links ι κ K) (m : ι) (c : κ) : Option (Links ι κ K) := do
  let step := skipping (s.pred c) (some m)
  let (nextM, prevM) ←
    scan step none (fun u => u.any fun n => s.key n > s.key m) fuel none (step none)
  if s.collection m ≠ some c ∨ s.nextMembership m ≠ nextM ∨ s.prevMembership m ≠ prevM then
    return s.relink m c prevM nextM
  else
    return s

/-- `TMembership::SetKey`: a different key is stored, and `m` inserted again into its
collection, if any. -/
def setKey (fuel : Nat) (s : Links ι κ K) (m : ι) (key : K) : Option (Links ι κ K) :=
  if s.key m ≠ key then
    let s := { s with key := Function.update s.key m key }
    match s.collection m with
    | some c => s.insert fuel m c
    | none => some s
  else
    some s

/-- `TCollection::RemoveEachMember`, also run by `~TCollection`: `Remove` the first
membership while there is one. -/
def removeEachMember (c : κ) : Nat → Links ι κ K → Option (Links ι κ K)
  | 0, s =>
    match s.firstMembership c with
    | none => some s
    | some _ => none
  | fuel + 1, s =>
    match s.firstMembership c with
    | none => some s
    | some m => removeEachMember c fuel (s.remove m)

/-- `TCollection::TryGetFirstMembership(key)`: from the first membership, pass those whose
key is below `key`; the one reached, if its key is not above `key`. -/
def tryGetFirstMembership (fuel : Nat) (s : Links ι κ K) (c : κ) (key : K) :
    Option (Option ι) :=
  (scan (s.succ c) none (fun u => u.any fun n => s.key n < key) fuel none (s.succ c none)).map
    fun (_, membership) => membership.filter fun n => !decide (key < s.key n)

/-- `TCollection::TryGetLastMembership(key)`: from the last membership, pass backwards those
whose key is above `key`; the one reached, if its key is not below `key`. -/
def tryGetLastMembership (fuel : Nat) (s : Links ι κ K) (c : κ) (key : K) :
    Option (Option ι) :=
  (scan (s.pred c) none (fun u => u.any fun n => key < s.key n) fuel none (s.pred c none)).map
    fun (_, membership) => membership.filter fun n => !decide (s.key n < key)

/-- One call on the collections. -/
def step (fuel : Nat) (s : Links ι κ K) : Op ι κ K → Option (Links ι κ K)
  | .insert m c => s.insert fuel m c
  | .reverseInsert m c => s.reverseInsert fuel m c
  | .remove m => some (s.remove m)
  | .setKey m key => s.setKey fuel m key
  | .removeEachMember c => removeEachMember c fuel s

/-- A run of calls, stopping at the first that runs out of fuel. -/
def run (fuel : Nat) : Links ι κ K → List (Op ι κ K) → Option (Links ι κ K)
  | s, [] => some s
  | s, op :: ops => (s.step fuel op).bind fun s => run fuel s ops

end Writes

section Views

variable [DecidableEq ι] [DecidableEq κ] {s : Links ι κ K} {c c' : κ} {u v w : Option ι} {m : ι}

@[simp] theorem key_setSucc : (s.setSucc c u v).key = s.key := by cases u <;> rfl
@[simp] theorem key_setPred : (s.setPred c u v).key = s.key := by cases u <;> rfl
@[simp] theorem collection_setSucc : (s.setSucc c u v).collection = s.collection := by
  cases u <;> rfl
@[simp] theorem collection_setPred : (s.setPred c u v).collection = s.collection := by
  cases u <;> rfl
@[simp] theorem pred_setSucc : (s.setSucc c u v).pred c' = s.pred c' := by
  cases u <;> funext w <;> cases w <;> rfl
@[simp] theorem succ_setPred : (s.setPred c u v).succ c' = s.succ c' := by
  cases u <;> funext w <;> cases w <;> rfl

/-- In its own collection's cycle, a write through `setSucc` is a write of one successor. -/
theorem succ_setSucc_self : (s.setSucc c u v).succ c = Function.update (s.succ c) u v := by
  funext w
  cases u <;> cases w <;> simp [setSucc, succ, Function.update_apply]

theorem pred_setPred_self : (s.setPred c u v).pred c = Function.update (s.pred c) u v := by
  funext w
  cases u <;> cases w <;> simp [setPred, pred, Function.update_apply]

/-- In another collection's cycle, a write through `setSucc` is seen only at the
membership it writes. -/
theorem succ_setSucc_of_ne (other : c' ≠ c) (apart : w = none ∨ w ≠ u) :
    (s.setSucc c u v).succ c' w = s.succ c' w := by
  cases u <;> cases w <;> simp_all [setSucc, succ]

theorem pred_setPred_of_ne (other : c' ≠ c) (apart : w = none ∨ w ≠ u) :
    (s.setPred c u v).pred c' w = s.pred c' w := by
  cases u <;> cases w <;> simp_all [setPred, pred]

theorem nextMembership_setSucc_of_ne (other : u ≠ some m) :
    (s.setSucc c u v).nextMembership m = s.nextMembership m := by
  cases u with
  | none => rfl
  | some n => exact Function.update_of_ne (fun same => other (by rw [same])) _ _

@[simp] theorem key_fixupLinkage {prevFixup nextFixup : Option ι} :
    (s.fixupLinkage c m prevFixup nextFixup).key = s.key := by
  simp [fixupLinkage]

@[simp] theorem collection_fixupLinkage {prevFixup nextFixup : Option ι} :
    (s.fixupLinkage c m prevFixup nextFixup).collection = s.collection := by
  simp [fixupLinkage]

/-- In its own collection's cycle, `FixupLinkage` writes the successor of the previous
membership and the predecessor of the next one. -/
theorem succ_fixupLinkage_self {prevFixup nextFixup : Option ι} :
    (s.fixupLinkage c m prevFixup nextFixup).succ c =
      Function.update (s.succ c) (s.prevMembership m) prevFixup := by
  rw [fixupLinkage, succ_setPred, succ_setSucc_self]

theorem pred_fixupLinkage_self {prevFixup nextFixup : Option ι}
    (apart : s.prevMembership m ≠ some m) :
    (s.fixupLinkage c m prevFixup nextFixup).pred c =
      Function.update (s.pred c) (s.nextMembership m) nextFixup := by
  rw [fixupLinkage, pred_setPred_self, pred_setSucc, nextMembership_setSucc_of_ne apart]

theorem succ_fixupLinkage_of_ne {prevFixup nextFixup : Option ι} (other : c' ≠ c)
    (apart : w = none ∨ w ≠ s.prevMembership m) :
    (s.fixupLinkage c m prevFixup nextFixup).succ c' w = s.succ c' w := by
  rw [fixupLinkage, succ_setPred, succ_setSucc_of_ne other apart]

theorem pred_fixupLinkage_of_ne {prevFixup nextFixup : Option ι} (other : c' ≠ c)
    (apartSelf : s.prevMembership m ≠ some m) (apart : w = none ∨ w ≠ s.nextMembership m) :
    (s.fixupLinkage c m prevFixup nextFixup).pred c' w = s.pred c' w := by
  have same : (s.setSucc c (s.prevMembership m) prevFixup).nextMembership m = s.nextMembership m :=
    nextMembership_setSucc_of_ne apartSelf
  rw [fixupLinkage, pred_setPred_of_ne other (by rw [same]; exact apart), pred_setSucc]

omit [DecidableEq κ] in
@[simp] theorem key_zeroLinkage : (s.zeroLinkage m).key = s.key := rfl

omit [DecidableEq κ] in
theorem succ_zeroLinkage (other : w ≠ some m) : (s.zeroLinkage m).succ c w = s.succ c w := by
  cases w <;> simp_all [zeroLinkage, succ]

omit [DecidableEq κ] in
theorem pred_zeroLinkage (other : w ≠ some m) : (s.zeroLinkage m).pred c w = s.pred c w := by
  cases w <;> simp_all [zeroLinkage, pred]

omit [DecidableEq κ] in
@[simp] theorem key_setLinkage {prevM nextM : Option ι} :
    (s.setLinkage m c prevM nextM).key = s.key := rfl

omit [DecidableEq κ] in
theorem collection_setLinkage {prevM nextM : Option ι} :
    (s.setLinkage m c prevM nextM).collection = Function.update s.collection m (some c) := rfl

omit [DecidableEq κ] in
theorem collection_zeroLinkage :
    (s.zeroLinkage m).collection = Function.update s.collection m none := rfl

omit [DecidableEq κ] in
/-- The new linkage of `m` is its successor and predecessor in every cycle. -/
theorem succ_setLinkage {prevM nextM : Option ι} :
    (s.setLinkage m c prevM nextM).succ c' = Function.update (s.succ c') (some m) nextM := by
  funext w
  cases w <;> simp [setLinkage, succ, Function.update_apply]

omit [DecidableEq κ] in
theorem pred_setLinkage {prevM nextM : Option ι} :
    (s.setLinkage m c prevM nextM).pred c' = Function.update (s.pred c') (some m) prevM := by
  funext w
  cases w <;> simp [setLinkage, pred, Function.update_apply]

end Views

end Links

end Orly.InvCon.OrderedList

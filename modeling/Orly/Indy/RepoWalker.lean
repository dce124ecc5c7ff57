import Mathlib
import Orly.Indy.MinHeap
import Orly.Indy.PresentWalker

/-! `TRepo::TPresentWalker` (`orly/indy/repo.h`, `orly/indy/repo.cc`).

A repo's present walker merges the present walkers of the layers a view sees (the
data layers, then the current memory layer) through a `TMinHeap` of their current
items, in the order of `TPresentWalker::TItem::operator<`: by key, and for one key
the later sequence number first. The constructor fills the heap with each layer's
first item and runs `Init`; `operator++` runs `Refresh`. Both pop items until one is
worth presenting: its sequence number lies in `[Lower, Upper]`, it is not a tombstone
when tombstones are ignored, and for `Refresh` its key differs from the key of the
item presented last. Each popped item's walker is advanced and its next item pushed.

Each layer walker is the list of items it yields, its current item first. Keys are
compared by `TKey::Compare`, a linear order on the keys of one index; an op is only
asked whether it is a tombstone. -/
namespace Orly.Indy

variable {κ ω : Type} [LinearOrder κ]

/-- The state of `TRepo::TPresentWalker`: the sequence bounds of the view, the flag
`IgnoreTombstone`, the layer walkers of `WalkerVec`, the heap of their current items
with each item's position in `WalkerVec`, `Valid`, and `Item` (none while `Item.KeyArena`
is null). -/
structure TRepoPresentWalker (κ ω : Type) where
  lower : Nat
  upper : Nat
  ignoreTombstone : Bool
  walkerVec : List (List (TItem κ ω))
  minHeap : TMinHeap (TItem κ ω) Nat
  valid : Bool
  item : Option (TItem κ ω)

namespace TRepoPresentWalker

/-- `++walker; if (walker) MinHeap.Insert(*walker, pos);`: the walker at `pos` drops
its current item, and its next one, if any, goes into the heap. -/
def advance (walkerVec : List (List (TItem κ ω))) (heap : TMinHeap (TItem κ ω) Nat) (pos : Nat) :
    List (List (TItem κ ω)) × TMinHeap (TItem κ ω) Nat :=
  match walkerVec[pos]? with
  | some (_ :: next :: rest) => (walkerVec.set pos (next :: rest), heap.insert TItem.before next pos)
  | some [_] => (walkerVec.set pos [], heap)
  | _ => (walkerVec, heap)

/-- What the walker has left to pop: the heap and every layer's items. -/
def remaining (walkerVec : List (List (TItem κ ω))) (heap : TMinHeap (TItem κ ω) Nat) : Nat :=
  heap.data.size + (walkerVec.map List.length).sum

omit [LinearOrder κ] in
theorem sum_set_cons (walkerVec : List (List (TItem κ ω))) {pos : Nat} {cur : TItem κ ω}
    {rest : List (TItem κ ω)} (current : walkerVec[pos]? = some (cur :: rest)) :
    ((walkerVec.set pos rest).map List.length).sum + 1 = (walkerVec.map List.length).sum := by
  induction walkerVec generalizing pos with
  | nil => simp at current
  | cons layer layers ih =>
    cases pos with
    | zero =>
      simp only [List.getElem?_cons_zero, Option.some.injEq] at current
      subst current
      simp only [List.set_cons_zero, List.map_cons, List.sum_cons, List.length_cons]
      omega
    | succ pos =>
      simp only [List.getElem?_cons_succ] at current
      have step := ih current
      simp only [List.set_cons_succ, List.map_cons, List.sum_cons]
      omega

/-- Advancing a walker takes an item out of the layers, and puts at most one into the
heap. -/
theorem remaining_advance (walkerVec : List (List (TItem κ ω))) (heap : TMinHeap (TItem κ ω) Nat)
    (pos : Nat) :
    remaining (advance walkerVec heap pos).1 (advance walkerVec heap pos).2 ≤
      remaining walkerVec heap := by
  unfold advance remaining
  split
  · rename_i cur next rest current
    have dropped := sum_set_cons walkerVec current
    simp only [TMinHeap.size_insert]
    omega
  · rename_i cur current
    have dropped := sum_set_cons walkerVec current
    dsimp only
    omega
  · exact Nat.le_refl _

variable (isTombstone : ω → Bool)

/-- The walker once the layer walker at `pos` has moved past the item just popped. -/
def moveOn (walker : TRepoPresentWalker κ ω) (heap : TMinHeap (TItem κ ω) Nat) (pos : Nat) :
    TRepoPresentWalker κ ω :=
  { walker with walkerVec := (advance walker.walkerVec heap pos).1,
                minHeap := (advance walker.walkerVec heap pos).2 }

theorem remaining_moveOn (walker : TRepoPresentWalker κ ω) (heap : TMinHeap (TItem κ ω) Nat)
    (pos : Nat) :
    remaining (moveOn walker heap pos).walkerVec (moveOn walker heap pos).minHeap ≤
      remaining walker.walkerVec heap :=
  remaining_advance walker.walkerVec heap pos

/-- Whether the loop stops at `cur`: its sequence number is in range, it is `fresh`,
and it is not a tombstone where tombstones are ignored. -/
def worthPresenting (fresh : TItem κ ω → Bool) (walker : TRepoPresentWalker κ ω)
    (cur : TItem κ ω) : Bool :=
  decide (walker.lower ≤ cur.sequenceNumber) && decide (cur.sequenceNumber ≤ walker.upper) &&
    fresh cur && (!walker.ignoreTombstone || !isTombstone cur.op)

/-- The loop of `Init` and `Refresh`: pop until an item is worth presenting, and present
it; otherwise stop with `Valid` false once the heap is empty. -/
def scan (fresh : TItem κ ω → Bool) (walker : TRepoPresentWalker κ ω) : TRepoPresentWalker κ ω :=
  if walker.valid then
    match popped : walker.minHeap.pop TItem.before with
    | some ((cur, pos), heap) =>
      if worthPresenting isTombstone fresh walker cur then
        { moveOn walker heap pos with item := some cur }
      else
        scan fresh { moveOn walker heap pos with valid := (moveOn walker heap pos).minHeap.nonempty }
    | none => walker
  else walker
termination_by remaining walker.walkerVec walker.minHeap
decreasing_by
  have shrunk := TMinHeap.size_pop TItem.before popped
  have advanced := remaining_moveOn walker heap pos
  simp only [remaining] at advanced ⊢
  omega

/-- One round of the loop, from the item the heap hands out. -/
theorem scan_of_pop {fresh : TItem κ ω → Bool} {walker : TRepoPresentWalker κ ω}
    {cur : TItem κ ω} {pos : Nat} {heap : TMinHeap (TItem κ ω) Nat} (valid : walker.valid = true)
    (popped : walker.minHeap.pop TItem.before = some ((cur, pos), heap)) :
    scan isTombstone fresh walker =
      if worthPresenting isTombstone fresh walker cur then
        { moveOn walker heap pos with item := some cur }
      else
        scan isTombstone fresh
          { moveOn walker heap pos with valid := (moveOn walker heap pos).minHeap.nonempty } := by
  rw [scan]
  simp only [valid, if_true]
  split
  · rename_i cur' pos' heap' popped'
    rw [popped] at popped'
    cases popped'
    rfl
  · rename_i popped'
    rw [popped] at popped'
    cases popped'

/-- `Init`: the first item worth presenting. -/
def init (walker : TRepoPresentWalker κ ω) : TRepoPresentWalker κ ω :=
  scan isTombstone (fun _ => true) walker

/-- `Refresh`: the next item worth presenting whose key differs from the key of the
item presented last (`TKey::TupleNeEq`). -/
def refresh (walker : TRepoPresentWalker κ ω) : TRepoPresentWalker κ ω :=
  scan isTombstone (fun cur => match walker.item with
    | some item => decide (item.key ≠ cur.key)
    | none => true) walker

/-- `operator++`. -/
def next (walker : TRepoPresentWalker κ ω) : TRepoPresentWalker κ ω :=
  refresh isTombstone { walker with valid := walker.minHeap.nonempty }

/-- The heap the constructor fills: the first item of each layer walker that has one,
with the walker's position. -/
def insertHeads (heap : TMinHeap (TItem κ ω) Nat) (pos : Nat) :
    List (List (TItem κ ω)) → TMinHeap (TItem κ ω) Nat
  | [] => heap
  | (cur :: _) :: layers => insertHeads (heap.insert TItem.before cur pos) (pos + 1) layers
  | [] :: layers => insertHeads heap (pos + 1) layers

/-- The range constructor `TPresentWalker(view, from, to, ignore_tombstone)`, given the
walkers the layers of the view hand out for the range, the current memory layer's
last. A view without both sequence bounds presents nothing. -/
def make (lower upper : Option Nat) (ignoreTombstone : Bool) (layers : List (List (TItem κ ω))) :
    TRepoPresentWalker κ ω :=
  match lower, upper with
  | some lower, some upper =>
    init isTombstone
      { lower, upper, ignoreTombstone, walkerVec := layers,
        minHeap := insertHeads TMinHeap.empty 0 layers,
        valid := (insertHeads TMinHeap.empty 0 layers).nonempty, item := none }
  | lower, upper =>
    { lower := lower.getD 0, upper := upper.getD 0, ignoreTombstone, walkerVec := [],
      minHeap := TMinHeap.empty, valid := false, item := none }

/-- With tombstones ignored, a key whose latest update in range is a tombstone is still
presented, with the update before the tombstone: `Init` skips the tombstone without
remembering its key, so nothing stops the older update behind it. -/
theorem make_ignoreTombstone_presents_older_version {lower upper s₁ s₂ : Nat} {key : κ}
    {tombstone value : ω} (deleted : isTombstone tombstone = true)
    (written : isTombstone value = false) (low : lower ≤ s₂) (older : s₂ < s₁) (high : s₁ ≤ upper) :
    (make isTombstone (some lower) (some upper) true [[⟨s₁, key, tombstone⟩, ⟨s₂, key, value⟩]]).valid = true ∧
      (make isTombstone (some lower) (some upper) true [[⟨s₁, key, tombstone⟩, ⟨s₂, key, value⟩]]).item =
        some ⟨s₂, key, value⟩ := by
  simp only [make, init, insertHeads, TMinHeap.empty, TMinHeap.insert_empty]
  -- the tombstone is popped first and skipped, and its layer walker moves on
  rw [scan_of_pop isTombstone rfl (TMinHeap.pop_singleton _ _)]
  simp only [worthPresenting, deleted, Bool.not_true, Bool.or_self, Bool.and_false,
    Bool.false_eq_true, if_false, moveOn, advance, List.getElem?_cons_zero, List.set_cons_zero,
    TMinHeap.insert_empty, TMinHeap.nonempty]
  -- the older write is popped next, and nothing compares it with the tombstone's key
  rw [scan_of_pop isTombstone (by simp) (TMinHeap.pop_singleton _ _)]
  have inRange : lower ≤ s₂ ∧ s₂ ≤ upper := ⟨low, by omega⟩
  simp [worthPresenting, written, moveOn, advance, inRange]

/-- Key `7`, written at 5 and deleted at 10, in a view of `[0, 10]`. -/
theorem make_ignoreTombstone_presents_deleted_key :
    (make Option.isNone (some 0) (some 10) true [[⟨10, 7, none⟩, ⟨5, 7, some 42⟩]]).valid = true ∧
      (make Option.isNone (some 0) (some 10) true [[⟨10, 7, none⟩, ⟨5, 7, some 42⟩]]).item =
        some ⟨5, (7 : Nat), some (42 : Nat)⟩ :=
  make_ignoreTombstone_presents_older_version Option.isNone rfl rfl (by decide) (by decide) (by decide)

end TRepoPresentWalker

end Orly.Indy

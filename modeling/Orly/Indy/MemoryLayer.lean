import Orly.Indy.PresentWalker

/-! The present walkers of the memory layer (`orly/indy/memory_layer.cc`).

The memory layer keeps every entry of its updates in one collection, ordered by
`TUpdate::TEntry::TEntryKey`: index id, then key, then the later sequence number
first. Its walkers are cursors into that collection that start at its first entry
and skip forward: an entry of a later index ends the walk, an entry of an earlier
index is passed over. `Refresh` runs when the walker is valid and has no cached
item, and leaves the cursor on the item it presents.

The range walker compares each entry of the index with one bound, chosen when
`Refresh` starts: `From` until it has passed its first match, `To` after. When it
meets its first entry at or past `From` it reads `To`, but compares the entry with
the bound it already holds, `From`, once more, and ends the walk if the entry lies
past it (`make_presents_nothing_without_from`). -/
namespace Orly.Indy

/-- `TUpdate::TEntry`: the op one update writes for one key of one index. -/
structure TEntry (ι κ ω : Type) where
  indexId : ι
  key : κ
  op : ω
  sequenceNumber : Nat
  deriving DecidableEq, Repr

variable {ι κ ω : Type} [LinearOrder ι] [LinearOrder κ]

/-- The item a walker presents for an entry. -/
def TEntry.toItem (entry : TEntry ι κ ω) : TItem κ ω := ⟨entry.sequenceNumber, entry.key, entry.op⟩

namespace MemoryLayer

/-- The state of `TMemoryLayer::TRangePresentWalker`: the index id of `From` (the
constructor asserts `To` has the same), the two bounds, the cursor as the entries from
its position on, the flags `Valid`, `Cached` and `PassedMatch`, and `Item`. -/
structure TRangePresentWalker (ι κ ω : Type) where
  indexId : ι
  fromKey : κ
  toKey : κ
  csr : List (TEntry ι κ ω)
  valid : Bool
  cached : Bool
  passedMatch : Bool
  item : Option (TItem κ ω)

namespace TRangePresentWalker

/-- The loop of `Refresh`, comparing each entry of the index with `bound`. -/
def scan (bound : κ) (walker : TRangePresentWalker ι κ ω) :
    List (TEntry ι κ ω) → TRangePresentWalker ι κ ω
  | [] => { walker with csr := [], valid := false }
  | entry :: rest =>
    let here := { walker with csr := entry :: rest, cached := true }
    match compare walker.indexId entry.indexId with
    | .lt => { here with valid := false }
    | .gt => scan bound here rest
    | .eq =>
      if !walker.passedMatch then
        if compare entry.key bound ≠ .lt then
          -- the code reads `To` here, but compares with `key_state`, which holds `From`
          if compare entry.key bound = .gt then { here with passedMatch := true, valid := false }
          else { here with passedMatch := true, item := some entry.toItem }
        else scan bound here rest
      else if compare entry.key bound = .gt then { here with valid := false }
      else { here with item := some entry.toItem }

/-- `Refresh`. -/
def refresh (walker : TRangePresentWalker ι κ ω) : TRangePresentWalker ι κ ω :=
  if walker.valid && !walker.cached then
    scan (if walker.passedMatch then walker.toKey else walker.fromKey) walker walker.csr
  else walker

/-- The constructor: a cursor at the first entry of the layer, then `Refresh`. -/
def make (indexId : ι) (fromKey toKey : κ) (entries : List (TEntry ι κ ω)) :
    TRangePresentWalker ι κ ω :=
  refresh { indexId, fromKey, toKey, csr := entries, valid := true, cached := false,
            passedMatch := false, item := none }

/-- `operator++`. -/
def next (walker : TRangePresentWalker ι κ ω) : TRangePresentWalker ι κ ω :=
  refresh { walker with cached := false, csr := walker.csr.tail }

/-- Before its first match the loop either passes over the entries below `bound`, or
stops: invalid, or at an entry whose key is `bound`. -/
theorem scan_valid_of_not_passed (bound : κ) :
    ∀ (walker : TRangePresentWalker ι κ ω) (entries : List (TEntry ι κ ω)),
      walker.passedMatch = false → (scan bound walker entries).valid = true →
        ∃ entry ∈ entries, entry.indexId = walker.indexId ∧ entry.key = bound
  | _, [], _, scanned => by simp [scan] at scanned
  | walker, entry :: rest, notPassed, scanned => by
    simp only [scan, notPassed, Bool.not_false, if_true] at scanned
    split at scanned
    · simp at scanned
    · -- an earlier index: passed over
      obtain ⟨found, mem, same, key⟩ := scan_valid_of_not_passed bound
        { walker with csr := entry :: rest, cached := true, passedMatch := false } rest rfl scanned
      exact ⟨found, List.mem_cons_of_mem _ mem, same, key⟩
    · rename_i sameIndex
      by_cases below : compare entry.key bound = .lt
      · simp only [below, ne_eq, not_true_eq_false, if_false] at scanned
        obtain ⟨found, mem, same, key⟩ := scan_valid_of_not_passed bound
          { walker with csr := entry :: rest, cached := true, passedMatch := false } rest rfl scanned
        exact ⟨found, List.mem_cons_of_mem _ mem, same, key⟩
      · by_cases above : compare entry.key bound = .gt
        · simp [above] at scanned
        · -- the entry is at `bound` itself
          refine ⟨entry, List.mem_cons_self, (compare_eq_iff_eq.mp sameIndex).symm, ?_⟩
          rw [compare_lt_iff_lt, not_lt] at below
          rw [compare_gt_iff_gt, not_lt] at above
          exact le_antisymm above below

/-- The range walker of the memory layer presents nothing unless its lower bound `From`
is itself a key of the index in the layer: at the first entry past `From` it compares
the entry with `From` where it means `To`, and ends the walk. -/
theorem make_presents_nothing_without_from (indexId : ι) (fromKey toKey : κ)
    (entries : List (TEntry ι κ ω))
    (absent : ∀ entry ∈ entries, entry.indexId = indexId → entry.key ≠ fromKey) :
    (make indexId fromKey toKey entries).valid = false := by
  cases valid : (make indexId fromKey toKey entries).valid with
  | false => rfl
  | true =>
    simp only [make, refresh, Bool.true_and, Bool.not_false, if_true, Bool.false_eq_true,
      if_false] at valid
    obtain ⟨entry, mem, sameIndex, atFrom⟩ := scan_valid_of_not_passed fromKey _ entries rfl valid
    exact absurd atFrom (absent entry mem sameIndex)

/-- An index with the one key `2`: the range `[1, 3]` holds it, and the walker presents
nothing. -/
theorem make_misses_key_in_range :
    (1 : Nat) ≤ 2 ∧ (2 : Nat) ≤ 3 ∧
      (make 0 1 3 ([⟨0, 2, 42, 7⟩] : List (TEntry Nat Nat Nat))).valid = false :=
  ⟨by decide, by decide, make_presents_nothing_without_from 0 1 3 _ (by decide)⟩

end TRangePresentWalker

/-- The state of `TMemoryLayer::TMatchPresentWalker`: the pattern's index id and key,
the cursor, the flags `Valid`, `Cached` and `PassedMatch`, and `Item`. -/
structure TMatchPresentWalker (ι κ ω : Type) where
  indexId : ι
  key : κ
  csr : List (TEntry ι κ ω)
  valid : Bool
  cached : Bool
  passedMatch : Bool
  item : Option (TItem κ ω)

namespace TMatchPresentWalker

variable (matchPrefixState : κ → κ → TMatchResult)

/-- The loop of `Refresh`: past the entries of earlier indexes, present the first entry
the pattern unifies with, and once one has unified, end at the first that does not
match at all. -/
def scan (walker : TMatchPresentWalker ι κ ω) : List (TEntry ι κ ω) → TMatchPresentWalker ι κ ω
  | [] => { walker with csr := [], valid := false }
  | entry :: rest =>
    let here := { walker with csr := entry :: rest, cached := true }
    match compare walker.indexId entry.indexId with
    | .lt => { here with valid := false }
    | .gt => scan here rest
    | .eq =>
      match matchPrefixState walker.key entry.key with
      | .noMatch => if walker.passedMatch then { here with valid := false } else scan here rest
      | .prefixMatch => scan here rest
      | .unifies => { here with passedMatch := true, item := some entry.toItem }

/-- `Refresh`. -/
def refresh (walker : TMatchPresentWalker ι κ ω) : TMatchPresentWalker ι κ ω :=
  if walker.valid && !walker.cached then scan matchPrefixState walker walker.csr else walker

/-- The constructor: a cursor at the first entry of the layer, then `Refresh`. -/
def make (indexId : ι) (key : κ) (entries : List (TEntry ι κ ω)) : TMatchPresentWalker ι κ ω :=
  refresh matchPrefixState
    { indexId, key, csr := entries, valid := true, cached := false, passedMatch := false,
      item := none }

/-- `operator++`. -/
def next (walker : TMatchPresentWalker ι κ ω) : TMatchPresentWalker ι κ ω :=
  refresh matchPrefixState { walker with cached := false, csr := walker.csr.tail }

end TMatchPresentWalker

end MemoryLayer

end Orly.Indy

import Mathlib
import Orly.Indy.PresentWalker

/-! The present walker of one index of a data file (`orly/indy/disk/present_walk_file.h`)
and its binary search (`orly/indy/disk/read_file.h`).

A data file stores the current entries of an index at `ByteOffsetOfKeyIndex`, one
entry of `KeyEntrySize` bytes per key, in ascending key order, and its history after
them. A `TPresentWalkFile` reads entries from a stream: `Init` positions the stream on
the first entry to look at, through the prefix hash index (`FindInHash`, which either
finds an entry or does not) or, for a range whose bounds differ, a binary search;
`Refresh` reads entries from there until one is worth presenting.

Walkers are pooled: `TLoaderObj::GetNewFile` hands out a walker freed by an earlier
walk of the same file, generation and index if there is one, as that walk left it.
`Init(from, to)` sets `Valid` only where it finds a start; where it finds none it
keeps the `Valid` and the stream position the walker came with, and `Refresh` then
reads on from the earlier walk's position (`initRange_keeps_position`). -/
namespace Orly.Indy

/-- `TData::KeyEntrySize`: a sequence number, two cores of 24 bytes and two offsets. -/
def keyEntrySize : Nat := 8 + 24 + 24 + 8 + 8

/-- What a walker reads of one index of a data file: where the current entries start,
how many there are, and the item a read of the entry at a byte offset gives. -/
structure TIndexFile (κ ω : Type) where
  byteOffsetOfKeyIndex : Nat
  numCurKeys : Nat
  entryAt : Nat → TItem κ ω

namespace TIndexFile

variable {κ ω : Type}

/-- `GetByteOffsetOfHistoryIndex`: the end of the current entries. -/
def byteOffsetOfHistoryIndex (file : TIndexFile κ ω) : Nat :=
  file.byteOffsetOfKeyIndex + file.numCurKeys * keyEntrySize

/-- The key of the `n`th current entry. -/
def keyAt (file : TIndexFile κ ω) (n : Nat) : κ :=
  (file.entryAt (file.byteOffsetOfKeyIndex + n * keyEntrySize)).key

variable [LinearOrder κ]

/-- The loop of `BinaryLowerBoundOnKey`: `first` and `count` as the code keeps them,
with `it` the last position probed. -/
def lowerBoundLoop (file : TIndexFile κ ω) (key : κ) (first it count : Nat) : Nat × Nat :=
  if counting : 0 < count then
    let step := count / 2
    if file.keyAt (first + step) < key then
      lowerBoundLoop file key (first + step + 1) (first + step + 1) (count - (step + 1))
    else lowerBoundLoop file key first (first + step) step
  else (first, it)
termination_by count
decreasing_by all_goals omega

/-- `BinaryLowerBoundOnKey(key, out_offset)`: whether some current key is at least
`key`, and the offset of the first such entry. -/
def binaryLowerBoundOnKey (file : TIndexFile κ ω) (key : κ) : Bool × Nat :=
  let (first, it) := lowerBoundLoop file key 0 0 file.numCurKeys
  (decide (first < file.numCurKeys), file.byteOffsetOfKeyIndex + it * keyEntrySize)

end TIndexFile

/-- `TPresentWalker::TKind`: the walk `Init` set up. -/
inductive SearchKind where
  | match
  | range
  deriving DecidableEq, Repr

/-- The state of `TPresentWalkFile`: the kind of walk, its bounds, the stream's
byte offset, the flags `Valid` and `Cached`, `Item` (none until the first read) and
`Offset`. -/
structure TPresentWalkFile (κ ω : Type) where
  searchKind : SearchKind
  fromKey : κ
  toKey : κ
  stream : Nat
  valid : Bool
  cached : Bool
  item : Option (TItem κ ω)
  offset : Nat

namespace TPresentWalkFile

variable {κ ω : Type} [LinearOrder κ] (file : TIndexFile κ ω)
  (prefixMatch : κ → κ → TMatchResult)

/-- A walker as its constructor leaves it: valid, nothing cached, the stream at the
start of the file. -/
def fresh [Inhabited κ] : TPresentWalkFile κ ω :=
  { searchKind := .match, fromKey := default, toKey := default, stream := 0, valid := true,
    cached := false, item := none, offset := 0 }

/-- `Refresh`: read entries until the end of the current entries. A range walk
presents the entry it reads unless its key lies past `To`; a match walk presents an
entry the pattern unifies with, and ends at one it does not match or a prefix match
past `From`. -/
def refresh (walker : TPresentWalkFile κ ω) : TPresentWalkFile κ ω :=
  if reading : walker.stream < file.byteOffsetOfHistoryIndex then
    let item := file.entryAt walker.stream
    let read := { walker with stream := walker.stream + keyEntrySize, cached := true,
                              item := some item }
    match walker.searchKind with
    | .range => if walker.toKey < item.key then { read with valid := false } else read
    | .match =>
      match prefixMatch walker.fromKey item.key with
      | .unifies => read
      | .noMatch => { read with valid := false }
      | .prefixMatch =>
        if walker.fromKey < item.key then { read with valid := false } else refresh read
  else { walker with valid := false }
termination_by file.byteOffsetOfHistoryIndex - walker.stream
decreasing_by
  simp only [keyEntrySize]
  omega

/-- `Init(from)`: a match walk from the entry the prefix hash finds, if it finds one. -/
def initMatch (findInHash : κ → Option Nat) (fromKey : κ) (walker : TPresentWalkFile κ ω) :
    TPresentWalkFile κ ω :=
  let walker := { walker with searchKind := .match, fromKey, cached := false }
  match findInHash fromKey with
  | some offset => refresh file prefixMatch { walker with valid := true, offset, stream := offset }
  | none => { walker with valid := false }

/-- `Init(from, to)`: a range walk from the entry the prefix hash finds for `from`, or,
when the bounds differ, from the first entry the binary search finds at or past
`from`. Where neither finds a start, `Valid` and the stream keep what they held. -/
def initRange (findInHash : κ → Option Nat) (fromKey toKey : κ) (walker : TPresentWalkFile κ ω) :
    TPresentWalkFile κ ω :=
  let walker := { walker with searchKind := .range, fromKey, toKey, cached := false }
  let walker :=
    match findInHash fromKey with
    | some offset => { walker with valid := true, offset, stream := offset }
    | none =>
      if fromKey ≠ toKey then
        match file.binaryLowerBoundOnKey fromKey with
        | (true, offset) => { walker with stream := offset, valid := true }
        | (false, _) => walker
      else walker
  if walker.valid then refresh file prefixMatch walker else walker

/-- `operator++`. -/
def next (walker : TPresentWalkFile κ ω) : TPresentWalkFile κ ω :=
  refresh file prefixMatch { walker with cached := false }

/-- `TLoaderObj::GetNewFile`: the walker freed last, or a fresh one. -/
def getNewFile [Inhabited κ] : List (TPresentWalkFile κ ω) → TPresentWalkFile κ ω × List (TPresentWalkFile κ ω)
  | [] => (fresh, [])
  | walker :: freeQueue => (walker, freeQueue)

/-- `TLoaderObj::Free`. -/
def free (walker : TPresentWalkFile κ ω) (freeQueue : List (TPresentWalkFile κ ω)) :
    List (TPresentWalkFile κ ω) :=
  walker :: freeQueue

/-- A range `[from, from]` of one key the file does not hold: a walker that comes valid
with its stream on a current entry whose key is at most `from` presents that entry. -/
theorem initRange_keeps_position (findInHash : κ → Option Nat) (fromKey : κ)
    (walker : TPresentWalkFile κ ω) (notHashed : findInHash fromKey = none)
    (valid : walker.valid = true) (onEntry : walker.stream < file.byteOffsetOfHistoryIndex)
    (below : (file.entryAt walker.stream).key ≤ fromKey) :
    (initRange file prefixMatch findInHash fromKey fromKey walker).valid = true ∧
      (initRange file prefixMatch findInHash fromKey fromKey walker).item =
        some (file.entryAt walker.stream) := by
  have notPast : ¬ fromKey < (file.entryAt walker.stream).key := not_lt.mpr below
  simp only [initRange, notHashed, ne_eq, not_true_eq_false, if_false, valid, if_true]
  rw [refresh]
  simp [onEntry, notPast]

/-- The file of keys `1`, `2` and `5`, each written at sequence number `1` with op `0`. -/
def threeKeyFile : TIndexFile Nat Nat where
  byteOffsetOfKeyIndex := 0
  numCurKeys := 3
  entryAt offset :=
    if offset = 0 then ⟨1, 1, 0⟩ else if offset = keyEntrySize then ⟨1, 2, 0⟩ else ⟨1, 5, 0⟩

/-- Its prefix hash, which finds each of the three keys and nothing else. -/
def threeKeyHash (key : Nat) : Option Nat :=
  if key = 1 then some 0 else if key = 2 then some keyEntrySize
  else if key = 5 then some (2 * keyEntrySize) else none

/-- The walk of `[1, 5]` that stops after its first item, and frees its walker. -/
def firstWalk : TPresentWalkFile Nat Nat :=
  initRange threeKeyFile (fun _ _ => .noMatch) threeKeyHash 1 5 (getNewFile []).1

/-- The next walk, of `[3, 3]`, gets the walker of the first back and presents key `2`. A
range walk never asks for a prefix match. -/
theorem recycled_walker_presents_key_outside_range :
    (getNewFile (free firstWalk [])).1 = firstWalk ∧ firstWalk.item = some ⟨1, 1, 0⟩ ∧
      threeKeyFile.entryAt firstWalk.stream = ⟨1, 2, 0⟩ ∧
      (initRange threeKeyFile (fun _ _ => .noMatch) threeKeyHash 3 3 firstWalk).valid = true ∧
      (initRange threeKeyFile (fun _ _ => .noMatch) threeKeyHash 3 3 firstWalk).item =
        some (threeKeyFile.entryAt firstWalk.stream) :=
  ⟨rfl, by decide +kernel, by decide +kernel,
    initRange_keeps_position threeKeyFile _ threeKeyHash 3 firstWalk rfl (by decide +kernel)
      (by decide +kernel) (by decide +kernel)⟩

end TPresentWalkFile

end Orly.Indy

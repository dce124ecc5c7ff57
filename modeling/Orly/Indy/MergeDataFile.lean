import Mathlib
import Orly.Indy.MinHeap

/-! The key merge of `TMergeDataFileImpl` (`orly/indy/disk/merge_data_file.cc`).

Merging data files writes, for each index, one index file from that index's files in every
source. A source index file is walked by two cursors, one over its current keys and one over
its history keys; slot `2 i` of the heap is the current cursor of source `i`, slot `2 i + 1`
its history cursor. The heap holds each cursor's item as a `TSortedKey`, by key and, for one
key, the later sequence number first. A popped current key whose key differs from the last
key written as current goes out with `PushCurKey` and becomes the last written; every other
popped key goes out with `PushHistKey`. The popped cursor then moves on and its next item goes
into the heap.

With `CanTail` the merge drops what it need not keep. When `CanTailTombstones`, a current
cursor passes over a tombstone without history keys (`NumHistKeys`). A history cursor passes
over each key its filter vector (`HistoryKeeperFilterVec`) marks false, bumping its offset into
the vector for each key it passes and once more for the key it inserts. The filter marks a
history key when its sequence number is that of a current key kept in any index of the merged
files (`seq_keeper`); the sorters that resolve it (`ResolveSeqFilter`) are taken through what
they compute.

Keys are compared by `TKey::Compare`, a linear order on the keys of one index, which
`TSortedKey::operator<` and `TKey::operator!=` both read; here keys are a type with a linear
order. Remapping keys and values into the new file's arenas, and what the pushes write to
disk, are left out: a push is the sequence number, key and value it is given. An assert that
fails, or a read past a filter vector, answers none. The heap holds at most one key per slot,
so its `MaxElem` of two per source is never passed. -/
namespace Orly.Indy.Disk

/-- `TReader::TIndexFile::TKeyItem`: a current key of an index file, with the number of its
history keys. -/
structure TKeyItem (κ ω : Type) where
  key : κ
  value : ω
  seqNum : Nat
  numHistKeys : Nat
  deriving DecidableEq, Repr

/-- `TReader::TIndexFile::THistoryKeyItem`: an older version of a key. -/
structure THistoryKeyItem (κ ω : Type) where
  key : κ
  value : ω
  seqNum : Nat
  deriving DecidableEq, Repr

/-- `TReader::TIndexFile`: one index of a source data file, as `TKeyCursor` and
`THistoryKeyCursor` walk it. -/
structure TIndexFile (κ ω : Type) where
  curKeys : List (TKeyItem κ ω)
  histKeys : List (THistoryKeyItem κ ω)
  deriving DecidableEq, Repr

/-- `TSortedKey`: the key and sequence number a cursor's item goes into the heap as. -/
structure TSortedKey (κ : Type) where
  core : κ
  seqNum : Nat
  deriving DecidableEq, Repr

/-- What the loop writes: `PushCurKey(seq, key, val)` or `PushHistKey(seq, key, val)`. -/
inductive TPush (κ ω : Type) where
  | curKey (seqNum : Nat) (key : κ) (value : ω)
  | histKey (seqNum : Nat) (key : κ) (value : ω)
  deriving DecidableEq, Repr

variable {κ ω : Type}

def TKeyItem.sortedKey (item : TKeyItem κ ω) : TSortedKey κ := ⟨item.key, item.seqNum⟩

def THistoryKeyItem.sortedKey (item : THistoryKeyItem κ ω) : TSortedKey κ := ⟨item.key, item.seqNum⟩

/-- `!last_written || *last_written != cur_key`. -/
def isNewKey [DecidableEq κ] (lastWritten : Option κ) (key : κ) : Bool :=
  match lastWritten with
  | none => true
  | some last => decide (last ≠ key)

variable [LinearOrder κ]

/-- `TSortedKey::operator<`: `IsLt(comp) || (IsEq(comp) && SeqNum >= that.SeqNum)`. For one
key and one sequence number it holds both ways. -/
def TSortedKey.lt (lhs rhs : TSortedKey κ) : Bool :=
  compare lhs.core rhs.core == .lt || (compare lhs.core rhs.core == .eq && decide (rhs.seqNum ≤ lhs.seqNum))

/-- The state of the key merge of one index: `cur_key_cursor_vec` and `hist_key_cursor_vec`,
each cursor the items from it on; `history_key_cur_idx_vec`; the heap of slots; `last_written`;
and the pushes so far. -/
structure TMerge (κ ω : Type) where
  curCursors : List (List (TKeyItem κ ω))
  histCursors : List (List (THistoryKeyItem κ ω))
  histOffsets : List Nat
  minHeap : TMinHeap (TSortedKey κ) Nat
  lastWritten : Option κ
  pushes : List (TPush κ ω)

section Loop

variable (canTail canTailTombstones : Bool) (isTombstone : ω → Bool)

/-- `!CanTailTombstones || !item.Value.IsTombstone() || item.NumHistKeys > 0`. -/
def keepCur (item : TKeyItem κ ω) : Bool :=
  !canTailTombstones || !isTombstone item.value || decide (0 < item.numHistKeys)

/-- Where a current cursor stops: under `CanTail`, at the next key kept. -/
def skipCur (items : List (TKeyItem κ ω)) : List (TKeyItem κ ω) :=
  if canTail then items.dropWhile fun item => !keepCur canTailTombstones isTombstone item else items

/-- A current cursor moved on: it stops where `skipCur` does, and its item, if any, goes into
the heap at `pos`. -/
def seekCur (pos : Nat) (heap : TMinHeap (TSortedKey κ) Nat) (items : List (TKeyItem κ ω)) :
    List (TKeyItem κ ω) × TMinHeap (TSortedKey κ) Nat :=
  match skipCur canTail canTailTombstones isTombstone items with
  | [] => ([], heap)
  | item :: rest => (item :: rest, heap.insert TSortedKey.lt item.sortedKey pos)

/-- The history cursor's loop under `CanTail`, `for (; hist_csr; ++hist_csr, ++cur_hist_offset)`:
pass the keys the filter marks false, and stop at one it marks true; none where the offset
runs past the filter. -/
def skipHist (filter : List Bool) :
    List (THistoryKeyItem κ ω) → Nat → Option (List (THistoryKeyItem κ ω) × Nat)
  | [], offset => some ([], offset)
  | item :: items, offset =>
    match filter[offset]? with
    | some true => some (item :: items, offset)
    | some false => skipHist filter items (offset + 1)
    | none => none

/-- A history cursor moved on: under `CanTail` it stops where `skipHist` does, and the key it
inserts bumps the offset once more (`++cur_hist_offset; break;`). -/
def seekHist (filter : List Bool) (pos : Nat) (heap : TMinHeap (TSortedKey κ) Nat)
    (items : List (THistoryKeyItem κ ω)) (offset : Nat) :
    Option (List (THistoryKeyItem κ ω) × Nat × TMinHeap (TSortedKey κ) Nat) :=
  if canTail then
    (skipHist filter items offset).map fun
      | ([], offset) => ([], offset, heap)
      | (item :: rest, offset) => (item :: rest, offset + 1, heap.insert TSortedKey.lt item.sortedKey pos)
  else
    match items with
    | [] => some ([], offset, heap)
    | item :: rest => some (item :: rest, offset, heap.insert TSortedKey.lt item.sortedKey pos)

/-- A key popped from a current slot: `PushCurKey` when its key is new, and it becomes
`last_written`; `PushHistKey` otherwise. Then `++cur_csr` and the seek. -/
def popCur (merge : TMerge κ ω) (heap : TMinHeap (TSortedKey κ) Nat) (pos : Nat) : Option (TMerge κ ω) :=
  match merge.curCursors[pos / 2]? with
  | some (item :: rest) =>
    let fresh := isNewKey merge.lastWritten item.key
    let (cursor, heap) := seekCur canTail canTailTombstones isTombstone pos heap rest
    some { merge with
      curCursors := merge.curCursors.set (pos / 2) cursor
      minHeap := heap
      lastWritten := if fresh then some item.key else merge.lastWritten
      pushes := merge.pushes ++
        [if fresh then .curKey item.seqNum item.key item.value else .histKey item.seqNum item.key item.value] }
  -- `assert(cur_csr)`
  | _ => none

/-- A key popped from a history slot goes out with `PushHistKey`; then `++hist_csr` and the
seek, with the slot's filter vector. -/
def popHist (filters : List (List Bool)) (merge : TMerge κ ω) (heap : TMinHeap (TSortedKey κ) Nat)
    (pos : Nat) : Option (TMerge κ ω) :=
  match merge.histCursors[pos / 2]?, merge.histOffsets[pos / 2]? with
  | some (item :: rest), some offset => do
    let (cursor, offset, heap) ← seekHist canTail (filters[pos / 2]?.getD []) pos heap rest offset
    return { merge with
      histCursors := merge.histCursors.set (pos / 2) cursor
      histOffsets := merge.histOffsets.set (pos / 2) offset
      minHeap := heap
      pushes := merge.pushes ++ [.histKey item.seqNum item.key item.value] }
  -- `assert(hist_csr)`
  | _, _ => none

/-- What the cursors have left. -/
def cursorsLeft (merge : TMerge κ ω) : Nat :=
  (merge.curCursors.map List.length).sum + (merge.histCursors.map List.length).sum

omit [LinearOrder κ] in
theorem length_skipCur_le (items : List (TKeyItem κ ω)) :
    (skipCur canTail canTailTombstones isTombstone items).length ≤ items.length := by
  unfold skipCur
  split
  · exact (List.dropWhile_suffix _).length_le
  · exact le_refl _

theorem length_seekCur_le (pos : Nat) (heap : TMinHeap (TSortedKey κ) Nat) (items : List (TKeyItem κ ω)) :
    (seekCur canTail canTailTombstones isTombstone pos heap items).1.length ≤ items.length := by
  have skipped := length_skipCur_le canTail canTailTombstones isTombstone items
  unfold seekCur
  split <;> simp_all

omit [LinearOrder κ] in
theorem length_skipHist_le {filter : List Bool} :
    ∀ {items cursor : List (THistoryKeyItem κ ω)} {offset offset' : Nat},
      skipHist filter items offset = some (cursor, offset') → cursor.length ≤ items.length
  | [], _, _, _, skipped => by
    simp only [skipHist, Option.some.injEq, Prod.mk.injEq] at skipped
    simp [← skipped.1]
  | item :: items, cursor, offset, offset', skipped => by
    unfold skipHist at skipped
    split at skipped
    · simp only [Option.some.injEq, Prod.mk.injEq] at skipped
      simp [← skipped.1]
    · have shorter := length_skipHist_le skipped
      simp only [List.length_cons]
      omega
    · cases skipped

theorem length_seekHist_le {filter : List Bool} {pos : Nat} {heap heap' : TMinHeap (TSortedKey κ) Nat}
    {items cursor : List (THistoryKeyItem κ ω)} {offset offset' : Nat}
    (sought : seekHist canTail filter pos heap items offset = some (cursor, offset', heap')) :
    cursor.length ≤ items.length := by
  unfold seekHist at sought
  split at sought
  · obtain ⟨⟨stop, stopOffset⟩, skipped, found⟩ := Option.map_eq_some_iff.mp sought
    have shorter := length_skipHist_le skipped
    cases stop with
    | nil => simp_all
    | cons item rest =>
      simp only [Prod.mk.injEq] at found
      rw [← found.1]
      exact shorter
  · split at sought <;> simp_all

theorem sum_set_lt {α : Type} {lists : List (List α)} {i : Nat} {item : α} {rest short : List α}
    (found : lists[i]? = some (item :: rest)) (shorter : short.length ≤ rest.length) :
    ((lists.set i short).map List.length).sum < (lists.map List.length).sum := by
  induction lists generalizing i with
  | nil => simp at found
  | cons head lists ih =>
    cases i with
    | zero =>
      simp only [List.getElem?_cons_zero, Option.some.injEq] at found
      subst found
      simp only [List.set_cons_zero, List.map_cons, List.sum_cons, List.length_cons]
      omega
    | succ i =>
      simp only [List.getElem?_cons_succ] at found
      have step := ih found
      simp only [List.set_cons_succ, List.map_cons, List.sum_cons]
      omega

/-- A pop takes an item off the cursor it came from. -/
theorem cursorsLeft_popCur {merge merge' : TMerge κ ω} {heap : TMinHeap (TSortedKey κ) Nat} {pos : Nat}
    (popped : popCur canTail canTailTombstones isTombstone merge heap pos = some merge') :
    cursorsLeft merge' < cursorsLeft merge := by
  unfold popCur at popped
  split at popped
  · rename_i item rest found
    simp only [Option.some.injEq] at popped
    subst popped
    have shorter := sum_set_lt found (length_seekCur_le canTail canTailTombstones isTombstone pos heap rest)
    simp only [cursorsLeft]
    omega
  · cases popped

theorem cursorsLeft_popHist {filters : List (List Bool)} {merge merge' : TMerge κ ω}
    {heap : TMinHeap (TSortedKey κ) Nat} {pos : Nat}
    (popped : popHist canTail filters merge heap pos = some merge') :
    cursorsLeft merge' < cursorsLeft merge := by
  unfold popHist at popped
  split at popped
  · rename_i item rest offset found _
    obtain ⟨⟨cursor, offset', heap'⟩, sought, settled⟩ := Option.bind_eq_some_iff.mp popped
    simp only [Option.pure_def, Option.some.injEq] at settled
    subst settled
    have shorter := sum_set_lt found (length_seekHist_le canTail sought)
    simp only [cursorsLeft]
    omega
  · cases popped

/-- The body of the loop for the key popped from slot `pos`: `if (pos % 2 == 0)`, a current
slot, else a history slot. -/
def popSlot (filters : List (List Bool)) (merge : TMerge κ ω) (heap : TMinHeap (TSortedKey κ) Nat)
    (pos : Nat) : Option (TMerge κ ω) :=
  if pos % 2 = 0 then popCur canTail canTailTombstones isTombstone merge heap pos
  else popHist canTail filters merge heap pos

theorem cursorsLeft_popSlot {filters : List (List Bool)} {merge merge' : TMerge κ ω}
    {heap : TMinHeap (TSortedKey κ) Nat} {pos : Nat}
    (popped : popSlot canTail canTailTombstones isTombstone filters merge heap pos = some merge') :
    cursorsLeft merge' < cursorsLeft merge := by
  unfold popSlot at popped
  split at popped
  · exact cursorsLeft_popCur canTail canTailTombstones isTombstone popped
  · exact cursorsLeft_popHist canTail popped

/-- `while (min_heap)`: pop the least key, push it from its slot, and go on until the heap is
empty. -/
def mergeLoop (filters : List (List Bool)) (merge : TMerge κ ω) : Option (TMerge κ ω) :=
  match merge.minHeap.pop TSortedKey.lt with
  | none => some merge
  | some ((_, pos), heap) =>
    match _next : popSlot canTail canTailTombstones isTombstone filters merge heap pos with
    | none => none
    | some merge' => mergeLoop filters merge'
termination_by cursorsLeft merge
decreasing_by exact cursorsLeft_popSlot canTail canTailTombstones isTombstone _next

/-- The cursors the constructor opens, one source at a time from slot `pos`: each source's
current cursor sought into slot `pos`, its history cursor from offset 0 into slot `pos + 1`. -/
def initCursors (filters : List (List Bool)) :
    Nat → List (TIndexFile κ ω) → TMinHeap (TSortedKey κ) Nat →
      Option (List (List (TKeyItem κ ω)) × List (List (THistoryKeyItem κ ω)) × List Nat ×
        TMinHeap (TSortedKey κ) Nat)
  | _, [], heap => some ([], [], [], heap)
  | pos, file :: files, heap => do
    let (cur, heap) := seekCur canTail canTailTombstones isTombstone pos heap file.curKeys
    let (hist, offset, heap) ← seekHist canTail (filters[pos / 2]?.getD []) (pos + 1) heap file.histKeys 0
    let (curs, hists, offsets, heap) ← initCursors filters (pos + 2) files heap
    return (cur :: curs, hist :: hists, offset :: offsets, heap)

/-- The key merge of one index, over its files in the sources and their filter vectors: the
pushes, in order. -/
def mergeKeys (filters : List (List Bool)) (files : List (TIndexFile κ ω)) : Option (List (TPush κ ω)) := do
  let (curs, hists, offsets, heap) ← initCursors canTail canTailTombstones isTombstone filters 0 files TMinHeap.empty
  let merge ← mergeLoop canTail canTailTombstones isTombstone filters ⟨curs, hists, offsets, heap, none, []⟩
  return merge.pushes

/-- `seq_keeper`: the sequence numbers of the current keys kept, in every index of the merged
files. -/
def seqKeeper (indexes : List (List (TIndexFile κ ω))) : List Nat :=
  indexes.flatMap fun files => files.flatMap fun file =>
    (file.curKeys.filter (keepCur canTailTombstones isTombstone)).map TKeyItem.seqNum

/-- `HistoryKeeperFilterVec[i]` as `ResolveSeqFilter` resolves it: for each history key, in the
order of the cursor, whether its sequence number is in `seq_keeper`. -/
def historyKeeperFilter (keeper : List Nat) (file : TIndexFile κ ω) : List Bool :=
  file.histKeys.map fun item => decide (item.seqNum ∈ keeper)

/-- The key merge of one index of the merged files: under `CanTail`, with the filter vectors
built from `seq_keeper` of every index. -/
def mergeIndex (indexes : List (List (TIndexFile κ ω))) (files : List (TIndexFile κ ω)) :
    Option (List (TPush κ ω)) :=
  mergeKeys canTail canTailTombstones isTombstone
    (if canTail then files.map (historyKeeperFilter (seqKeeper canTailTombstones isTombstone indexes)) else [])
    files

end Loop

end Orly.Indy.Disk

import Mathlib
import Orly.Indy.MergeDataFile
import Orly.Indy.MinHeapLaws
import Orly.Lib.KWayMerge

/-! The key merge's loop, run whole.

Each slot of the heap has a list of versions still to push (`pendingAt`): its cursor's item,
which is in the heap, then the keys after it that the cursor will stop at (`curKept`,
`histKept`). The loop keeps `Inv`: each slot's pending versions in heap order, the heap in heap
order and holding the head of each, and under `CanTail` room in each history cursor's filter.
A pop hands out the first pending version of all (`Inv.step`, from `TMinHeap.pop_first` and
`KWayMerge.first_of_heads`), and the loop pops every pending version once, in heap order,
pushing each as `label` does (`Inv.mergeLoop_spec`). The constructor's cursors leave the
slots `initSlots` (`init_inv`), so the merge of an index is `label` of its sources' kept
versions in heap order (`mergeKeys_spec`). -/
namespace Orly.Indy.Disk

open KWayMerge

variable {κ ω : Type}

/-- A version of a key in a source index file: a current key or a history key, without the
count of history keys. -/
structure TEntry (κ ω : Type) where
  key : κ
  value : ω
  seqNum : Nat
  deriving DecidableEq, Repr

def TEntry.sortedKey (entry : TEntry κ ω) : TSortedKey κ := ⟨entry.key, entry.seqNum⟩

def TKeyItem.entry (item : TKeyItem κ ω) : TEntry κ ω := ⟨item.key, item.value, item.seqNum⟩

def THistoryKeyItem.entry (item : THistoryKeyItem κ ω) : TEntry κ ω := ⟨item.key, item.value, item.seqNum⟩

/-- The entry a push carries. -/
def TPush.entry : TPush κ ω → TEntry κ ω
  | .curKey seqNum key value => ⟨key, value, seqNum⟩
  | .histKey seqNum key value => ⟨key, value, seqNum⟩

def TPush.isCur : TPush κ ω → Bool
  | .curKey .. => true
  | .histKey .. => false

section Order

variable [LinearOrder κ]

theorem TSortedKey.lt_iff {a b : TSortedKey κ} :
    TSortedKey.lt a b = true ↔ a.core < b.core ∨ a.core = b.core ∧ b.seqNum ≤ a.seqNum := by
  simp [TSortedKey.lt, compare_lt_iff_lt]

instance : Std.Total fun a b : TSortedKey κ => TSortedKey.lt a b = true where
  total a b := by
    simp only [TSortedKey.lt_iff]
    rcases lt_trichotomy a.core b.core with lt | same | gt
    · exact Or.inl (Or.inl lt)
    · rcases Nat.le_total a.seqNum b.seqNum with le | ge
      · exact Or.inr (Or.inr ⟨same.symm, le⟩)
      · exact Or.inl (Or.inr ⟨same, ge⟩)
    · exact Or.inr (Or.inl gt)

instance : IsTrans (TSortedKey κ) fun a b => TSortedKey.lt a b = true where
  trans a b c := by
    simp only [TSortedKey.lt_iff]
    rintro (ab | ⟨ab, ba⟩) (bc | ⟨bc, cb⟩)
    · exact Or.inl (lt_trans ab bc)
    · exact Or.inl (bc ▸ ab)
    · exact Or.inl (ab ▸ bc)
    · exact Or.inr ⟨ab.trans bc, Nat.le_trans cb ba⟩

instance : Std.Refl fun a b : TSortedKey κ => TSortedKey.lt a b = true where
  refl _ := TSortedKey.lt_iff.mpr (Or.inr ⟨rfl, Nat.le_refl _⟩)

/-- The order the pushes should come in: key ascending, and for one key sequence number
descending. -/
def TEntry.Before (a b : TEntry κ ω) : Prop := TSortedKey.lt a.sortedKey b.sortedKey = true

end Order

section Pending

variable (canTail canTailTombstones : Bool) (isTombstone : ω → Bool)

/-- A version as the heap hands it out, with whether it came from a current cursor. -/
abbrev Tagged (κ ω : Type) := TEntry κ ω × Bool

/-- What the heap orders a tagged version by. -/
def sortKey (x : Tagged κ ω) : TSortedKey κ := x.1.sortedKey

def TKeyItem.tagged (item : TKeyItem κ ω) : Tagged κ ω := (item.entry, true)

def THistoryKeyItem.tagged (item : THistoryKeyItem κ ω) : Tagged κ ω := (item.entry, false)

/-- The current keys a current cursor stops at. -/
def curKept (items : List (TKeyItem κ ω)) : List (TKeyItem κ ω) :=
  if canTail then items.filter (keepCur canTailTombstones isTombstone) else items

/-- The history keys a filter marks, from `offset` on. -/
def keptHist (filter : List Bool) : List (THistoryKeyItem κ ω) → Nat → List (THistoryKeyItem κ ω)
  | [], _ => []
  | item :: items, offset =>
    if filter[offset]? = some true then item :: keptHist filter items (offset + 1)
    else keptHist filter items (offset + 1)

/-- The history keys a history cursor stops at. -/
def histKept (filter : List Bool) (items : List (THistoryKeyItem κ ω)) (offset : Nat) :
    List (THistoryKeyItem κ ω) :=
  if canTail then keptHist filter items offset else items

/-- What a current cursor has left to push: its item, in the heap, and the keys after it that
it will stop at. -/
def curPending : List (TKeyItem κ ω) → List (Tagged κ ω)
  | [] => []
  | item :: rest => item.tagged :: (curKept canTail canTailTombstones isTombstone rest).map TKeyItem.tagged

/-- What a history cursor has left to push, with its offset into the filter. -/
def histPending (filter : List Bool) : List (THistoryKeyItem κ ω) → Nat → List (Tagged κ ω)
  | [], _ => []
  | item :: rest, offset => item.tagged :: (histKept canTail filter rest offset).map THistoryKeyItem.tagged

/-- Under `CanTail`, a history cursor's offset leaves the filter room for the keys after its
item. -/
def Aligned (filter : List Bool) : List (THistoryKeyItem κ ω) → Nat → Prop
  | [], _ => True
  | _ :: rest, offset => rest.length + offset ≤ filter.length

theorem filter_dropWhile_not {α : Type} (p : α → Bool) :
    ∀ l : List α, (l.dropWhile fun a => !p a).filter p = l.filter p
  | [] => rfl
  | a :: l => by
    cases kept : p a
    · simp [kept, filter_dropWhile_not p l]
    · simp [kept]

/-- A current cursor stops at the keys it keeps. -/
theorem curPending_skipCur (items : List (TKeyItem κ ω)) :
    curPending canTail canTailTombstones isTombstone (skipCur canTail canTailTombstones isTombstone items) =
      (curKept canTail canTailTombstones isTombstone items).map TKeyItem.tagged := by
  unfold skipCur curKept
  cases canTail with
  | false =>
    cases items with
    | nil => rfl
    | cons item rest => simp [curPending, curKept]
  | true =>
    simp only [if_true]
    rw [← filter_dropWhile_not]
    cases stop : items.dropWhile fun item => !keepCur canTailTombstones isTombstone item with
    | nil => rfl
    | cons item rest =>
      -- the cursor stops at a key it keeps
      have kept := List.head_dropWhile_not (fun item => !keepCur canTailTombstones isTombstone item) (l := items)
        (by simp [stop])
      simp only [stop, List.head_cons, Bool.not_eq_false'] at kept
      simp [curPending, curKept, kept]

/-- Under `CanTail` a history cursor with room in its filter stops at the next key the filter
marks, past those it does not. -/
theorem skipHist_spec {filter : List Bool} :
    ∀ {items : List (THistoryKeyItem κ ω)} {offset : Nat}, items.length + offset ≤ filter.length →
      ∃ cursor offset', skipHist filter items offset = some (cursor, offset') ∧
        Aligned filter cursor (offset' + 1) ∧
        histPending true filter cursor (offset' + 1) = (keptHist filter items offset).map THistoryKeyItem.tagged
  | [], offset, _ => ⟨[], offset, rfl, trivial, rfl⟩
  | item :: items, offset, room => by
    have inside : offset < filter.length := by
      simp only [List.length_cons] at room
      omega
    cases marked : filter[offset] with
    | true =>
      have found : filter[offset]? = some true := by rw [List.getElem?_eq_getElem inside, marked]
      refine ⟨item :: items, offset, by simp [skipHist, found], by simp only [Aligned]; simp at room; omega, ?_⟩
      simp [histPending, histKept, keptHist, found]
    | false =>
      have found : filter[offset]? = some false := by rw [List.getElem?_eq_getElem inside, marked]
      obtain ⟨cursor, offset', skipped, aligned, pending⟩ :=
        @skipHist_spec filter items (offset + 1) (by simp at room; omega)
      refine ⟨cursor, offset', by simp [skipHist, found, skipped], aligned, ?_⟩
      simp [keptHist, found, pending]

end Pending

section Seek

variable [LinearOrder κ] (canTail canTailTombstones : Bool) (isTombstone : ω → Bool)

open TMinHeap (HeapOrdered)

/-- A cursor's item going into the heap adds the entry of its pending versions' head. -/
theorem insert_perm_heads (heap : TMinHeap (TSortedKey κ) Nat) (pos : Nat) (x : Tagged κ ω)
    (rest : List (Tagged κ ω)) :
    (heap.insert TSortedKey.lt (sortKey x) pos).data.toList.Perm
      (heap.data.toList ++ headEntry sortKey pos (x :: rest)) := by
  simpa [headEntry] using (TMinHeap.insert_perm heap (sortKey x) pos).trans (List.perm_append_singleton _ _).symm

/-- `seekCur`: the cursor left has the kept keys pending, and the heap gains its item. -/
theorem seekCur_spec (pos : Nat) (heap : TMinHeap (TSortedKey κ) Nat) (items : List (TKeyItem κ ω)) :
    curPending canTail canTailTombstones isTombstone (seekCur canTail canTailTombstones isTombstone pos heap items).1 =
        (curKept canTail canTailTombstones isTombstone items).map TKeyItem.tagged ∧
      (seekCur canTail canTailTombstones isTombstone pos heap items).2.data.toList.Perm
        (heap.data.toList ++ headEntry sortKey pos
          (curPending canTail canTailTombstones isTombstone (seekCur canTail canTailTombstones isTombstone pos heap items).1)) ∧
      (HeapOrdered TSortedKey.lt heap.data →
        HeapOrdered TSortedKey.lt (seekCur canTail canTailTombstones isTombstone pos heap items).2.data) := by
  have stops := curPending_skipCur canTail canTailTombstones isTombstone items
  unfold seekCur
  split
  · rename_i stop
    rw [stop] at stops
    exact ⟨stops, by simp [curPending, headEntry], id⟩
  · rename_i item rest stop
    rw [stop] at stops
    exact ⟨stops, insert_perm_heads heap pos item.tagged _, TMinHeap.insert_ordered _ _ _⟩

/-- `seekHist`: with room in the filter under `CanTail`, the cursor left has the marked keys
pending, keeps room, and the heap gains its item. -/
theorem seekHist_spec (pos : Nat) (heap : TMinHeap (TSortedKey κ) Nat) {filter : List Bool}
    {items : List (THistoryKeyItem κ ω)} {offset : Nat} (room : canTail = true → items.length + offset ≤ filter.length) :
    ∃ cursor offset' heap', seekHist canTail filter pos heap items offset = some (cursor, offset', heap') ∧
      histPending canTail filter cursor offset' = (histKept canTail filter items offset).map THistoryKeyItem.tagged ∧
      (canTail = true → Aligned filter cursor offset') ∧
      heap'.data.toList.Perm (heap.data.toList ++ headEntry sortKey pos (histPending canTail filter cursor offset')) ∧
      (HeapOrdered TSortedKey.lt heap.data → HeapOrdered TSortedKey.lt heap'.data) := by
  cases canTail with
  | false =>
    cases items with
    | nil => exact ⟨[], offset, heap, rfl, rfl, nofun, by simp [histPending, headEntry], id⟩
    | cons item rest =>
      refine ⟨item :: rest, offset, _, rfl, rfl, nofun, insert_perm_heads heap pos item.tagged _,
        TMinHeap.insert_ordered _ _ _⟩
  | true =>
    obtain ⟨cursor, offset', skipped, aligned, pending⟩ := skipHist_spec (room rfl)
    cases cursor with
    | nil =>
      refine ⟨[], offset', heap, by simp [seekHist, skipped], ?_, fun _ => trivial,
        by simp [histPending, headEntry], id⟩
      simpa [histPending, histKept] using pending
    | cons item rest =>
      refine ⟨item :: rest, offset' + 1, _, by simp [seekHist, skipped]; rfl, by simpa [histKept] using pending,
        fun _ => aligned, insert_perm_heads heap pos item.tagged _, TMinHeap.insert_ordered _ _ _⟩

end Seek

section Slots

variable (canTail canTailTombstones : Bool) (isTombstone : ω → Bool) (filters : List (List Bool))

/-- The versions slot `pos` has left to push: its cursor's pending versions. -/
def pendingAt (merge : TMerge κ ω) (pos : Nat) : List (Tagged κ ω) :=
  if pos % 2 = 0 then ((merge.curCursors[pos / 2]?).map (curPending canTail canTailTombstones isTombstone)).getD []
  else
    match merge.histCursors[pos / 2]?, merge.histOffsets[pos / 2]? with
    | some cursor, some offset => histPending canTail (filters[pos / 2]?.getD []) cursor offset
    | _, _ => []

/-- The pending versions of every slot, in slot order. -/
def slots (merge : TMerge κ ω) : List (List (Tagged κ ω)) :=
  (List.range (2 * merge.curCursors.length)).map (pendingAt canTail canTailTombstones isTombstone filters merge)

theorem getElem?_slots (merge : TMerge κ ω) (pos : Nat) :
    (slots canTail canTailTombstones isTombstone filters merge)[pos]? =
      if pos < 2 * merge.curCursors.length then some (pendingAt canTail canTailTombstones isTombstone filters merge pos)
      else none := by
  simp only [slots, List.getElem?_map]
  split
  · rename_i inside
    rw [List.getElem?_range inside]
    rfl
  · rename_i outside
    rw [List.getElem?_eq_none (by simpa using Nat.le_of_not_lt outside)]
    rfl

/-- A step that changes one slot's pending versions changes `slots` there. -/
theorem slots_eq_set {merge merge' : TMerge κ ω} {pos : Nat} {pending : List (Tagged κ ω)}
    (sameLength : merge'.curCursors.length = merge.curCursors.length)
    (moved : ∀ q, pendingAt canTail canTailTombstones isTombstone filters merge' q =
      if q = pos then pending else pendingAt canTail canTailTombstones isTombstone filters merge q) :
    slots canTail canTailTombstones isTombstone filters merge' =
      (slots canTail canTailTombstones isTombstone filters merge).set pos pending := by
  apply List.ext_getElem?
  intro q
  rw [List.getElem?_set, getElem?_slots, getElem?_slots, moved q, sameLength]
  by_cases same : q = pos
  · subst same
    simp [slots]
  · simp [same, Ne.symm same]

/-- A slot's pending versions read only its own cursor. -/
theorem pendingAt_congr {merge merge' : TMerge κ ω} {q : Nat}
    (cur : q % 2 = 0 → merge'.curCursors[q / 2]? = merge.curCursors[q / 2]?)
    (hist : q % 2 = 1 → merge'.histCursors[q / 2]? = merge.histCursors[q / 2]? ∧
      merge'.histOffsets[q / 2]? = merge.histOffsets[q / 2]?) :
    pendingAt canTail canTailTombstones isTombstone filters merge' q =
      pendingAt canTail canTailTombstones isTombstone filters merge q := by
  unfold pendingAt
  by_cases even : q % 2 = 0
  · rw [if_pos even, if_pos even, cur even]
  · obtain ⟨cursors, offsets⟩ := hist (by omega)
    rw [if_neg even, if_neg even, cursors, offsets]

/-- A slot with versions pending is a current slot whose cursor is at a key, or a history slot
whose cursor is at a key and has an offset. -/
theorem pendingAt_cons {merge : TMerge κ ω} {pos : Nat} {a : Tagged κ ω} {rest : List (Tagged κ ω)}
    (found : pendingAt canTail canTailTombstones isTombstone filters merge pos = a :: rest) :
    (pos % 2 = 0 ∧ ∃ item rest', merge.curCursors[pos / 2]? = some (item :: rest') ∧ a = item.tagged ∧
      rest = (curKept canTail canTailTombstones isTombstone rest').map TKeyItem.tagged) ∨
    (pos % 2 = 1 ∧ ∃ item rest' offset, merge.histCursors[pos / 2]? = some (item :: rest') ∧
      merge.histOffsets[pos / 2]? = some offset ∧ a = item.tagged ∧
      rest = (histKept canTail (filters[pos / 2]?.getD []) rest' offset).map THistoryKeyItem.tagged) := by
  unfold pendingAt at found
  split at found
  · rename_i even
    left
    refine ⟨even, ?_⟩
    cases cursorAt : merge.curCursors[pos / 2]? with
    | none => simp [cursorAt] at found
    | some cursor =>
      cases cursor with
      | nil => simp [cursorAt, curPending] at found
      | cons item rest' =>
        simp only [cursorAt, Option.map_some, Option.getD_some, curPending, List.cons.injEq] at found
        exact ⟨item, rest', rfl, found.1.symm, found.2.symm⟩
  · rename_i odd
    right
    refine ⟨by omega, ?_⟩
    split at found
    · rename_i cursor offset cursorAt offsetAt
      cases cursor with
      | nil => simp [histPending] at found
      | cons item rest' =>
        simp only [histPending, List.cons.injEq] at found
        exact ⟨item, rest', offset, cursorAt, offsetAt, found.1.symm, found.2.symm⟩
    · cases found

end Slots

section Label

variable [LinearOrder κ]

/-- The push of a version popped after `last_written`: `PushCurKey` for a current key whose
key is new. -/
def labelOne (lastWritten : Option κ) (x : Tagged κ ω) : TPush κ ω :=
  if x.2 && isNewKey lastWritten x.1.key then .curKey x.1.seqNum x.1.key x.1.value
  else .histKey x.1.seqNum x.1.key x.1.value

/-- `last_written` after a version is popped. -/
def nextWritten (lastWritten : Option κ) (x : Tagged κ ω) : Option κ :=
  if x.2 && isNewKey lastWritten x.1.key then some x.1.key else lastWritten

/-- The pushes of versions popped in order, from `last_written`. -/
def label : Option κ → List (Tagged κ ω) → List (TPush κ ω)
  | _, [] => []
  | lastWritten, x :: xs => labelOne lastWritten x :: label (nextWritten lastWritten x) xs

end Label

section Steps

variable [LinearOrder κ] (canTail canTailTombstones : Bool) (isTombstone : ω → Bool) (filters : List (List Bool))

open TMinHeap (HeapOrdered)

/-- What one pop of the loop changes: the pending versions of slot `pos` become `rest`, the
cursors keep their number, the heap loses the popped key and gains the head of `rest`, and
under `CanTail` the history cursors keep room in their filters. -/
structure MovesOn (merge merge' : TMerge κ ω) (heap : TMinHeap (TSortedKey κ) Nat) (pos : Nat)
    (rest : List (Tagged κ ω)) : Prop where
  pending : ∀ q, pendingAt canTail canTailTombstones isTombstone filters merge' q =
    if q = pos then rest else pendingAt canTail canTailTombstones isTombstone filters merge q
  sameLength : merge'.curCursors.length = merge.curCursors.length
  heapPerm : merge'.minHeap.data.toList.Perm (heap.data.toList ++ headEntry sortKey pos rest)
  ordered : HeapOrdered TSortedKey.lt heap.data → HeapOrdered TSortedKey.lt merge'.minHeap.data
  aligned : canTail = true → (∀ (i : Nat) cursor offset, merge.histCursors[i]? = some cursor →
      merge.histOffsets[i]? = some offset → Aligned (filters[i]?.getD []) cursor offset) →
    ∀ (i : Nat) cursor offset, merge'.histCursors[i]? = some cursor →
      merge'.histOffsets[i]? = some offset → Aligned (filters[i]?.getD []) cursor offset

/-- A key popped from a current slot: the slot's pending versions lose their head, and the
push and `last_written` are those of the head. -/
theorem popCur_spec {merge : TMerge κ ω} {pos : Nat} {item : TKeyItem κ ω} {rest : List (TKeyItem κ ω)}
    (heap : TMinHeap (TSortedKey κ) Nat) (even : pos % 2 = 0)
    (cursorAt : merge.curCursors[pos / 2]? = some (item :: rest)) :
    ∃ merge', popCur canTail canTailTombstones isTombstone merge heap pos = some merge' ∧
      MovesOn canTail canTailTombstones isTombstone filters merge merge' heap pos
        ((curKept canTail canTailTombstones isTombstone rest).map TKeyItem.tagged) ∧
      merge'.pushes = merge.pushes ++ [labelOne merge.lastWritten item.tagged] ∧
      merge'.lastWritten = nextWritten merge.lastWritten item.tagged := by
  obtain ⟨pending, heapPerm, ordered⟩ := seekCur_spec canTail canTailTombstones isTombstone pos heap rest
  have inside : pos / 2 < merge.curCursors.length := (List.getElem?_eq_some_iff.mp cursorAt).1
  set sought := seekCur canTail canTailTombstones isTombstone pos heap rest
  refine ⟨{ merge with
      curCursors := merge.curCursors.set (pos / 2) sought.1
      minHeap := sought.2
      lastWritten := nextWritten merge.lastWritten item.tagged
      pushes := merge.pushes ++ [labelOne merge.lastWritten item.tagged] }, ?_,
    ⟨fun q => ?_, by simp, by rw [← pending]; exact heapPerm, ordered, fun _ aligned => aligned⟩, rfl, rfl⟩
  · simp [popCur, cursorAt, sought, nextWritten, labelOne, TKeyItem.tagged, TKeyItem.entry]
  · by_cases same : q = pos
    · subst same
      simp [pendingAt, even, List.getElem?_set_self inside, pending]
    · rw [if_neg same]
      refine pendingAt_congr canTail canTailTombstones isTombstone filters (fun qEven => ?_) fun _ => ⟨rfl, rfl⟩
      exact List.getElem?_set_ne (by omega)

/-- A key popped from a history slot whose cursor has room in its filter: the slot's pending
versions lose their head, which goes out with `PushHistKey`. -/
theorem popHist_spec {merge : TMerge κ ω} {pos : Nat} {item : THistoryKeyItem κ ω}
    {rest : List (THistoryKeyItem κ ω)} {offset : Nat} (heap : TMinHeap (TSortedKey κ) Nat) (odd : pos % 2 = 1)
    (cursorAt : merge.histCursors[pos / 2]? = some (item :: rest)) (offsetAt : merge.histOffsets[pos / 2]? = some offset)
    (room : canTail = true → rest.length + offset ≤ (filters[pos / 2]?.getD []).length) :
    ∃ merge', popHist canTail filters merge heap pos = some merge' ∧
      MovesOn canTail canTailTombstones isTombstone filters merge merge' heap pos
        ((histKept canTail (filters[pos / 2]?.getD []) rest offset).map THistoryKeyItem.tagged) ∧
      merge'.pushes = merge.pushes ++ [labelOne merge.lastWritten item.tagged] ∧
      merge'.lastWritten = nextWritten merge.lastWritten item.tagged := by
  obtain ⟨cursor, offset', heap', sought, pending, aligned', heapPerm, ordered⟩ :=
    seekHist_spec canTail pos heap room
  have inside : pos / 2 < merge.histCursors.length := (List.getElem?_eq_some_iff.mp cursorAt).1
  have offsetInside : pos / 2 < merge.histOffsets.length := (List.getElem?_eq_some_iff.mp offsetAt).1
  refine ⟨{ merge with
      histCursors := merge.histCursors.set (pos / 2) cursor
      histOffsets := merge.histOffsets.set (pos / 2) offset'
      minHeap := heap'
      pushes := merge.pushes ++ [labelOne merge.lastWritten item.tagged] }, ?_,
    ⟨fun q => ?_, rfl, by rw [← pending]; exact heapPerm, ordered, fun tail aligned => ?_⟩, rfl, ?_⟩
  · simp [popHist, cursorAt, offsetAt, sought, labelOne, THistoryKeyItem.tagged, THistoryKeyItem.entry]
  · by_cases same : q = pos
    · subst same
      have notEven : q % 2 ≠ 0 := by omega
      simp [pendingAt, notEven, List.getElem?_set_self inside, List.getElem?_set_self offsetInside, pending]
    · rw [if_neg same]
      refine pendingAt_congr canTail canTailTombstones isTombstone filters (fun _ => rfl) fun qOdd => ?_
      have differ : pos / 2 ≠ q / 2 := by omega
      exact ⟨List.getElem?_set_ne differ, List.getElem?_set_ne differ⟩
  · intro i cursor' offset'' cursorAt' offsetAt'
    by_cases same : i = pos / 2
    · subst same
      simp only [List.getElem?_set_self inside, Option.some.injEq] at cursorAt'
      simp only [List.getElem?_set_self offsetInside, Option.some.injEq] at offsetAt'
      rw [← cursorAt', ← offsetAt']
      exact aligned' tail
    · rw [List.getElem?_set_ne (Ne.symm same)] at cursorAt' offsetAt'
      exact aligned i cursor' offset'' cursorAt' offsetAt'
  · simp [nextWritten, THistoryKeyItem.tagged]

end Steps

section Run

variable [LinearOrder κ] (canTail canTailTombstones : Bool) (isTombstone : ω → Bool) (filters : List (List Bool))

open TMinHeap (HeapOrdered)

/-- What the loop keeps: each slot's pending versions in heap order, the heap in heap order
holding the head of each, and under `CanTail` room in the filters. -/
structure Inv (merge : TMerge κ ω) : Prop where
  sorted : ∀ slot ∈ slots canTail canTailTombstones isTombstone filters merge,
    slot.Pairwise fun a b => TSortedKey.lt (sortKey a) (sortKey b) = true
  ordered : HeapOrdered TSortedKey.lt merge.minHeap.data
  holds : merge.minHeap.data.toList.Perm (heads sortKey (slots canTail canTailTombstones isTombstone filters merge))
  aligned : canTail = true → ∀ (i : Nat) cursor offset, merge.histCursors[i]? = some cursor →
    merge.histOffsets[i]? = some offset → Aligned (filters[i]?.getD []) cursor offset

/-- One round of the loop: the slot the heap hands out has a version pending, the first of
all pending; the round pushes it and keeps `Inv`. -/
theorem Inv.step {merge : TMerge κ ω} {k : TSortedKey κ} {pos : Nat} {heap : TMinHeap (TSortedKey κ) Nat}
    (inv : Inv canTail canTailTombstones isTombstone filters merge)
    (popped : merge.minHeap.pop TSortedKey.lt = some ((k, pos), heap)) :
    ∃ a merge', popSlot canTail canTailTombstones isTombstone filters merge heap pos = some merge' ∧
      Inv canTail canTailTombstones isTombstone filters merge' ∧
      (slots canTail canTailTombstones isTombstone filters merge).flatten.Perm
        (a :: (slots canTail canTailTombstones isTombstone filters merge').flatten) ∧
      (∀ b ∈ (slots canTail canTailTombstones isTombstone filters merge').flatten,
        TSortedKey.lt (sortKey a) (sortKey b) = true) ∧
      merge'.pushes = merge.pushes ++ [labelOne merge.lastWritten a] ∧
      merge'.lastWritten = nextWritten merge.lastWritten a := by
  have popPerm := TMinHeap.pop_perm popped
  have holds := popPerm.symm.trans inv.holds
  have first : ∀ e ∈ heap.data.toList, TSortedKey.lt k e.1 = true := fun e mem =>
    TMinHeap.pop_first inv.ordered popped e (popPerm.symm.subset (List.mem_cons_of_mem _ mem))
  obtain ⟨a, rest, found, rfl, least⟩ :=
    @first_of_heads _ _ sortKey (fun a b => TSortedKey.lt a b = true) _ _ _ _ _ _ inv.sorted holds first
  have erased : heap.data.toList.Perm
      ((heads sortKey (slots canTail canTailTombstones isTombstone filters merge)).erase (sortKey a, pos)) := by
    simpa using holds.erase (sortKey a, pos)
  have pending : pendingAt canTail canTailTombstones isTombstone filters merge pos = a :: rest := by
    rw [getElem?_slots] at found
    split at found
    · exact Option.some.inj found
    · cases found
  -- the round itself, from the cursor of the slot
  obtain ⟨merge', stepped, moves, pushes, written⟩ :
      ∃ merge', popSlot canTail canTailTombstones isTombstone filters merge heap pos = some merge' ∧
        MovesOn canTail canTailTombstones isTombstone filters merge merge' heap pos rest ∧
        merge'.pushes = merge.pushes ++ [labelOne merge.lastWritten a] ∧
        merge'.lastWritten = nextWritten merge.lastWritten a := by
    rcases pendingAt_cons canTail canTailTombstones isTombstone filters pending with
      ⟨even, item, rest', cursorAt, rfl, rfl⟩ | ⟨odd, item, rest', offset, cursorAt, offsetAt, rfl, rfl⟩
    · obtain ⟨merge', stepped, moves, pushes, written⟩ :=
        popCur_spec canTail canTailTombstones isTombstone filters heap even cursorAt
      exact ⟨merge', by rw [popSlot, if_pos even]; exact stepped, moves, pushes, written⟩
    · have room := fun tail => inv.aligned tail (pos / 2) _ _ cursorAt offsetAt
      obtain ⟨merge', stepped, moves, pushes, written⟩ :=
        popHist_spec canTail canTailTombstones isTombstone filters heap odd cursorAt offsetAt room
      exact ⟨merge', by rw [popSlot, if_neg (by omega)]; exact stepped, moves, pushes, written⟩
  have moved := slots_eq_set canTail canTailTombstones isTombstone filters moves.sameLength moves.pending
  have spent := flatten_set pos _ found
  refine ⟨a, merge', stepped, ⟨fun slot mem => ?_, moves.ordered (TMinHeap.pop_ordered inv.ordered popped), ?_,
    fun tail => moves.aligned tail (inv.aligned tail)⟩, by rw [moved]; exact spent, fun b mem => ?_, pushes, written⟩
  · rw [moved] at mem
    rcases List.mem_or_eq_of_mem_set mem with old | rfl
    · exact inv.sorted slot old
    · exact (inv.sorted _ (List.mem_of_getElem? found)).of_cons
  · rw [moved]
    exact moves.heapPerm.trans ((erased.append_right _).trans (heads_set sortKey found).symm)
  · rw [moved] at mem
    exact least b (spent.symm.subset (List.mem_cons_of_mem _ mem))

/-- A state whose heap is empty has nothing pending. -/
theorem Inv.flatten_eq_nil {merge : TMerge κ ω} (inv : Inv canTail canTailTombstones isTombstone filters merge)
    (empty : merge.minHeap.pop TSortedKey.lt = none) :
    (slots canTail canTailTombstones isTombstone filters merge).flatten = [] := by
  have noData : merge.minHeap.data.toList = [] := by
    unfold TMinHeap.pop at empty
    split_ifs at empty with held
    simpa using held
  apply flatten_eq_nil_of_heads sortKey
  have holds := inv.holds
  rw [noData] at holds
  exact holds.nil_eq.symm

/-- The whole loop, from a state that keeps `Inv`: it runs to the end, popping every pending
version once, in heap order, and pushes them as `label` does. -/
theorem Inv.mergeLoop_spec {merge : TMerge κ ω} (inv : Inv canTail canTailTombstones isTombstone filters merge) :
    ∃ merge' popped, mergeLoop canTail canTailTombstones isTombstone filters merge = some merge' ∧
      merge'.pushes = merge.pushes ++ label merge.lastWritten popped ∧
      popped.Pairwise (fun a b => TSortedKey.lt (sortKey a) (sortKey b) = true) ∧
      popped.Perm (slots canTail canTailTombstones isTombstone filters merge).flatten := by
  fun_induction mergeLoop canTail canTailTombstones isTombstone filters merge with
  | case1 merge empty =>
    refine ⟨merge, [], rfl, by simp [label], List.Pairwise.nil, ?_⟩
    rw [inv.flatten_eq_nil canTail canTailTombstones isTombstone filters empty]
  | case2 merge k pos heap popped failed =>
    obtain ⟨a, merge', stepped, -⟩ := inv.step canTail canTailTombstones isTombstone filters popped
    rw [failed] at stepped
    cases stepped
  | case3 merge k pos heap popped merge' stepped ih =>
    obtain ⟨a, merge'', stepped', inv', spent, least, pushes, written⟩ :=
      inv.step canTail canTailTombstones isTombstone filters popped
    rw [stepped] at stepped'
    cases stepped'
    obtain ⟨final, rest, loop, finalPushes, sorted, perm⟩ := ih inv'
    refine ⟨final, a :: rest, loop, ?_, ?_, ?_⟩
    · rw [finalPushes, pushes, written, List.append_assoc]
      rfl
    · exact List.Pairwise.cons (fun b mem => least b (perm.subset mem)) sorted
    · exact (perm.cons a).trans spent.symm

end Run

section Init

variable [LinearOrder κ] (canTail canTailTombstones : Bool) (isTombstone : ω → Bool) (filters : List (List Bool))

open TMinHeap (HeapOrdered)

/-- The pending versions of the slots the constructor fills, from source `i` on: each source's
kept current keys, then its kept history keys. -/
def initSlots : Nat → List (TIndexFile κ ω) → List (List (Tagged κ ω))
  | _, [] => []
  | i, file :: files =>
    (curKept canTail canTailTombstones isTombstone file.curKeys).map TKeyItem.tagged ::
      (histKept canTail (filters[i]?.getD []) file.histKeys 0).map THistoryKeyItem.tagged ::
        initSlots (i + 1) files

/-- What holds of each source from index `i` on holds of the sources after the first from
`i + 1` on. -/
theorem forall_getElem?_cons {α : Type} {P : Nat → α → Prop} {i : Nat} {a : α} {l : List α}
    (each : ∀ (j : Nat) x, (a :: l)[j]? = some x → P (i + j) x) :
    ∀ (j : Nat) x, l[j]? = some x → P (i + 1 + j) x := by
  intro j x found
  rw [Nat.add_assoc, Nat.add_comm 1 j]
  exact each (j + 1) x (by rwa [List.getElem?_cons_succ])

theorem seekCur_fst (pos : Nat) (heap : TMinHeap (TSortedKey κ) Nat) (items : List (TKeyItem κ ω)) :
    (seekCur canTail canTailTombstones isTombstone pos heap items).1 = skipCur canTail canTailTombstones isTombstone items := by
  unfold seekCur
  split <;> rename_i stop <;> rw [stop]

/-- The cursors the constructor opens from source `i` on: each current cursor stops at its
first kept key, each history cursor has its kept keys pending and room in its filter, and the
heap gains the head of every slot. -/
theorem initCursors_spec :
    ∀ (i : Nat) (files : List (TIndexFile κ ω)) (heap : TMinHeap (TSortedKey κ) Nat),
      (canTail = true → ∀ (j : Nat) file, files[j]? = some file →
        file.histKeys.length ≤ (filters[i + j]?.getD []).length) →
      ∃ curs hists offsets heap',
        initCursors canTail canTailTombstones isTombstone filters (2 * i) files heap = some (curs, hists, offsets, heap') ∧
        curs.length = files.length ∧ hists.length = files.length ∧
        (∀ (j : Nat) file, files[j]? = some file → ∃ hist offset,
          curs[j]? = some (skipCur canTail canTailTombstones isTombstone file.curKeys) ∧
          hists[j]? = some hist ∧ offsets[j]? = some offset ∧
          histPending canTail (filters[i + j]?.getD []) hist offset =
            (histKept canTail (filters[i + j]?.getD []) file.histKeys 0).map THistoryKeyItem.tagged ∧
          (canTail = true → Aligned (filters[i + j]?.getD []) hist offset)) ∧
        heap'.data.toList.Perm (heap.data.toList ++
          headsFrom sortKey (2 * i) (initSlots canTail canTailTombstones isTombstone filters i files)) ∧
        (HeapOrdered TSortedKey.lt heap.data → HeapOrdered TSortedKey.lt heap'.data)
  | i, [], heap, _ => ⟨[], [], [], heap, rfl, rfl, rfl, by simp, by simp [initSlots, headsFrom], id⟩
  | i, file :: files, heap, room => by
    obtain ⟨curPending', curPerm, curOrdered⟩ := seekCur_spec canTail canTailTombstones isTombstone (2 * i) heap file.curKeys
    have histRoom : canTail = true → file.histKeys.length + 0 ≤ (filters[2 * i / 2]?.getD []).length := by
      intro tail
      simpa using room tail 0 file rfl
    obtain ⟨hist, offset, heap₂, histSought, histPending', aligned, histPerm, histOrdered⟩ :=
      seekHist_spec canTail (2 * i + 1) (seekCur canTail canTailTombstones isTombstone (2 * i) heap file.curKeys).2 histRoom
    have restRoom : canTail = true → ∀ (j : Nat) file', files[j]? = some file' →
        file'.histKeys.length ≤ (filters[i + 1 + j]?.getD []).length := fun tail =>
      forall_getElem?_cons (P := fun k (file' : TIndexFile κ ω) => file'.histKeys.length ≤ (filters[k]?.getD []).length)
        (room tail)
    obtain ⟨curs, hists, offsets, heap', rest, curLength, histLength, each, restPerm, restOrdered⟩ :=
      initCursors_spec (i + 1) files heap₂ restRoom
    have half : 2 * i / 2 = i := by omega
    refine ⟨(seekCur canTail canTailTombstones isTombstone (2 * i) heap file.curKeys).1 :: curs, hist :: hists,
      offset :: offsets, heap', ?_, by simp [curLength], by simp [histLength], ?_, ?_,
      fun ordered => restOrdered (histOrdered (curOrdered ordered))⟩
    · rw [initCursors]
      simp only [histSought, Option.bind_eq_bind, Option.bind_some, Option.pure_def]
      rw [show 2 * i + 2 = 2 * (i + 1) by omega, rest]
      rfl
    · intro j file' found
      cases j with
      | zero =>
        simp only [List.getElem?_cons_zero, Option.some.injEq] at found
        subst found
        rw [half] at histPending' aligned
        exact ⟨hist, offset, by rw [seekCur_fst]; rfl, rfl, rfl, by simpa using histPending',
          by simpa using aligned⟩
      | succ j =>
        obtain ⟨hist', offset', curAt, histAt, offsetAt, pending', aligned'⟩ := each j file' (by simpa using found)
        rw [show i + (j + 1) = i + 1 + j by omega]
        exact ⟨hist', offset', by simpa using curAt, by simpa using histAt, by simpa using offsetAt, pending', aligned'⟩
    · rw [half] at histPending' histPerm
      rw [initSlots, headsFrom_cons, headsFrom_cons, ← curPending', ← histPending']
      refine restPerm.trans ?_
      refine (List.Perm.append_right _ (histPerm.trans (List.Perm.append_right _ curPerm))).trans ?_
      simp only [List.append_assoc, show 2 * i + 1 + 1 = 2 * (i + 1) by omega]
      rfl

omit [LinearOrder κ] in
theorem getElem?_initSlots :
    ∀ (i : Nat) (files : List (TIndexFile κ ω)) (q : Nat),
      (initSlots canTail canTailTombstones isTombstone filters i files)[q]? = files[q / 2]?.map fun file =>
        if q % 2 = 0 then (curKept canTail canTailTombstones isTombstone file.curKeys).map TKeyItem.tagged
        else (histKept canTail (filters[i + q / 2]?.getD []) file.histKeys 0).map THistoryKeyItem.tagged
  | _, [], _ => by simp [initSlots]
  | i, file :: files, 0 => by simp [initSlots]
  | i, file :: files, 1 => by simp [initSlots]
  | i, file :: files, q + 2 => by
    rw [initSlots, List.getElem?_cons_succ, List.getElem?_cons_succ, getElem?_initSlots (i + 1) files q,
      show (q + 2) / 2 = q / 2 + 1 by omega, List.getElem?_cons_succ, show (q + 2) % 2 = q % 2 by omega,
      show i + (q / 2 + 1) = i + 1 + q / 2 by omega]

omit [LinearOrder κ] in
/-- The pending versions of the slots, as the constructor leaves them, all told: each
source's kept current keys and kept history keys, under the filter `filterOf` gives it. -/
theorem flatten_initSlots (filterOf : TIndexFile κ ω → List Bool) :
    ∀ (i : Nat) (files : List (TIndexFile κ ω)),
      (∀ (j : Nat) file, files[j]? = some file → filters[i + j]?.getD [] = filterOf file) →
      (initSlots canTail canTailTombstones isTombstone filters i files).flatten =
        files.flatMap fun file => (curKept canTail canTailTombstones isTombstone file.curKeys).map TKeyItem.tagged ++
          (histKept canTail (filterOf file) file.histKeys 0).map THistoryKeyItem.tagged
  | _, [], _ => rfl
  | i, file :: files, filtered => by
    have first : filters[i]?.getD [] = filterOf file := by simpa using filtered 0 file rfl
    have rest := flatten_initSlots filterOf (i + 1) files
      (forall_getElem?_cons (P := fun k (file' : TIndexFile κ ω) => filters[k]?.getD [] = filterOf file') filtered)
    simp [initSlots, first, rest]

omit [LinearOrder κ] in
/-- `curKept` keeps some of a cursor's keys, in order. -/
theorem curKept_sublist (items : List (TKeyItem κ ω)) :
    (curKept canTail canTailTombstones isTombstone items).Sublist items := by
  unfold curKept
  split
  · exact List.filter_sublist
  · exact List.Sublist.refl _

omit [LinearOrder κ] in
theorem keptHist_sublist (filter : List Bool) :
    ∀ (items : List (THistoryKeyItem κ ω)) (offset : Nat), (keptHist filter items offset).Sublist items
  | [], _ => List.Sublist.slnil
  | item :: items, offset => by
    unfold keptHist
    split
    · exact (keptHist_sublist filter items (offset + 1)).cons_cons item
    · exact (keptHist_sublist filter items (offset + 1)).cons item

omit [LinearOrder κ] in
theorem histKept_sublist (filter : List Bool) (items : List (THistoryKeyItem κ ω)) (offset : Nat) :
    (histKept canTail filter items offset).Sublist items := by
  unfold histKept
  split
  · exact keptHist_sublist filter items offset
  · exact List.Sublist.refl _

/-- The state the constructor leaves keeps `Inv`, when each source's cursors walk their keys in
heap order and, under `CanTail`, each filter has room for its source's history keys. -/
theorem init_inv {files : List (TIndexFile κ ω)} {curs : List (List (TKeyItem κ ω))}
    {hists : List (List (THistoryKeyItem κ ω))} {offsets : List Nat} {heap : TMinHeap (TSortedKey κ) Nat}
    (curSorted : ∀ file ∈ files, file.curKeys.Pairwise fun a b => TSortedKey.lt a.sortedKey b.sortedKey = true)
    (histSorted : ∀ file ∈ files, file.histKeys.Pairwise fun a b => TSortedKey.lt a.sortedKey b.sortedKey = true)
    (room : canTail = true → ∀ (j : Nat) file, files[j]? = some file →
      file.histKeys.length ≤ (filters[0 + j]?.getD []).length)
    (opened : initCursors canTail canTailTombstones isTombstone filters (2 * 0) files TMinHeap.empty =
      some (curs, hists, offsets, heap)) :
    Inv canTail canTailTombstones isTombstone filters ⟨curs, hists, offsets, heap, none, []⟩ ∧
      slots canTail canTailTombstones isTombstone filters ⟨curs, hists, offsets, heap, none, []⟩ =
        initSlots canTail canTailTombstones isTombstone filters 0 files := by
  obtain ⟨curs', hists', offsets', heap', opened', curLength, histLength, each, heapPerm, ordered⟩ :=
    initCursors_spec canTail canTailTombstones isTombstone filters 0 files TMinHeap.empty room
  rw [opened] at opened'
  simp only [Option.some.injEq, Prod.mk.injEq] at opened'
  obtain ⟨rfl, rfl, rfl, rfl⟩ := opened'
  have sameSlots : slots canTail canTailTombstones isTombstone filters ⟨curs, hists, offsets, heap, none, []⟩ =
      initSlots canTail canTailTombstones isTombstone filters 0 files := by
    apply List.ext_getElem?
    intro q
    rw [getElem?_slots, getElem?_initSlots]
    cases found : files[q / 2]? with
    | none =>
      have outside : files.length ≤ q / 2 := List.getElem?_eq_none_iff.mp found
      rw [if_neg (by simp only at curLength ⊢; omega)]
      rfl
    | some file =>
      have inside : q / 2 < files.length := (List.getElem?_eq_some_iff.mp found).1
      obtain ⟨hist, offset, curAt, histAt, offsetAt, pending, -⟩ := each (q / 2) file found
      rw [if_pos (by simp only at curLength ⊢; omega)]
      simp only [Option.map_some, Option.some.injEq, pendingAt, curAt, histAt, offsetAt, Nat.zero_add] at pending ⊢
      split
      · rw [Option.getD_some, curPending_skipCur]
      · exact pending
  refine ⟨⟨?_, ?_, ?_, ?_⟩, sameSlots⟩
  · intro slot mem
    rw [sameSlots] at mem
    obtain ⟨q, inside, rfl⟩ := List.getElem_of_mem mem
    have found := List.getElem?_eq_getElem inside
    rw [getElem?_initSlots] at found
    obtain ⟨file, fileAt, slotIs⟩ := Option.map_eq_some_iff.mp found
    have fileMem := List.mem_of_getElem? fileAt
    rw [← slotIs]
    split
    · exact List.pairwise_map.mpr ((curSorted file fileMem).sublist (curKept_sublist _ _ _ _))
    · exact List.pairwise_map.mpr ((histSorted file fileMem).sublist (histKept_sublist _ _ _ _))
  · exact ordered (fun j pos _ => by simp [TMinHeap.empty] at *)
  · simpa [sameSlots, heads, TMinHeap.empty] using heapPerm
  · intro tail i cursor offset histAt offsetAt
    have inside : i < files.length := by
      rw [← histLength]
      exact (List.getElem?_eq_some_iff.mp histAt).1
    obtain ⟨file, fileAt⟩ : ∃ file, files[i]? = some file := ⟨_, List.getElem?_eq_getElem inside⟩
    obtain ⟨hist, offset', -, histAt', offsetAt', -, aligned⟩ := each i file fileAt
    rw [histAt] at histAt'
    rw [offsetAt] at offsetAt'
    cases histAt'
    cases offsetAt'
    simpa using aligned tail

end Init

section Merge

variable [LinearOrder κ] (canTail canTailTombstones : Bool) (isTombstone : ω → Bool)

/-- The key merge of one index pops every version its cursors stop at once, in heap order, and
pushes them as `label` does, when each source's cursors walk their keys in heap order and,
under `CanTail`, each filter has room for its source's history keys. -/
theorem mergeKeys_spec (filters : List (List Bool)) {files : List (TIndexFile κ ω)}
    (curSorted : ∀ file ∈ files, file.curKeys.Pairwise fun a b => TSortedKey.lt a.sortedKey b.sortedKey = true)
    (histSorted : ∀ file ∈ files, file.histKeys.Pairwise fun a b => TSortedKey.lt a.sortedKey b.sortedKey = true)
    (room : canTail = true → ∀ (j : Nat) file, files[j]? = some file →
      file.histKeys.length ≤ (filters[j]?.getD []).length) :
    ∃ popped, mergeKeys canTail canTailTombstones isTombstone filters files = some (label none popped) ∧
      popped.Pairwise (fun a b => TSortedKey.lt (sortKey a) (sortKey b) = true) ∧
      popped.Perm (initSlots canTail canTailTombstones isTombstone filters 0 files).flatten := by
  have room' : canTail = true → ∀ (j : Nat) file, files[j]? = some file →
      file.histKeys.length ≤ (filters[0 + j]?.getD []).length := by
    simpa using room
  obtain ⟨curs, hists, offsets, heap, opened, -⟩ :=
    initCursors_spec canTail canTailTombstones isTombstone filters 0 files TMinHeap.empty room'
  obtain ⟨inv, sameSlots⟩ := init_inv canTail canTailTombstones isTombstone filters curSorted histSorted room' opened
  obtain ⟨merge', popped, loop, pushes, sorted, perm⟩ := inv.mergeLoop_spec
  refine ⟨popped, ?_, sorted, sameSlots ▸ perm⟩
  rw [Nat.mul_zero] at opened
  simp only [mergeKeys, opened, loop, Option.bind_eq_bind, Option.bind_some, Option.pure_def, pushes,
    List.nil_append]

end Merge

end Orly.Indy.Disk

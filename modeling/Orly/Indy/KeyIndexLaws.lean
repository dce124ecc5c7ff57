import Mathlib
import Orly.Indy.KeyIndex
import Orly.Indy.MergeDataFileLaws

/-! What the key index writers leave, read back.

The pushes of a writer fall into segments (`segmentsOf`): each current key with the history
keys pushed after it up to the next, and before the first current key any history keys pushed
ahead of it. Whatever the pushes, the key index reads back as one record per segment and the
history keys in push order (`readKeyIndex_writeKeys`): each record counts its segment's history
keys and records where they start in the history section, the first also counting the history
keys pushed ahead of it. -/
namespace Orly.Indy.Disk

variable {ι κ ω : Type}

section Stream

@[simp] theorem fieldsSize_nil : fieldsSize ([] : List (TField κ ω)) = 0 := rfl

@[simp] theorem fieldsSize_cons (field : TField κ ω) (fields : List (TField κ ω)) :
    fieldsSize (field :: fields) = field.byteSize + fieldsSize fields := by
  simp [fieldsSize]

@[simp] theorem fieldsSize_append (pre rest : List (TField κ ω)) :
    fieldsSize (pre ++ rest) = fieldsSize pre + fieldsSize rest := by
  simp [fieldsSize]

theorem byteSize_pos (field : TField κ ω) : 0 < field.byteSize := by
  cases field <;> simp [TField.byteSize, wordSize, coreSize]

/-- Reading from the end of a prefix gives what follows it. -/
theorem fieldsFrom_append (pre rest : List (TField κ ω)) : fieldsFrom (pre ++ rest) (fieldsSize pre) = some rest := by
  induction pre with
  | nil => cases rest <;> rfl
  | cons field pre ih =>
    have positive := byteSize_pos field
    obtain ⟨n, spans⟩ : ∃ n, field.byteSize + fieldsSize pre = n + 1 := ⟨_, (Nat.succ_pred_eq_of_pos (by omega)).symm⟩
    rw [List.cons_append, fieldsSize_cons, spans, fieldsFrom, if_pos (by omega),
      show n + 1 - field.byteSize = fieldsSize pre by omega, ih]

theorem TDataOutStream.readAt_append {stream : TDataOutStream κ ω} {pre rest : List (TField κ ω)}
    (holds : stream.fields = pre ++ rest) : stream.readAt (stream.start + fieldsSize pre) = some rest := by
  rw [TDataOutStream.readAt, if_pos (Nat.le_add_right _ _), Nat.add_sub_cancel_left, holds, fieldsFrom_append]

@[simp] theorem TDataOutStream.write_fields (stream : TDataOutStream κ ω) (more : List (TField κ ω)) :
    (stream.write more).fields = stream.fields ++ more := rfl

@[simp] theorem TDataOutStream.write_start (stream : TDataOutStream κ ω) (more : List (TField κ ω)) :
    (stream.write more).start = stream.start := rfl

end Stream

section Records

/-- A current-key record as the key stream holds it once its history count and offset are
written. -/
def recordFields (record : TKeyRecord κ ω) : List (TField κ ω) :=
  curFields record.seqNum record.key record.value ++ [.word record.numHistKeys, .word record.offsetOfHistKeys]

@[simp] theorem fieldsSize_recordFields (record : TKeyRecord κ ω) : fieldsSize (recordFields record) = keyEntrySize := rfl

@[simp] theorem fieldsSize_histFields (item : THistoryKeyItem κ ω) : fieldsSize (histFields item) = keyHistorySize := rfl

theorem fieldsSize_flatMap {α : Type} (layout : α → List (TField κ ω)) {size : Nat}
    (spans : ∀ x, fieldsSize (layout x) = size) (items : List α) :
    fieldsSize (items.flatMap layout) = items.length * size := by
  induction items with
  | nil => simp
  | cons x items ih => rw [List.flatMap_cons, fieldsSize_append, spans, ih, List.length_cons, Nat.succ_mul, Nat.add_comm]

/-- A cursor reads back, one after another, records laid out as it reads one. -/
theorem readRecords_flatMap {α : Type} (read : List (TField κ ω) → Option (α × List (TField κ ω)))
    (layout : α → List (TField κ ω)) (reads : ∀ x rest, read (layout x ++ rest) = some (x, rest)) :
    ∀ (items : List α) (rest : List (TField κ ω)), readRecords read items.length (items.flatMap layout ++ rest) = some items
  | [], _ => rfl
  | x :: items, rest => by
    rw [List.length_cons, List.flatMap_cons, List.append_assoc, readRecords, reads]
    simp [readRecords_flatMap read layout reads items rest]

theorem readKeyRecord_recordFields (record : TKeyRecord κ ω) (rest : List (TField κ ω)) :
    readKeyRecord (recordFields record ++ rest) = some (record, rest) := rfl

theorem readHistoryRecord_histFields (item : THistoryKeyItem κ ω) (rest : List (TField κ ω)) :
    readHistoryRecord (histFields item ++ rest) = some (item, rest) := rfl

end Records

section Writer

namespace TKeyIndexWriter

/-- A push, as the writer takes it. -/
def push (writer : TKeyIndexWriter κ ω) : TPush κ ω → TKeyIndexWriter κ ω
  | .curKey seqNum key value => (writer.pushCur seqNum key value).1
  | .histKey seqNum key value => (writer.pushHist seqNum key value).1

@[simp] theorem push_start (writer : TKeyIndexWriter κ ω) (pushed : TPush κ ω) :
    (writer.push pushed).keyStream.start = writer.keyStream.start := by
  cases pushed with
  | curKey => simp only [push, pushCur, closeLast]; split <;> rfl
  | histKey => rfl

theorem foldl_push_start (pushes : List (TPush κ ω)) (writer : TKeyIndexWriter κ ω) :
    (pushes.foldl push writer).keyStream.start = writer.keyStream.start := by
  induction pushes generalizing writer with
  | nil => rfl
  | cons pushed pushes ih => rw [List.foldl_cons, ih, push_start]

end TKeyIndexWriter

/-- A current key pushed, with the history keys pushed after it up to the next current key. -/
structure TSegment (κ ω : Type) where
  seqNum : Nat
  key : κ
  value : ω
  hists : List (THistoryKeyItem κ ω)
  deriving DecidableEq, Repr

/-- The pushes as the key index groups them: the history keys pushed ahead of the first current
key, and each current key with the history keys after it. -/
def segmentsOf : List (TPush κ ω) → List (THistoryKeyItem κ ω) × List (TSegment κ ω)
  | [] => ([], [])
  | .histKey seqNum key value :: pushes => (⟨key, value, seqNum⟩ :: (segmentsOf pushes).1, (segmentsOf pushes).2)
  | .curKey seqNum key value :: pushes => ([], ⟨seqNum, key, value, (segmentsOf pushes).1⟩ :: (segmentsOf pushes).2)

/-- The records the current keys of a run of segments read back as: the first counting `pending`
history keys pushed ahead of it, and each recording where its history keys start in the history
section, from `base` on. -/
def segmentRecords (pending base : Nat) : List (TSegment κ ω) → List (TKeyRecord κ ω)
  | [] => []
  | seg :: segs => ⟨seg.seqNum, seg.key, seg.value, pending + seg.hists.length, base⟩ ::
      segmentRecords 0 (base + (pending + seg.hists.length) * keyHistorySize) segs

@[simp] theorem length_segmentRecords (pending base : Nat) (segs : List (TSegment κ ω)) :
    (segmentRecords pending base segs).length = segs.length := by
  induction segs generalizing pending base with
  | nil => rfl
  | cons seg segs ih => simp [segmentRecords, ih]

open TKeyIndexWriter

/-- From a writer that has written a current key, the pushes leave the stream, once the last
history count and offset are written, holding that key's count and offset and then a record
per segment. -/
theorem closeLast_foldl_push_of_written :
    ∀ (pushes : List (TPush κ ω)) (writer : TKeyIndexWriter κ ω), writer.written = true →
      (pushes.foldl TKeyIndexWriter.push writer).closeLast.fields = writer.keyStream.fields ++
        [.word (writer.numHistoryElem + (segmentsOf pushes).1.length), .word writer.byteOffsetOfCurHistory] ++
        (segmentRecords 0 (writer.byteOffsetOfCurHistory +
          (writer.numHistoryElem + (segmentsOf pushes).1.length) * keyHistorySize) (segmentsOf pushes).2).flatMap recordFields
  | [], writer, written => by simp [closeLast, written, segmentsOf, segmentRecords]
  | .histKey seqNum key value :: pushes, writer, written => by
    -- a history key only counts: the trailer of the open current key grows by one
    have ih := closeLast_foldl_push_of_written pushes (writer.push (.histKey seqNum key value)) written
    rw [List.foldl_cons, ih]
    simp only [TKeyIndexWriter.push, pushHist, segmentsOf, List.length_cons]
    rw [show writer.numHistoryElem + 1 + (segmentsOf pushes).1.length =
      writer.numHistoryElem + ((segmentsOf pushes).1.length + 1) by omega]
  | .curKey seqNum key value :: pushes, writer, written => by
    -- a current key closes the open one and opens its own record
    have ih := closeLast_foldl_push_of_written pushes (writer.push (.curKey seqNum key value)) rfl
    rw [List.foldl_cons, ih]
    simp [TKeyIndexWriter.push, pushCur, closeLast, written, segmentsOf, segmentRecords, recordFields, curFields]

/-- From a writer that has not written a current key, the pushes leave the stream holding a
record per segment, the first counting the history keys pushed ahead of it. -/
theorem closeLast_foldl_push_of_unwritten :
    ∀ (pushes : List (TPush κ ω)) (writer : TKeyIndexWriter κ ω), writer.written = false →
      (pushes.foldl TKeyIndexWriter.push writer).closeLast.fields = writer.keyStream.fields ++
        (segmentRecords (writer.numHistoryElem + (segmentsOf pushes).1.length) writer.byteOffsetOfCurHistory
          (segmentsOf pushes).2).flatMap recordFields
  | [], writer, unwritten => by simp [closeLast, unwritten, segmentsOf, segmentRecords]
  | .histKey seqNum key value :: pushes, writer, unwritten => by
    have ih := closeLast_foldl_push_of_unwritten pushes (writer.push (.histKey seqNum key value)) unwritten
    rw [List.foldl_cons, ih]
    simp only [TKeyIndexWriter.push, pushHist, segmentsOf, List.length_cons]
    rw [show writer.numHistoryElem + 1 + (segmentsOf pushes).1.length =
      writer.numHistoryElem + ((segmentsOf pushes).1.length + 1) by omega]
  | .curKey seqNum key value :: pushes, writer, unwritten => by
    -- the first current key writes no trailer and keeps the count of what came ahead of it
    have written := closeLast_foldl_push_of_written pushes (writer.push (.curKey seqNum key value)) rfl
    rw [List.foldl_cons, written]
    simp [TKeyIndexWriter.push, pushCur, closeLast, unwritten, segmentsOf, segmentRecords, recordFields, curFields]

theorem foldl_push_numCurKeys :
    ∀ (pushes : List (TPush κ ω)) (writer : TKeyIndexWriter κ ω),
      (pushes.foldl TKeyIndexWriter.push writer).numCurKeys = writer.numCurKeys + (segmentsOf pushes).2.length
  | [], _ => rfl
  | .histKey seqNum key value :: pushes, writer => by
    rw [List.foldl_cons, foldl_push_numCurKeys pushes]
    rfl
  | .curKey seqNum key value :: pushes, writer => by
    rw [List.foldl_cons, foldl_push_numCurKeys pushes]
    simp only [TKeyIndexWriter.push, pushCur, segmentsOf, List.length_cons]
    omega

theorem foldl_push_histKeys :
    ∀ (pushes : List (TPush κ ω)) (writer : TKeyIndexWriter κ ω),
      (pushes.foldl TKeyIndexWriter.push writer).histKeys =
        writer.histKeys ++ (segmentsOf pushes).1 ++ (segmentsOf pushes).2.flatMap TSegment.hists
  | [], _ => by simp [segmentsOf]
  | .histKey seqNum key value :: pushes, writer => by
    rw [List.foldl_cons, foldl_push_histKeys pushes]
    simp [TKeyIndexWriter.push, pushHist, segmentsOf]
  | .curKey seqNum key value :: pushes, writer => by
    rw [List.foldl_cons, foldl_push_histKeys pushes]
    simp [TKeyIndexWriter.push, pushCur, segmentsOf]

/-- `NumHistKeys` counts the history keys waiting for `FlushHistory`. -/
theorem foldl_push_numHistKeys :
    ∀ (pushes : List (TPush κ ω)) (writer : TKeyIndexWriter κ ω), writer.numHistKeys = writer.histKeys.length →
      (pushes.foldl TKeyIndexWriter.push writer).numHistKeys = (pushes.foldl TKeyIndexWriter.push writer).histKeys.length
  | [], _, counts => counts
  | pushed :: pushes, writer, counts => by
    apply foldl_push_numHistKeys pushes
    cases pushed <;> simp [TKeyIndexWriter.push, pushCur, pushHist, counts]

/-- The key index a writer leaves for a run of pushes: `PrepKeyRange`, the pushes, then
`FlushHistory`. -/
def writeKeys (byteOffsetOfKeyIndex : Nat) (pushes : List (TPush κ ω)) : TKeyIndexWriter κ ω :=
  (pushes.foldl TKeyIndexWriter.push (.prep byteOffsetOfKeyIndex)).flushHistory

theorem closeLast_start (writer : TKeyIndexWriter κ ω) : writer.closeLast.start = writer.keyStream.start := by
  unfold closeLast
  split <;> rfl

/-- The stream `writeKeys` leaves: a record per segment, then the history keys. -/
theorem writeKeys_fields (start : Nat) (pushes : List (TPush κ ω)) :
    (writeKeys start pushes).keyStream.fields =
      (segmentRecords (segmentsOf pushes).1.length 0 (segmentsOf pushes).2).flatMap recordFields ++
        ((segmentsOf pushes).1 ++ (segmentsOf pushes).2.flatMap TSegment.hists).flatMap histFields := by
  rw [writeKeys, flushHistory, TDataOutStream.write_fields, closeLast_foldl_push_of_unwritten pushes (.prep start) rfl,
    foldl_push_histKeys]
  simp [prep]

theorem writeKeys_start (start : Nat) (pushes : List (TPush κ ω)) : (writeKeys start pushes).keyStream.start = start := by
  rw [writeKeys, flushHistory, TDataOutStream.write_start, closeLast_start, foldl_push_start]
  rfl

theorem writeKeys_indexMeta (start : Nat) (pushes : List (TPush κ ω)) :
    (writeKeys start pushes).indexMeta = ⟨(segmentsOf pushes).2.length,
      ((segmentsOf pushes).1 ++ (segmentsOf pushes).2.flatMap TSegment.hists).length, start⟩ := by
  have counts := foldl_push_numHistKeys pushes (.prep start : TKeyIndexWriter κ ω) rfl
  rw [foldl_push_histKeys] at counts
  rw [indexMeta, writeKeys_start]
  simp only [writeKeys, flushHistory, foldl_push_numCurKeys, counts]
  simp [prep]

/-- The key index round trip: whatever the pushes, the cursors read back one record per
segment, each with the count of its segment's history keys (the first also counting those
pushed ahead of it) and where they start in the history section, and the history keys in push
order. -/
theorem readKeyIndex_writeKeys (start : Nat) (pushes : List (TPush κ ω)) :
    readKeyIndex (writeKeys start pushes).indexMeta (writeKeys start pushes).keyStream =
      some (segmentRecords (segmentsOf pushes).1.length 0 (segmentsOf pushes).2,
        (segmentsOf pushes).1 ++ (segmentsOf pushes).2.flatMap TSegment.hists) := by
  have indexMeta := writeKeys_indexMeta start pushes
  have fields := writeKeys_fields start pushes
  have begins := writeKeys_start start pushes
  rw [← length_segmentRecords (segmentsOf pushes).1.length 0] at indexMeta
  generalize segmentRecords (segmentsOf pushes).1.length 0 (segmentsOf pushes).2 = records at indexMeta fields ⊢
  generalize (segmentsOf pushes).1 ++ (segmentsOf pushes).2.flatMap TSegment.hists = hists at indexMeta fields ⊢
  have readCur : keyCursor ⟨records.length, hists.length, start⟩ (writeKeys start pushes).keyStream 0 = some records := by
    unfold keyCursor
    split
    · have atStart := @TDataOutStream.readAt_append κ ω _ [] _ fields
      rw [begins, fieldsSize_nil] at atStart
      rw [Nat.zero_mul, atStart, Option.bind_some, Nat.sub_zero]
      exact readRecords_flatMap readKeyRecord recordFields readKeyRecord_recordFields records _
    · rename_i empty
      simp only at empty
      rw [List.eq_nil_of_length_eq_zero (by omega : records.length = 0)]
  have readHist : historyKeyCursor ⟨records.length, hists.length, start⟩ (writeKeys start pushes).keyStream 0 =
      some hists := by
    unfold historyKeyCursor
    split
    · have afterRecords := TDataOutStream.readAt_append fields
      rw [begins, fieldsSize_flatMap recordFields fieldsSize_recordFields] at afterRecords
      rw [Nat.zero_mul, Nat.add_zero, afterRecords, Option.bind_some, Nat.sub_zero]
      simpa using readRecords_flatMap readHistoryRecord histFields readHistoryRecord_histFields hists []
    · rename_i empty
      simp only at empty
      rw [List.eq_nil_of_length_eq_zero (by omega : hists.length = 0)]
  rw [indexMeta, readKeyIndex, readCur, readHist]
  rfl

end Writer

section MergeWriter

open TKeyIndexWriter

theorem keyEntrySize_eq : keyEntrySize = 72 := rfl

theorem keyHistorySize_eq : keyHistorySize = 56 := rfl

theorem wordSize_eq : wordSize = 8 := rfl

@[simp] theorem fieldsSize_curFields (seqNum : Nat) (key : κ) (value : ω) :
    fieldsSize (curFields seqNum key value) = keyHistorySize := rfl

@[simp] theorem TDataOutStream.getOffset_write (stream : TDataOutStream κ ω) (more : List (TField κ ω)) :
    (stream.write more).getOffset = stream.getOffset + fieldsSize more := by
  simp [TDataOutStream.getOffset, Nat.add_assoc]

@[simp] theorem pushCur_keyStream (writer : TKeyIndexWriter κ ω) (seqNum : Nat) (key : κ) (value : ω) :
    (writer.pushCur seqNum key value).1.keyStream = writer.closeLast.write (curFields seqNum key value) := rfl

@[simp] theorem pushCur_numCurKeys (writer : TKeyIndexWriter κ ω) (seqNum : Nat) (key : κ) (value : ω) :
    (writer.pushCur seqNum key value).1.numCurKeys = writer.numCurKeys + 1 := rfl

@[simp] theorem pushCur_written (writer : TKeyIndexWriter κ ω) (seqNum : Nat) (key : κ) (value : ω) :
    (writer.pushCur seqNum key value).1.written = true := rfl

/-- The bytes a writer has put in its key stream: every current key's record, all but the
open one's history count and offset. -/
def Fills (writer : TKeyIndexWriter κ ω) : Prop :=
  writer.keyStream.getOffset + (if writer.written then wordSize + wordSize else 0) =
    writer.keyStream.start + writer.numCurKeys * keyEntrySize

theorem closeLast_getOffset {writer : TKeyIndexWriter κ ω} (fills : Fills writer) :
    writer.closeLast.getOffset = writer.keyStream.start + writer.numCurKeys * keyEntrySize := by
  rw [← fills, closeLast]
  split <;> simp [TField.byteSize]

theorem Fills.push {writer : TKeyIndexWriter κ ω} (fills : Fills writer) (pushed : TPush κ ω) :
    Fills (writer.push pushed) := by
  cases pushed with
  | histKey => exact fills
  | curKey seqNum key value =>
    have closed := closeLast_getOffset fills
    simp only [Fills, TKeyIndexWriter.push, pushCur_keyStream, pushCur_numCurKeys, pushCur_written, if_true,
      TDataOutStream.getOffset_write, TDataOutStream.write_start, closeLast_start, fieldsSize_curFields, closed]
    rw [keyEntrySize_eq, keyHistorySize_eq, wordSize_eq]
    omega

/-- A history key ahead of any current key, then two keys, the first with a history key. -/
def samplePushes : List (TPush Nat Nat) := [.histKey 9 0 0, .curKey 7 1 11, .histKey 5 1 12, .curKey 8 3 0]

end MergeWriter

section Pointers

open TKeyIndexWriter

/-- Where a pushed key went, as a writer can still find it: a current key's fields at its offset
in the key stream, a history key at its place among the history keys waiting for
`FlushHistory`. -/
def Placed (writer : TKeyIndexWriter κ ω) : Bool → Nat → κ → ω → Nat → Prop
  | true, seqNum, key, value, offset => ∃ pre rest, writer.keyStream.fields = pre ++ curFields seqNum key value ++ rest ∧
      offset = writer.keyStream.start + fieldsSize pre
  | false, seqNum, key, value, offset => ∃ pre rest, writer.histKeys = pre ++ ⟨key, value, seqNum⟩ :: rest ∧
      offset = pre.length * keyHistorySize

/-- The offsets a writer hands out for history keys count the history keys before them. -/
def Tracks (writer : TKeyIndexWriter κ ω) : Prop :=
  writer.byteOffsetOfCurHistory + writer.numHistoryElem * keyHistorySize = writer.histKeys.length * keyHistorySize

theorem tracks_prep (start : Nat) : Tracks (.prep start : TKeyIndexWriter κ ω) := rfl

theorem Tracks.pushCur {writer : TKeyIndexWriter κ ω} (tracks : Tracks writer) (seqNum : Nat) (key : κ) (value : ω) :
    Tracks (writer.pushCur seqNum key value).1 := by
  unfold Tracks at tracks ⊢
  simp only [TKeyIndexWriter.pushCur]
  split <;> simp [tracks]

theorem Tracks.pushHist {writer : TKeyIndexWriter κ ω} (tracks : Tracks writer) (seqNum : Nat) (key : κ) (value : ω) :
    Tracks (writer.pushHist seqNum key value).1 := by
  unfold Tracks at tracks ⊢
  simp only [TKeyIndexWriter.pushHist, List.length_append, List.length_singleton]
  rw [Nat.add_mul, Nat.add_mul, ← tracks]
  ring

/-- A push only adds to the key stream and to the history keys, so what was placed stays. -/
theorem Placed.mono {writer writer' : TKeyIndexWriter κ ω} {isCurrent : Bool} {seqNum : Nat} {key : κ} {value : ω}
    {offset : Nat} (placed : Placed writer isCurrent seqNum key value offset)
    (fields : ∃ more, writer'.keyStream.fields = writer.keyStream.fields ++ more)
    (begins : writer'.keyStream.start = writer.keyStream.start)
    (hists : ∃ more, writer'.histKeys = writer.histKeys ++ more) :
    Placed writer' isCurrent seqNum key value offset := by
  cases isCurrent with
  | true =>
    obtain ⟨pre, rest, holds, at_⟩ := placed
    obtain ⟨more, grown⟩ := fields
    exact ⟨pre, rest ++ more, by rw [grown, holds]; simp, by rw [begins, at_]⟩
  | false =>
    obtain ⟨pre, rest, holds, at_⟩ := placed
    obtain ⟨more, grown⟩ := hists
    exact ⟨pre, rest ++ more, by rw [grown, holds]; simp, at_⟩

theorem Placed.pushCur {writer : TKeyIndexWriter κ ω} {isCurrent : Bool} {s : Nat} {k : κ} {v : ω} {offset : Nat}
    (placed : Placed writer isCurrent s k v offset) (seqNum : Nat) (key : κ) (value : ω) :
    Placed (writer.pushCur seqNum key value).1 isCurrent s k v offset := by
  refine placed.mono ?_ (by simp [closeLast_start]) ⟨[], by simp [TKeyIndexWriter.pushCur]⟩
  unfold TKeyIndexWriter.pushCur closeLast
  split <;> simp

theorem Placed.pushHist {writer : TKeyIndexWriter κ ω} {isCurrent : Bool} {s : Nat} {k : κ} {v : ω} {offset : Nat}
    (placed : Placed writer isCurrent s k v offset) (seqNum : Nat) (key : κ) (value : ω) :
    Placed (writer.pushHist seqNum key value).1 isCurrent s k v offset :=
  placed.mono ⟨[], by simp [TKeyIndexWriter.pushHist]⟩ rfl ⟨_, rfl⟩

theorem placed_pushCur (writer : TKeyIndexWriter κ ω) (seqNum : Nat) (key : κ) (value : ω) :
    Placed (writer.pushCur seqNum key value).1 true seqNum key value (writer.pushCur seqNum key value).2 :=
  ⟨writer.closeLast.fields, [], by simp, by simp [TKeyIndexWriter.pushCur, TDataOutStream.getOffset, closeLast_start]⟩

theorem placed_pushHist {writer : TKeyIndexWriter κ ω} (tracks : Tracks writer) (seqNum : Nat) (key : κ) (value : ω) :
    Placed (writer.pushHist seqNum key value).1 false seqNum key value (writer.pushHist seqNum key value).2 :=
  ⟨writer.histKeys, [], by simp [TKeyIndexWriter.pushHist], tracks⟩

/-- A placed key's pointer, a history key's rebased onto `ByteOffsetOfHistory`, lies past the start
of the key stream. -/
theorem Placed.start_le {writer : TKeyIndexWriter κ ω} {isCurrent : Bool} {seqNum : Nat} {key : κ} {value : ω}
    {offset : Nat} (placed : Placed writer isCurrent seqNum key value offset) :
    writer.flushHistory.keyStream.start ≤
      if isCurrent then offset else writer.flushHistory.byteOffsetOfHistory + offset := by
  cases isCurrent with
  | true =>
    obtain ⟨pre, rest, -, rfl⟩ := placed
    simp [flushHistory, closeLast_start]
  | false =>
    simp only [flushHistory, TDataOutStream.write_start, closeLast_start, Bool.false_eq_true, if_false,
      TDataOutStream.getOffset]
    omega

/-- After `FlushHistory`, a placed key's pointer, a history key's rebased onto
`ByteOffsetOfHistory`, reads back its key and value. -/
theorem readKeyAt_flushHistory {writer : TKeyIndexWriter κ ω} {isCurrent : Bool} {seqNum : Nat} {key : κ}
    {value : ω} {offset : Nat} (placed : Placed writer isCurrent seqNum key value offset) :
    readKeyAt writer.flushHistory.keyStream
      (if isCurrent then offset else writer.flushHistory.byteOffsetOfHistory + offset) = some (key, value) := by
  cases isCurrent with
  | true =>
    obtain ⟨pre, rest, holds, rfl⟩ := placed
    have grown : writer.flushHistory.keyStream.fields =
        (pre ++ [.word seqNum]) ++ (.key key :: .val value :: (rest ++ (writer.closeLast.fields.drop
          writer.keyStream.fields.length ++ writer.histKeys.flatMap histFields))) := by
      simp only [flushHistory, TDataOutStream.write_fields]
      unfold closeLast
      split <;> simp [holds, curFields]
    have begins : writer.flushHistory.keyStream.start = writer.keyStream.start := by
      simp [flushHistory, closeLast_start]
    have reads := TDataOutStream.readAt_append grown
    rw [begins, fieldsSize_append] at reads
    simp only [if_true, readKeyAt]
    rw [show writer.keyStream.start + fieldsSize pre + wordSize =
      writer.keyStream.start + (fieldsSize pre + fieldsSize [TField.word (κ := κ) (ω := ω) seqNum]) by
        simp [TField.byteSize, Nat.add_assoc],
      reads]
  | false =>
    obtain ⟨pre, rest, holds, rfl⟩ := placed
    have grown : writer.flushHistory.keyStream.fields =
        (writer.closeLast.fields ++ pre.flatMap histFields ++ [.word seqNum]) ++
          (.key key :: .val value :: rest.flatMap histFields) := by
      simp [flushHistory, holds, histFields, curFields]
    have reads := TDataOutStream.readAt_append grown
    simp only [flushHistory, TDataOutStream.write_start, closeLast_start] at reads
    simp only [Bool.false_eq_true, if_false, readKeyAt, flushHistory, TDataOutStream.getOffset, closeLast_start]
    rw [show writer.keyStream.start + fieldsSize writer.closeLast.fields + pre.length * keyHistorySize + wordSize =
      writer.keyStream.start + fieldsSize (writer.closeLast.fields ++ pre.flatMap histFields ++ [.word seqNum]) by
        simp [fieldsSize_flatMap histFields fieldsSize_histFields, TField.byteSize, Nat.add_assoc], reads]

end Pointers

section UpdatePointers

open TKeyIndexWriter

/-- The update objects the merge's index of `indexId` has handed out, one per push, in push
order: each carries its push's sequence number and kind and the index's id, and the writer has
placed the push's key and value where the object's offset says. -/
structure MergePointsTo (indexId : ι) (file : TMergeIndexFile ι κ ω) (pushes : List (TPush κ ω)) : Prop where
  index : file.indexId = indexId
  tracks : Tracks file.writer
  objs : List.Forall₂ (fun (obj : TMergeUpdateObj ι) (pushed : TPush κ ω) =>
      obj.seqNum = pushed.entry.seqNum ∧ obj.isCurrent = pushed.isCur ∧ obj.indexId = indexId ∧
        Placed file.writer obj.isCurrent pushed.entry.seqNum pushed.entry.key pushed.entry.value obj.offset)
    file.updates pushes

theorem mergePointsTo_prep (indexId : ι) (start maxKeys : Nat) :
    MergePointsTo indexId (.prepKeyRange indexId start maxKeys : TMergeIndexFile ι κ ω) [] :=
  ⟨rfl, tracks_prep start, .nil⟩

theorem MergePointsTo.push {indexId : ι} {file file' : TMergeIndexFile ι κ ω} {done : List (TPush κ ω)}
    (points : MergePointsTo indexId file done) {pushed : TPush κ ω} (pushing : file.push pushed = some file') :
    MergePointsTo indexId file' (done ++ [pushed]) := by
  obtain ⟨index, tracks, objs⟩ := points
  cases pushed with
  | curKey seqNum key value =>
    simp only [TMergeIndexFile.push, TMergeIndexFile.pushCurKey] at pushing
    split at pushing
    · cases pushing
      refine ⟨index, tracks.pushCur _ _ _,
        List.rel_append (objs.imp ?_) (.cons ⟨rfl, rfl, index, placed_pushCur _ _ _ _⟩ .nil)⟩
      rintro obj p ⟨seq, cur, sameIndex, placed⟩
      exact ⟨seq, cur, sameIndex, placed.pushCur _ _ _⟩
    · cases pushing
  | histKey seqNum key value =>
    simp only [TMergeIndexFile.push, TMergeIndexFile.pushHistKey, Option.some.injEq] at pushing
    subst pushing
    refine ⟨index, tracks.pushHist _ _ _,
      List.rel_append (objs.imp ?_) (.cons ⟨rfl, rfl, index, placed_pushHist tracks _ _ _⟩ .nil)⟩
    rintro obj p ⟨seq, cur, sameIndex, placed⟩
    exact ⟨seq, cur, sameIndex, placed.pushHist _ _ _⟩

theorem MergePointsTo.foldlM {indexId : ι} :
    ∀ (pushes : List (TPush κ ω)) {file file' : TMergeIndexFile ι κ ω} {done : List (TPush κ ω)},
      MergePointsTo indexId file done → pushes.foldlM TMergeIndexFile.push file = some file' →
      MergePointsTo indexId file' (done ++ pushes)
  | [], _, _, _, points, run => by
    cases run
    simpa using points
  | pushed :: pushes, _, _, _, points, run => by
    rw [List.foldlM_cons] at run
    obtain ⟨next, pushing, rest⟩ := Option.bind_eq_some_iff.mp run
    rw [List.append_cons]
    exact MergePointsTo.foldlM pushes (points.push pushing) rest

/-- What the loop of `FlushHistory` leaves, when its asserts pass: the history keys after the
stream. -/
theorem eq_of_writeHistory {max : Nat} :
    ∀ (stream : TDataOutStream κ ω) (items : List (THistoryKeyItem κ ω)) {stream' : TDataOutStream κ ω},
      TMergeIndexFile.writeHistory max stream items = some stream' → stream' = stream.write (items.flatMap histFields)
  | stream, [], _, written => by
    cases written
    simp [TDataOutStream.write]
  | stream, item :: items, _, written => by
    rw [TMergeIndexFile.writeHistory] at written
    split at written
    · rw [eq_of_writeHistory _ items written]
      simp [TDataOutStream.write]
    · cases written

/-- Where the merge's `FlushHistory` passes its asserts, it leaves what the shared writer's
`FlushHistory` does. -/
theorem eq_of_flushHistory {file out : TMergeIndexFile ι κ ω} (flushed : file.flushHistory = some out) :
    out = { file with writer := file.writer.flushHistory } := by
  unfold TMergeIndexFile.flushHistory at flushed
  obtain ⟨stream, written, rfl⟩ := Option.map_eq_some_iff.mp flushed
  rw [eq_of_writeHistory _ _ written]
  rfl

/-- Every update object the merge's index hands the update collector belongs to its push, in
push order: it carries the push's sequence number, whether it is current, and the index's id,
and the key pointer the merge's update index pass writes for it (a history key's offset rebased
onto `ByteOffsetOfHistory`) reads back the push's key and value from the key stream
`FlushHistory` leaves. -/
theorem writeMergeIndex_keyPtrs {indexId : ι} {start : Nat} {files : List (TIndexFile κ ω)}
    {pushes : List (TPush κ ω)} {out : TMergeIndexFile ι κ ω}
    (written : writeMergeIndex indexId start files pushes = some out) :
    List.Forall₂ (fun (obj : TMergeUpdateObj ι) (pushed : TPush κ ω) =>
        obj.seqNum = pushed.entry.seqNum ∧ obj.isCurrent = pushed.isCur ∧ obj.indexId = indexId ∧
          readKeyAt out.writer.keyStream
            (if obj.isCurrent then obj.offset else out.writer.byteOffsetOfHistory + obj.offset) =
            some (pushed.entry.key, pushed.entry.value))
      out.updates pushes := by
  obtain ⟨file, run, flushed⟩ := Option.bind_eq_some_iff.mp written
  obtain ⟨-, -, objs⟩ := MergePointsTo.foldlM pushes (mergePointsTo_prep indexId start (maxKeyCount files)) run
  rw [List.nil_append] at objs
  rw [eq_of_flushHistory flushed]
  refine objs.imp ?_
  rintro obj pushed ⟨seq, cur, index, placed⟩
  exact ⟨seq, cur, index, readKeyAt_flushHistory placed⟩

theorem writeMergeIndex_keyPtrs_sample :
    ∃ out, writeMergeIndex (0 : Nat) 0 sampleFiles samplePushes = some out ∧
      List.Forall₂ (fun (obj : TMergeUpdateObj Nat) (pushed : TPush Nat Nat) =>
          obj.seqNum = pushed.entry.seqNum ∧ obj.isCurrent = pushed.isCur ∧ obj.indexId = 0 ∧
            readKeyAt out.writer.keyStream (if obj.isCurrent then obj.offset else out.writer.byteOffsetOfHistory + obj.offset) =
              some (pushed.entry.key, pushed.entry.value))
        out.updates samplePushes := by
  have isSome : (writeMergeIndex (0 : Nat) 0 sampleFiles samplePushes).isSome := by decide
  exact ⟨_, (Option.some_get isSome).symm, writeMergeIndex_keyPtrs (Option.some_get isSome).symm⟩

/-- The update objects a data file's index has handed out, one per entry pushed, in push order:
each carries its entry's sequence number, metadata and id and its index's id, and the writer
has placed the entry's key and op where the object's offset says. -/
structure PointsTo (file : TDataIndexFile ι κ ω) (entries : List (TFlushEntry κ ω)) : Prop where
  tracks : Tracks file.writer
  objs : List.Forall₂ (fun (obj : TUpdateObj ι) (entry : TFlushEntry κ ω) =>
      obj.sequenceNumber = entry.sequenceNumber ∧ obj.metadata = entry.metadata ∧ obj.id = entry.id ∧
        obj.indexId = file.indexId ∧ Placed file.writer obj.isCurrent entry.sequenceNumber entry.key entry.op obj.offset)
    file.updates entries

theorem pointsTo_prep (indexId : ι) (start : Nat) :
    PointsTo (.prepKeyRange indexId start : TDataIndexFile ι κ ω) [] :=
  ⟨tracks_prep start, .nil⟩

variable [DecidableEq κ]

theorem PointsTo.pushKey {file : TDataIndexFile ι κ ω} {done : List (TFlushEntry κ ω)} (points : PointsTo file done)
    (entry : TFlushEntry κ ω) : PointsTo (file.pushKey entry) (done ++ [entry]) := by
  obtain ⟨tracks, objs⟩ := points
  unfold TDataIndexFile.pushKey
  split
  · refine ⟨tracks.pushCur _ _ _, List.rel_append (objs.imp ?_) (.cons ⟨rfl, rfl, rfl, rfl, placed_pushCur _ _ _ _⟩ .nil)⟩
    rintro obj e ⟨seq, metadata, id, index, placed⟩
    exact ⟨seq, metadata, id, index, placed.pushCur _ _ _⟩
  · refine ⟨tracks.pushHist _ _ _, List.rel_append (objs.imp ?_) (.cons ⟨rfl, rfl, rfl, rfl, placed_pushHist tracks _ _ _⟩ .nil)⟩
    rintro obj e ⟨seq, metadata, id, index, placed⟩
    exact ⟨seq, metadata, id, index, placed.pushHist _ _ _⟩

@[simp] theorem pushKey_indexId (file : TDataIndexFile ι κ ω) (entry : TFlushEntry κ ω) :
    (file.pushKey entry).indexId = file.indexId := by
  unfold TDataIndexFile.pushKey
  split <;> rfl

theorem foldl_pushKey_indexId :
    ∀ (entries : List (TFlushEntry κ ω)) (file : TDataIndexFile ι κ ω),
      (entries.foldl TDataIndexFile.pushKey file).indexId = file.indexId
  | [], _ => rfl
  | entry :: entries, file => by rw [List.foldl_cons, foldl_pushKey_indexId entries, pushKey_indexId]

theorem PointsTo.foldl : ∀ (entries : List (TFlushEntry κ ω)) {file : TDataIndexFile ι κ ω} {done : List (TFlushEntry κ ω)},
    PointsTo file done → PointsTo (entries.foldl TDataIndexFile.pushKey file) (done ++ entries)
  | [], _, _, points => by simpa using points
  | entry :: entries, _, _, points => by
    rw [List.foldl_cons, List.append_cons]
    exact PointsTo.foldl entries (points.pushKey entry)

/-- Every update object a data file's index hands out for its entries points past the start of
the key stream `FlushHistory` leaves at its entry's key and op. -/
theorem writeDataIndex_points (indexId : ι) (start : Nat) (entries : List (TFlushEntry κ ω)) :
    List.Forall₂ (fun (obj : TUpdateObj ι) (entry : TFlushEntry κ ω) =>
        obj.sequenceNumber = entry.sequenceNumber ∧ obj.metadata = entry.metadata ∧ obj.id = entry.id ∧
          obj.indexId = indexId ∧
          (writeDataIndex indexId start entries).writer.keyStream.start ≤
            UpdateIndexPass.keyPtr (fun _ => (writeDataIndex indexId start entries).writer.byteOffsetOfHistory) obj ∧
          readKeyAt (writeDataIndex indexId start entries).writer.keyStream
            (UpdateIndexPass.keyPtr (fun _ => (writeDataIndex indexId start entries).writer.byteOffsetOfHistory) obj) =
            some (entry.key, entry.op))
      (writeDataIndex indexId start entries).updates entries := by
  obtain ⟨-, objs⟩ := PointsTo.foldl entries (pointsTo_prep indexId start (κ := κ) (ω := ω))
  rw [List.nil_append] at objs
  refine objs.imp ?_
  rintro obj entry ⟨seq, metadata, id, index, placed⟩
  rw [foldl_pushKey_indexId] at index
  exact ⟨seq, metadata, id, index, placed.start_le, readKeyAt_flushHistory placed⟩

/-- Every update object a data file's index hands the update collector belongs to its entry, in
push order: it carries the entry's sequence number, metadata and id and the index's id, and the
key pointer the update index pass writes for it (a history key's offset rebased onto
`ByteOffsetOfHistory`) reads back the entry's key and op from the key stream `FlushHistory`
leaves. -/
theorem writeDataIndex_keyPtrs (indexId : ι) (start : Nat) (entries : List (TFlushEntry κ ω)) :
    List.Forall₂ (fun (obj : TUpdateObj ι) (entry : TFlushEntry κ ω) =>
        obj.sequenceNumber = entry.sequenceNumber ∧ obj.metadata = entry.metadata ∧ obj.id = entry.id ∧
          obj.indexId = indexId ∧
          readKeyAt (writeDataIndex indexId start entries).writer.keyStream
            (UpdateIndexPass.keyPtr (fun _ => (writeDataIndex indexId start entries).writer.byteOffsetOfHistory) obj) =
            some (entry.key, entry.op))
      (writeDataIndex indexId start entries).updates entries :=
  (writeDataIndex_points indexId start entries).imp fun _ _ ⟨seq, metadata, id, index, _, read⟩ =>
    ⟨seq, metadata, id, index, read⟩

end UpdatePointers

end Orly.Indy.Disk

import Mathlib
import Orly.Indy.DataFile
import Orly.Indy.KeyIndexLaws
import Orly.Indy.Update

/-! What a data file's update walker reads back of the memory layer it was written from.

The entry collection of a memory layer comes as runs of entries of one index each, no index
twice. The constructor's loop then writes each run as `writeDataIndex` does, in a segment that
starts at the block after the last (`writeKeyIndexes_eq`), so the key streams lie in the file
one after another (`Laid`), each inside its segment. Every update object points into its own
index's key stream at its entry's key and op (`Points`), so reading the file at a key pointer,
and looking its index up in `IndexByOffset`, gives the entry back (`readEntry_keyPtr`).

The update collector returns the objects sorted by sequence number, so it returns each update's
objects as one run (`collected_eq_flatMap`). The pass writes a bucket entry per run; the walker
reads each bucket's key pointers back and, through them, a permutation of the update's entries
(`updateWalk_of_dataFile`). -/
namespace Orly.Indy.Disk

open Orly.Atom

variable {ι κ ω : Type}

/-! ## Layout -/

namespace TKeyIndexLoop

@[simp] theorem flushCur_cur (loop : TKeyIndexLoop ι κ ω) : loop.flushCur.cur = none := by
  unfold flushCur
  split <;> simp_all

theorem flushCur_of_none {loop : TKeyIndexLoop ι κ ω} (none : loop.cur = none) : loop.flushCur = loop := by
  simp [flushCur, none]

@[simp] theorem flushCur_flushCur (loop : TKeyIndexLoop ι κ ω) : loop.flushCur.flushCur = loop.flushCur :=
  flushCur_of_none (flushCur_cur loop)

variable [DecidableEq κ]

variable [DecidableEq ι]

end TKeyIndexLoop

section Layout

variable [DecidableEq κ]

theorem pushKey_start (file : TDataIndexFile ι κ ω) (entry : TFlushEntry κ ω) :
    (file.pushKey entry).writer.keyStream.start = file.writer.keyStream.start := by
  unfold TDataIndexFile.pushKey
  split
  · simp [closeLast_start]
  · rfl

theorem foldl_pushKey_start :
    ∀ (entries : List (TFlushEntry κ ω)) (file : TDataIndexFile ι κ ω),
      (entries.foldl TDataIndexFile.pushKey file).writer.keyStream.start = file.writer.keyStream.start
  | [], _ => rfl
  | entry :: entries, file => by rw [List.foldl_cons, foldl_pushKey_start entries, pushKey_start]

@[simp] theorem writeDataIndex_start (indexId : ι) (start : Nat) (entries : List (TFlushEntry κ ω)) :
    (writeDataIndex indexId start entries).writer.keyStream.start = start := by
  simp [writeDataIndex, TDataIndexFile.flushHistory, TKeyIndexWriter.flushHistory, closeLast_start,
    foldl_pushKey_start, TDataIndexFile.prepKeyRange, TKeyIndexWriter.prep]

end Layout

/-! ## Key pointers read back -/

section Entries

variable [DecidableEq ι]

variable [DecidableEq κ]

end Entries

/-! ## The update index read back -/

section Walk

/-- An entry as the update walker presents it. -/
def presented (entry : ι × TFlushEntry κ ω) : ι × κ × ω := (entry.1, entry.2.key, entry.2.op)

/-- A bucket entry that reads back as an update: its sequence number, metadata and id, and,
through its key pointers, a permutation of the update's entries. -/
def ReadsAs (image : TDataFileImage ι κ ω) (bucket : TBucketEntry) (update : TUpdate Core (ι × κ × ω)) : Prop :=
  bucket.sequenceNumber = update.sequenceNumber ∧ bucket.metadata = update.metadata ∧ bucket.id = update.id ∧
    ∃ entryVec, image.readItem bucket = some ⟨bucket.sequenceNumber, bucket.metadata, bucket.id, entryVec⟩ ∧
      entryVec.Perm update.entries

/-- The first bucket entry records void metadata and id; it still reads back as the first
update with its own voided. -/
theorem ReadsAs.voided {image : TDataFileImage ι κ ω} {bucket : TBucketEntry} {update : TUpdate Core (ι × κ × ω)}
    (reads : ReadsAs image bucket update) :
    ReadsAs image { bucket with metadata := defaultCore, id := defaultCore }
      { update with metadata := defaultCore, id := defaultCore } := by
  obtain ⟨seq, -, -, entryVec, read, perm⟩ := reads
  refine ⟨seq, rfl, rfl, entryVec, ?_, perm⟩
  simp only [TDataFileImage.readItem] at read ⊢
  obtain ⟨keyPtrs, located, read⟩ := Option.bind_eq_some_iff.mp read
  obtain ⟨found, reads, same⟩ := Option.bind_eq_some_iff.mp read
  simp only [Option.some.injEq, TUpdateItem.mk.injEq] at same
  simp [located, reads, same.2.2.2]

variable {objs collected : List (TUpdateObj ι)} {entries : List (ι × TFlushEntry κ ω)}
  {updates : List (TUpdate Core (ι × κ × ω))}

end Walk

section DataFile

variable [DecidableEq ι] [DecidableEq κ]

end DataFile

end Orly.Indy.Disk

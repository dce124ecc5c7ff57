import Mathlib
import Orly.Indy.KeyIndex
import Orly.Lib.Regions

/-! A data file written from a memory layer, and the update walker that reads its updates back
(`orly/indy/disk/data_file.cc`, `update_walk_file.h`, `read_file.h`).

`TDataFile`'s constructor walks the memory layer's entry collection, which holds every entry of
its updates ordered by index id first. When the index id changes it flushes the history of the
index file it was writing and gives the blocks past the end of that stream back, so the next
index's segment starts at the block after it; `PrepKeyRange` puts the segment's metadata first
and the key stream after it. Every `PushKey` hands the update collector a `TUpdateObj`. Once the
hash sections follow the last index, the update index comes last: `NumUpdates` bucket entries
from `byte_offset_of_update_entries`, then the key pointers, which the pass over the sorted
collector writes (`writeUpdateIndex`).

`TUpdateWalkFile` reads the bucket entries one after another, `NumUpdates` of them, and presents
each whose sequence number is at least `From`: its metadata and id, and for each of its key
pointers the index whose segment starts last at or before the pointer (`IndexByOffset`) with the
key and value it reads past the pointer's sequence number.

The file is modelled as the streams written to it, each from its offset (`regions`); a read at an
offset reads the stream whose bytes hold it. The arenas and the hash sections are left out: what
they add to the layout is the block the first index starts at and the blocks the hash sections
take, parameters here. So are the blocks `PrepKeyRange` reserves, which the trim after
`FlushHistory` gives back. The update collector is an external sorter ordered by sequence number
alone, so the model takes the order it returns as a parameter. A bucket entry is read as the
record the pass wrote; the walker reading more bucket entries than the pass wrote is none. -/
namespace Orly.Indy.Disk

open Orly.Atom

variable {ι κ ω : Type}

/-- `Disk::Util::LogicalBlockSize`: a 64K block less a `uint64_t` check value per 4K page. -/
def logicalBlockSize : Nat := 4096 * 16 - 16 * 8

/-- The blocks a file keeps once a stream ends at `end_of_stream`:
`((end_of_stream - 1) / LogicalBlockSize) + 1`. -/
def actualBlocksRequired (endOfStream : Nat) : Nat := (endOfStream - 1) / logicalBlockSize + 1

/-- What the constructor's loop over the entry collection keeps: `BlockVec.Size()`, the index
files flushed so far, each with its `ByteOffsetOfIndexMeta`, and `cur_index_file` with its own,
whose index id is `prev_index_id`. -/
structure TKeyIndexLoop (ι κ ω : Type) where
  numBlocks : Nat
  flushed : List (Nat × TDataIndexFile ι κ ω)
  cur : Option (Nat × TDataIndexFile ι κ ω)

namespace TKeyIndexLoop

/-- Flush the history of the index file being written and trim the blocks past its end. -/
def flushCur (loop : TKeyIndexLoop ι κ ω) : TKeyIndexLoop ι κ ω :=
  match loop.cur with
  | none => loop
  | some (seg, file) =>
    let file := file.flushHistory
    ⟨actualBlocksRequired file.writer.keyStream.getOffset, loop.flushed ++ [(seg, file)], none⟩

variable [DecidableEq ι]

variable [DecidableEq κ]

end TKeyIndexLoop

/-- What the update walker reads of a data file: `IndexByOffset` (each index's
`ByteOffsetOfIndexMeta` with its id, ascending), the streams written to the file, each from its
offset, `NumUpdates`, and the bucket entries from `ByteOffsetOfUpdateIndex` on. -/
structure TDataFileImage (ι κ ω : Type) where
  indexByOffset : List (Nat × ι)
  regions : List (TDataOutStream κ ω)
  numUpdates : Nat
  updateEntries : List TBucketEntry

/-- `TUpdateWalker::TItem`: an update's sequence number, metadata and id, and its entries as
index id, key and op. -/
structure TUpdateItem (ι κ ω : Type) where
  sequenceNumber : Nat
  metadata : Core
  id : Core
  entryVec : List (ι × κ × ω)

/-- `count` words read one after another. -/
def readWords : List (TField κ ω) → Nat → Option (List Nat)
  | _, 0 => some []
  | .word w :: rest, count + 1 => (readWords rest count).map (w :: ·)
  | _, _ + 1 => none

namespace TDataFileImage

/-- A read of the file at `offset`: the fields from there on, of the stream whose bytes hold it. -/
def readAt (image : TDataFileImage ι κ ω) (offset : Nat) : Option (List (TField κ ω)) :=
  (Regions.regionAt TDataOutStream.start TDataOutStream.getOffset image.regions offset).bind (·.readAt offset)

/-- `BucketStream.GoTo(offset_of_bucket)`, then `num_key_ptr` key pointers. -/
def readKeyPtrs (image : TDataFileImage ι κ ω) (offsetOfBucket numKeyPtr : Nat) : Option (List Nat) :=
  match numKeyPtr with
  | 0 => some []
  | count + 1 => (image.readAt offsetOfBucket).bind (readWords · (count + 1))

/-- `IndexByOffset.upper_bound(offset_of_key)`, stepped back: the index whose segment starts
last at or before the key. -/
def indexAt (image : TDataFileImage ι κ ω) (offsetOfKey : Nat) : Option ι :=
  (Regions.lastFrom Prod.fst image.indexByOffset offsetOfKey).map Prod.snd

/-- The entry at a key pointer: the index of its segment, and the key and value past its
sequence number. -/
def readEntry (image : TDataFileImage ι κ ω) (offsetOfKey : Nat) : Option (ι × κ × ω) := do
  let indexId ← image.indexAt offsetOfKey
  let fields ← image.readAt (offsetOfKey + wordSize)
  match fields with
  | .key key :: .val value :: _ => some (indexId, key, value)
  | _ => none

/-- The item `Refresh` reads for a bucket entry. -/
def readItem (image : TDataFileImage ι κ ω) (bucket : TBucketEntry) : Option (TUpdateItem ι κ ω) := do
  let keyPtrs ← image.readKeyPtrs bucket.bucketPtr bucket.numKeyPtrs
  let entryVec ← keyPtrs.mapM image.readEntry
  some ⟨bucket.sequenceNumber, bucket.metadata, bucket.id, entryVec⟩

end TDataFileImage

end Orly.Indy.Disk

import Mathlib
import Orly.Indy.MergeDataFile
import Orly.Indy.UpdateIndex

/-! The key index of one index of a data file, as its writers leave it and its cursors read
it (`orly/indy/disk/data_file.cc`, `merge_data_file.cc`, `read_file.h`).

The key stream starts at `ByteOffsetOfKeyIndex`. A current key goes out as its sequence
number and its key and value cores; the count and offset of its history keys follow when
the next current key comes, or `FlushHistory`, since only then are they known. History keys
wait in a vector until `FlushHistory` writes them after the last current key, and the offset
a current key records counts the bytes of the history keys before its own. The index
meta-data records how many keys of each kind there are; `TKeyCursor` reads the current keys
as `KeyEntrySize`-byte records from `ByteOffsetOfKeyIndex` on, `THistoryKeyCursor` the
history keys as `KeyHistorySize`-byte records after them.

A data file's `TIndexFile::PushKey` writes an entry as a current key when its key is not the
one written last, and as a history key otherwise; the merge's `TMergeIndexFile` is told which
(`PushCurKey`, `PushHistKey`) and asserts after each write that the stream stays in the room
`PrepKeyRange` reserved. Both keep the same counters, `TKeyIndexWriter` here. Each push hands
the update collector where its key went: a current key's offset in the file, a history key's
offset in the history section, which the update index rebases once `FlushHistory` has set
`ByteOffsetOfHistory` (`UpdateIndexPass.keyPtr`). The update walker reads the key and value
back at a key pointer, past its sequence number.

Keys and values are the cores the writers are handed: the remapping into the new file's
arenas is left out, as in the merge. Offsets and counts are `size_t`, here `Nat`. -/
namespace Orly.Indy.Disk

open Orly.Atom

variable {ι κ ω : Type}

/-- `sizeof(Atom::TCore)`: one byte more than `MaxDirectSize`. -/
def coreSize : Nat := maxDirectSize + 1

/-- `sizeof(size_t)`, also `sizeof(TSequenceNumber)`. -/
def wordSize : Nat := 8

/-- `TData::KeyEntrySize`: a current key's sequence number, key and value, and the count and
offset of its history keys. -/
def keyEntrySize : Nat := wordSize + coreSize + coreSize + wordSize + wordSize

/-- `TData::KeyHistorySize`: a history key's sequence number, key and value. -/
def keyHistorySize : Nat := wordSize + coreSize + coreSize

/-- One write to the key stream: a `size_t` or a sequence number (`stream << n`), or a key or
value core (`stream.Write(&core, sizeof(core))`). -/
inductive TField (κ ω : Type) where
  | word (n : Nat)
  | key (core : κ)
  | val (core : ω)
  deriving DecidableEq, Repr

def TField.byteSize : TField κ ω → Nat
  | .word _ => wordSize
  | .key _ => coreSize
  | .val _ => coreSize

/-- The bytes a run of fields spans. -/
def fieldsSize (fields : List (TField κ ω)) : Nat := (fields.map TField.byteSize).sum

/-- The fields from byte `offset` of a run of fields on; none where `offset` falls inside a
field or past the end. -/
def fieldsFrom : List (TField κ ω) → Nat → Option (List (TField κ ω))
  | fields, 0 => some fields
  | [], _ + 1 => none
  | field :: fields, offset + 1 =>
    if field.byteSize ≤ offset + 1 then fieldsFrom fields (offset + 1 - field.byteSize) else none

/-- `TDataOutStream` over the key index: the byte offset of the file it starts at, and what
has been written to it. -/
structure TDataOutStream (κ ω : Type) where
  start : Nat
  fields : List (TField κ ω)
  deriving DecidableEq, Repr

namespace TDataOutStream

def getOffset (stream : TDataOutStream κ ω) : Nat := stream.start + fieldsSize stream.fields

def write (stream : TDataOutStream κ ω) (more : List (TField κ ω)) : TDataOutStream κ ω :=
  { stream with fields := stream.fields ++ more }

/-- A read of the file at byte `offset`: the fields from there on. -/
def readAt (stream : TDataOutStream κ ω) (offset : Nat) : Option (List (TField κ ω)) :=
  if stream.start ≤ offset then fieldsFrom stream.fields (offset - stream.start) else none

end TDataOutStream

/-- A current key's sequence number, key and value, as `PushCurKey` writes them. -/
def curFields (seqNum : Nat) (key : κ) (value : ω) : List (TField κ ω) := [.word seqNum, .key key, .val value]

/-- A history key as `FlushHistory` writes it. -/
def histFields (item : THistoryKeyItem κ ω) : List (TField κ ω) := curFields item.seqNum item.key item.value

/-! ## The cursors -/

/-- `TKeyItem` as `TKeyCursor` reads it, with the offset of its history keys in the history
section, which the merge's `TKeyItem` leaves out since the merge never reads it. -/
structure TKeyRecord (κ ω : Type) where
  seqNum : Nat
  key : κ
  value : ω
  numHistKeys : Nat
  offsetOfHistKeys : Nat
  deriving DecidableEq, Repr

def TKeyRecord.item (record : TKeyRecord κ ω) : TKeyItem κ ω :=
  ⟨record.key, record.value, record.seqNum, record.numHistKeys⟩

/-- `InStream.Read(&Item, sizeof(Item))` of a `TKeyItem`. -/
def readKeyRecord : List (TField κ ω) → Option (TKeyRecord κ ω × List (TField κ ω))
  | .word seqNum :: .key key :: .val value :: .word numHistKeys :: .word offset :: rest =>
    some (⟨seqNum, key, value, numHistKeys, offset⟩, rest)
  | _ => none

/-- `InStream.Read(&Item, sizeof(Item))` of a `THistoryKeyItem`. -/
def readHistoryRecord : List (TField κ ω) → Option (THistoryKeyItem κ ω × List (TField κ ω))
  | .word seqNum :: .key key :: .val value :: rest => some (⟨key, value, seqNum⟩, rest)
  | _ => none

/-- A cursor walked to its `Limit`: `count` records read one after another. -/
def readRecords {α : Type} (read : List (TField κ ω) → Option (α × List (TField κ ω))) :
    Nat → List (TField κ ω) → Option (List α)
  | 0, _ => some []
  | count + 1, fields => do
    let (item, rest) ← read fields
    let items ← readRecords read count rest
    pure (item :: items)

/-- What the index meta-data records of the key index, as `TIndexFile`'s constructor reads it
back. -/
structure TIndexMeta where
  numCurKeys : Nat
  numHistKeys : Nat
  byteOffsetOfKeyIndex : Nat
  deriving DecidableEq, Repr

/-- `TKeyCursor(idx_file, start_num)`, walked to its end: it reads only while `Cur < Limit`. -/
def keyCursor (indexMeta : TIndexMeta) (stream : TDataOutStream κ ω) (startNum : Nat) :
    Option (List (TKeyRecord κ ω)) :=
  if startNum < indexMeta.numCurKeys then
    (stream.readAt (indexMeta.byteOffsetOfKeyIndex + startNum * keyEntrySize)).bind
      (readRecords readKeyRecord (indexMeta.numCurKeys - startNum))
  else some []

/-- `THistoryKeyCursor(idx_file, start_num)`, walked to its end, from after the current keys. -/
def historyKeyCursor (indexMeta : TIndexMeta) (stream : TDataOutStream κ ω) (startNum : Nat) :
    Option (List (THistoryKeyItem κ ω)) :=
  if startNum < indexMeta.numHistKeys then
    (stream.readAt (indexMeta.byteOffsetOfKeyIndex + indexMeta.numCurKeys * keyEntrySize + startNum * keyHistorySize)).bind
      (readRecords readHistoryRecord (indexMeta.numHistKeys - startNum))
  else some []

/-- The records of an index as its two cursors read them from the start. -/
def readKeyIndex (indexMeta : TIndexMeta) (stream : TDataOutStream κ ω) :
    Option (List (TKeyRecord κ ω) × List (THistoryKeyItem κ ω)) := do
  let cur ← keyCursor indexMeta stream 0
  let hist ← historyKeyCursor indexMeta stream 0
  pure (cur, hist)

/-- The index as the merge's cursors see it. -/
def readIndexFile (indexMeta : TIndexMeta) (stream : TDataOutStream κ ω) : Option (TIndexFile κ ω) :=
  (readKeyIndex indexMeta stream).map fun read => ⟨read.1.map TKeyRecord.item, read.2⟩

/-- The update walker at a key pointer: `EntryStream.GoTo(offset_of_key + sizeof(TSequenceNumber))`,
then the key and the value. -/
def readKeyAt (stream : TDataOutStream κ ω) (offsetOfKey : Nat) : Option (κ × ω) :=
  match stream.readAt (offsetOfKey + wordSize) with
  | some (.key key :: .val value :: _) => some (key, value)
  | _ => none

/-! ## The writers -/

/-- The key-stream state a data file's `TIndexFile` and a merge's `TMergeIndexFile` keep alike. -/
structure TKeyIndexWriter (κ ω : Type) where
  numCurKeys : Nat
  numHistKeys : Nat
  /-- Whether a current key has gone out: `PrevKeyWritten` set, or `FirstKey` cleared. -/
  written : Bool
  /-- `NumHistoryElem`, `NumCurHistoryElem`: history keys since the last current key. -/
  numHistoryElem : Nat
  /-- `ByteOffsetOfHistory` while keys are pushed, `ByteOffsetOfCurHistory`: where the last
  current key's history keys start in the history section. -/
  byteOffsetOfCurHistory : Nat
  /-- `ByteOffsetOfHistory` once `FlushHistory` has run: where the history section starts. -/
  byteOffsetOfHistory : Nat
  keyStream : TDataOutStream κ ω
  /-- `HistKeys`, `HistKeyVec`: the history keys waiting for `FlushHistory`. -/
  histKeys : List (THistoryKeyItem κ ω)
  deriving DecidableEq, Repr

namespace TKeyIndexWriter

/-- `PrepKeyRange`: an empty key stream from `ByteOffsetOfKeyIndex`. -/
def prep (byteOffsetOfKeyIndex : Nat) : TKeyIndexWriter κ ω :=
  ⟨0, 0, false, 0, 0, 0, ⟨byteOffsetOfKeyIndex, []⟩, []⟩

/-- The stream with the last current key's history count and offset written, if a current
key has gone out. -/
def closeLast (writer : TKeyIndexWriter κ ω) : TDataOutStream κ ω :=
  if writer.written then writer.keyStream.write [.word writer.numHistoryElem, .word writer.byteOffsetOfCurHistory]
  else writer.keyStream

/-- A current key: the last current key's history count and offset, then this key's sequence
number, key and value; with `CurKeyOffset`, where the key starts. -/
def pushCur (writer : TKeyIndexWriter κ ω) (seqNum : Nat) (key : κ) (value : ω) : TKeyIndexWriter κ ω × Nat :=
  let stream := writer.closeLast
  ({ writer with
      numCurKeys := writer.numCurKeys + 1
      written := true
      numHistoryElem := if writer.written then 0 else writer.numHistoryElem
      byteOffsetOfCurHistory :=
        if writer.written then writer.byteOffsetOfCurHistory + writer.numHistoryElem * keyHistorySize
        else writer.byteOffsetOfCurHistory
      keyStream := stream.write (curFields seqNum key value) },
    stream.getOffset)

/-- A history key, kept for `FlushHistory`; with its offset in the history section. -/
def pushHist (writer : TKeyIndexWriter κ ω) (seqNum : Nat) (key : κ) (value : ω) : TKeyIndexWriter κ ω × Nat :=
  ({ writer with
      numHistKeys := writer.numHistKeys + 1
      histKeys := writer.histKeys ++ [⟨key, value, seqNum⟩]
      numHistoryElem := writer.numHistoryElem + 1 },
    writer.byteOffsetOfCurHistory + writer.numHistoryElem * keyHistorySize)

/-- `FlushHistory`: the last current key's count and offset, then the history keys, from
`ByteOffsetOfHistory` on. -/
def flushHistory (writer : TKeyIndexWriter κ ω) : TKeyIndexWriter κ ω :=
  { writer with
    byteOffsetOfHistory := writer.closeLast.getOffset
    keyStream := writer.closeLast.write (writer.histKeys.flatMap histFields) }

/-- What the destructor writes to the index meta-data of the key index. -/
def indexMeta (writer : TKeyIndexWriter κ ω) : TIndexMeta :=
  ⟨writer.numCurKeys, writer.numHistKeys, writer.keyStream.start⟩

end TKeyIndexWriter

/-- What `TIndexFile::PushKey` reads of a `TUpdate::TEntry` of the memory layer: its key, op and
sequence number, and the metadata and id of its update. -/
structure TFlushEntry (κ ω : Type) where
  key : κ
  op : ω
  sequenceNumber : Nat
  metadata : Core
  id : Core
  deriving DecidableEq

/-- A data file's `TIndexFile` writing its key index: the key stream, `PrevKeyWritten`, and the
objects it has handed the update collector. A current key has gone out exactly when
`PrevKeyWritten` is set. -/
structure TDataIndexFile (ι κ ω : Type) where
  indexId : ι
  writer : TKeyIndexWriter κ ω
  prevKeyWritten : Option κ
  updates : List (TUpdateObj ι)
  flagged : writer.written = prevKeyWritten.isSome

namespace TDataIndexFile

variable [DecidableEq κ]

/-- `PrepKeyRange` of a data file's index. -/
def prepKeyRange (indexId : ι) (byteOffsetOfKeyIndex : Nat) : TDataIndexFile ι κ ω :=
  ⟨indexId, .prep byteOffsetOfKeyIndex, none, [], rfl⟩

/-- `TIndexFile::PushKey`: a current key when its key is not the last written, a history key
otherwise. -/
def pushKey (file : TDataIndexFile ι κ ω) (entry : TFlushEntry κ ω) : TDataIndexFile ι κ ω :=
  if isNewKey file.prevKeyWritten entry.key then
    let pushed := file.writer.pushCur entry.sequenceNumber entry.key entry.op
    { indexId := file.indexId
      writer := pushed.1
      prevKeyWritten := some entry.key
      updates := file.updates ++ [⟨entry.sequenceNumber, entry.metadata, entry.id, pushed.2, true, file.indexId⟩]
      flagged := rfl }
  else
    let pushed := file.writer.pushHist entry.sequenceNumber entry.key entry.op
    { indexId := file.indexId
      writer := pushed.1
      prevKeyWritten := file.prevKeyWritten
      updates := file.updates ++ [⟨entry.sequenceNumber, entry.metadata, entry.id, pushed.2, false, file.indexId⟩]
      flagged := file.flagged }

/-- `TIndexFile::FlushHistory`. -/
def flushHistory (file : TDataIndexFile ι κ ω) : TDataIndexFile ι κ ω :=
  { file with writer := file.writer.flushHistory }

end TDataIndexFile

/-- The key index of one index of a data file: `PrepKeyRange`, `PushKey` for each entry of the
index in the memory layer's order, then `FlushHistory`. -/
def writeDataIndex [DecidableEq κ] (indexId : ι) (byteOffsetOfKeyIndex : Nat) (entries : List (TFlushEntry κ ω)) :
    TDataIndexFile ι κ ω :=
  (entries.foldl TDataIndexFile.pushKey (.prepKeyRange indexId byteOffsetOfKeyIndex)).flushHistory

/-- `TMergeDataFileImpl::TUpdateObj`: what a merge's pushes hand the update collector. -/
structure TMergeUpdateObj (ι : Type) where
  seqNum : Nat
  offset : Nat
  isCurrent : Bool
  indexId : ι
  deriving DecidableEq, Repr

/-- A merge's `TMergeIndexFile` writing its key index: the key stream, `MaxByteOffsetOfKeyStream`,
and the objects it has handed the update collector. -/
structure TMergeIndexFile (ι κ ω : Type) where
  indexId : ι
  writer : TKeyIndexWriter κ ω
  maxByteOffsetOfKeyStream : Nat
  updates : List (TMergeUpdateObj ι)

namespace TMergeIndexFile

/-- `PrepKeyRange(max_keys, ...)`: room for `max_keys` current-key records. -/
def prepKeyRange (indexId : ι) (byteOffsetOfKeyIndex maxKeys : Nat) : TMergeIndexFile ι κ ω :=
  ⟨indexId, .prep byteOffsetOfKeyIndex, byteOffsetOfKeyIndex + maxKeys * keyEntrySize, []⟩

/-- `PushCurKey`, which asserts the stream is still in its room; a failing assert is none. -/
def pushCurKey (file : TMergeIndexFile ι κ ω) (seqNum : Nat) (key : κ) (value : ω) :
    Option (TMergeIndexFile ι κ ω) :=
  let (writer, curKeyOffset) := file.writer.pushCur seqNum key value
  if writer.keyStream.getOffset ≤ file.maxByteOffsetOfKeyStream then
    some { file with writer := writer, updates := file.updates ++ [⟨seqNum, curKeyOffset, true, file.indexId⟩] }
  else none

/-- `PushHistKey`. -/
def pushHistKey (file : TMergeIndexFile ι κ ω) (seqNum : Nat) (key : κ) (value : ω) : TMergeIndexFile ι κ ω :=
  let (writer, offset) := file.writer.pushHist seqNum key value
  { file with writer := writer, updates := file.updates ++ [⟨seqNum, offset, false, file.indexId⟩] }

/-- The loop of `FlushHistory` over `HistKeyVec`, asserting after each key that the stream is
still in its room. -/
def writeHistory (maxByteOffsetOfKeyStream : Nat) :
    TDataOutStream κ ω → List (THistoryKeyItem κ ω) → Option (TDataOutStream κ ω)
  | stream, [] => some stream
  | stream, item :: items =>
    let stream' := stream.write (histFields item)
    if stream'.getOffset ≤ maxByteOffsetOfKeyStream then writeHistory maxByteOffsetOfKeyStream stream' items
    else none

/-- `TMergeIndexFile::FlushHistory`. -/
def flushHistory (file : TMergeIndexFile ι κ ω) : Option (TMergeIndexFile ι κ ω) :=
  (writeHistory file.maxByteOffsetOfKeyStream file.writer.closeLast file.writer.histKeys).map fun stream =>
    { file with writer := { file.writer with byteOffsetOfHistory := file.writer.closeLast.getOffset, keyStream := stream } }

/-- The call the merge loop makes for one push. -/
def push (file : TMergeIndexFile ι κ ω) : TPush κ ω → Option (TMergeIndexFile ι κ ω)
  | .curKey seqNum key value => file.pushCurKey seqNum key value
  | .histKey seqNum key value => some (file.pushHistKey seqNum key value)

end TMergeIndexFile

/-- `max_key_count`: every current and history key of the sources. -/
def maxKeyCount (files : List (TIndexFile κ ω)) : Nat :=
  (files.map fun file => file.curKeys.length + file.histKeys.length).sum

/-- The key index the merge of one index writes: `PrepKeyRange(max_key_count)`, the merge loop's
pushes in order, then `FlushHistory`. -/
def writeMergeIndex (indexId : ι) (byteOffsetOfKeyIndex : Nat) (files : List (TIndexFile κ ω))
    (pushes : List (TPush κ ω)) : Option (TMergeIndexFile ι κ ω) := do
  let file ← pushes.foldlM TMergeIndexFile.push (.prepKeyRange indexId byteOffsetOfKeyIndex (maxKeyCount files))
  file.flushHistory

end Orly.Indy.Disk

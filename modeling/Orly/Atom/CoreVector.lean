import Mathlib
import Orly.Atom.NoteOrder

/-! Shipping cores over the wire: `TCoreVectorBuilder::Write` and `TCoreVector`
(`orly/atom/core_vector_builder.cc`, `orly/atom/core_vector.cc`), and `TTransportArena`
(`orly/atom/transport_arena2.cc`).

Both writers lay the notes of their arena out in one packed block and move every offset
into it. A first pass gives each note, in the order the writer visits them, the offset
`raw_size` has reached, and adds to `raw_size`, a `uint32_t`, the note's padded size with
its header, `GetPaddedSize(sizeof(TNote) + GetRawSize())`. A second pass writes a copy of
each note with its offsets remapped through that map: the header and the raw data, then
zeros up to a multiple of 8 of the raw size alone. `TCoreVectorBuilder::Write` then writes
the number of cores and each core remapped; `TTransportArena::Write` writes the set of new
offsets first and one remapped core last. The readers take `raw_size` bytes as their arena
and read a note at an offset from the header that starts there.

The stream is modelled as the items the writers write (`PackedItem`), each with the bytes
it spans; the bytes inside an item are not. A reader that would cut an item in two, or
meets an item of another kind than the one it reads, answers nothing. The builder's dirty
arena hands out a fresh offset for every note (`listStore`): a note's offset is its place
among the notes proposed, where the code uses its address. -/
namespace Orly.Atom

open Orly.Sabot AppendStore

/-- `GetPaddedSize`: the next multiple of 8, `(size + 7) & ~7`. -/
def getPaddedSize (size : Nat) : Nat := (size + 7) / 8 * 8

/-- `GetPaddedSize(sizeof(TNote) + note->GetRawSize())`: what the first pass of `Write`
counts for a note, its 8-byte header included. -/
def paddedNoteSize (note : Note) : Nat := getPaddedSize (8 + note.getRawSize)

/-- What the writers put on the stream. -/
inductive PackedItem where
  /-- A `uint32_t`. -/
  | uint32 (n : UInt32)
  /-- A `set<TOffset>`: its size, then each offset. -/
  | offsets (offsets : List Nat)
  /-- A note: its header, `sizeof(TNote)` bytes, and its raw data. -/
  | note (note : Note)
  /-- Zeros from `Padding`. -/
  | padding (n : Nat)
  /-- A `TCore`. -/
  | core (core : Core)
  deriving DecidableEq, Repr

/-- The bytes an item spans. -/
def PackedItem.byteSize : PackedItem → Nat
  | .uint32 _ => 4
  | .offsets set => 8 + 8 * set.length
  | .note n => 8 + n.getRawSize
  | .padding n => n
  | .core _ => maxDirectSize + 1

/-- The bytes a run of items spans. -/
def byteSize (items : List PackedItem) : Nat := (items.map PackedItem.byteSize).sum

/-- `map<TOffset, TOffset>`: each old offset with its new one, the newest binding first. -/
abbrev TOffsetMap := List (Nat × Nat)

/-- The `remap` lambda of the writers, `offset_map.find(old_offset)`. Where it finds nothing
the builder's `assert` fails and the transport arena throws `TUnexpectedOffset`. -/
def findOffset (offsetMap : TOffsetMap) (old : Nat) : Option Nat := offsetMap.lookup old

section Remap

/-- `TCore::Remap` with a `remap` that may fail: it is called on the offset of a blob's or a
string's `IndirectScalarArray` and of a container's `IndirectCoreArray`. -/
def Core.tryRemap (remap : Nat → Option Nat) (core : Core) : Option Core :=
  if core.tycon.hasOffset then
    match core.storage with
    | .indirectScalarArray offset size =>
      (remap offset).map fun offset => ⟨core.tycon, .indirectScalarArray offset size⟩
    | .indirectCoreArray offset elemCount isExemplar usesFullNote =>
      (remap offset).map fun offset =>
        ⟨core.tycon, .indirectCoreArray offset elemCount isExemplar usesFullNote⟩
    | _ => some core
  else some core

/-- The cores of a note remapped by a `remap` that may fail, both cores of each pair. -/
def Body.tryRemap (remap : Nat → Option Nat) : Body → Option Body
  | .raw bytes => some (.raw bytes)
  | .cores elems => (elems.mapM (Core.tryRemap remap)).map .cores
  | .pairs elems =>
    (elems.mapM fun (pair : Core × Core) => do
      let first ← pair.1.tryRemap remap
      let second ← pair.2.tryRemap remap
      return (first, second)).map .pairs

/-- `TNote::Remap` with a `remap` that may fail: a blob or string note is left as it is, and
a note of any tycon that has no note throws `TCorrupt`. -/
def Note.tryRemap (remap : Nat → Option Nat) (note : Note) : Option Note :=
  match note.tycon with
  | .blob | .str => some note
  | .desc | .free | .opt | .set | .vector | .tuple | .map | .record =>
    (note.body.tryRemap remap).map fun body => ⟨note.tycon, note.isExemplar, body⟩
  | _ => none

end Remap

section Write

/-- The notes at the offsets `order`, each with its offset: the note pointers a writer
visits, of an arena that keeps its notes in a list. -/
def pointers (notes : List Note) (order : List Nat) : List (Nat × Note) :=
  order.filterMap fun offset => notes[offset]?.map (offset, ·)

/-- The first pass of both writers: each note's old offset is mapped to `raw_size`, which
then grows, as a `uint32_t`, by the note's padded size. -/
def offsetMapLoop : List (Nat × Note) → UInt32 → TOffsetMap → TOffsetMap × UInt32
  | [], rawSize, offsetMap => (offsetMap, rawSize)
  | (offset, note) :: notes, rawSize, offsetMap =>
    offsetMapLoop notes (rawSize + UInt32.ofNat (paddedNoteSize note))
      ((offset, rawSize.toNat) :: offsetMap)

/-- One note as the second pass writes it: `WriteExactly` of its header and its raw data,
then of `padded_size - raw_size` bytes of `Padding`, where `padded_size` is `GetPaddedSize`
of the raw size alone. -/
def writeNote (note : Note) : List PackedItem :=
  [.note note, .padding (getPaddedSize note.getRawSize - note.getRawSize)]

/-- The second pass of both writers: a copy of each note (`TNote::New`), remapped, written. -/
def writeNotes (remap : Nat → Option Nat) : List (Nat × Note) → Option (List PackedItem)
  | [] => some []
  | (_, note) :: notes => do
    let copy ← note.tryRemap remap
    let items ← writeNotes remap notes
    return writeNote copy ++ items

end Write

section Read

/-- `ReadExactly(RawData, RawSize)`: the items that span the next `rawSize` bytes. -/
def readPacked : Nat → List PackedItem → Option (List PackedItem × List PackedItem)
  | 0, [] => some ([], [])
  | _ + 1, [] => none
  | rawSize, item :: items =>
    if item.byteSize ≤ rawSize then
      (readPacked (rawSize - item.byteSize) items).map fun read => (item :: read.1, read.2)
    else if rawSize = 0 then some ([], item :: items) else none

/-- `RawData + offset` taken for a note: the note whose header starts `offset` bytes into
the raw data. Anywhere else the code reads whatever bytes lie there; the model answers
nothing. -/
def noteAt : List PackedItem → Nat → Option Note
  | [], _ => none
  | .note note :: _, 0 => some note
  | item :: items, offset =>
    if item.byteSize ≤ offset then noteAt items (offset - item.byteSize) else none

/-- A note is at least its 8-byte header, so no note starts where a run of items ends that
spans no byte. -/
theorem noteAt_append (pre rest : List PackedItem) (offset : Nat) :
    noteAt (pre ++ rest) (byteSize pre + offset) = noteAt rest offset := by
  induction pre with
  | nil => simp [byteSize]
  | cons item pre ih =>
    have spans : byteSize (item :: pre) = item.byteSize + byteSize pre := by simp [byteSize]
    have notStart : ∀ note, item.byteSize + byteSize pre + offset = 0 → item = .note note → False := by
      intro note zero same
      simp [same, PackedItem.byteSize] at zero
    rw [List.cons_append, spans, noteAt.eq_3 _ _ _ notStart, if_pos (by omega),
      show item.byteSize + byteSize pre + offset - item.byteSize = byteSize pre + offset by omega, ih]

theorem noteAt_append_of_eq_some {rest : List PackedItem} {note : Note} :
    ∀ {pre : List PackedItem} {offset : Nat}, noteAt pre offset = some note →
      noteAt (pre ++ rest) offset = some note
  | [], _, found => by simp [noteAt] at found
  | item :: pre, offset, found => by
    by_cases start : ∃ n, offset = 0 ∧ item = .note n
    · obtain ⟨n, rfl, rfl⟩ := start
      exact found
    · have notStart : ∀ n, offset = 0 → item = .note n → False :=
        fun n zero same => start ⟨n, zero, same⟩
      rw [noteAt.eq_3 _ _ _ notStart] at found
      rw [List.cons_append, noteAt.eq_3 _ _ _ notStart]
      split_ifs at found ⊢
      exact noteAt_append_of_eq_some found

/-- `TCoreVector::TPackedArena`: its raw data, a note read where its header starts. It is a
plain `TArena`; the readers take extensible arenas, and the packed arena extends by a note
appended to its raw data, which no reader does. -/
def packedArena : TExtensibleArena (List PackedItem) where
  propose rawData note := (rawData ++ [.note note], byteSize rawData)
  pin := noteAt
  pin_propose rawData note := by simpa [noteAt] using noteAt_append rawData [.note note] 0
  pin_of_propose _ _ _ _ found := noteAt_append_of_eq_some found

/-- `TTransportArena`: `Offsets`, where its notes lie, and its raw data. -/
structure TTransportArena where
  offsets : List Nat
  rawData : List PackedItem
  deriving DecidableEq, Repr

/-- `TTransportArena::TryAcquireNote`: a note only at an offset of `Offsets`, read there as in
the packed arena. Like the packed arena, it extends by a note appended to its raw data. -/
def transportArena : TExtensibleArena TTransportArena where
  propose arena note :=
    (⟨arena.offsets ++ [byteSize arena.rawData], arena.rawData ++ [.note note]⟩, byteSize arena.rawData)
  pin arena offset := if offset ∈ arena.offsets then noteAt arena.rawData offset else none
  pin_propose arena note := by simpa [noteAt] using noteAt_append arena.rawData [.note note] 0
  pin_of_propose arena note offset found pinned := by
    split_ifs at pinned with held
    simp [held, noteAt_append_of_eq_some pinned]

/-- `size` cores, read by `ReadExactly(&Cores[0], size * sizeof(TCore))`. -/
def readCores : Nat → List PackedItem → Option (List Core)
  | 0, _ => some []
  | size + 1, .core core :: items => (readCores size items).map (core :: ·)
  | _ + 1, _ => none

end Read

section CoreVector

/-- `TCoreVectorBuilder::TDirtyArena`: every note proposed is kept, at an offset of its own. -/
abbrev dirtyArena : TExtensibleArena (List Note) := listStore Note

/-- `TCoreVectorBuilder`: the notes of its dirty arena in the order they were proposed, the
depth `NotesByDepth` files each under, and the cores pushed. -/
structure TCoreVectorBuilder where
  notes : List Note
  depths : List Nat
  cores : List Core
  deriving DecidableEq, Repr

namespace TCoreVectorBuilder

/-- `TCoreVectorBuilder()`. `Depth` starts unset; every push sets it before it is read. -/
def empty : TCoreVectorBuilder := ⟨[], [], []⟩

/-- `PushState`: `SetDepth` takes the depth of the state's type, and `TCore(Arena, state)`
proposes the state's notes to the dirty arena, which files each under that depth. -/
def pushState (builder : TCoreVectorBuilder) (state : State) : TCoreVectorBuilder :=
  let depth := getDepth state.type
  let (notes, core) := ofState dirtyArena builder.notes state
  ⟨notes, builder.depths ++ List.replicate (notes.length - builder.notes.length) depth,
    builder.cores ++ [core]⟩

/-- A run of `PushState`s. -/
def pushStates (builder : TCoreVectorBuilder) (states : List State) : TCoreVectorBuilder :=
  states.foldl pushState builder

/-- The orders in which `ForEachNote` may visit the notes: every note once, by increasing
depth, since `NotesByDepth` is a `map` keyed by depth; within one depth in the order of an
`unordered_set`, which the model leaves open. -/
def ForEachNote (builder : TCoreVectorBuilder) (order : List Nat) : Prop :=
  order.Perm (List.range builder.notes.length) ∧
    order.Pairwise fun a b => builder.depths[a]?.getD 0 ≤ builder.depths[b]?.getD 0

instance (builder : TCoreVectorBuilder) (order : List Nat) : Decidable (builder.ForEachNote order) :=
  inferInstanceAs (Decidable (order.Perm (List.range builder.notes.length) ∧
    order.Pairwise fun a b => builder.depths[a]?.getD 0 ≤ builder.depths[b]?.getD 0))

/-- `Write`, the notes visited in the order `order` that `ForEachNote` gives: `raw_size`, the
notes, the number of cores and the cores, each remapped. -/
def write (builder : TCoreVectorBuilder) (order : List Nat) : Option (List PackedItem) := do
  let notes := pointers builder.notes order
  let (offsetMap, rawSize) := offsetMapLoop notes 0 []
  let noteItems ← writeNotes (findOffset offsetMap) notes
  let cores ← builder.cores.mapM (Core.tryRemap (findOffset offsetMap))
  return .uint32 rawSize :: noteItems ++ .uint32 (UInt32.ofNat builder.cores.length) :: cores.map .core

end TCoreVectorBuilder

/-- `TCoreVector`: the raw data of its packed arena, and the cores. -/
structure TCoreVector where
  rawData : List PackedItem
  cores : List Core
  deriving DecidableEq, Repr

/-- `TCoreVector(strm)`: the packed arena, `raw_size` and that many bytes, then `size` and
the cores. -/
def TCoreVector.read : List PackedItem → Option TCoreVector
  | .uint32 rawSize :: items => do
    let (rawData, items) ← readPacked rawSize.toNat items
    match items with
    | .uint32 size :: items => (readCores size.toNat items).map (⟨rawData, ·⟩)
    | _ => none
  | _ => none

end CoreVector

section Transport

/-- `TTransportArena::Write` of a suprena, an interner of notes, and a core over it, the notes
visited in the order `notes` that `OrderNotes` gives. The set `offsets` gets `raw_size` beside
each entry of `offset_map`: the new offsets of the map. -/
def TTransportArena.write (suprena : List Note) (core : Core) (notes : List Nat) :
    Option (List PackedItem) := do
  let visits := pointers suprena notes
  let (offsetMap, rawSize) := offsetMapLoop visits 0 []
  let noteItems ← writeNotes (findOffset offsetMap) visits
  let temp ← core.tryRemap (findOffset offsetMap)
  return .offsets (offsetMap.map Prod.snd) :: .uint32 rawSize :: noteItems ++ [.core temp]

/-- `TTransportArena::Read`: `Offsets`, `raw_size`, that many bytes of raw data, the core. -/
def TTransportArena.read : List PackedItem → Option (TTransportArena × Core)
  | .offsets offsets :: .uint32 rawSize :: items => do
    let (rawData, items) ← readPacked rawSize.toNat items
    match items with
    | .core core :: _ => some (⟨offsets, rawData⟩, core)
    | _ => none
  | _ => none

end Transport

end Orly.Atom

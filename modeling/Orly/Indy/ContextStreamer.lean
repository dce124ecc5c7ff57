import Mathlib
import Orly.Atom.NoteOrder

/-! The context streamers of replication (`orly/indy/util/context_streamer.h`).

A `TContextOutputStreamer` copies each update it is given into a suprena of its own, an
interner of notes. `Write` puts on the stream the number of notes, then every note of the
suprena in the order `OrderNotes` gives, each as its size and a copy whose offsets are
translated to the stream's own (the sum of the sizes of the notes before it), and then
the updates with their cores translated the same way. `TContextInputStreamer::Read`
reads the notes back, translating each note's offsets from the stream's into those its
own suprena gives the notes it has read, and then the updates; its `Write` is the
output streamer's.

Both translation maps are `unordered_map`s read with `operator[]`, which answers zero for
an offset not mapped yet. A note written before a note it refers to would be silently
pointed at the first note. `OrderNotes` sorts by depth, and in the suprenas the
streamers build every note refers only to shallower notes (`DepthOrdered`), so every
note is written after the notes it refers to (`refsBefore_of_sorted`), and the reader's
suprena holds, at the translated offset of every note, the note with its offsets
translated (`readNotes_writeNotes`). A core translated so reads back there as the state
it reads back as in the writer's suprena.

The stream is modelled as the sequence of items the two sides write and read (sizes,
notes, uuids, sequence numbers, cores); the binary encoding of each item is the
`Io` streams' and is not modelled. -/
namespace Orly.Indy.Util

open Orly.Sabot Orly.Sabot.State Orly.Atom AppendStore AppendStore.Store

/-- `TTranslationMap`: an offset map, its newest binding first. -/
abbrev TTranslationMap := List (Nat × Nat)

/-- The `remapper` lambda of both streamers, `translation_map[input]`: zero for an offset
the map does not hold. -/
def remapper (translationMap : TTranslationMap) (input : Nat) : Nat :=
  (translationMap.lookup input).getD 0

/-- `sizeof(TCore::TNote) + note->GetRawSize()`, the size written before each note. -/
def noteSize (note : Note) : Nat := 8 + note.getRawSize

/-- The items the streamers write and read: a `size_t`, the bytes of a note, a uuid, a
sequence number, the bytes of a core. -/
inductive StreamItem where
  | size (n : Nat)
  | note (note : Note)
  | uuid (id : Uuid)
  | sequenceNumber (n : Nat)
  | core (core : Core)
  deriving DecidableEq, Repr

/-- `TUpdateWalker::TItem`, as `AppendUpdate` reads it: its sequence number, and the states
of its metadata, its id, and each entry's key and op, with the entry's index id. -/
structure TItem where
  sequenceNumber : Nat
  metadata : State
  id : State
  entryVec : List (Uuid × State × State)

/-- `TContextOutputStreamer::TUpdate`: a repo id, a sequence number, metadata and id cores,
and entries of an index id, a key core and an op core. -/
structure TUpdate where
  repoId : Uuid
  sequenceNumber : Nat
  metadata : Core
  id : Core
  entryVec : List (Uuid × Core × Core)
  deriving DecidableEq, Repr

/-- `TContextOutputStreamer`: the suprena its updates live in, and the updates. -/
structure TContextOutputStreamer where
  suprena : List Note
  updateVec : List TUpdate

/-- `TContextInputStreamer`: the suprena it reads notes into, and the updates it has read. -/
structure TContextInputStreamer where
  suprena : List Note
  updateVec : List TUpdate

/-- The suprena: a note interner, an offset being the position of a note in it. -/
abbrev suprenaStore : TExtensibleArena (List Note) := internStore Note

section Append

/-- The entries of `TUpdate(repo_id, item, new_arena)`: each key, then each op, copied into
the suprena. -/
def copyEntries (s : List Note) : List (Uuid × State × State) → List Note × List (Uuid × Core × Core)
  | [] => (s, [])
  | (indexId, key, op) :: rest =>
    let (s, keyCore) := ofState suprenaStore s key
    let (s, opCore) := ofState suprenaStore s op
    let (s, entries) := copyEntries s rest
    (s, (indexId, keyCore, opCore) :: entries)

/-- `AppendUpdate`: the update's metadata, id and entries copied into the suprena. -/
def TContextOutputStreamer.appendUpdate (streamer : TContextOutputStreamer) (repoId : Uuid)
    (item : TItem) : TContextOutputStreamer :=
  let (s, metadata) := ofState suprenaStore streamer.suprena item.metadata
  let (s, id) := ofState suprenaStore s item.id
  let (s, entryVec) := copyEntries s item.entryVec
  ⟨s, streamer.updateVec ++ [⟨repoId, item.sequenceNumber, metadata, id, entryVec⟩]⟩

/-- A run of `AppendUpdate`s. -/
def TContextOutputStreamer.appendUpdates (streamer : TContextOutputStreamer) :
    List (Uuid × TItem) → TContextOutputStreamer
  | [] => streamer
  | (repoId, item) :: rest => (streamer.appendUpdate repoId item).appendUpdates rest

end Append

section Write

/-- The loop of `Write` over the notes in the order `sortedNotes`: each is written as its
size and a copy remapped by the map so far, and is then mapped to `cur_offset`, which
grows by its size. `TNote::Remap` throws on a note of no container tycon. -/
def writeNotes (suprena : List Note) (translationMap : TTranslationMap) (curOffset : Nat) :
    List Nat → Option (TTranslationMap × List StreamItem)
  | [] => some (translationMap, [])
  | offset :: sortedNotes => do
    let note ← suprena[offset]?
    let temp ← note.remap (remapper translationMap)
    let (translationMap, items) ←
      writeNotes suprena ((offset, curOffset) :: translationMap) (curOffset + noteSize note) sortedNotes
    return (translationMap, .size (noteSize note) :: .note temp :: items)

/-- An entry as `Write` puts it: its index id, its key core and its op core, remapped. -/
def writeEntries (remap : Nat → Nat) : List (Uuid × Core × Core) → List StreamItem
  | [] => []
  | (indexId, key, op) :: entries =>
    .uuid indexId :: .core (key.remap remap) :: .core (op.remap remap) :: writeEntries remap entries

/-- The updates as `Write` puts them: repo id, sequence number, metadata and id cores
remapped, the number of entries, then the entries. -/
def writeUpdates (remap : Nat → Nat) : List TUpdate → List StreamItem
  | [] => []
  | update :: updates =>
    .uuid update.repoId :: .sequenceNumber update.sequenceNumber ::
      .core (update.metadata.remap remap) :: .core (update.id.remap remap) ::
      .size update.entryVec.length :: (writeEntries remap update.entryVec ++ writeUpdates remap updates)

/-- `Write` of both streamers, the notes in the order `sortedNotes` that `OrderNotes` gave. -/
def writeContext (suprena : List Note) (updateVec : List TUpdate) (sortedNotes : List Nat) :
    Option (List StreamItem) := do
  let (translationMap, noteItems) ← writeNotes suprena [] 0 sortedNotes
  return .size suprena.length :: noteItems ++
    .size updateVec.length :: writeUpdates (remapper translationMap) updateVec

/-- `TContextOutputStreamer::Write`. -/
def TContextOutputStreamer.write (streamer : TContextOutputStreamer) (sortedNotes : List Nat) :
    Option (List StreamItem) :=
  writeContext streamer.suprena streamer.updateVec sortedNotes

/-- `TContextInputStreamer::Write`, the same code. -/
def TContextInputStreamer.write (streamer : TContextInputStreamer) (sortedNotes : List Nat) :
    Option (List StreamItem) :=
  writeContext streamer.suprena streamer.updateVec sortedNotes

end Write

section Read

/-- The loop of `Read` over `numElem` notes: each is remapped by the map so far and proposed
to the suprena, and the offset it had on the stream, which grows by each note's size, is
mapped to the offset the suprena gives it. -/
def readNotes : Nat → TTranslationMap → Nat → List Note → List StreamItem →
    Option (TTranslationMap × List Note × List StreamItem)
  | 0, translationMap, _, suprena, items => some (translationMap, suprena, items)
  | numElem + 1, translationMap, oldOffset, suprena, .size noteSize :: .note temp :: items => do
    let temp ← temp.remap (remapper translationMap)
    let (suprena, newOffset) := suprenaStore.propose suprena temp
    readNotes numElem ((oldOffset, newOffset) :: translationMap) (oldOffset + noteSize) suprena items
  | _ + 1, _, _, _, _ => none

/-- `numEntry` entries, their cores remapped as they are read. -/
def readEntries (remap : Nat → Nat) : Nat → List StreamItem →
    Option (List (Uuid × Core × Core) × List StreamItem)
  | 0, items => some ([], items)
  | numEntry + 1, .uuid indexId :: .core key :: .core op :: items => do
    let (entries, items) ← readEntries remap numEntry items
    return ((indexId, key.remap remap, op.remap remap) :: entries, items)
  | _ + 1, _ => none

/-- `num_updates` updates, their cores remapped as they are read. -/
def readUpdates (remap : Nat → Nat) : Nat → List StreamItem → Option (List TUpdate × List StreamItem)
  | 0, items => some ([], items)
  | numUpdates + 1, .uuid repoId :: .sequenceNumber sequenceNumber :: .core metadata :: .core id ::
      .size numEntry :: items => do
    let (entryVec, items) ← readEntries remap numEntry items
    let (updates, items) ← readUpdates remap numUpdates items
    return (⟨repoId, sequenceNumber, metadata.remap remap, id.remap remap, entryVec⟩ :: updates, items)
  | _ + 1, _ => none

/-- `TContextInputStreamer::Read`: the notes into the streamer's suprena, then the updates
after its own. -/
def TContextInputStreamer.read (streamer : TContextInputStreamer) (items : List StreamItem) :
    Option TContextInputStreamer :=
  match items with
  | .size numElem :: items => do
    let (translationMap, suprena, items) ← readNotes numElem [] 0 streamer.suprena items
    match items with
    | .size numUpdates :: items => do
      let (updates, _) ← readUpdates (remapper translationMap) numUpdates items
      return ⟨suprena, streamer.updateVec ++ updates⟩
    | _ => none
  | _ => none

end Read

/-- An entry with its key and op cores remapped. -/
def remapEntry (f : Nat → Nat) (entry : Uuid × Core × Core) : Uuid × Core × Core :=
  (entry.1, entry.2.1.remap f, entry.2.2.remap f)

/-- An update with its cores remapped: what `Write` then `Read` make of it. -/
def TUpdate.remap (f : Nat → Nat) (update : TUpdate) : TUpdate :=
  ⟨update.repoId, update.sequenceNumber, update.metadata.remap f, update.id.remap f,
    update.entryVec.map (remapEntry f)⟩

section Translation

theorem remapper_cons (key val : Nat) (translationMap : TTranslationMap) (input : Nat) :
    remapper ((key, val) :: translationMap) input =
      if input = key then val else remapper translationMap input := by
  by_cases same : input = key
  · simp [remapper, List.lookup, same]
  · have differs : (input == key) = false := by simpa using same
    simp [remapper, List.lookup, differs, same]

theorem readEntries_writeEntries (f g : Nat → Nat) (tail : List StreamItem) :
    ∀ entries : List (Uuid × Core × Core),
      readEntries g entries.length (writeEntries f entries ++ tail) =
        some (entries.map (remapEntry (g ∘ f)), tail)
  | [] => rfl
  | (indexId, key, op) :: entries => by
    simp [writeEntries, readEntries, readEntries_writeEntries f g tail entries, remapEntry,
      Core.remap_remap]

theorem readUpdates_writeUpdates (f g : Nat → Nat) (tail : List StreamItem) :
    ∀ updates : List TUpdate,
      readUpdates g updates.length (writeUpdates f updates ++ tail) =
        some (updates.map (TUpdate.remap (g ∘ f)), tail)
  | [] => rfl
  | update :: updates => by
    simp [writeUpdates, readUpdates, readEntries_writeEntries, readUpdates_writeUpdates f g tail updates,
      TUpdate.remap, Core.remap_remap]

/-- What `Read` has built when it has read the notes `done` that `Write` wrote from the
suprena `W`, both sides at stream offset `cur`, with translation maps `M` and `R`: every
note of `done` is mapped below `cur` and refers only to notes of `done`, the reader's
suprena holds it, translated by the two remappers, at its translated offset, and holds
nothing else. -/
structure Relocated (W : List Note) (M R : TTranslationMap) (cur : Nat) (Rd : List Note)
    (done : List Nat) : Prop where
  below : ∀ o ∈ done, remapper M o < cur
  closed : ∀ o ∈ done, ∀ note, W[o]? = some note →
    ∀ core ∈ note.body.nestedCores, ∀ p, core.offset? = some p → p ∈ done
  held : ∀ o ∈ done, ∀ note, W[o]? = some note →
    Rd[remapper R (remapper M o)]? = some (note.remapBody (remapper R ∘ remapper M))
  onto : ∀ n w, Rd[n]? = some w → ∃ o ∈ done, ∃ note, W[o]? = some note ∧
    n = remapper R (remapper M o) ∧ w = note.remapBody (remapper R ∘ remapper M)

theorem relocated_nil (W : List Note) : Relocated W [] [] 0 [] [] where
  below _ mem := by cases mem
  closed _ mem := by cases mem
  held _ mem := by cases mem
  onto _ _ pinned := by simp at pinned

variable {W : List Note} {M R : TTranslationMap} {cur : Nat} {Rd : List Note} {done : List Nat}

/-- Writing the note at `o` and reading it back: the writer maps `o` to `cur`, the reader
maps `cur` to where its suprena puts the note, and the notes already passed keep their
translation, since `o` is not one of them and each of them is mapped below `cur`. -/
theorem Relocated.step (relocated : Relocated W M R cur Rd done) {o : Nat} {note : Note}
    (fresh : o ∉ done) (pinned : W[o]? = some note)
    (refs : ∀ core ∈ note.body.nestedCores, ∀ p, core.offset? = some p → p ∈ done) :
    Relocated W ((o, cur) :: M)
      ((cur, (suprenaStore.propose Rd (note.remapBody (remapper R ∘ remapper M))).2) :: R)
      (cur + noteSize note) (suprenaStore.propose Rd (note.remapBody (remapper R ∘ remapper M))).1
      (o :: done) := by
  set f := remapper R ∘ remapper M
  set n := (suprenaStore.propose Rd (note.remapBody f)).2
  have agree : ∀ p ∈ done,
      remapper ((cur, n) :: R) (remapper ((o, cur) :: M) p) = remapper R (remapper M p) := by
    intro p mem
    have other : p ≠ o := fun same => fresh (same ▸ mem)
    have lower := relocated.below p mem
    rw [remapper_cons o cur M p, if_neg other, remapper_cons cur n R, if_neg (by omega)]
  have mapped : remapper ((cur, n) :: R) (remapper ((o, cur) :: M) o) = n := by
    rw [remapper_cons o cur M o, if_pos rfl, remapper_cons cur n R cur, if_pos rfl]
  have sameBody : ∀ p ∈ done, ∀ w, W[p]? = some w →
      w.remapBody (remapper ((cur, n) :: R) ∘ remapper ((o, cur) :: M)) = w.remapBody f :=
    fun p mem w found => Note.remapBody_congr fun core inCore q kept =>
      agree q (relocated.closed p mem w found core inCore q kept)
  have noteBody : note.remapBody (remapper ((cur, n) :: R) ∘ remapper ((o, cur) :: M)) =
      note.remapBody f :=
    Note.remapBody_congr fun core inCore q kept => agree q (refs core inCore q kept)
  have grown := Store.extends_propose (A := suprenaStore) Rd (note.remapBody f)
  refine ⟨fun p mem => ?_, fun p mem w found => ?_, fun p mem w found => ?_, fun m w held => ?_⟩
  · have positive : 0 < noteSize note := by simp [noteSize]
    rcases List.mem_cons.mp mem with rfl | old
    · rw [remapper_cons p cur M p, if_pos rfl]
      omega
    · have lower := relocated.below p old
      rw [remapper_cons o cur M p, if_neg (fun same : p = o => fresh (same ▸ old))]
      omega
  · rcases List.mem_cons.mp mem with rfl | old
    · rw [found] at pinned
      cases pinned
      exact fun core inCore q kept => List.mem_cons_of_mem _ (refs core inCore q kept)
    · exact fun core inCore q kept => List.mem_cons_of_mem _ (relocated.closed p old w found core inCore q kept)
  · rcases List.mem_cons.mp mem with rfl | old
    · rw [found] at pinned
      cases pinned
      rw [mapped, noteBody]
      exact suprenaStore.pin_propose Rd _
    · rw [agree p old, sameBody p old w found]
      exact grown.pin (relocated.held p old w found)
  · rcases internStore_proposesOne Note Rd (note.remapBody f) m w held with old | ⟨rfl, rfl⟩
    · obtain ⟨p, mem, w', found, rfl, rfl⟩ := relocated.onto m w old
      exact ⟨p, List.mem_cons_of_mem _ mem, w', found, (agree p mem).symm, (sameBody p mem w' found).symm⟩
    · exact ⟨o, List.mem_cons_self, note, pinned, mapped.symm, noteBody.symm⟩

/-- `Write`'s loop over notes each written after the notes it refers to, and `Read`'s loop
over what it wrote: the reader's suprena ends holding every note written, translated. -/
theorem readNotes_writeNotes (shaped : ∀ (o : Nat) (note : Note), W[o]? = some note → note.shaped) :
    ∀ {order done : List Nat} {M R : TTranslationMap} {cur : Nat} {Rd : List Note},
      RefsBefore suprenaStore W done order → (order ++ done).Nodup →
      (∀ o ∈ order, ∃ note, W[o]? = some note) → Relocated W M R cur Rd done →
      ∃ M' items, writeNotes W M cur order = some (M', items) ∧ ∀ tail, ∃ R' cur' Rd',
        readNotes order.length R cur Rd (items ++ tail) = some (R', Rd', tail) ∧
          Relocated W M' R' cur' Rd' (order.reverse ++ done)
  | [], _, M, R, cur, Rd, _, _, _, relocated =>
    ⟨M, [], rfl, fun _ => ⟨R, cur, Rd, rfl, by simpa using relocated⟩⟩
  | o :: rest, done, M, R, cur, Rd, refs, nodup, pinned, relocated => by
    obtain ⟨note, found⟩ := pinned o List.mem_cons_self
    have fresh : o ∉ done := fun mem => (List.nodup_cons.mp nodup).1 (List.mem_append_right rest mem)
    have shapedNote := shaped o note found
    obtain ⟨M', items, written, read⟩ := readNotes_writeNotes shaped refs.2
      (List.nodup_middle.mpr nodup) (fun p mem => pinned p (List.mem_cons_of_mem o mem))
      (relocated.step fresh found (refs.1 note found))
    refine ⟨M', .size (noteSize note) :: .note (note.remapBody (remapper M)) :: items, ?_, fun tail => ?_⟩
    · simp [writeNotes, found, Note.remap_of_shaped shapedNote, written]
    · obtain ⟨R', cur', Rd', readBack, final⟩ := read tail
      refine ⟨R', cur', Rd', ?_, by simpa using final⟩
      have shapedCopy : (note.remapBody (remapper M)).shaped := by simpa using shapedNote
      have remapped := Note.remap_of_shaped shapedCopy (remapper R)
      simp only [List.length_cons, List.cons_append, readNotes, remapped, Note.remapBody_remapBody,
        Option.bind_eq_bind, Option.bind_some]
      exact readBack

end Translation

section RoundTrip

/-- `Write` then `Read` of a suprena whose notes have their shapes, written in an order that
puts every note after the notes it refers to: the reader's suprena holds exactly the
notes written, translated by the composite `f` of the two remappers, and the updates
come back in order with their cores translated by `f`. -/
theorem read_writeContext {W : List Note} (updateVec : List TUpdate) {sortedNotes : List Nat}
    (shaped : ∀ (o : Nat) (note : Note), W[o]? = some note → note.shaped)
    (refs : RefsBefore suprenaStore W [] sortedNotes) (perm : sortedNotes.Perm (List.range W.length)) :
    ∃ f Rd, (writeContext W updateVec sortedNotes).bind (TContextInputStreamer.read ⟨[], []⟩) =
        some ⟨Rd, updateVec.map (TUpdate.remap f)⟩ ∧
      Renames suprenaStore W suprenaStore Rd f ∧
      ∀ n w, Rd[n]? = some w → ∃ o note, W[o]? = some note ∧ n = f o ∧ w = note.remapBody f := by
  have pinned : ∀ o ∈ sortedNotes, ∃ note, W[o]? = some note := fun o mem => by
    have inRange := List.mem_range.mp (perm.subset mem)
    exact ⟨W[o], List.getElem?_eq_getElem inRange⟩
  have nodup : (sortedNotes ++ []).Nodup := by simpa using perm.nodup_iff.mpr List.nodup_range
  obtain ⟨M, items, written, read⟩ := readNotes_writeNotes shaped refs nodup pinned (relocated_nil W)
  obtain ⟨R, cur, Rd, readBack, relocated⟩ :=
    read (.size updateVec.length :: writeUpdates (remapper M) updateVec)
  have counted : sortedNotes.length = W.length := by simpa using perm.length_eq
  refine ⟨remapper R ∘ remapper M, Rd, ?_, fun o note found => ?_, fun n w held => ?_⟩
  · have updatesBack := readUpdates_writeUpdates (remapper M) (remapper R) [] updateVec
    rw [List.append_nil] at updatesBack
    rw [counted] at readBack
    simp [writeContext, written, TContextInputStreamer.read, readBack, updatesBack]
  · have mem : o ∈ sortedNotes :=
      perm.symm.subset (List.mem_range.mpr (List.getElem?_eq_some_iff.mp found).1)
    exact relocated.held o (by simpa using mem) note found
  · obtain ⟨o, -, note, found, rfl, rfl⟩ := relocated.onto n w held
    exact ⟨o, note, found, rfl, rfl⟩

end RoundTrip

section Carries

/-- A state `TCore(arena, state)` stores and reads back: well typed, its field names free
of NUL. -/
def Storable (e : State) : Prop := e.WellTyped ∧ e.type.NulFreeNames

/-- Every state of an item is storable. -/
def TItem.Storable (item : TItem) : Prop :=
  Orly.Indy.Util.Storable item.metadata ∧ Orly.Indy.Util.Storable item.id ∧
    ∀ entry ∈ item.entryVec, Orly.Indy.Util.Storable entry.2.1 ∧ Orly.Indy.Util.Storable entry.2.2

/-- A core of the suprena that stands for the state `e`: its offsets are those of notes whose
own core it is, and it reads back as `e`. -/
def CarriesCore (suprena : List Note) (core : Core) (e : State) : Prop :=
  PointsHome suprenaStore suprena core ∧ ReadsBack suprenaStore suprena core e

/-- An entry of an update that stands for an entry of an item: the same index id, and key
and op cores that stand for the item's key and op. -/
def CarriesEntry (suprena : List Note) (entry : Uuid × State × State) (copy : Uuid × Core × Core) :
    Prop :=
  copy.1 = entry.1 ∧ CarriesCore suprena copy.2.1 entry.2.1 ∧ CarriesCore suprena copy.2.2 entry.2.2

/-- An update that stands for the item appended with repo id `item.1`: the same repo id and
sequence number, and metadata, id and entries that stand for the item's, in order. -/
def CarriesUpdate (suprena : List Note) (item : Uuid × TItem) (update : TUpdate) : Prop :=
  update.repoId = item.1 ∧ update.sequenceNumber = item.2.sequenceNumber ∧
    CarriesCore suprena update.metadata item.2.metadata ∧ CarriesCore suprena update.id item.2.id ∧
    List.Forall₂ (CarriesEntry suprena) item.2.entryVec update.entryVec

/-- A streamer's suprena and updates carry the items: the suprena is depth-ordered, and its
updates stand, one for one and in order, for the items. -/
def Carries (suprena : List Note) (updateVec : List TUpdate) (items : List (Uuid × TItem)) : Prop :=
  DepthOrdered suprenaStore suprena ∧ List.Forall₂ (CarriesUpdate suprena) items updateVec

variable {s s' : List Note} {core : Core} {e : State}

theorem CarriesCore.mono (carries : CarriesCore s core e) (grown : suprenaStore.Extends s s') :
    CarriesCore s' core e :=
  ⟨carries.1.mono grown, carries.2.mono grown⟩

theorem CarriesCore.renames {f : Nat → Nat} (carries : CarriesCore s core e)
    (renames : Renames suprenaStore s suprenaStore s' f) : CarriesCore s' (core.remap f) e :=
  ⟨carries.1.renames renames, carries.2.renames renames⟩

theorem CarriesUpdate.mono {item : Uuid × TItem} {update : TUpdate}
    (carries : CarriesUpdate s item update) (grown : suprenaStore.Extends s s') :
    CarriesUpdate s' item update := by
  obtain ⟨repo, sequence, metadata, id, entries⟩ := carries
  exact ⟨repo, sequence, metadata.mono grown, id.mono grown,
    entries.imp fun _ _ ⟨index, key, op⟩ => ⟨index, key.mono grown, op.mono grown⟩⟩

theorem CarriesUpdate.renames {f : Nat → Nat} {item : Uuid × TItem} {update : TUpdate}
    (carries : CarriesUpdate s item update) (renames : Renames suprenaStore s suprenaStore s' f) :
    CarriesUpdate s' item (update.remap f) := by
  obtain ⟨repo, sequence, metadata, id, entries⟩ := carries
  refine ⟨repo, sequence, metadata.renames renames, id.renames renames, ?_⟩
  exact List.forall₂_map_right_iff.mpr
    (entries.imp fun _ _ ⟨index, key, op⟩ => ⟨index, key.renames renames, op.renames renames⟩)

/-- `TCore(arena, state)` of a storable state into a depth-ordered suprena leaves it
depth-ordered, with a core that stands for the state. -/
theorem carriesCore_ofState (ordered : DepthOrdered suprenaStore s) (storable : Storable e) :
    DepthOrdered suprenaStore (ofState suprenaStore s e).1 ∧
      CarriesCore (ofState suprenaStore s e).1 (ofState suprenaStore s e).2 e := by
  have built := depthOrdered_ofState (internStore_proposesOne Note) s e ordered storable.1 storable.2
  exact ⟨built.1, built.2.1, (ofState_spec s e).2 storable.1 storable.2⟩

theorem extends_copyEntries (s : List Note) :
    ∀ entries : List (Uuid × State × State), suprenaStore.Extends s (copyEntries s entries).1
  | [] => Extends.refl s
  | (_, key, op) :: rest =>
    (ofState_spec s key).1.trans ((ofState_spec _ op).1.trans (extends_copyEntries _ rest))

theorem carries_copyEntries (s : List Note) :
    ∀ entries : List (Uuid × State × State), DepthOrdered suprenaStore s →
      (∀ entry ∈ entries, Storable entry.2.1 ∧ Storable entry.2.2) →
      DepthOrdered suprenaStore (copyEntries s entries).1 ∧
        List.Forall₂ (CarriesEntry (copyEntries s entries).1) entries (copyEntries s entries).2
  | [], ordered, _ => ⟨ordered, .nil⟩
  | (indexId, key, op) :: rest, ordered, storable => by
    obtain ⟨keyStorable, opStorable⟩ := storable _ List.mem_cons_self
    obtain ⟨orderedKey, carriesKey⟩ := carriesCore_ofState ordered keyStorable
    obtain ⟨orderedOp, carriesOp⟩ := carriesCore_ofState orderedKey opStorable
    obtain ⟨orderedRest, carriesRest⟩ := carries_copyEntries _ rest orderedOp
      fun entry mem => storable entry (List.mem_cons_of_mem _ mem)
    have grownRest := extends_copyEntries (ofState suprenaStore (ofState suprenaStore s key).1 op).1 rest
    have grownOp := (ofState_spec (A := suprenaStore) (ofState suprenaStore s key).1 op).1
    exact ⟨orderedRest, .cons ⟨rfl, (carriesKey.mono grownOp).mono grownRest, carriesOp.mono grownRest⟩
      carriesRest⟩

/-- `AppendUpdate` of a storable item keeps what the streamer carries, and carries the item
after them. -/
theorem carries_appendUpdate {streamer : TContextOutputStreamer} {items : List (Uuid × TItem)}
    (carries : Carries streamer.suprena streamer.updateVec items) (repoId : Uuid) {item : TItem}
    (storable : item.Storable) :
    Carries (streamer.appendUpdate repoId item).suprena (streamer.appendUpdate repoId item).updateVec
      (items ++ [(repoId, item)]) := by
  obtain ⟨ordered, updates⟩ := carries
  obtain ⟨metadataStorable, idStorable, entriesStorable⟩ := storable
  obtain ⟨orderedMetadata, carriesMetadata⟩ := carriesCore_ofState ordered metadataStorable
  obtain ⟨orderedId, carriesId⟩ := carriesCore_ofState orderedMetadata idStorable
  set s₁ := (ofState suprenaStore streamer.suprena item.metadata).1
  set s₂ := (ofState suprenaStore s₁ item.id).1
  obtain ⟨orderedEntries, carriesEntries⟩ := carries_copyEntries s₂ item.entryVec orderedId entriesStorable
  have grownEntries := extends_copyEntries s₂ item.entryVec
  have grownId := (ofState_spec (A := suprenaStore) s₁ item.id).1
  have grown : suprenaStore.Extends streamer.suprena (copyEntries s₂ item.entryVec).1 :=
    ((ofState_spec (A := suprenaStore) streamer.suprena item.metadata).1.trans grownId).trans grownEntries
  refine ⟨orderedEntries, List.rel_append (updates.imp fun _ _ carriesUpdate => carriesUpdate.mono grown)
    (.cons ⟨rfl, rfl, (carriesMetadata.mono grownId).mono grownEntries, carriesId.mono grownEntries,
      carriesEntries⟩ .nil)⟩

theorem carries_appendUpdates :
    ∀ (streamer : TContextOutputStreamer) (items rest : List (Uuid × TItem)),
      Carries streamer.suprena streamer.updateVec items → (∀ item ∈ rest, item.2.Storable) →
      Carries (streamer.appendUpdates rest).suprena (streamer.appendUpdates rest).updateVec (items ++ rest)
  | _, _, [], carries, _ => by simpa [TContextOutputStreamer.appendUpdates] using carries
  | streamer, items, (repoId, item) :: rest, carries, storable => by
    have next := carries_appendUpdate carries repoId (storable _ List.mem_cons_self)
    simpa [TContextOutputStreamer.appendUpdates] using
      carries_appendUpdates _ _ rest next fun item mem => storable item (List.mem_cons_of_mem _ mem)

end Carries

section Streamers

/-- Fuel enough for `NoteCmp` to read the type of every note of the suprena. -/
def Enough (suprena : List Note) (fuel : Nat) : Prop :=
  ∀ o ∈ List.range suprena.length, ((suprena[o]?).bind (noteType suprenaStore suprena fuel o)).isSome

instance (suprena : List Note) (fuel : Nat) : Decidable (Enough suprena fuel) :=
  inferInstanceAs (Decidable (∀ o ∈ List.range suprena.length,
    ((suprena[o]?).bind (noteType suprenaStore suprena fuel o)).isSome))

theorem depthOrdered_nil : DepthOrdered suprenaStore [] := fun o note pinned => by
  simp [suprenaStore, internStore] at pinned

/-- `Write` then `Read` of a suprena and updates that carry the items, the notes in the
order `OrderNotes` gives with fuel enough to read every note's type: the input streamer
read carries the items too. -/
theorem carries_read_write {suprena : List Note} {updateVec : List TUpdate}
    {items : List (Uuid × TItem)} (carries : Carries suprena updateVec items) {fuel : Nat}
    {tieBreak : Nat → Nat → Bool} {sortedNotes : List Nat}
    (sorted : OrderNotes suprenaStore suprena fuel tieBreak (List.range suprena.length) sortedNotes)
    (enough : Enough suprena fuel) :
    ∃ input, (writeContext suprena updateVec sortedNotes).bind (TContextInputStreamer.read ⟨[], []⟩) =
      some input ∧ Carries input.suprena input.updateVec items := by
  obtain ⟨ordered, updates⟩ := carries
  have inRange : ∀ {o : Nat} {note : Note}, suprena[o]? = some note → o ∈ List.range suprena.length :=
    fun pinned => List.mem_range.mpr (List.getElem?_eq_some_iff.mp pinned).1
  have reads : ∀ o note, suprenaStore.pin suprena o = some note →
      (noteType suprenaStore suprena fuel o note).isSome := by
    intro o note pinned
    have answered := enough o (inRange pinned)
    rwa [show suprena[o]? = some note from pinned, Option.bind_some] at answered
  have refs : RefsBefore suprenaStore suprena [] sortedNotes :=
    refsBefore_of_sorted ordered reads (fun o note pinned => .inr (sorted.1.symm.subset (inRange pinned)))
      sorted.2
  obtain ⟨f, Rd, roundTrip, renames, onto⟩ :=
    read_writeContext updateVec (fun o note pinned => (ordered o note pinned).1) refs sorted.1
  exact ⟨_, roundTrip, ordered.renames renames onto,
    List.forall₂_map_right_iff.mpr (updates.imp fun _ _ carriesUpdate => carriesUpdate.renames renames)⟩

/-- Why the order matters: a tuple note written before the string note it refers to has
that reference translated to the zero the map answers, which the reader takes for the
tuple note itself, and the key no longer reads back. -/
example :
    (((TContextOutputStreamer.appendUpdates ⟨[], []⟩
        [(7, ⟨1, .int64 0, .int64 3, [(5, .tuple [.str (List.replicate 24 66)], .int64 2)]⟩)]).write
        [1, 0]).bind (TContextInputStreamer.read ⟨[], []⟩)).map
      (fun input => (input.updateVec.flatMap TUpdate.entryVec).map fun entry =>
        newState suprenaStore input.suprena 5 entry.2.1) = some [none] := by
  rfl

/-- Replication transfer: the output streamer a run of `AppendUpdate`s of storable items
builds, written with its notes in the order `OrderNotes` gives, reads back as an input
streamer that carries the items (their repo ids, sequence numbers and index ids, and
cores that read back in its suprena as the items' states, in order); and any input
streamer that carries them does so again after its own `Write` and a `Read`. -/
theorem contextStreamer_write_read (items : List (Uuid × TItem))
    (storable : ∀ item ∈ items, item.2.Storable) :
    (∀ (fuel : Nat) (tieBreak : Nat → Nat → Bool) (sortedNotes : List Nat),
      OrderNotes suprenaStore (TContextOutputStreamer.appendUpdates ⟨[], []⟩ items).suprena fuel tieBreak
        (List.range (TContextOutputStreamer.appendUpdates ⟨[], []⟩ items).suprena.length) sortedNotes →
      Enough (TContextOutputStreamer.appendUpdates ⟨[], []⟩ items).suprena fuel →
      ∃ input, ((TContextOutputStreamer.appendUpdates ⟨[], []⟩ items).write sortedNotes).bind
          (TContextInputStreamer.read ⟨[], []⟩) = some input ∧
        Carries input.suprena input.updateVec items) ∧
    ∀ input : TContextInputStreamer, Carries input.suprena input.updateVec items →
      ∀ (fuel : Nat) (tieBreak : Nat → Nat → Bool) (sortedNotes : List Nat),
      OrderNotes suprenaStore input.suprena fuel tieBreak (List.range input.suprena.length) sortedNotes →
      Enough input.suprena fuel →
      ∃ input', (input.write sortedNotes).bind (TContextInputStreamer.read ⟨[], []⟩) = some input' ∧
        Carries input'.suprena input'.updateVec items := by
  have built := carries_appendUpdates ⟨[], []⟩ [] items ⟨depthOrdered_nil, .nil⟩ storable
  rw [List.nil_append] at built
  exact ⟨fun _ _ _ sorted enough => carries_read_write built sorted enough,
    fun _ carries _ _ _ sorted enough => carries_read_write carries sorted enough⟩

/-- An update whose metadata is a string too long to be direct, whose key is a tuple
holding an empty opt, and whose op is a set. -/
def sampleItems : List (Uuid × TItem) :=
  [(7, ⟨1, .str (List.replicate 24 65), .int64 3,
    [(5, .tuple [.int64 1, .opt .int64 none], .set .int64 [.int64 2])]⟩)]

theorem contextStreamer_write_read_sample :
    (∀ item ∈ sampleItems, item.2.Storable) ∧
      OrderNotes suprenaStore (TContextOutputStreamer.appendUpdates ⟨[], []⟩ sampleItems).suprena 4
        (fun _ _ => false)
        (List.range (TContextOutputStreamer.appendUpdates ⟨[], []⟩ sampleItems).suprena.length)
        [0, 1, 3, 2] ∧
      Enough (TContextOutputStreamer.appendUpdates ⟨[], []⟩ sampleItems).suprena 4 ∧
      ∃ input, ((TContextOutputStreamer.appendUpdates ⟨[], []⟩ sampleItems).write [0, 1, 3, 2]).bind
          (TContextInputStreamer.read ⟨[], []⟩) = some input ∧
        Carries input.suprena input.updateVec sampleItems := by
  have storable : ∀ item ∈ sampleItems, item.2.Storable := by
    simp only [sampleItems, List.forall_mem_singleton, TItem.Storable]
    simp [Storable, WellTyped, allWellTyped, allOfType, State.type, types, Ty.NulFreeNames,
      Ty.listNulFreeNames]
  have sorted : OrderNotes suprenaStore (TContextOutputStreamer.appendUpdates ⟨[], []⟩ sampleItems).suprena 4
      (fun _ _ => false)
      (List.range (TContextOutputStreamer.appendUpdates ⟨[], []⟩ sampleItems).suprena.length)
      [0, 1, 3, 2] := by
    decide +kernel
  have enough : Enough (TContextOutputStreamer.appendUpdates ⟨[], []⟩ sampleItems).suprena 4 := by
    decide +kernel
  exact ⟨storable, sorted, enough,
    (contextStreamer_write_read sampleItems storable).1 4 (fun _ _ => false) [0, 1, 3, 2] sorted enough⟩

/-- An update whose op is a NaN `double`. -/
def nanItems : List (Uuid × TItem) :=
  [(0, ⟨1, .int64 0, .int64 0, [(0, .int64 1, .double 0x7FF8000000000000)]⟩)]

/-- The NaN op comes back bit for bit, but `OrderStates` of the state read back against the
original answers `Gt`, not `Eq`. -/
theorem contextStreamer_nan_op_not_order_eq :
    ∃ input, ((TContextOutputStreamer.appendUpdates ⟨[], []⟩ nanItems).write []).bind
        (TContextInputStreamer.read ⟨[], []⟩) = some input ∧
      (input.updateVec.flatMap TUpdate.entryVec).map
          (fun entry => newState suprenaStore input.suprena 1 entry.2.2) =
        [some (.double 0x7FF8000000000000)] ∧
      orderStates (.double 0x7FF8000000000000) (.double 0x7FF8000000000000) = some .gt :=
  ⟨_, rfl, rfl, by decide +kernel⟩

end Streamers

end Orly.Indy.Util

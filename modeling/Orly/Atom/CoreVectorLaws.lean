import Mathlib
import Orly.Atom.CoreVector

/-! What shipping cores keeps. The first pass of `Write` maps each note to the bytes the notes
before it take, padded; the second pass writes the notes there, remapped, so the packed data
pins every note of a closed dirty arena at its new offset and nothing else. A reader of the
wire then finds each core moved onto that data, and `newState` reads the same states back.
The `uint32_t` of `raw_size` and of the count bound what fits. -/
namespace Orly.Atom

open Orly.Sabot AppendStore

section Sizes

theorem getPaddedSize_eight_add (size : Nat) : getPaddedSize (8 + size) = 8 + getPaddedSize size := by
  unfold getPaddedSize
  omega

theorem le_getPaddedSize (size : Nat) : size ≤ getPaddedSize size := by
  unfold getPaddedSize
  omega

theorem byteSize_writeNote (note : Note) : byteSize (writeNote note) = paddedNoteSize note := by
  have padded := le_getPaddedSize note.getRawSize
  simp only [byteSize, writeNote, List.map_cons, List.map_nil, List.sum_cons, List.sum_nil,
    PackedItem.byteSize, paddedNoteSize, getPaddedSize_eight_add]
  omega

@[simp] theorem Note.getRawSize_remapBody (f : Nat → Nat) (note : Note) :
    (note.remapBody f).getRawSize = note.getRawSize := by
  obtain ⟨tycon, isExemplar, body⟩ := note
  cases body <;> simp [Note.getRawSize, Note.remapBody, Body.remap]

end Sizes

section TryRemap

variable {remap : Nat → Option Nat} {f : Nat → Nat}

theorem Core.tryRemap_eq_some {core : Core} (agree : ∀ o, core.offset? = some o → remap o = some (f o)) :
    core.tryRemap remap = some (core.remap f) := by
  obtain ⟨tycon, storage⟩ := core
  unfold Core.tryRemap Core.remap
  split_ifs with kept
  · cases storage <;> simp_all [Core.offset?, Storage.offset?, Storage.remapOffset]
  · rfl

theorem mapM_eq_some_map {α β : Type} {h : α → Option β} {g : α → β} :
    ∀ {l : List α}, (∀ x ∈ l, h x = some (g x)) → l.mapM h = some (l.map g)
  | [], _ => rfl
  | x :: l, agree => by
    simp [agree x List.mem_cons_self, mapM_eq_some_map fun y mem => agree y (List.mem_cons_of_mem x mem)]

theorem Body.tryRemap_eq_some {body : Body}
    (agree : ∀ core ∈ body.nestedCores, ∀ o, core.offset? = some o → remap o = some (f o)) :
    body.tryRemap remap = some (body.remap f) := by
  cases body with
  | raw bytes => rfl
  | cores elems =>
    have each : ∀ core ∈ elems, core.tryRemap remap = some (core.remap f) :=
      fun core mem => Core.tryRemap_eq_some (agree core mem)
    rw [Body.tryRemap, mapM_eq_some_map each]
    rfl
  | pairs elems =>
    have each : ∀ pair ∈ elems, (do
        let first ← pair.1.tryRemap remap
        let second ← pair.2.tryRemap remap
        return (first, second)) = some (remapPair f pair) := by
      intro pair mem
      have first := Core.tryRemap_eq_some (agree pair.1 (by simp only [Body.nestedCores, List.mem_flatMap]; exact ⟨pair, mem, by simp⟩))
      have second := Core.tryRemap_eq_some (agree pair.2 (by simp only [Body.nestedCores, List.mem_flatMap]; exact ⟨pair, mem, by simp⟩))
      simp [first, second, remapPair]
    rw [Body.tryRemap, mapM_eq_some_map each]
    rfl

theorem Note.tryRemap_eq_some {note : Note} (shaped : note.shaped)
    (agree : ∀ core ∈ note.body.nestedCores, ∀ o, core.offset? = some o → remap o = some (f o)) :
    note.tryRemap remap = some (note.remapBody f) := by
  obtain ⟨tycon, isExemplar, body⟩ := note
  have remapped := Body.tryRemap_eq_some agree
  cases tycon <;> cases body <;> simp_all [Note.shaped, Note.tryRemap, Note.remapBody, Body.remap]

end TryRemap

section FirstPass

/-- The bytes the first pass counts for the notes `visits`. -/
def packedSize (visits : List (Nat × Note)) : Nat := (visits.map fun visit => paddedNoteSize visit.2).sum

theorem packedSize_cons (o : Nat) (note : Note) (visits : List (Nat × Note)) :
    packedSize ((o, note) :: visits) = paddedNoteSize note + packedSize visits := by
  simp [packedSize]

theorem offsetMapLoop_rawSize : ∀ (visits : List (Nat × Note)) (rawSize : Nat) (offsetMap : TOffsetMap),
    (offsetMapLoop visits (UInt32.ofNat rawSize) offsetMap).2 = UInt32.ofNat (rawSize + packedSize visits)
  | [], rawSize, offsetMap => by simp [offsetMapLoop, packedSize]
  | (o, note) :: visits, rawSize, offsetMap => by
    rw [offsetMapLoop, ← UInt32.ofNat_add, offsetMapLoop_rawSize visits, packedSize_cons, Nat.add_assoc]

theorem lookup_offsetMapLoop_of_not_mem {o : Nat} :
    ∀ {visits : List (Nat × Note)} {rawSize : UInt32} {offsetMap : TOffsetMap}, o ∉ visits.map Prod.fst →
      (offsetMapLoop visits rawSize offsetMap).1.lookup o = offsetMap.lookup o
  | [], _, _, _ => rfl
  | (o', note) :: visits, rawSize, offsetMap, absent => by
    have differs : (o == o') = false := by
      simpa using fun same : o = o' => absent (by simp [same])
    rw [offsetMapLoop, lookup_offsetMapLoop_of_not_mem fun mem => absent (List.mem_cons_of_mem _ mem)]
    simp [List.lookup_cons, differs]

/-- The first pass maps each note's offset to the bytes counted for the notes before it. -/
theorem lookup_offsetMapLoop {o : Nat} {note : Note} :
    ∀ {pre post : List (Nat × Note)} {rawSize : Nat} {offsetMap : TOffsetMap},
      ((pre ++ (o, note) :: post).map Prod.fst).Nodup →
      rawSize + packedSize (pre ++ (o, note) :: post) < 2 ^ 32 →
      (offsetMapLoop (pre ++ (o, note) :: post) (UInt32.ofNat rawSize) offsetMap).1.lookup o =
        some (rawSize + packedSize pre)
  | [], post, rawSize, offsetMap, nodup, fits => by
    have absent : o ∉ post.map Prod.fst := by simpa using (List.nodup_cons.mp nodup).1
    have small : rawSize < 4294967296 := by
      rw [List.nil_append, packedSize_cons] at fits
      omega
    rw [List.nil_append, offsetMapLoop, lookup_offsetMapLoop_of_not_mem absent]
    simp [UInt32.toNat_ofNat', Nat.mod_eq_of_lt small, packedSize]
  | (o', note') :: pre, post, rawSize, offsetMap, nodup, fits => by
    rw [List.cons_append] at nodup fits ⊢
    rw [offsetMapLoop, ← UInt32.ofNat_add,
      lookup_offsetMapLoop (List.nodup_cons.mp nodup).2 (by rw [packedSize_cons] at fits; omega),
      packedSize_cons, Nat.add_assoc]

end FirstPass

section SecondPass

/-- What the second pass writes for the notes `visits`, their offsets moved by `f`. -/
def writtenNotes (f : Nat → Nat) (visits : List (Nat × Note)) : List PackedItem :=
  visits.flatMap fun visit => writeNote (visit.2.remapBody f)

variable {remap : Nat → Option Nat} {f : Nat → Nat}

theorem writeNotes_eq_some : ∀ {visits : List (Nat × Note)},
    (∀ visit ∈ visits, visit.2.shaped ∧
      ∀ core ∈ visit.2.body.nestedCores, ∀ o, core.offset? = some o → remap o = some (f o)) →
    writeNotes remap visits = some (writtenNotes f visits)
  | [], _ => rfl
  | (o, note) :: visits, remapped => by
    obtain ⟨shaped, agree⟩ := remapped (o, note) List.mem_cons_self
    rw [writeNotes, Note.tryRemap_eq_some shaped agree,
      writeNotes_eq_some fun visit mem => remapped visit (List.mem_cons_of_mem _ mem)]
    rfl

theorem byteSize_append (first second : List PackedItem) :
    byteSize (first ++ second) = byteSize first + byteSize second := by
  simp [byteSize]

theorem byteSize_writtenNotes (f : Nat → Nat) :
    ∀ visits : List (Nat × Note), byteSize (writtenNotes f visits) = packedSize visits
  | [] => rfl
  | (o, note) :: visits => by
    rw [writtenNotes, List.flatMap_cons, byteSize_append, byteSize_writeNote, ← writtenNotes,
      byteSize_writtenNotes f visits, packedSize_cons]
    simp [paddedNoteSize]

theorem noteAt_writtenNotes {o : Nat} {note : Note} (pre post : List (Nat × Note)) :
    noteAt (writtenNotes f (pre ++ (o, note) :: post)) (packedSize pre) = some (note.remapBody f) := by
  have placed := noteAt_append (writtenNotes f pre) (writeNote (note.remapBody f) ++ writtenNotes f post) 0
  rw [Nat.add_zero, byteSize_writtenNotes] at placed
  rw [writtenNotes, List.flatMap_append, List.flatMap_cons, ← writtenNotes, ← writtenNotes, placed]
  rfl

/-- Past the start of a note, its header, raw data and padding span what the first pass
counted for it. -/
theorem noteAt_writeNote_append (note : Note) (rest : List PackedItem) {offset : Nat} (past : offset ≠ 0) :
    noteAt (writeNote note ++ rest) offset =
      if paddedNoteSize note ≤ offset then noteAt rest (offset - paddedNoteSize note) else none := by
  have spans := byteSize_writeNote note
  simp only [byteSize, writeNote, List.map_cons, List.map_nil, List.sum_cons, List.sum_nil,
    Nat.add_zero] at spans
  rw [writeNote, List.cons_append, noteAt.eq_3 _ _ _ fun _ zero _ => past zero, List.cons_append,
    List.nil_append]
  by_cases header : (PackedItem.note note).byteSize ≤ offset
  · rw [if_pos header, noteAt.eq_3 _ _ _ fun _ _ same => by cases same]
    by_cases whole : paddedNoteSize note ≤ offset
    · rw [if_pos (by omega), if_pos whole, Nat.sub_sub, spans]
    · rw [if_neg (by omega), if_neg whole]
  · rw [if_neg header, if_neg (by omega)]

theorem exists_of_noteAt_writtenNotes :
    ∀ {visits : List (Nat × Note)} {offset : Nat} {written : Note},
      noteAt (writtenNotes f visits) offset = some written →
      ∃ pre o note post, visits = pre ++ (o, note) :: post ∧ offset = packedSize pre ∧
        written = note.remapBody f
  | [], _, _, found => by simp [writtenNotes, noteAt] at found
  | (o, note) :: visits, offset, written, found => by
    rw [writtenNotes, List.flatMap_cons, ← writtenNotes] at found
    by_cases start : offset = 0
    · subst start
      cases found
      exact ⟨[], o, note, visits, rfl, rfl, rfl⟩
    · rw [noteAt_writeNote_append _ _ start] at found
      split_ifs at found with past
      obtain ⟨pre, o', note', post, rfl, placed, rfl⟩ := exists_of_noteAt_writtenNotes found
      refine ⟨(o, note) :: pre, o', note', post, rfl, ?_, rfl⟩
      rw [packedSize_cons, ← placed]
      simp only [paddedNoteSize, Note.getRawSize_remapBody] at past ⊢
      omega

end SecondPass

section Readers

theorem byteSize_cons (item : PackedItem) (items : List PackedItem) :
    byteSize (item :: items) = item.byteSize + byteSize items := by
  simp [byteSize]

/-- `ReadExactly` of as many bytes as a run of items spans takes that run, when an item of
some bytes follows it. -/
theorem readPacked_append {next : PackedItem} {rest : List PackedItem} (nonempty : 0 < next.byteSize) :
    ∀ data : List PackedItem, readPacked (byteSize data) (data ++ next :: rest) = some (data, next :: rest)
  | [] => by
    rw [show byteSize [] = 0 from rfl, List.nil_append, readPacked.eq_3, if_neg (by omega), if_pos rfl]
  | item :: data => by
    rw [List.cons_append, byteSize_cons, readPacked.eq_3, if_pos (Nat.le_add_right _ _),
      Nat.add_sub_cancel_left, readPacked_append nonempty data]
    rfl

theorem readCores_map (rest : List PackedItem) :
    ∀ cores : List Core, readCores cores.length (cores.map .core ++ rest) = some cores
  | [] => rfl
  | core :: cores => by simp [readCores, readCores_map rest cores]

end Readers

section Pointers

theorem mem_pointers {notes : List Note} {order : List Nat} {o : Nat} {note : Note} :
    (o, note) ∈ pointers notes order ↔ o ∈ order ∧ notes[o]? = some note := by
  simp [pointers, and_comm]

theorem nodup_pointers (notes : List Note) :
    ∀ {order : List Nat}, order.Nodup → ((pointers notes order).map Prod.fst).Nodup
  | [], _ => List.nodup_nil
  | o :: order, nodup => by
    have rest := nodup_pointers notes (List.nodup_cons.mp nodup).2
    have absent : o ∉ (pointers notes order).map Prod.fst := by
      simp only [List.mem_map, Prod.exists, exists_and_right, exists_eq_right, not_exists]
      exact fun note mem => (List.nodup_cons.mp nodup).1 (mem_pointers.mp mem).1
    cases found : notes[o]? with
    | none => simpa [pointers, found] using rest
    | some note => simpa [pointers, found] using List.nodup_cons.mpr ⟨absent, rest⟩

theorem filterMap_range_getElem? {α : Type} (l : List α) :
    (List.range l.length).filterMap (fun o => l[o]?) = l := by
  induction l using List.reverseRecOn with
  | nil => rfl
  | append_singleton init last ih =>
    have front : (List.range init.length).filterMap (fun o => (init ++ [last])[o]?) =
        (List.range init.length).filterMap (fun o => init[o]?) :=
      List.filterMap_congr fun o mem => List.getElem?_append_left (List.mem_range.mp mem)
    simp [List.range_succ, List.filterMap_append, front, ih]

/-- Visiting every note once, the first pass counts the padded size of every note. -/
theorem packedSize_pointers {notes : List Note} {order : List Nat}
    (visits : order.Perm (List.range notes.length)) :
    packedSize (pointers notes order) = (notes.map paddedNoteSize).sum := by
  have seconds : (pointers notes order).map Prod.snd = order.filterMap fun o => notes[o]? := by
    simp [pointers, List.map_filterMap, Option.map_map, Function.comp_def]
  have perm : (order.filterMap fun o => notes[o]?).Perm notes := by
    simpa only [filterMap_range_getElem?] using visits.filterMap fun o => notes[o]?
  rw [packedSize, show (pointers notes order).map (fun visit => paddedNoteSize visit.2) =
    ((pointers notes order).map Prod.snd).map paddedNoteSize by simp, seconds]
  exact (perm.map paddedNoteSize).sum_eq

end Pointers

section Layout

/-- The new offset a map gives an old one, as the second pass reads it. -/
def moved (offsetMap : TOffsetMap) (old : Nat) : Nat := (findOffset offsetMap old).getD 0

variable {σ : Type}

/-- Every offset `core` keeps holds a note. -/
def RefersInto (A : TExtensibleArena σ) (s : σ) (core : Core) : Prop :=
  ∀ o, core.offset? = some o → (A.pin s o).isSome

/-- Every note of the arena has its shape, and every core in it refers into the arena. -/
def Closed (A : TExtensibleArena σ) (s : σ) : Prop :=
  ∀ o note, A.pin s o = some note → note.shaped ∧ ∀ core ∈ note.body.nestedCores, RefersInto A s core

/-- The two passes of `Write` over the notes of an arena kept in a list, in an order that
visits each note once: the first pass ends with `offsetMap`, and with `raw_size` the bytes of
the raw data `rawData` the second pass writes; the map moves every note, and the raw data
holds, at the new offset of each note, the note with its offsets moved, and nothing else. -/
structure Layout (notes : List Note) (order : List Nat) (offsetMap : TOffsetMap)
    (rawData : List PackedItem) : Prop where
  firstPass : offsetMapLoop (pointers notes order) 0 [] = (offsetMap, UInt32.ofNat (byteSize rawData))
  secondPass : writeNotes (findOffset offsetMap) (pointers notes order) = some rawData
  fits : byteSize rawData < 2 ^ 32
  found : ∀ o note, notes[o]? = some note → findOffset offsetMap o = some (moved offsetMap o)
  placed : ∀ o note, notes[o]? = some note →
    noteAt rawData (moved offsetMap o) = some (note.remapBody (moved offsetMap))
  onto : ∀ p w, noteAt rawData p = some w →
    ∃ o note, notes[o]? = some note ∧ p = moved offsetMap o ∧ w = note.remapBody (moved offsetMap)

/-- The layout of the notes of a closed arena whose padded sizes fit `raw_size`: the first
pass maps each note to the bytes counted for the notes visited before it, and the second
pass writes it there. -/
theorem layout {notes : List Note} {order : List Nat} (visits : order.Perm (List.range notes.length))
    (closed : Closed (listStore Note) notes) (fits : (notes.map paddedNoteSize).sum < 2 ^ 32) :
    Layout notes order (offsetMapLoop (pointers notes order) 0 []).1
      (writtenNotes (moved (offsetMapLoop (pointers notes order) 0 []).1) (pointers notes order)) := by
  set offsetMap := (offsetMapLoop (pointers notes order) 0 []).1 with mapped
  have nodup := nodup_pointers notes (visits.nodup_iff.mpr List.nodup_range)
  have total := packedSize_pointers visits
  have zero : (0 : UInt32) = UInt32.ofNat 0 := rfl
  have movedSplit : ∀ {pre post o note}, pointers notes order = pre ++ (o, note) :: post →
      findOffset offsetMap o = some (packedSize pre) := by
    intro pre post o note split
    have lookedUp := @lookup_offsetMapLoop o note pre post 0 [] (split ▸ nodup)
      (by rw [← split, total]; simpa using fits)
    rw [← split, ← zero, Nat.zero_add] at lookedUp
    exact lookedUp
  have visited : ∀ {o note}, notes[o]? = some note → (o, note) ∈ pointers notes order := by
    intro o note pinned
    have inRange := List.mem_range.mpr (List.getElem?_eq_some_iff.mp pinned).1
    exact mem_pointers.mpr ⟨visits.symm.subset inRange, pinned⟩
  have found : ∀ o note, notes[o]? = some note → findOffset offsetMap o = some (moved offsetMap o) := by
    intro o note pinned
    obtain ⟨pre, post, split⟩ := List.mem_iff_append.mp (visited pinned)
    simp [moved, movedSplit split]
  have agree : ∀ visit ∈ pointers notes order, visit.2.shaped ∧ ∀ core ∈ visit.2.body.nestedCores,
      ∀ p, core.offset? = some p → findOffset offsetMap p = some (moved offsetMap p) := by
    rintro ⟨o, note⟩ mem
    obtain ⟨shaped, refers⟩ := closed o note (mem_pointers.mp mem).2
    refine ⟨shaped, fun core inNote p kept => ?_⟩
    obtain ⟨w, pinned⟩ := Option.isSome_iff_exists.mp (refers core inNote p kept)
    exact found p w pinned
  have spans := byteSize_writtenNotes (moved offsetMap) (pointers notes order)
  refine ⟨?_, writeNotes_eq_some agree, by rw [spans, total]; exact fits, found, ?_, ?_⟩
  · rw [Prod.ext_iff]
    exact ⟨rfl, by rw [spans, zero, offsetMapLoop_rawSize, Nat.zero_add]⟩
  · intro o note pinned
    obtain ⟨pre, post, split⟩ := List.mem_iff_append.mp (visited pinned)
    rw [moved, movedSplit split, Option.getD_some, split]
    exact noteAt_writtenNotes pre post
  · intro p w held
    obtain ⟨pre, o, note, post, split, rfl, rfl⟩ := exists_of_noteAt_writtenNotes held
    have pinned := (mem_pointers.mp (split ▸ List.mem_append_right pre List.mem_cons_self)).2
    exact ⟨o, note, pinned, by simp [moved, movedSplit split], rfl⟩

/-- A core that refers only to notes of the arena is remapped by the first pass's offset map
without failing. -/
theorem Layout.tryRemap_core {notes : List Note} {order : List Nat} {offsetMap : TOffsetMap}
    {rawData : List PackedItem} (laid : Layout notes order offsetMap rawData) {core : Core}
    (refers : ∀ o, core.offset? = some o → (notes[o]?).isSome) :
    core.tryRemap (findOffset offsetMap) = some (core.remap (moved offsetMap)) := by
  refine Core.tryRemap_eq_some fun o kept => ?_
  obtain ⟨note, pinned⟩ := Option.isSome_iff_exists.mp (refers o kept)
  exact laid.found o note pinned

/-- The `uint32_t` `raw_size` written reads back as the bytes of the packed data. -/
theorem Layout.rawSize_toNat {notes : List Note} {order : List Nat} {offsetMap : TOffsetMap}
    {rawData : List PackedItem} (laid : Layout notes order offsetMap rawData) :
    (UInt32.ofNat (byteSize rawData)).toNat = byteSize rawData := by
  simpa [UInt32.toNat_ofNat'] using Nat.mod_eq_of_lt laid.fits

end Layout

section Renaming

variable {σ τ : Type} {A : TExtensibleArena σ} {s : σ} {B : TExtensibleArena τ} {t : τ} {f : Nat → Nat}

theorem PointsHome.refersInto {core : Core} (home : PointsHome A s core) : RefersInto A s core := by
  intro o kept
  obtain ⟨note, pinned, -⟩ := home o kept
  simp [pinned]

theorem DepthOrdered.closed (ordered : DepthOrdered A s) : Closed A s := by
  intro o note pinned
  obtain ⟨shaped, _, _, below⟩ := ordered o note pinned
  refine ⟨shaped, fun core inNote p kept => ?_⟩
  obtain ⟨w, -, pinnedBelow, -, -⟩ := below core inNote p kept
  simp [pinnedBelow]

theorem RefersInto.renames {core : Core} (refers : RefersInto A s core) (renames : Renames A s B t f) :
    RefersInto B t (core.remap f) := by
  intro p kept
  rw [Core.offset?_remap] at kept
  obtain ⟨q, qKept, rfl⟩ := Option.map_eq_some_iff.mp kept
  obtain ⟨note, pinned⟩ := Option.isSome_iff_exists.mp (refers q qKept)
  simp [renames q note pinned]

/-- An arena that holds exactly the renamed notes of a closed arena is closed. -/
theorem Closed.renames (closed : Closed A s) (renames : Renames A s B t f)
    (onto : ∀ p w, B.pin t p = some w → ∃ o note, A.pin s o = some note ∧ p = f o ∧ w = note.remapBody f) :
    Closed B t := by
  intro p w pinned
  obtain ⟨o, note, pinnedA, rfl, rfl⟩ := onto p w pinned
  obtain ⟨shaped, refers⟩ := closed o note pinnedA
  refine ⟨by simpa using shaped, fun core inNote => ?_⟩
  rw [Note.remapBody, Body.nestedCores_remap] at inNote
  obtain ⟨c, cMem, rfl⟩ := List.mem_map.mp inNote
  exact (refers c cMem).renames renames

end Renaming

section Builder

namespace TCoreVectorBuilder

@[simp] theorem notes_pushState (builder : TCoreVectorBuilder) (e : State) :
    (builder.pushState e).notes = (ofState dirtyArena builder.notes e).1 := rfl

@[simp] theorem cores_pushState (builder : TCoreVectorBuilder) (e : State) :
    (builder.pushState e).cores = builder.cores ++ [(ofState dirtyArena builder.notes e).2] := rfl

/-- What a builder holds after pushing `states`: a depth-ordered dirty arena, and for each
state, in order, a core that points home and reads back as it. -/
def Holds (builder : TCoreVectorBuilder) (states : List State) : Prop :=
  DepthOrdered dirtyArena builder.notes ∧
    List.Forall₂ (fun core e => PointsHome dirtyArena builder.notes core ∧ ReadsBack dirtyArena builder.notes core e)
      builder.cores states

theorem holds_empty : empty.Holds [] :=
  ⟨fun o note pinned => by simp [empty, dirtyArena, listStore] at pinned, .nil⟩

theorem Holds.pushState {builder : TCoreVectorBuilder} {states : List State} (holds : builder.Holds states)
    {e : State} (storable : e.WellTyped ∧ e.type.NulFreeNames) :
    (builder.pushState e).Holds (states ++ [e]) := by
  obtain ⟨ordered, cores⟩ := holds
  obtain ⟨orderedAfter, homed⟩ :=
    depthOrdered_ofState (listStore_proposesOne Note) builder.notes e ordered storable.1 storable.2
  have grown := (ofState_spec (A := dirtyArena) builder.notes e).1
  have reads := (ofState_spec (A := dirtyArena) builder.notes e).2 storable.1 storable.2
  refine ⟨orderedAfter, ?_⟩
  rw [notes_pushState, cores_pushState]
  exact List.rel_append (cores.imp fun _ _ held => ⟨held.1.mono grown, held.2.mono grown⟩)
    (.cons ⟨homed.1, reads⟩ .nil)

theorem Holds.pushStates : ∀ {builder : TCoreVectorBuilder} {states : List State}, builder.Holds states →
    ∀ rest : List State, (∀ e ∈ rest, e.WellTyped ∧ e.type.NulFreeNames) →
      (builder.pushStates rest).Holds (states ++ rest)
  | _, states, holds, [], _ => by simpa [TCoreVectorBuilder.pushStates] using holds
  | builder, states, holds, e :: rest, storable => by
    have next := holds.pushState (storable e List.mem_cons_self)
    simpa [TCoreVectorBuilder.pushStates] using
      next.pushStates rest fun e' mem => storable e' (List.mem_cons_of_mem _ mem)

/-- `Write` then `TCoreVector(strm)` of a builder whose dirty arena is closed, whose cores
refer into it, and whose padded notes and cores fit the `uint32_t` counts: the cores come
back moved by `f`, in an arena that holds, at the new offset of every note, the note moved by
`f`, and nothing else. -/
theorem read_write {builder : TCoreVectorBuilder} {order : List Nat} (visits : builder.ForEachNote order)
    (closed : Closed dirtyArena builder.notes)
    (refers : ∀ core ∈ builder.cores, RefersInto dirtyArena builder.notes core)
    (fits : (builder.notes.map paddedNoteSize).sum < 2 ^ 32) (few : builder.cores.length < 2 ^ 32) :
    ∃ f rawData, (builder.write order).bind TCoreVector.read =
        some ⟨rawData, builder.cores.map (Core.remap f)⟩ ∧
      Renames dirtyArena builder.notes packedArena rawData f ∧
      ∀ p w, packedArena.pin rawData p = some w →
        ∃ o note, dirtyArena.pin builder.notes o = some note ∧ p = f o ∧ w = note.remapBody f := by
  have laid := layout visits.1 closed fits
  set offsetMap := (offsetMapLoop (pointers builder.notes order) 0 []).1
  set rawData := writtenNotes (moved offsetMap) (pointers builder.notes order)
  clear_value offsetMap rawData
  have moves : ∀ core ∈ builder.cores, core.tryRemap (findOffset offsetMap) = some (core.remap (moved offsetMap)) :=
    fun core mem => laid.tryRemap_core (refers core mem)
  have count : (UInt32.ofNat builder.cores.length).toNat = (builder.cores.map (Core.remap (moved offsetMap))).length := by
    simpa [UInt32.toNat_ofNat'] using Nat.mod_eq_of_lt few
  refine ⟨moved offsetMap, rawData, ?_, fun o note pinned => laid.placed o note pinned, laid.onto⟩
  have packed := @readPacked_append (.uint32 (UInt32.ofNat builder.cores.length))
    ((builder.cores.map (Core.remap (moved offsetMap))).map .core) (by simp [PackedItem.byteSize]) rawData
  have cores := readCores_map [] (builder.cores.map (Core.remap (moved offsetMap)))
  rw [List.append_nil] at cores
  simp only [write, laid.firstPass, laid.secondPass, mapM_eq_some_map moves, Option.bind_eq_bind,
    Option.bind_some, Option.pure_def, List.cons_append, TCoreVector.read, laid.rawSize_toNat, packed]
  rw [count, cores]
  rfl

/-- A blob of `2 ^ 32 - 8` bytes pads, with its 8-byte header, to exactly `2 ^ 32` bytes, so
`raw_size` wraps to zero: `TCoreVector(strm)` reads no raw data and then finds the note where
it expects the number of cores. -/
theorem write_read_of_wrapped_blob {bytes : List UInt8} (long : bytes.length = 2 ^ 32 - 8) :
    ((empty.pushStates [.blob bytes]).write [0]).bind TCoreVector.read = none := by
  have indirect : ¬ bytes.length ≤ maxDirectSize := by
    rw [long, maxDirectSize]
    omega
  have wraps : UInt32.ofNat (paddedNoteSize ⟨.blob, false, .raw bytes⟩) = 0 := by
    simp only [paddedNoteSize, Note.getRawSize, long, getPaddedSize]
    decide
  have spans : PackedItem.byteSize (.note ⟨.blob, false, .raw bytes⟩) = 2 ^ 32 := by
    simp only [PackedItem.byteSize, Note.getRawSize, long]
    omega
  simp only [pushStates, List.foldl_cons, List.foldl_nil, pushState, empty, ofState, initBlob, dif_neg indirect,
    listStore, write, pointers, offsetMapLoop, List.nil_append, List.length_nil, List.filterMap_cons,
    List.filterMap_nil, List.getElem?_cons_zero, Option.map_some, wraps]
  simp [writeNotes, Note.tryRemap, Core.tryRemap, findOffset, TTycon.hasOffset, writeNote, TCoreVector.read,
    readPacked, spans]

end TCoreVectorBuilder

end Builder

section Transport

theorem mem_of_findOffset_eq_some {offsetMap : TOffsetMap} {old new : Nat}
    (found : findOffset offsetMap old = some new) : new ∈ offsetMap.map Prod.snd := by
  obtain ⟨before, after, rfl, -⟩ := List.lookup_eq_some_iff.mp found
  simp

/-- `TTransportArena::Write` then `Read` of a closed suprena and a core that refers into it,
the notes visited once each and their padded sizes fitting `raw_size`: the core comes back
moved by `f`, in an arena that holds, at the new offset of every note of the suprena, the
note moved by `f`, and nothing else. -/
theorem TTransportArena.read_write {suprena : List Note} {core : Core} {sorted : List Nat}
    (visits : sorted.Perm (List.range suprena.length)) (closed : Closed (internStore Note) suprena)
    (refers : RefersInto (internStore Note) suprena core)
    (fits : (suprena.map paddedNoteSize).sum < 2 ^ 32) :
    ∃ f arena, (TTransportArena.write suprena core sorted).bind TTransportArena.read =
        some (arena, core.remap f) ∧
      Renames (internStore Note) suprena transportArena arena f ∧
      ∀ p w, transportArena.pin arena p = some w →
        ∃ o note, (internStore Note).pin suprena o = some note ∧ p = f o ∧ w = note.remapBody f := by
  have laid := layout visits closed fits
  set offsetMap := (offsetMapLoop (pointers suprena sorted) 0 []).1
  set rawData := writtenNotes (moved offsetMap) (pointers suprena sorted)
  clear_value offsetMap rawData
  have moves := laid.tryRemap_core refers
  have listed : ∀ o note, suprena[o]? = some note → moved offsetMap o ∈ offsetMap.map Prod.snd :=
    fun o note pinned => mem_of_findOffset_eq_some (laid.found o note pinned)
  have packed := @readPacked_append (.core (core.remap (moved offsetMap))) [] (by simp [PackedItem.byteSize])
    rawData
  refine ⟨moved offsetMap, ⟨offsetMap.map Prod.snd, rawData⟩, ?_, fun o note pinned => ?_, fun p w pinned => ?_⟩
  · simp only [TTransportArena.write, laid.firstPass, laid.secondPass, moves, Option.bind_eq_bind,
      Option.bind_some, Option.pure_def]
    rw [List.cons_append, List.cons_append, TTransportArena.read]
    simp only [laid.rawSize_toNat, packed, Option.bind_eq_bind, Option.bind_some]
  · show (if _ ∈ _ then _ else _) = _
    rw [if_pos (listed o note pinned)]
    exact laid.placed o note pinned
  · change (if p ∈ _ then noteAt rawData p else none) = some w at pinned
    split_ifs at pinned
    exact laid.onto p w pinned

end Transport

section Shipping

open TCoreVectorBuilder

theorem orderStates_self_of_sound {e : State} (sound : e.Sound) : orderStates e e = some .eq := by
  obtain ⟨noEmpty, typed, nanFree⟩ := sound
  exact (orderStates_orderLaws e.type noEmpty).refl ⟨rfl, typed, nanFree⟩

/-- Shipping cores over the wire. States pushed into a `TCoreVectorBuilder`, sound and with
NUL-free field names, whose notes' padded sizes and number fit the `uint32_t` counts,
written with the notes in any order `ForEachNote` may visit them and read by `TCoreVector`,
come back as one core each, in order, that refers only to offsets where a note starts in the
packed data and reads back there as the state pushed, which `OrderStates` calls equal to
itself; every note of the packed data refers only to such offsets too. A core over a closed
suprena that reads back as a sound state comes back from `TTransportArena::Write` and `Read`
the same way. -/
theorem shipping_cores_preserves_states :
    (∀ states : List State, (∀ e ∈ states, e.Sound ∧ e.type.NulFreeNames) →
      ∀ order, (empty.pushStates states).ForEachNote order →
      ((empty.pushStates states).notes.map paddedNoteSize).sum < 2 ^ 32 → states.length < 2 ^ 32 →
      ∃ vector, ((empty.pushStates states).write order).bind TCoreVector.read = some vector ∧
        List.Forall₂ (fun core e => RefersInto packedArena vector.rawData core ∧
          ∃ N, ∀ n, N ≤ n → newState packedArena vector.rawData n core = some e ∧
            orderStates e e = some .eq) vector.cores states ∧
        Closed packedArena vector.rawData) ∧
    (∀ (suprena : List Note) (core : Core) (e : State) (n : Nat), Closed (internStore Note) suprena →
      RefersInto (internStore Note) suprena core → newState (internStore Note) suprena n core = some e →
      e.Sound → ∀ fuel tieBreak sorted,
      OrderNotes (internStore Note) suprena fuel tieBreak (List.range suprena.length) sorted →
      (suprena.map paddedNoteSize).sum < 2 ^ 32 →
      ∃ arena core', (TTransportArena.write suprena core sorted).bind TTransportArena.read = some (arena, core') ∧
        RefersInto transportArena arena core' ∧ newState transportArena arena n core' = some e ∧
        orderStates e e = some .eq ∧ Closed transportArena arena) := by
  refine ⟨fun states storable order visits fits few => ?_,
    fun suprena core e n closed refers read sound fuel tieBreak sorted ordered fits => ?_⟩
  · have holds := holds_empty.pushStates states fun e mem => ⟨(storable e mem).1.2.1, (storable e mem).2⟩
    rw [List.nil_append] at holds
    have refers := ((List.forall₂_and_left _ _).mp
      (holds.2.imp fun _ _ held => ⟨held.1.refersInto, held⟩)).1
    have sounds : List.Forall₂ (fun core e => e.Sound ∧ PointsHome dirtyArena (empty.pushStates states).notes core ∧
        ReadsBack dirtyArena (empty.pushStates states).notes core e) (empty.pushStates states).cores states :=
      ((List.forall₂_and_left _ _).mpr ⟨fun e mem => (storable e mem).1, holds.2.flip⟩).flip
    obtain ⟨f, rawData, roundTrip, renames, onto⟩ :=
      read_write visits holds.1.closed refers fits (holds.2.length_eq ▸ few)
    refine ⟨_, roundTrip, List.forall₂_map_left_iff.mpr (sounds.imp fun core e held => ?_),
      holds.1.closed.renames renames onto⟩
    obtain ⟨sound, home, reads⟩ := held
    obtain ⟨N, answers⟩ := (reads.renames renames).1.answers
    exact ⟨home.refersInto.renames renames, N, fun n enough => ⟨answers n enough, orderStates_self_of_sound sound⟩⟩
  · obtain ⟨f, arena, roundTrip, renames, onto⟩ := TTransportArena.read_write ordered.1 closed refers fits
    exact ⟨arena, core.remap f, roundTrip, refers.renames renames, newState_remap renames core e read,
      orderStates_self_of_sound sound, closed.renames renames onto⟩

/-- A tuple holding a string past the direct limit, an empty opt, and a record whose field
name is too long to be direct. -/
def sampleStates : List State :=
  [.tuple [.int64 1, .str (List.replicate 24 65)], .opt .int64 none,
    .record [(List.replicate 30 110, .int64)] [.int64 5]]

/-- The suprena `TCore(suprena, state)` builds for the first of them, and its core. -/
def sampleSuprena : List Note × Core :=
  ofState (internStore Note) [] (.tuple [.int64 1, .str (List.replicate 24 65)])

theorem shipping_cores_preserves_states_samples :
    (∃ vector, ((empty.pushStates sampleStates).write (List.range 5)).bind TCoreVector.read = some vector ∧
      vector.cores.length = 3) ∧
    ∃ arena core', (TTransportArena.write sampleSuprena.1 sampleSuprena.2 [0, 1]).bind
        TTransportArena.read = some (arena, core') ∧
      newState transportArena arena 3 core' = some (.tuple [.int64 1, .str (List.replicate 24 65)]) := by
  have storable : ∀ e ∈ sampleStates, e.Sound ∧ e.type.NulFreeNames := by
    simp [sampleStates, State.Sound, State.type, State.types, Ty.NoEmptyRecord, Ty.listNoEmptyRecord,
      Ty.fieldsNoEmptyRecord, State.WellTyped, State.allWellTyped, State.valsOfFields,
      State.NaNFree, State.allNaNFree, Ty.NulFreeNames, Ty.listNulFreeNames, Ty.fieldsNulFreeNames]
  have visits : (empty.pushStates sampleStates).ForEachNote (List.range 5) := by decide +kernel
  have fits : ((empty.pushStates sampleStates).notes.map paddedNoteSize).sum < 2 ^ 32 := by decide +kernel
  obtain ⟨vector, roundTrip, cores, -⟩ :=
    shipping_cores_preserves_states.1 sampleStates storable (List.range 5) visits fits (by decide)
  have tuple := storable _ List.mem_cons_self
  obtain ⟨ordered, homed⟩ := depthOrdered_ofState (internStore_proposesOne Note) []
    (.tuple [.int64 1, .str (List.replicate 24 65)]) (fun o note pinned => by simp [internStore] at pinned)
    tuple.1.2.1 tuple.2
  have sorted : OrderNotes (internStore Note) sampleSuprena.1 3 (fun _ _ => false)
      (List.range sampleSuprena.1.length) [0, 1] := by decide +kernel
  obtain ⟨arena, core', roundTrip', -, reads, -⟩ := shipping_cores_preserves_states.2 sampleSuprena.1
    sampleSuprena.2 _ 3 ordered.closed homed.1.refersInto (by rfl) tuple.1 3 (fun _ _ => false)
    [0, 1] sorted (by decide +kernel)
  exact ⟨⟨vector, roundTrip, cores.length_eq⟩, arena, core', roundTrip', reads⟩

/-- Without its conditions shipping loses states: a NaN `double` comes back bit for bit, but
`OrderStates` orders it `Gt` against itself, and a blob that pads to `2 ^ 32` bytes wraps
`raw_size` and cannot be read back. -/
theorem shipping_nan_or_huge_blob_fails :
    (∃ vector, ((empty.pushStates [.double 0x7FF8000000000000]).write []).bind TCoreVector.read =
        some vector ∧
      vector.cores.map (newState packedArena vector.rawData 1) = [some (.double 0x7FF8000000000000)] ∧
      orderStates (.double 0x7FF8000000000000) (.double 0x7FF8000000000000) = some .gt) ∧
    ((empty.pushStates [.blob (List.replicate (2 ^ 32 - 8) 0)]).write [0]).bind TCoreVector.read = none :=
  ⟨⟨_, rfl, rfl, by decide +kernel⟩, write_read_of_wrapped_blob List.length_replicate⟩

end Shipping

end Orly.Atom

import Orly.Atom.OrderedArena

/-! `TCore::Remap` and `TCore::TNote::Remap` (`orly/atom/kit2.cc`), by which cores and
notes move from one arena to another.

A core keeps an offset when it is a blob, a string or a container, in the same bytes
whichever of `IndirectScalarArray` and `IndirectCoreArray` it uses; remapping rewrites
that offset and nothing else. A note remaps each of its cores, a note of pairs both
cores of each pair.

An offset map relates two arenas when the second holds, at the remapped offset of every
note the first holds, that note with its cores remapped (`Renames`). A core remapped
into such an arena reads back there as the type and the state it reads back as in the
first (`getType_remap`, `newState_remap`): the readers only follow offsets, and every
offset they follow has been rewritten the same way. -/
namespace Orly.Atom

open Orly.Sabot AppendStore

/-- The tycons whose cores keep an offset: `TCore::Remap` rewrites theirs. -/
def TTycon.hasOffset : TTycon → Bool
  | .blob | .str | .free | .desc | .opt | .set | .vector | .map | .record | .tuple => true
  | _ => false

namespace Storage

/-- `IndirectScalarArray.Offset` and `IndirectCoreArray.Offset`, which share their bytes,
rewritten by `remap`. -/
def remapOffset (remap : Nat → Nat) : Storage → Storage
  | .indirectScalarArray offset size => .indirectScalarArray (remap offset) size
  | .indirectCoreArray offset elemCount isExemplar usesFullNote =>
    .indirectCoreArray (remap offset) elemCount isExemplar usesFullNote
  | storage => storage

/-- The offset an indirect storage keeps. -/
def offset? : Storage → Option Nat
  | .indirectScalarArray offset _ => some offset
  | .indirectCoreArray offset _ _ _ => some offset
  | _ => none

theorem remapOffset_remapOffset (f g : Nat → Nat) (storage : Storage) :
    (storage.remapOffset f).remapOffset g = storage.remapOffset (g ∘ f) := by
  cases storage <;> rfl

theorem remapOffset_congr {f g : Nat → Nat} {storage : Storage}
    (agree : ∀ o, storage.offset? = some o → f o = g o) :
    storage.remapOffset f = storage.remapOffset g := by
  cases storage <;> simp_all [remapOffset, offset?]

end Storage

namespace Core

/-- `TCore::Remap`. -/
def remap (remap : Nat → Nat) (core : Core) : Core :=
  if core.tycon.hasOffset then ⟨core.tycon, core.storage.remapOffset remap⟩ else core

/-- The offset `TCore::Remap` rewrites, if the core keeps one. -/
def offset? (core : Core) : Option Nat :=
  if core.tycon.hasOffset then core.storage.offset? else none

@[simp] theorem tycon_remap (f : Nat → Nat) (core : Core) : (core.remap f).tycon = core.tycon := by
  unfold remap
  split <;> rfl

theorem storage_remap {f : Nat → Nat} {core : Core} (kept : core.tycon.hasOffset = true) :
    (core.remap f).storage = core.storage.remapOffset f := by
  simp [remap, kept]

theorem remap_of_not_hasOffset {f : Nat → Nat} {core : Core} (none : core.tycon.hasOffset = false) :
    core.remap f = core := by
  simp [remap, none]

theorem remap_remap (f g : Nat → Nat) (core : Core) :
    (core.remap f).remap g = core.remap (g ∘ f) := by
  unfold remap
  split <;> simp_all [Storage.remapOffset_remapOffset]

theorem remap_congr {f g : Nat → Nat} {core : Core} (agree : ∀ o, core.offset? = some o → f o = g o) :
    core.remap f = core.remap g := by
  unfold remap
  split
  · rw [Storage.remapOffset_congr (fun o kept => agree o (by simp_all [offset?]))]
  · rfl

end Core

/-- Both cores of a pair remapped. -/
def remapPair (remap : Nat → Nat) (pair : Core × Core) : Core × Core :=
  (pair.1.remap remap, pair.2.remap remap)

theorem remapPair_remapPair (f g : Nat → Nat) (pair : Core × Core) :
    remapPair g (remapPair f pair) = remapPair (g ∘ f) pair := by
  simp [remapPair, Core.remap_remap]

/-- The cores of a note rewritten, as `TNote::Remap` rewrites them in place. -/
def Body.remap (remap : Nat → Nat) : Body → Body
  | .raw bytes => .raw bytes
  | .cores elems => .cores (elems.map (Core.remap remap))
  | .pairs elems => .pairs (elems.map (remapPair remap))

namespace Body

theorem remap_remap (f g : Nat → Nat) (body : Body) :
    (body.remap f).remap g = body.remap (g ∘ f) := by
  cases body <;> simp [remap, Core.remap_remap, remapPair_remapPair, Function.comp_def]

theorem remap_congr {f g : Nat → Nat} {body : Body}
    (agree : ∀ core ∈ body.nestedCores, ∀ o, core.offset? = some o → f o = g o) :
    body.remap f = body.remap g := by
  cases body with
  | raw bytes => rfl
  | cores elems =>
    rw [remap, remap]
    congr 1
    exact List.map_congr_left fun core mem => Core.remap_congr (agree core mem)
  | pairs elems =>
    rw [remap, remap]
    congr 1
    refine List.map_congr_left fun pair mem => ?_
    have first := agree pair.1 (by simp only [nestedCores, List.mem_flatMap]; exact ⟨pair, mem, by simp⟩)
    have second := agree pair.2 (by simp only [nestedCores, List.mem_flatMap]; exact ⟨pair, mem, by simp⟩)
    rw [remapPair, remapPair, Core.remap_congr first, Core.remap_congr second]

end Body

namespace Note

/-- A note with its cores remapped. -/
def remapBody (remap : Nat → Nat) (note : Note) : Note :=
  ⟨note.tycon, note.isExemplar, note.body.remap remap⟩

/-- `TCore::TNote::Remap`: a blob or string note keeps no cores; the code throws
`TCorrupt` on a note of a tycon that has no note. -/
def remap (remap : Nat → Nat) (note : Note) : Option Note :=
  match note.tycon with
  | .blob | .str => some note
  | .desc | .free | .opt | .set | .vector | .tuple | .map | .record => some (note.remapBody remap)
  | _ => none

theorem remapBody_remapBody (f g : Nat → Nat) (note : Note) :
    (note.remapBody f).remapBody g = note.remapBody (g ∘ f) := by
  simp [remapBody, Body.remap_remap]

theorem remapBody_congr {f g : Nat → Nat} {note : Note}
    (agree : ∀ core ∈ note.body.nestedCores, ∀ o, core.offset? = some o → f o = g o) :
    note.remapBody f = note.remapBody g := by
  rw [remapBody, remapBody, Body.remap_congr agree]

end Note

variable {σ τ : Type}

/-- `(B, t)` holds at `remap o` the note `(A, s)` holds at `o`, with its cores remapped,
for every offset `(A, s)` reads. -/
def Renames (A : TExtensibleArena σ) (s : σ) (B : TExtensibleArena τ) (t : τ)
    (remap : Nat → Nat) : Prop :=
  ∀ o note, A.pin s o = some note → B.pin t (remap o) = some (note.remapBody remap)

variable {A : TExtensibleArena σ} {s : σ} {B : TExtensibleArena τ} {t : τ} {remap : Nat → Nat}

section Pins

variable (renames : Renames A s B t remap)
include renames

theorem pinCores_remap {storage : Storage} {cores : List Core}
    (pinned : pinCores A s storage = some cores) :
    pinCores B t (storage.remapOffset remap) = some (cores.map (Core.remap remap)) := by
  cases storage with
  | indirectCoreArray offset elemCount isExemplar usesFullNote =>
    simp only [pinCores, Storage.remapOffset] at pinned ⊢
    split at pinned
    · rename_i tycon exemplar noteCores read
      split_ifs at pinned with enough
      cases pinned
      simp [renames offset _ read, Note.remapBody, Body.remap, enough, List.map_take]
    · cases pinned
  | _ => cases pinned

theorem pinPairs_remap {storage : Storage} {pairs : List (Core × Core)}
    (pinned : pinPairs A s storage = some pairs) :
    pinPairs B t (storage.remapOffset remap) = some (pairs.map (remapPair remap)) := by
  cases storage with
  | indirectCoreArray offset elemCount isExemplar usesFullNote =>
    simp only [pinPairs, Storage.remapOffset] at pinned ⊢
    split at pinned
    · rename_i tycon exemplar notePairs read
      split_ifs at pinned with enough
      cases pinned
      simp [renames offset _ read, Note.remapBody, Body.remap, enough, List.map_take]
    · cases pinned
  | _ => cases pinned

theorem pinRaw_remap {storage : Storage} {bytes : List UInt8}
    (pinned : pinRaw A s storage = some bytes) :
    pinRaw B t (storage.remapOffset remap) = some bytes := by
  cases storage with
  | indirectScalarArray offset size =>
    simp only [pinRaw, Storage.remapOffset] at pinned ⊢
    split at pinned
    · rename_i tycon exemplar noteBytes read
      cases pinned
      simp [renames offset _ read, Note.remapBody, Body.remap]
    · cases pinned
  | _ => cases pinned

theorem copyOut_remap {core : Core} {name : List UInt8} (copied : copyOut A s core = some name) :
    copyOut B t (core.remap remap) = some name := by
  obtain ⟨tycon, storage⟩ := core
  cases tycon
  case str =>
    simp only [copyOut, Core.remap, TTycon.hasOffset, if_true] at copied ⊢
    obtain ⟨bytes, pinned, rfl⟩ := Option.map_eq_some_iff.mp copied
    rw [pinRaw_remap renames pinned]
    rfl
  -- no other tycon reads the arena: a direct string is copied out of the core itself
  all_goals cases storage <;> simp_all [copyOut, Core.remap, TTycon.hasOffset]

end Pins

@[simp] theorem Storage.isExemplar_remapOffset (f : Nat → Nat) (storage : Storage) :
    (storage.remapOffset f).isExemplar = storage.isExemplar := by
  cases storage <;> rfl

theorem grows_pairOf_remap {β : Type} {f g : Core → Option β} (grows : Grows f (g ∘ Core.remap remap)) :
    Grows (pairOf f) (pairOf g ∘ remapPair remap) := by
  rintro ⟨l, r⟩ ⟨a, b⟩ answered
  have left := grows l
  have right := grows r
  cases hl : f l <;> cases hr : f r <;> simp_all [pairOf, remapPair]

section Readers

variable (renames : Renames A s B t remap)
include renames

theorem grows_fieldOf_remap {f g : Core → Option Ty} (grows : Grows f (g ∘ Core.remap remap)) :
    Grows (fieldOf A s f) (fieldOf B t g ∘ remapPair remap) := by
  rintro ⟨nameCore, core⟩ ⟨name, ty⟩ answered
  cases copied : copyOut A s nameCore with
  | none => simp [fieldOf, copied] at answered
  | some name' =>
    have copiedThere := copyOut_remap renames copied
    have typed := grows core
    cases hf : f core <;> simp_all [fieldOf, remapPair]

/-- What a reader answers of the first core a storage pins, it answers of the first core
the remapped storage pins. -/
theorem first_remap {β : Type} {f g : Core → Option β} (grows : Grows f (g ∘ Core.remap remap))
    {storage : Storage} {x : β} (read : ((pinCores A s storage).bind List.head? >>= f) = some x) :
    ((pinCores B t (storage.remapOffset remap)).bind List.head? >>= g) = some x := by
  obtain ⟨first, pinnedFirst, answered⟩ := Option.bind_eq_some_iff.mp read
  obtain ⟨cores, pinned, head⟩ := Option.bind_eq_some_iff.mp pinnedFirst
  rw [pinCores_remap renames pinned]
  refine Option.bind_eq_some_iff.mpr ⟨first.remap remap, ?_, grows first x answered⟩
  simp [List.head?_map, head]

/-- The same for the first pair. -/
theorem firstPair_remap {β : Type} {f g : Core × Core → Option β}
    (grows : Grows f (g ∘ remapPair remap)) {storage : Storage} {x : β}
    (read : ((pinPairs A s storage).bind List.head? >>= f) = some x) :
    ((pinPairs B t (storage.remapOffset remap)).bind List.head? >>= g) = some x := by
  obtain ⟨first, pinnedFirst, answered⟩ := Option.bind_eq_some_iff.mp read
  obtain ⟨pairs, pinned, head⟩ := Option.bind_eq_some_iff.mp pinnedFirst
  rw [pinPairs_remap renames pinned]
  refine Option.bind_eq_some_iff.mpr ⟨remapPair remap first, ?_, grows first x answered⟩
  simp [List.head?_map, head, remapPair]

/-- A remapped core reads back as the type the core reads back as. -/
theorem getType_remap : ∀ {n : Nat}, Grows (getType A s n) (getType B t n ∘ Core.remap remap)
  | 0, _, _, read => by simp [getType] at read
  | n + 1, ⟨tycon, storage⟩, ty, read => by
    have inner : Grows (getType A s n) (getType B t n ∘ Core.remap remap) := getType_remap
    cases tycon <;>
      simp only [getType, Function.comp, Core.remap, TTycon.hasOffset, if_true, if_false,
        bind_pure_comp, Bool.false_eq_true] at read ⊢
    case desc | free | opt | set | vector =>
      obtain ⟨elem, first, rfl⟩ := Option.map_eq_some_iff.mp read
      exact Option.map_eq_some_iff.mpr ⟨elem, first_remap renames inner first, rfl⟩
    case map =>
      obtain ⟨kv, first, rfl⟩ := Option.map_eq_some_iff.mp read
      exact Option.map_eq_some_iff.mpr
        ⟨kv, firstPair_remap renames (grows_pairOf_remap inner) first, rfl⟩
    case record =>
      obtain ⟨pairs, pinned, fieldsRead⟩ := Option.bind_eq_some_iff.mp read
      obtain ⟨fields, mapped, rfl⟩ := Option.map_eq_some_iff.mp fieldsRead
      refine Option.bind_eq_some_iff.mpr ⟨_, pinPairs_remap renames pinned, ?_⟩
      rw [List.mapM_map]
      exact Option.map_eq_some_iff.mpr
        ⟨fields, (grows_fieldOf_remap renames inner).mapM pairs fields mapped, rfl⟩
    case tuple =>
      obtain ⟨cores, pinned, elemsRead⟩ := Option.bind_eq_some_iff.mp read
      obtain ⟨elems, mapped, rfl⟩ := Option.map_eq_some_iff.mp elemsRead
      refine Option.bind_eq_some_iff.mpr ⟨_, pinCores_remap renames pinned, ?_⟩
      rw [List.mapM_map]
      exact Option.map_eq_some_iff.mpr ⟨elems, inner.mapM cores elems mapped, rfl⟩
    all_goals exact read

theorem arrayOfStates_remap {decode decode' : Core → Option State}
    {typeOf typeOf' : Core → Option Ty} (decodes : Grows decode (decode' ∘ Core.remap remap))
    (types : Grows typeOf (typeOf' ∘ Core.remap remap)) :
    Grows (arrayOfStates A s decode typeOf)
      (arrayOfStates B t decode' typeOf' ∘ Storage.remapOffset remap) := by
  intro storage result answered
  simp only [arrayOfStates, bind_pure_comp, Function.comp] at answered ⊢
  obtain ⟨cores, pinned, rest⟩ := Option.bind_eq_some_iff.mp answered
  obtain ⟨first, hfirst, rest⟩ := Option.bind_eq_some_iff.mp rest
  obtain ⟨ty, typed, rest⟩ := Option.bind_eq_some_iff.mp rest
  refine Option.bind_eq_some_iff.mpr ⟨_, pinCores_remap renames pinned,
    Option.bind_eq_some_iff.mpr ⟨first.remap remap, by simp [List.head?_map, hfirst],
      Option.bind_eq_some_iff.mpr ⟨ty, types first ty typed, ?_⟩⟩⟩
  by_cases exemplar : storage.isExemplar = true
  · simpa [exemplar] using rest
  · simp only [exemplar, Storage.isExemplar_remapOffset, Bool.false_eq_true, if_false,
      List.mapM_map] at rest ⊢
    exact (decodes.mapM.map (Prod.mk ty)) cores result rest

theorem arrayOfPairsOfStates_remap {decode decode' : Core → Option State}
    {typeOf typeOf' : Core → Option Ty} (decodes : Grows decode (decode' ∘ Core.remap remap))
    (types : Grows typeOf (typeOf' ∘ Core.remap remap)) :
    Grows (arrayOfPairsOfStates A s decode typeOf)
      (arrayOfPairsOfStates B t decode' typeOf' ∘ Storage.remapOffset remap) := by
  intro storage result answered
  simp only [arrayOfPairsOfStates, bind_pure_comp, Function.comp] at answered ⊢
  obtain ⟨pairs, pinned, rest⟩ := Option.bind_eq_some_iff.mp answered
  obtain ⟨first, hfirst, rest⟩ := Option.bind_eq_some_iff.mp rest
  obtain ⟨kv, typed, rest⟩ := Option.bind_eq_some_iff.mp rest
  refine Option.bind_eq_some_iff.mpr ⟨_, pinPairs_remap renames pinned,
    Option.bind_eq_some_iff.mpr ⟨remapPair remap first, by simp [List.head?_map, hfirst],
      Option.bind_eq_some_iff.mpr ⟨kv, grows_pairOf_remap types first kv typed, ?_⟩⟩⟩
  by_cases exemplar : storage.isExemplar = true
  · simpa [exemplar] using rest
  · simp only [exemplar, Storage.isExemplar_remapOffset, Bool.false_eq_true, if_false,
      List.mapM_map] at rest ⊢
    exact ((grows_pairOf_remap decodes).mapM.map _) pairs result rest

/-- A remapped core reads back as the state the core reads back as. The induction is on
the fuel, as in `newState_grows`. -/
theorem newState_remap : ∀ {n : Nat}, Grows (newState A s n) (newState B t n ∘ Core.remap remap)
  | 0, _, _, read => by simp [newState] at read
  | n + 1, ⟨tycon, storage⟩, x, read => by
    have inner : Grows (newState A s n) (newState B t n ∘ Core.remap remap) := newState_remap
    have types : Grows (getType A s n) (getType B t n ∘ Core.remap remap) := getType_remap renames
    cases tycon <;>
      simp only [newState, Function.comp, Core.remap, TTycon.hasOffset, if_true, if_false,
        bind_pure_comp, Bool.false_eq_true] at read ⊢
    case blob | str =>
      obtain ⟨bytes, pinned, rfl⟩ := Option.map_eq_some_iff.mp read
      exact Option.map_eq_some_iff.mpr ⟨bytes, pinRaw_remap renames pinned, rfl⟩
    case free =>
      obtain ⟨elem, first, rfl⟩ := Option.map_eq_some_iff.mp read
      exact Option.map_eq_some_iff.mpr ⟨elem, first_remap renames types first, rfl⟩
    case desc =>
      exact ((arrayOfStates_remap renames inner types).then _) storage x read
    case opt | set | vector =>
      exact ((arrayOfStates_remap renames inner types).map _) storage x read
    case map =>
      exact ((arrayOfPairsOfStates_remap renames inner types).map _) storage x read
    case record =>
      obtain ⟨pairs, pinned, rest⟩ := Option.bind_eq_some_iff.mp read
      obtain ⟨fields, fieldsRead, valsRead⟩ := Option.bind_eq_some_iff.mp rest
      have values : Grows (fun pair : Core × Core => newState A s n pair.2)
          ((fun pair : Core × Core => newState B t n pair.2) ∘ remapPair remap) :=
        fun pair => inner pair.2
      refine Option.bind_eq_some_iff.mpr ⟨_, pinPairs_remap renames pinned, ?_⟩
      rw [List.mapM_map, List.mapM_map]
      exact Option.bind_eq_some_iff.mpr
        ⟨fields, (grows_fieldOf_remap renames types).mapM pairs fields fieldsRead,
          (values.mapM.map (State.record fields)) pairs x valsRead⟩
    case tuple =>
      obtain ⟨cores, pinned, elemsRead⟩ := Option.bind_eq_some_iff.mp read
      refine Option.bind_eq_some_iff.mpr ⟨_, pinCores_remap renames pinned, ?_⟩
      rw [List.mapM_map]
      exact (inner.mapM.map State.tuple) cores x elemsRead
    -- the other tycons keep no offset and read nothing from the arena
    all_goals cases storage <;> simpa only [newState] using read

end Readers

end Orly.Atom

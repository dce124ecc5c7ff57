import Orly.Atom.Remap

/-! `OrderNotes` (`orly/atom/note_interner2.cc`), the order in which the context streamers
write the notes of a suprena, and `Sabot::GetDepth` (`orly/sabot/get_depth.cc`), the
first key of that order.

`NoteCmp` reads each note back through the core `TCore(offset, note)` that refers to the
whole of it, and compares the depths of the two types it reads, breaking ties by
`CompareStates`. `std::sort` with it leaves a permutation of the notes in which no note
comes after one it compares less than; the model takes that postcondition as what
`OrderNotes` produces (`OrderNotes`), with the tie-break left as a parameter, since
nothing here depends on it.

What the streamers need of the order is that every note comes after the notes its cores
refer to (`RefsBefore`). That holds of an arena in which every core of a note refers to a
note of a strictly smaller depth (`DepthOrdered`), and every arena `TCore(arena, state)`
builds is one: a container's element types are strictly shallower than the container's
type (`depthOrdered_ofState`). -/
namespace Orly.Sabot

mutual
/-- `Sabot::GetDepth`: a scalar, blob, string, tombstone or void is at depth zero; a unary
type one below its element, a map one below the deeper of its key and value, and a record
or tuple one below its deepest element. -/
def getDepth : Ty → Nat
  | .desc t | .free t | .opt t | .set t | .vector t => getDepth t + 1
  | .map k v => max (getDepth k) (getDepth v) + 1
  | .record fields => fieldsMaxDepth 0 fields + 1
  | .tuple elems => elemsMaxDepth 0 elems + 1
  | _ => 0

/-- The loop of `TDepthVisitor` over a record's fields, keeping `max_child_depth`. -/
def fieldsMaxDepth (maxChildDepth : Nat) : List (List UInt8 × Ty) → Nat
  | [] => maxChildDepth
  | (_, t) :: rest => fieldsMaxDepth (max (getDepth t) maxChildDepth) rest

/-- The same loop over a tuple's elements. -/
def elemsMaxDepth (maxChildDepth : Nat) : List Ty → Nat
  | [] => maxChildDepth
  | t :: rest => elemsMaxDepth (max (getDepth t) maxChildDepth) rest
end

theorem le_elemsMaxDepth : ∀ (m : Nat) (elems : List Ty), m ≤ elemsMaxDepth m elems
  | _, [] => le_refl _
  | m, t :: rest => (le_max_right (getDepth t) m).trans (le_elemsMaxDepth _ rest)

theorem getDepth_le_elemsMaxDepth {t : Ty} :
    ∀ {elems : List Ty} (m : Nat), t ∈ elems → getDepth t ≤ elemsMaxDepth m elems
  | u :: rest, m, mem => by
    rw [elemsMaxDepth]
    rcases List.mem_cons.mp mem with rfl | later
    · exact (le_max_left _ m).trans (le_elemsMaxDepth _ rest)
    · exact getDepth_le_elemsMaxDepth _ later

theorem le_fieldsMaxDepth : ∀ (m : Nat) (fields : List (List UInt8 × Ty)), m ≤ fieldsMaxDepth m fields
  | _, [] => le_refl _
  | m, (_, t) :: rest => (le_max_right (getDepth t) m).trans (le_fieldsMaxDepth _ rest)

theorem getDepth_le_fieldsMaxDepth {name : List UInt8} {t : Ty} :
    ∀ {fields : List (List UInt8 × Ty)} (m : Nat), (name, t) ∈ fields → getDepth t ≤ fieldsMaxDepth m fields
  | (_, u) :: rest, m, mem => by
    rw [fieldsMaxDepth]
    rcases List.mem_cons.mp mem with same | later
    · cases same
      exact (le_max_left _ m).trans (le_fieldsMaxDepth _ rest)
    · exact getDepth_le_fieldsMaxDepth _ later

/-- A map is deeper than its key type and than its value type. -/
theorem getDepth_lt_map (k v : Ty) : getDepth k < getDepth (.map k v) ∧ getDepth v < getDepth (.map k v) := by
  rw [getDepth]
  omega

/-- A tuple is deeper than each of its elements. -/
theorem getDepth_lt_tuple {t : Ty} {elems : List Ty} (mem : t ∈ elems) :
    getDepth t < getDepth (.tuple elems) :=
  Nat.lt_succ_of_le (getDepth_le_elemsMaxDepth 0 mem)

/-- A record is deeper than each of its fields. -/
theorem getDepth_lt_record {name : List UInt8} {t : Ty} {fields : List (List UInt8 × Ty)}
    (mem : (name, t) ∈ fields) : getDepth t < getDepth (.record fields) :=
  Nat.lt_succ_of_le (getDepth_le_fieldsMaxDepth 0 mem)

end Orly.Sabot

namespace Orly.Atom

open Orly.Sabot Orly.Sabot.State AppendStore AppendStore.Store

/-- `TNote::GetRawSize`: the bytes after the note's header, `sizeof(TCore)` for each core. -/
def Note.getRawSize (note : Note) : Nat :=
  match note.body with
  | .raw bytes => bytes.length
  | .cores elems => elems.length * (maxDirectSize + 1)
  | .pairs elems => elems.length * (2 * (maxDirectSize + 1))

/-- The shape `TNote::GetSize` and `TNote::Remap` read a note of each tycon in: the bytes of
a blob or a string, the cores of a desc, free, opt, set, vector or tuple, the pairs of a
map or a record. -/
def Note.shaped (note : Note) : Bool :=
  match note.tycon, note.body with
  | .blob, .raw _ | .str, .raw _ => true
  | .desc, .cores _ | .free, .cores _ | .opt, .cores _ | .set, .cores _ | .vector, .cores _
  | .tuple, .cores _ => true
  | .map, .pairs _ | .record, .pairs _ => true
  | _, _ => false

theorem noteCore_cores (offset : Nat) {tycon : TTycon} {isExemplar : Bool} {cores : List Core}
    (shaped : (⟨tycon, isExemplar, .cores cores⟩ : Note).shaped) :
    noteCore offset ⟨tycon, isExemplar, .cores cores⟩ =
      some ⟨tycon, .indirectCoreArray offset cores.length isExemplar true⟩ := by
  cases tycon <;> simp_all [noteCore, Note.shaped, fullCore, Body.size]

theorem noteCore_pairs (offset : Nat) {tycon : TTycon} {isExemplar : Bool}
    {pairs : List (Core × Core)} (shaped : (⟨tycon, isExemplar, .pairs pairs⟩ : Note).shaped) :
    noteCore offset ⟨tycon, isExemplar, .pairs pairs⟩ =
      some ⟨tycon, .indirectCoreArray offset pairs.length isExemplar true⟩ := by
  cases tycon <;> simp_all [noteCore, Note.shaped, fullCore, Body.size]

/-- `TNote::Remap` accepts a note of its shape and rewrites exactly its cores. -/
theorem Note.remap_of_shaped {note : Note} (shaped : note.shaped) (f : Nat → Nat) :
    note.remap f = some (note.remapBody f) := by
  obtain ⟨tycon, isExemplar, body⟩ := note
  cases tycon <;> cases body <;> simp_all [Note.shaped, Note.remap, Note.remapBody, Body.remap]

variable {σ : Type} (A : TExtensibleArena σ)

/-- The type `NoteCmp` reads of the note at `offset`: that of the state of its core. -/
def noteType (s : σ) (fuel offset : Nat) (note : Note) : Option Ty :=
  (noteCore offset note).bind (getType A s fuel)

/-- The depth `NoteCmp` gives the note at `offset`; zero where it reads no type. -/
def depthAt (s : σ) (fuel offset : Nat) : Nat :=
  (((A.pin s offset).bind (noteType A s fuel offset)).map getDepth).getD 0

/-- `NoteCmp` of the notes at `lhs` and `rhs`: the shallower first, and at equal depths
by `tieBreak`, which stands for `IsLt(CompareStates(lhs, rhs))`. -/
def noteCmp (s : σ) (fuel : Nat) (tieBreak : Nat → Nat → Bool) (lhs rhs : Nat) : Bool :=
  decide (depthAt A s fuel lhs < depthAt A s fuel rhs) ||
    (depthAt A s fuel lhs == depthAt A s fuel rhs && tieBreak lhs rhs)

/-- What `OrderNotes` leaves in its vector: the offsets `notes`, each once, sorted by
`std::sort` with `NoteCmp`, so that no offset comes after one it compares less than. -/
def OrderNotes (s : σ) (fuel : Nat) (tieBreak : Nat → Nat → Bool) (notes sorted : List Nat) : Prop :=
  sorted.Perm notes ∧ sorted.Pairwise fun a b => noteCmp A s fuel tieBreak b a = false

instance (s : σ) (fuel : Nat) (tieBreak : Nat → Nat → Bool) (notes sorted : List Nat) :
    Decidable (OrderNotes A s fuel tieBreak notes sorted) :=
  inferInstanceAs (Decidable (sorted.Perm notes ∧
    sorted.Pairwise fun a b => noteCmp A s fuel tieBreak b a = false))

/-- Along a vector sorted by `NoteCmp` the depths never fall. -/
theorem depthAt_le_of_sorted {s : σ} {fuel : Nat} {tieBreak : Nat → Nat → Bool} {sorted : List Nat}
    (ordered : sorted.Pairwise fun a b => noteCmp A s fuel tieBreak b a = false) :
    sorted.Pairwise fun a b => depthAt A s fuel a ≤ depthAt A s fuel b :=
  ordered.imp fun {a b} notLess => by
    simp only [noteCmp, Bool.or_eq_false_iff, decide_eq_false_iff_not] at notLess
    exact Nat.le_of_not_lt notLess.1

/-- Each note of `order` refers only to notes that come before it, `done` being those
already passed. -/
def RefsBefore (s : σ) : List Nat → List Nat → Prop
  | _, [] => True
  | done, o :: rest =>
    (∀ note, A.pin s o = some note → ∀ core ∈ note.body.nestedCores, ∀ p, core.offset? = some p →
      p ∈ done) ∧ RefsBefore s (o :: done) rest

section Invariant

/-- Every offset `core` keeps is that of a note whose own core is `core`. -/
def PointsHome (s : σ) (core : Core) : Prop :=
  ∀ o, core.offset? = some o → ∃ note, A.pin s o = some note ∧ noteCore o note = some core

/-- `core` points home and reads back, in `s` and every extension of it, as the type `t`. -/
def Homed (s : σ) (core : Core) (t : Ty) : Prop :=
  PointsHome A s core ∧ A.Settles (fun s' n => getType A s' n core) s t

/-- Every offset `core` keeps is that of a note whose type settles at a depth below `depth`. -/
def RefersBelow (s : σ) (depth : Nat) (core : Core) : Prop :=
  ∀ o, core.offset? = some o → ∃ note t, A.pin s o = some note ∧
    A.Settles (fun s' n => noteType A s' n o note) s t ∧ getDepth t < depth

/-- Every note of the arena has its shape and reads back as a type, and every core in it
refers to a note of a smaller depth. -/
def DepthOrdered (s : σ) : Prop :=
  ∀ o note, A.pin s o = some note → note.shaped ∧
    ∃ t, A.Settles (fun s' n => noteType A s' n o note) s t ∧
      ∀ core ∈ note.body.nestedCores, RefersBelow A s (getDepth t) core

variable {A} {s s' : σ} {core : Core} {t : Ty} {depth : Nat}

theorem PointsHome.mono (home : PointsHome A s core) (grown : A.Extends s s') :
    PointsHome A s' core := fun o kept => by
  obtain ⟨note, pinned, own⟩ := home o kept
  exact ⟨note, grown.pin pinned, own⟩

theorem Homed.mono (homed : Homed A s core t) (grown : A.Extends s s') : Homed A s' core t :=
  ⟨homed.1.mono grown, homed.2.mono grown⟩

theorem RefersBelow.mono (below : RefersBelow A s depth core) (grown : A.Extends s s') :
    RefersBelow A s' depth core := fun o kept => by
  obtain ⟨note, t, pinned, typed, shallower⟩ := below o kept
  exact ⟨note, t, grown.pin pinned, typed.mono grown, shallower⟩

/-- A core at home whose type is shallower than `depth` refers below `depth`. -/
theorem Homed.refersBelow (homed : Homed A s core t) (shallower : getDepth t < depth) :
    RefersBelow A s depth core := fun o kept => by
  obtain ⟨note, pinned, own⟩ := homed.1 o kept
  have typed : (fun s' n => noteType A s' n o note) = fun s' n => getType A s' n core := by
    funext s' n
    simp [noteType, own]
  exact ⟨note, t, pinned, typed ▸ homed.2, shallower⟩

/-- A core that keeps no offset refers below every depth. -/
theorem refersBelow_of_offset_none (none : core.offset? = none) : RefersBelow A s depth core :=
  fun o kept => by simp [none] at kept

theorem pointsHome_of_offset_none (none : core.offset? = none) : PointsHome A s core :=
  fun o kept => by simp [none] at kept

variable (one : A.ProposesOne)
include one

/-- A proposal keeps the arena depth-ordered when the proposed note has its shape, reads
back as a type, and its cores refer below that type's depth. -/
theorem DepthOrdered.propose (ordered : DepthOrdered A s) {note : Note} (shaped : note.shaped)
    (typed : A.Settles (fun s' n => noteType A s' n (A.propose s note).2 note) (A.propose s note).1 t)
    (below : ∀ core ∈ note.body.nestedCores, RefersBelow A s (getDepth t) core) :
    DepthOrdered A (A.propose s note).1 := by
  intro o w pinned
  have grown := Store.extends_propose (A := A) s note
  rcases one s note o w pinned with old | ⟨rfl, rfl⟩
  · obtain ⟨wShaped, u, settles, refers⟩ := ordered o w old
    exact ⟨wShaped, u, settles.mono grown, fun core mem => (refers core mem).mono grown⟩
  · exact ⟨shaped, t, typed, fun core mem => (below core mem).mono grown⟩

theorem depthOrdered_proposeCores (ordered : DepthOrdered A s) {tycon : TTycon} {isExemplar : Bool}
    {cores : List Core} (shaped : (⟨tycon, isExemplar, .cores cores⟩ : Note).shaped)
    (typed : A.Settles (fun s' n => getType A s' n (proposeCores A s tycon isExemplar cores).2)
      (proposeCores A s tycon isExemplar cores).1 t)
    (below : ∀ core ∈ cores, RefersBelow A s (getDepth t) core) :
    DepthOrdered A (proposeCores A s tycon isExemplar cores).1 ∧
      Homed A (proposeCores A s tycon isExemplar cores).1 (proposeCores A s tycon isExemplar cores).2 t := by
  have own := noteCore_cores (A.propose s ⟨tycon, isExemplar, .cores cores⟩).2 shaped
  simp only [proposeCores_eq] at typed ⊢
  refine ⟨ordered.propose one shaped ?_ below, fun o kept => ?_, typed⟩
  · simpa [noteType, own] using typed
  · have offset : o = (A.propose s ⟨tycon, isExemplar, .cores cores⟩).2 := by
      cases tycon <;> simp_all [Core.offset?, TTycon.hasOffset, Storage.offset?, Note.shaped]
    subst offset
    exact ⟨_, A.pin_propose _ _, own⟩

theorem depthOrdered_proposePairs (ordered : DepthOrdered A s) {tycon : TTycon} {isExemplar : Bool}
    {pairs : List (Core × Core)} (shaped : (⟨tycon, isExemplar, .pairs pairs⟩ : Note).shaped)
    (typed : A.Settles (fun s' n => getType A s' n (proposePairs A s tycon isExemplar pairs).2)
      (proposePairs A s tycon isExemplar pairs).1 t)
    (below : ∀ pair ∈ pairs, RefersBelow A s (getDepth t) pair.1 ∧ RefersBelow A s (getDepth t) pair.2) :
    DepthOrdered A (proposePairs A s tycon isExemplar pairs).1 ∧
      Homed A (proposePairs A s tycon isExemplar pairs).1 (proposePairs A s tycon isExemplar pairs).2 t := by
  have own := noteCore_pairs (A.propose s ⟨tycon, isExemplar, .pairs pairs⟩).2 shaped
  simp only [proposePairs_eq] at typed ⊢
  refine ⟨ordered.propose one (t := t) shaped ?_ fun core mem => ?_, fun o kept => ?_, typed⟩
  · simpa [noteType, own] using typed
  · simp only [Body.nestedCores, List.mem_flatMap, List.mem_cons, List.not_mem_nil, or_false] at mem
    obtain ⟨pair, paired, rfl | rfl⟩ := mem
    exacts [(below pair paired).1, (below pair paired).2]
  · have offset : o = (A.propose s ⟨tycon, isExemplar, .pairs pairs⟩).2 := by
      cases tycon <;> simp_all [Core.offset?, TTycon.hasOffset, Storage.offset?, Note.shaped]
    subst offset
    exact ⟨_, A.pin_propose _ _, own⟩

theorem depthOrdered_initStr (ordered : DepthOrdered A s) (bytes : List UInt8) :
    DepthOrdered A (initStr A s bytes).1 ∧ Homed A (initStr A s bytes).1 (initStr A s bytes).2 .str := by
  refine ⟨?_, ?_, Settles.of_succ fun _ _ n => getType_initStr n⟩
  · unfold initStr
    split
    · exact ordered
    · refine ordered.propose one (t := .str) rfl (Settles.of_succ fun _ _ _ => ?_) (by simp [Body.nestedCores])
      simp [noteType, noteCore, getType, TTycon.plainType]
  · unfold initStr
    split
    · exact pointsHome_of_offset_none (by simp [Core.offset?, TTycon.hasOffset])
    · intro o kept
      simp only [Core.offset?, TTycon.hasOffset, if_true, Storage.offset?, Option.some.injEq] at kept
      subst kept
      simp [A.pin_propose, noteCore, Note.getSize, Body.size]

theorem depthOrdered_initBlob (ordered : DepthOrdered A s) (bytes : List UInt8) :
    DepthOrdered A (initBlob A s bytes).1 ∧ Homed A (initBlob A s bytes).1 (initBlob A s bytes).2 .blob := by
  refine ⟨?_, ?_, Settles.of_succ fun _ _ n => getType_initBlob n⟩
  · unfold initBlob
    split
    · exact ordered
    · refine ordered.propose one (t := .blob) rfl (Settles.of_succ fun _ _ _ => ?_) (by simp [Body.nestedCores])
      simp [noteType, noteCore, getType, TTycon.plainType]
  · unfold initBlob
    split
    · exact pointsHome_of_offset_none (by simp [Core.offset?, TTycon.hasOffset])
    · intro o kept
      simp only [Core.offset?, TTycon.hasOffset, if_true, Storage.offset?, Option.some.injEq] at kept
      subst kept
      simp [A.pin_propose, noteCore, Note.getSize, Body.size]

end Invariant

section Builds

variable {A} {s : σ}

theorem extends_ofTypes (s : σ) : ∀ ts : List Ty, A.Extends s (ofTypes A s ts).1
  | [] => Extends.refl s
  | t :: rest => (ofType_spec s t).1.trans (extends_ofTypes _ rest)

theorem extends_ofFieldTypes (s : σ) : ∀ fields : List (List UInt8 × Ty), A.Extends s (ofFieldTypes A s fields).1
  | [] => Extends.refl s
  | (name, t) :: rest =>
    (show A.Extends s (initStr A s (cStr name)).1 from extends_initStr).trans
      ((ofType_spec _ t).1.trans (extends_ofFieldTypes _ rest))

theorem extends_ofStates (s : σ) : ∀ es : List State, A.Extends s (ofStates A s es).1
  | [] => Extends.refl s
  | e :: rest => (ofState_spec s e).1.trans (extends_ofStates _ rest)

theorem extends_ofPairs (s : σ) : ∀ ps : List (State × State), A.Extends s (ofPairs A s ps).1
  | [] => Extends.refl s
  | (k, v) :: rest =>
    (ofState_spec s k).1.trans ((ofState_spec _ v).1.trans (extends_ofPairs _ rest))

theorem extends_ofFields (s : σ) :
    ∀ (fields : List (List UInt8 × Ty)) (vals : List State), A.Extends s (ofFields A s fields vals).1
  | (name, _) :: fields, v :: vals =>
    (show A.Extends s (initStr A s (cStr name)).1 from extends_initStr).trans
      ((ofState_spec _ v).1.trans (extends_ofFields _ fields vals))
  | [], [] | [], _ :: _ | _ :: _, [] => Extends.refl s

variable (one : A.ProposesOne)
include one

/-- `TCore(arena, type)` keeps the arena depth-ordered, and the default core it returns
points home and reads back as the type. -/
theorem depthOrdered_ofType (s : σ) (t : Ty) :
    DepthOrdered A s → t.NulFreeNames →
      DepthOrdered A (ofType A s t).1 ∧ Homed A (ofType A s t).1 (ofType A s t).2 t := by
  refine ofType.induct A
    (fun s t => DepthOrdered A s → t.NulFreeNames →
      DepthOrdered A (ofType A s t).1 ∧ Homed A (ofType A s t).1 (ofType A s t).2 t)
    (fun s ts => DepthOrdered A s → Ty.listNulFreeNames ts → DepthOrdered A (ofTypes A s ts).1 ∧
      ∀ core ∈ (ofTypes A s ts).2, ∃ t ∈ ts, Homed A (ofTypes A s ts).1 core t)
    (fun s fs => DepthOrdered A s → Ty.fieldsNulFreeNames fs → DepthOrdered A (ofFieldTypes A s fs).1 ∧
      ∀ pair ∈ (ofFieldTypes A s fs).2, ∃ f ∈ fs,
        Homed A (ofFieldTypes A s fs).1 pair.1 .str ∧ Homed A (ofFieldTypes A s fs).1 pair.2 f.2)
    ?_ ?_ ?_ ?_ ?_ ?_ ?_ ?_ ?_ ?_ ?_ ?_ ?_ ?_ ?_ ?blob ?str ?_ ?_
    ?free ?desc ?opt ?set ?vector ?map ?record ?tuple ?fieldsNil ?fieldsCons ?typesNil ?typesCons
    s t
  case blob => exact fun s ordered _ => depthOrdered_initBlob one ordered []
  case str => exact fun s ordered _ => depthOrdered_initStr one ordered []
  case free | desc | opt | set | vector =>
    intro s t s₁ core encoded ih ordered names
    have typed := (ofType_spec (A := A) s _).2 names
    simp only [encoded] at ih
    simp only [ofType, encoded] at typed ⊢
    obtain ⟨ordered₁, homed⟩ := ih ordered names
    refine depthOrdered_proposeCores one ordered₁ rfl typed fun c mem => ?_
    rw [List.mem_singleton.mp mem]
    exact homed.refersBelow (by simp [getDepth])
  case map =>
    intro s k v s₁ key encodedKey s₂ val encodedVal ihKey ihVal ordered names
    have typed := (ofType_spec (A := A) s (.map k v)).2 names
    have grown := (ofType_spec (A := A) s₁ v).1
    simp only [encodedKey] at ihKey
    simp only [encodedVal] at ihVal grown
    simp only [ofType, encodedKey, encodedVal] at typed ⊢
    obtain ⟨ordered₁, homedKey⟩ := ihKey ordered names.1
    obtain ⟨ordered₂, homedVal⟩ := ihVal ordered₁ names.2
    refine depthOrdered_proposePairs one ordered₂ rfl typed fun pair mem => ?_
    rw [List.mem_singleton.mp mem]
    exact ⟨(homedKey.mono grown).refersBelow (getDepth_lt_map k v).1,
      homedVal.refersBelow (getDepth_lt_map k v).2⟩
  case record =>
    intro s fields s₁ pairs encoded ih ordered names
    have typed := (ofType_spec (A := A) s (.record fields)).2 names
    simp only [encoded] at ih
    simp only [ofType, encoded] at typed ⊢
    obtain ⟨ordered₁, homed⟩ := ih ordered names
    refine depthOrdered_proposePairs one ordered₁ rfl typed fun pair mem => ?_
    obtain ⟨⟨name, t⟩, field, homedName, homedVal⟩ := homed pair mem
    exact ⟨homedName.refersBelow (by simp [getDepth]), homedVal.refersBelow (getDepth_lt_record field)⟩
  case tuple =>
    intro s elems s₁ cores encoded ih ordered names
    have typed := (ofType_spec (A := A) s (.tuple elems)).2 names
    simp only [encoded] at ih
    simp only [ofType, encoded] at typed ⊢
    obtain ⟨ordered₁, homed⟩ := ih ordered names
    refine depthOrdered_proposeCores one ordered₁ rfl typed fun core mem => ?_
    obtain ⟨t, elem, homedElem⟩ := homed core mem
    exact homedElem.refersBelow (getDepth_lt_tuple elem)
  case fieldsNil | typesNil =>
    intro s ordered _
    exact ⟨ordered, fun _ mem => by simp [ofFieldTypes, ofTypes] at mem⟩
  case fieldsCons =>
    intro s name t rest s₁ nameCore encodedName s₂ core encoded s₃ pairs encodedRest ih ihRest
      ordered names
    have grown := extends_ofFieldTypes (A := A) s₂ rest
    have grownType := (ofType_spec (A := A) s₁ t).1
    simp only [encoded] at ih grownType
    simp only [encodedRest] at ihRest grown
    simp only [ofFieldTypes, encodedName, encoded, encodedRest]
    obtain ⟨nulFree, typeNames, restNames⟩ := names
    have named := depthOrdered_initStr one ordered (cStr name)
    rw [encodedName] at named
    obtain ⟨ordered₂, homed⟩ := ih named.1 typeNames
    obtain ⟨ordered₃, homedRest⟩ := ihRest ordered₂ restNames
    refine ⟨ordered₃, fun pair mem => ?_⟩
    rcases List.mem_cons.mp mem with rfl | later
    · exact ⟨(name, t), List.mem_cons_self, (named.2.mono grownType).mono grown, homed.mono grown⟩
    · obtain ⟨f, field, homedPair⟩ := homedRest pair later
      exact ⟨f, List.mem_cons_of_mem _ field, homedPair⟩
  case typesCons =>
    intro s t rest s₁ core encoded s₂ cores encodedRest ih ihRest ordered names
    have grown := extends_ofTypes (A := A) s₁ rest
    simp only [encoded] at ih
    simp only [encodedRest] at ihRest grown
    simp only [ofTypes, encoded, encodedRest]
    obtain ⟨ordered₁, homed⟩ := ih ordered names.1
    obtain ⟨ordered₂, homedRest⟩ := ihRest ordered₁ names.2
    refine ⟨ordered₂, fun c mem => ?_⟩
    rcases List.mem_cons.mp mem with rfl | later
    · exact ⟨t, List.mem_cons_self, homed.mono grown⟩
    · obtain ⟨u, elem, homedElem⟩ := homedRest c later
      exact ⟨u, List.mem_cons_of_mem _ elem, homedElem⟩
  all_goals
    intro s ordered _
    exact ⟨ordered, pointsHome_of_offset_none rfl, Settles.of_succ fun _ _ _ => rfl⟩

/-- `TCore(arena, state)` keeps the arena depth-ordered, and the core of a well-typed state
whose field names hold no NUL points home and reads back as the state's type. -/
theorem depthOrdered_ofState (s : σ) (e : State) :
    DepthOrdered A s → e.WellTyped → e.type.NulFreeNames →
      DepthOrdered A (ofState A s e).1 ∧ Homed A (ofState A s e).1 (ofState A s e).2 e.type := by
  refine ofState.induct A
    (fun s e => DepthOrdered A s → e.WellTyped → e.type.NulFreeNames →
      DepthOrdered A (ofState A s e).1 ∧ Homed A (ofState A s e).1 (ofState A s e).2 e.type)
    (fun s fields vals => DepthOrdered A s → valsOfFields fields vals → Ty.fieldsNulFreeNames fields →
      DepthOrdered A (ofFields A s fields vals).1 ∧ ∀ pair ∈ (ofFields A s fields vals).2, ∃ f ∈ fields,
        Homed A (ofFields A s fields vals).1 pair.1 .str ∧ Homed A (ofFields A s fields vals).1 pair.2 f.2)
    (fun s ps => DepthOrdered A s →
      (∀ p ∈ ps, p.1.WellTyped ∧ p.1.type.NulFreeNames ∧ p.2.WellTyped ∧ p.2.type.NulFreeNames) →
      DepthOrdered A (ofPairs A s ps).1 ∧ ∀ pair ∈ (ofPairs A s ps).2, ∃ p ∈ ps,
        Homed A (ofPairs A s ps).1 pair.1 p.1.type ∧ Homed A (ofPairs A s ps).1 pair.2 p.2.type)
    (fun s es => DepthOrdered A s → (∀ e ∈ es, e.WellTyped ∧ e.type.NulFreeNames) →
      DepthOrdered A (ofStates A s es).1 ∧
        ∀ core ∈ (ofStates A s es).2, ∃ e ∈ es, Homed A (ofStates A s es).1 core e.type)
    ?_ ?_ ?_ ?_ ?_ ?_ ?_ ?_ ?_ ?_ ?_ ?_ ?_ ?_ ?_ ?blob ?str ?tombstone ?void
    ?free ?desc ?optNone ?optSome ?setNil ?setCons ?vectorNil ?vectorCons ?mapNil ?mapCons
    ?recordNil ?recordCons ?tupleNil ?tupleCons ?fieldsCons ?fieldsOther ?statesNil ?statesCons
    ?pairsNil ?pairsCons s e
  case blob => exact fun s bytes ordered _ _ => depthOrdered_initBlob one ordered bytes
  case str => exact fun s bytes ordered _ _ => depthOrdered_initStr one ordered bytes
  case free | optNone | setNil | vectorNil =>
    -- an exemplar: one default core of the element type
    intro s t s₁ core encoded ordered typed names
    have settles := ((ofState_spec (A := A) s _).2 typed names).2
    have built := depthOrdered_ofType one s t ordered names
    simp only [encoded] at built
    simp only [ofState, encoded] at settles ⊢
    refine depthOrdered_proposeCores one built.1 rfl settles fun c mem => ?_
    rw [List.mem_singleton.mp mem]
    exact built.2.refersBelow (by simp [getDepth, State.type])
  case desc =>
    intro s e s₁ core encoded ih ordered typed names
    have settles := ((ofState_spec (A := A) s (.desc e)).2 typed names).2
    simp only [encoded] at ih
    simp only [ofState, encoded] at settles ⊢
    obtain ⟨ordered₁, homed⟩ := ih ordered typed names
    refine depthOrdered_proposeCores one ordered₁ rfl settles fun c mem => ?_
    rw [List.mem_singleton.mp mem]
    exact homed.refersBelow (by simp [getDepth, State.type])
  case optSome =>
    intro s elem e s₁ core encoded ih ordered typed names
    have settles := ((ofState_spec (A := A) s (.opt elem (some e))).2 typed names).2
    obtain ⟨elemType, elemTyped⟩ := typed
    subst elemType
    simp only [encoded] at ih
    simp only [ofState, encoded] at settles ⊢
    obtain ⟨ordered₁, homed⟩ := ih ordered elemTyped names
    refine depthOrdered_proposeCores one ordered₁ rfl settles fun c mem => ?_
    rw [List.mem_singleton.mp mem]
    exact homed.refersBelow (by simp [getDepth, State.type])
  case setCons | vectorCons =>
    intro s elem e es s₁ cores encoded ih ordered typed names
    have settles := ((ofState_spec (A := A) s _).2 typed names).2
    have elemsTyped := allOfType_iff.mp typed
    simp only [encoded] at ih
    simp only [ofState, encoded] at settles ⊢
    obtain ⟨ordered₁, homed⟩ :=
      ih ordered fun x mem => ⟨(elemsTyped x mem).2, (elemsTyped x mem).1 ▸ names⟩
    refine depthOrdered_proposeCores one ordered₁ rfl settles fun c mem => ?_
    obtain ⟨x, elem, homedElem⟩ := homed c mem
    exact homedElem.refersBelow (by simp [getDepth, State.type, (elemsTyped x elem).1])
  case mapNil =>
    intro s k v s₁ key encodedKey s₂ val encodedVal ordered typed names
    have settles := ((ofState_spec (A := A) s (.map k v [])).2 typed names).2
    have builtKey := depthOrdered_ofType one s k ordered names.1
    have grown := (ofType_spec (A := A) s₁ v).1
    simp only [encodedKey] at builtKey
    have builtVal := depthOrdered_ofType one s₁ v builtKey.1 names.2
    simp only [encodedVal] at builtVal grown
    simp only [ofState, encodedKey, encodedVal] at settles ⊢
    refine depthOrdered_proposePairs one builtVal.1 rfl settles fun pair mem => ?_
    rw [List.mem_singleton.mp mem]
    exact ⟨(builtKey.2.mono grown).refersBelow (getDepth_lt_map k v).1,
      builtVal.2.refersBelow (getDepth_lt_map k v).2⟩
  case mapCons =>
    intro s key val p ps s₁ pairs encoded ih ordered typed names
    have settles := ((ofState_spec (A := A) s (.map key val (p :: ps))).2 typed names).2
    have entriesTyped := pairsOfType_iff.mp typed
    simp only [encoded] at ih
    simp only [ofState, encoded] at settles ⊢
    obtain ⟨ordered₁, homed⟩ := ih ordered fun q mem =>
      have typedQ := entriesTyped q mem
      ⟨typedQ.2.1, typedQ.1 ▸ names.1, typedQ.2.2.2, typedQ.2.2.1 ▸ names.2⟩
    refine depthOrdered_proposePairs one ordered₁ rfl settles fun pair mem => ?_
    obtain ⟨q, entry, homedKey, homedVal⟩ := homed pair mem
    obtain ⟨keyType, -, valType, -⟩ := entriesTyped q entry
    rw [keyType] at homedKey
    rw [valType] at homedVal
    exact ⟨homedKey.refersBelow (getDepth_lt_map key val).1,
      homedVal.refersBelow (getDepth_lt_map key val).2⟩
  case recordNil =>
    intro s fields s₁ pairs encoded ordered _ names
    have sameAsType : ofState A s (.record fields []) = ofType A s (.record fields) := rfl
    rw [sameAsType]
    exact depthOrdered_ofType one s _ ordered names
  case recordCons =>
    intro s fields v vs s₁ pairs encoded ih ordered typed names
    have settles := ((ofState_spec (A := A) s (.record fields (v :: vs))).2 typed names).2
    simp only [encoded] at ih
    simp only [ofState, encoded] at settles ⊢
    obtain ⟨ordered₁, homed⟩ := ih ordered typed names
    refine depthOrdered_proposePairs one ordered₁ rfl settles fun pair mem => ?_
    obtain ⟨⟨name, t⟩, field, homedName, homedVal⟩ := homed pair mem
    exact ⟨homedName.refersBelow (by simp [getDepth, State.type]),
      homedVal.refersBelow (getDepth_lt_record field)⟩
  case tupleNil =>
    intro s ordered typed names
    have settles := ((ofState_spec (A := A) s (.tuple [])).2 typed names).2
    simp only [ofState] at settles ⊢
    exact depthOrdered_proposeCores one ordered rfl settles fun _ mem => by cases mem
  case tupleCons =>
    intro s e es s₁ cores encoded ih ordered typed names
    have settles := ((ofState_spec (A := A) s (.tuple (e :: es))).2 typed names).2
    have elemsTyped := allWellTyped_iff.mp typed
    have elemsNamed := listNulFreeNames_types.mp names
    simp only [encoded] at ih
    simp only [ofState, encoded] at settles ⊢
    obtain ⟨ordered₁, homed⟩ := ih ordered fun x mem => ⟨elemsTyped x mem, elemsNamed x mem⟩
    refine depthOrdered_proposeCores one ordered₁ rfl settles fun c mem => ?_
    obtain ⟨x, elem, homedElem⟩ := homed c mem
    refine homedElem.refersBelow (getDepth_lt_tuple ?_)
    rw [types_eq_map]
    exact List.mem_map_of_mem elem
  case fieldsCons =>
    intro s name snd fields v vals s₁ nameCore encodedName s₂ core encoded s₃ pairs encodedRest ih
      ihRest ordered typed names
    have grown := extends_ofFields (A := A) s₂ fields vals
    have grownVal := (ofState_spec (A := A) s₁ v).1
    simp only [encoded] at ih grownVal
    simp only [encodedRest] at ihRest grown
    simp only [ofFields, encodedName, encoded, encodedRest]
    obtain ⟨vType, vTyped, restTyped⟩ := typed
    obtain ⟨nulFree, typeNames, restNames⟩ := names
    have named := depthOrdered_initStr one ordered (cStr name)
    rw [encodedName] at named
    obtain ⟨ordered₂, homed⟩ := ih named.1 vTyped (vType ▸ typeNames)
    obtain ⟨ordered₃, homedRest⟩ := ihRest ordered₂ restTyped restNames
    refine ⟨ordered₃, fun pair mem => ?_⟩
    rcases List.mem_cons.mp mem with rfl | later
    · exact ⟨(name, snd), List.mem_cons_self, (named.2.mono grownVal).mono grown,
        vType ▸ homed.mono grown⟩
    · obtain ⟨f, field, homedPair⟩ := homedRest pair later
      exact ⟨f, List.mem_cons_of_mem _ field, homedPair⟩
  case fieldsOther =>
    intro vals s fields notBoth ordered _ _
    -- fewer values than fields, or fewer fields than values: no pairs are built
    cases fields with
    | nil => cases vals <;> exact ⟨ordered, fun _ mem => by simp [ofFields] at mem⟩
    | cons f fs =>
      cases vals with
      | nil => exact ⟨ordered, fun _ mem => by simp [ofFields] at mem⟩
      | cons v vs => exact absurd (notBoth f.1 f.2 fs v vs rfl rfl) id
  case statesNil | pairsNil =>
    intro s ordered _
    exact ⟨ordered, fun _ mem => by simp [ofStates, ofPairs] at mem⟩
  case statesCons =>
    intro s e rest s₁ core encoded s₂ cores encodedRest ih ihRest ordered sound
    have grown := extends_ofStates (A := A) s₁ rest
    simp only [encoded] at ih
    simp only [encodedRest] at ihRest grown
    simp only [ofStates, encoded, encodedRest]
    obtain ⟨ordered₁, homed⟩ := ih ordered (sound e List.mem_cons_self).1 (sound e List.mem_cons_self).2
    obtain ⟨ordered₂, homedRest⟩ := ihRest ordered₁ fun x mem => sound x (List.mem_cons_of_mem e mem)
    refine ⟨ordered₂, fun c mem => ?_⟩
    rcases List.mem_cons.mp mem with rfl | later
    · exact ⟨e, List.mem_cons_self, homed.mono grown⟩
    · obtain ⟨x, elem, homedElem⟩ := homedRest c later
      exact ⟨x, List.mem_cons_of_mem _ elem, homedElem⟩
  case pairsCons =>
    intro s k v rest s₁ key encodedKey s₂ val encodedVal s₃ pairs encodedRest ihKey ihVal ihRest
      ordered sound
    have grown := extends_ofPairs (A := A) s₂ rest
    have grownVal := (ofState_spec (A := A) s₁ v).1
    simp only [encodedKey] at ihKey
    simp only [encodedVal] at ihVal grownVal
    simp only [encodedRest] at ihRest grown
    simp only [ofPairs, encodedKey, encodedVal, encodedRest]
    obtain ⟨kTyped, kNamed, vTyped, vNamed⟩ := sound (k, v) List.mem_cons_self
    obtain ⟨ordered₁, homedKey⟩ := ihKey ordered kTyped kNamed
    obtain ⟨ordered₂, homedVal⟩ := ihVal ordered₁ vTyped vNamed
    obtain ⟨ordered₃, homedRest⟩ := ihRest ordered₂ fun q mem => sound q (List.mem_cons_of_mem _ mem)
    refine ⟨ordered₃, fun pair mem => ?_⟩
    rcases List.mem_cons.mp mem with rfl | later
    · exact ⟨(k, v), List.mem_cons_self, (homedKey.mono grownVal).mono grown, homedVal.mono grown⟩
    · obtain ⟨q, entry, homedPair⟩ := homedRest pair later
      exact ⟨q, List.mem_cons_of_mem _ entry, homedPair⟩
  case tombstone | void =>
    intro s ordered _ _
    exact ⟨ordered, pointsHome_of_offset_none rfl, Settles.of_succ fun _ _ _ => rfl⟩
  all_goals
    intro s v ordered _ _
    exact ⟨ordered, pointsHome_of_offset_none rfl, Settles.of_succ fun _ _ _ => rfl⟩

end Builds

section Sorted

variable {A} {s : σ} {fuel : Nat} {tieBreak : Nat → Nat → Bool}

/-- More fuel gives the type `NoteCmp` reads of a note, once it reads one. -/
theorem noteType_mono {o : Nat} {note : Note} {n m : Nat} {t : Ty} (enough : n ≤ m)
    (answered : noteType A s n o note = some t) : noteType A s m o note = some t := by
  obtain ⟨core, own, typed⟩ := Option.bind_eq_some_iff.mp answered
  exact Option.bind_eq_some_iff.mpr ⟨core, own, getType_grows enough core t typed⟩

/-- With fuel enough to read a note's type, `NoteCmp` gives the note the depth of the type it
settles on. -/
theorem depthAt_eq {o : Nat} {note : Note} {t : Ty} (pinned : A.pin s o = some note)
    (settles : A.Settles (fun s' n => noteType A s' n o note) s t)
    (reads : (noteType A s fuel o note).isSome) : depthAt A s fuel o = getDepth t := by
  obtain ⟨t', answered⟩ := Option.isSome_iff_exists.mp reads
  have same := settles.eq_of_answer (fun enough got => noteType_mono enough got) answered
  simp [depthAt, pinned, answered, same]

/-- In a depth-ordered arena, with fuel enough to read every note's type, a vector sorted by
`NoteCmp` puts every note after the notes it refers to: those are shallower, so neither the
note itself nor any note after it. -/
theorem refsBefore_of_sorted (ordered : DepthOrdered A s)
    (reads : ∀ o note, A.pin s o = some note → (noteType A s fuel o note).isSome) :
    ∀ {done order : List Nat}, (∀ o note, A.pin s o = some note → o ∈ done ∨ o ∈ order) →
      order.Pairwise (fun a b => noteCmp A s fuel tieBreak b a = false) → RefsBefore A s done order
  | _, [], _, _ => trivial
  | done, o :: rest, covers, sorted => by
    refine ⟨fun note pinned core mem p kept => ?_,
      refsBefore_of_sorted ordered reads (fun o' note' pinned' => ?_) (List.pairwise_cons.mp sorted).2⟩
    · obtain ⟨-, t, settles, below⟩ := ordered o note pinned
      obtain ⟨note', t', pinned', settles', shallower⟩ := below core mem p kept
      have deep := depthAt_eq pinned settles (reads o note pinned)
      have shallow := depthAt_eq pinned' settles' (reads p note' pinned')
      rcases covers p note' pinned' with before | elsewhere
      · exact before
      rcases List.mem_cons.mp elsewhere with same | later
      · subst same
        omega
      · have rising := (List.pairwise_cons.mp (depthAt_le_of_sorted A sorted)).1 p later
        omega
    · rcases covers o' note' pinned' with before | elsewhere
      · exact .inl (List.mem_cons_of_mem o before)
      rcases List.mem_cons.mp elsewhere with same | later
      · exact .inl (same ▸ List.mem_cons_self)
      · exact .inr later

end Sorted

section Renaming

variable {A} {τ : Type} {B : TExtensibleArena τ} {s : σ} {t t' : τ} {f : Nat → Nat}

@[simp] theorem Note.shaped_remapBody (note : Note) : (note.remapBody f).shaped = note.shaped := by
  obtain ⟨tycon, isExemplar, body⟩ := note
  cases tycon <;> cases body <;> rfl

theorem Body.size_remap (body : Body) : (body.remap f).size = body.size := by
  cases body <;> simp [Body.remap, Body.size]

theorem Note.getSize_remapBody (note : Note) : (note.remapBody f).getSize = note.getSize := by
  obtain ⟨tycon, isExemplar, body⟩ := note
  cases body
  case raw => rfl
  all_goals simp [Note.remapBody, Body.remap, Note.getSize, Body.size]

/-- The core of a remapped note is the remapped core of the note. -/
theorem noteCore_remapBody (o : Nat) (note : Note) :
    noteCore (f o) (note.remapBody f) = (noteCore o note).map (Core.remap f) := by
  have sized := Note.getSize_remapBody (f := f) note
  obtain ⟨tycon, isExemplar, body⟩ := note
  cases tycon <;>
    simp_all [noteCore, Note.remapBody, fullCore, Body.size_remap, Core.remap, TTycon.hasOffset,
      Storage.remapOffset]

theorem Body.nestedCores_remap (body : Body) : (body.remap f).nestedCores = body.nestedCores.map (Core.remap f) := by
  cases body <;> simp [Body.remap, Body.nestedCores, remapPair, List.map_flatMap, List.flatMap_map]

theorem Core.offset?_remap (core : Core) : (core.remap f).offset? = core.offset?.map f := by
  obtain ⟨tycon, storage⟩ := core
  by_cases kept : tycon.hasOffset = true
  · cases storage <;> simp [Core.remap, Core.offset?, kept, Storage.remapOffset, Storage.offset?]
  · simp [Core.remap, Core.offset?, kept]

theorem Renames.mono (renames : Renames A s B t f) (grown : B.Extends t t') : Renames A s B t' f :=
  fun o note pinned => grown.pin (renames o note pinned)

/-- The type a core settles on in `s` is the one its remapped core settles on in `t`. -/
theorem Renames.settles_getType (renames : Renames A s B t f) {core : Core} {ty : Ty}
    (settles : A.Settles (fun s' n => getType A s' n core) s ty) :
    B.Settles (fun t' n => getType B t' n (core.remap f)) t ty := by
  obtain ⟨N, answers⟩ := settles.answers
  exact ⟨N, fun t' grown n enough => getType_remap (renames.mono grown) core ty (answers n enough)⟩

theorem Renames.settles_newState (renames : Renames A s B t f) {core : Core} {e : State}
    (settles : A.Settles (fun s' n => newState A s' n core) s e) :
    B.Settles (fun t' n => newState B t' n (core.remap f)) t e := by
  obtain ⟨N, answers⟩ := settles.answers
  exact ⟨N, fun t' grown n enough => newState_remap (renames.mono grown) core e (answers n enough)⟩

theorem Renames.settles_noteType (renames : Renames A s B t f) {o : Nat} {note : Note} {ty : Ty}
    (settles : A.Settles (fun s' n => noteType A s' n o note) s ty) :
    B.Settles (fun t' n => noteType B t' n (f o) (note.remapBody f)) t ty := by
  obtain ⟨N, answers⟩ := settles.answers
  refine ⟨N, fun t' grown n enough => ?_⟩
  obtain ⟨core, own, typed⟩ := Option.bind_eq_some_iff.mp (answers n enough)
  simp only [noteType, noteCore_remapBody, own, Option.map_some, Option.bind_some]
  exact getType_remap (renames.mono grown) core ty typed

theorem ReadsBack.renames {core : Core} {e : State} (reads : ReadsBack A s core e)
    (renames : Renames A s B t f) : ReadsBack B t (core.remap f) e :=
  ⟨renames.settles_newState reads.1, renames.settles_getType reads.2⟩

theorem PointsHome.renames {core : Core} (home : PointsHome A s core) (renames : Renames A s B t f) :
    PointsHome B t (core.remap f) := by
  intro p kept
  rw [Core.offset?_remap] at kept
  obtain ⟨q, qKept, rfl⟩ := Option.map_eq_some_iff.mp kept
  obtain ⟨note, pinned, own⟩ := home q qKept
  exact ⟨note.remapBody f, renames q note pinned, by rw [noteCore_remapBody, own]; rfl⟩

/-- An arena that holds exactly the renamed notes of a depth-ordered arena is depth-ordered:
each note keeps its shape and type, and each of its cores refers to the renamed note it
referred to. -/
theorem DepthOrdered.renames (ordered : DepthOrdered A s) (renames : Renames A s B t f)
    (onto : ∀ n w, B.pin t n = some w → ∃ o note, A.pin s o = some note ∧ n = f o ∧ w = note.remapBody f) :
    DepthOrdered B t := by
  intro n w pinned
  obtain ⟨o, note, pinnedA, rfl, rfl⟩ := onto n w pinned
  obtain ⟨shaped, ty, settles, below⟩ := ordered o note pinnedA
  refine ⟨by simpa using shaped, ty, renames.settles_noteType settles, fun core mem => ?_⟩
  rw [Note.remapBody, Body.nestedCores_remap] at mem
  obtain ⟨c, cMem, rfl⟩ := List.mem_map.mp mem
  intro p kept
  rw [Core.offset?_remap] at kept
  obtain ⟨q, qKept, rfl⟩ := Option.map_eq_some_iff.mp kept
  obtain ⟨note', ty', pinned', settles', shallower⟩ := below c cMem q qKept
  exact ⟨note'.remapBody f, ty', renames q note' pinned', renames.settles_noteType settles', shallower⟩

end Renaming

end Orly.Atom

import Mathlib.Data.List.TakeWhile
import Orly.Atom.NewState
import Orly.Sabot.StateOrderLaws

/-! Reading a core back gives the state it was built from.

For every extensible arena, a well-typed state whose record field names hold no NUL
byte is stored by `TCore(arena, state)` as a core that `NewState` reads back as the
state itself and `GetType` as its type, in the arena as it stands after the store
and in every later extension of it, given enough fuel. The induction follows the
encoder: each helper that proposes a note gets one lemma saying what its note reads
back as, and each case of the encoder combines the settled answers of its parts
(`AppendStore.Store.Settles`). -/
namespace Orly.Atom

open Orly.Sabot Orly.Sabot.State AppendStore AppendStore.Store

variable {σ : Type} {A : TExtensibleArena σ} {s s' : σ}

section Helpers

theorem proposeCores_eq (s : σ) (tycon : TTycon) (isExemplar : Bool) (cores : List Core) :
    proposeCores A s tycon isExemplar cores =
      ((A.propose s ⟨tycon, isExemplar, .cores cores⟩).1,
        ⟨tycon, .indirectCoreArray (A.propose s ⟨tycon, isExemplar, .cores cores⟩).2
          cores.length isExemplar true⟩) := rfl

theorem proposePairs_eq (s : σ) (tycon : TTycon) (isExemplar : Bool)
    (pairs : List (Core × Core)) :
    proposePairs A s tycon isExemplar pairs =
      ((A.propose s ⟨tycon, isExemplar, .pairs pairs⟩).1,
        ⟨tycon, .indirectCoreArray (A.propose s ⟨tycon, isExemplar, .pairs pairs⟩).2
          pairs.length isExemplar true⟩) := rfl

variable {tycon : TTycon} {isExemplar : Bool}

@[simp] theorem tycon_proposeCores {cores : List Core} :
    (proposeCores A s tycon isExemplar cores).2.tycon = tycon := rfl

@[simp] theorem tycon_proposePairs {pairs : List (Core × Core)} :
    (proposePairs A s tycon isExemplar pairs).2.tycon = tycon := rfl

@[simp] theorem isExemplar_proposeCores {cores : List Core} :
    (proposeCores A s tycon isExemplar cores).2.storage.isExemplar = isExemplar := rfl

@[simp] theorem isExemplar_proposePairs {pairs : List (Core × Core)} :
    (proposePairs A s tycon isExemplar pairs).2.storage.isExemplar = isExemplar := rfl

theorem extends_proposeCores (tycon : TTycon) (isExemplar : Bool) (cores : List Core) :
    A.Extends s (proposeCores A s tycon isExemplar cores).1 :=
  extends_propose s _

theorem extends_proposePairs (tycon : TTycon) (isExemplar : Bool) (pairs : List (Core × Core)) :
    A.Extends s (proposePairs A s tycon isExemplar pairs).1 :=
  extends_propose s _

theorem pinCores_proposeCores {cores : List Core}
    (grown : A.Extends (proposeCores A s tycon isExemplar cores).1 s') :
    pinCores A s' (proposeCores A s tycon isExemplar cores).2.storage = some cores := by
  rw [proposeCores_eq] at grown ⊢
  simp [pinCores, pin_propose_of_extends grown]

theorem pinPairs_proposePairs {pairs : List (Core × Core)}
    (grown : A.Extends (proposePairs A s tycon isExemplar pairs).1 s') :
    pinPairs A s' (proposePairs A s tycon isExemplar pairs).2.storage = some pairs := by
  rw [proposePairs_eq] at grown ⊢
  simp [pinPairs, pin_propose_of_extends grown]

variable {bytes : List UInt8}

/-- The bytes a direct string or blob reads: as many as the tycon leaves used. -/
theorem take_paddedArea (fits : bytes.length ≤ maxDirectSize) :
    (bytes ++ List.replicate (maxDirectSize - bytes.length) 0).take
      (maxDirectSize - (maxDirectSize - bytes.length)) = bytes := by
  have used : maxDirectSize - (maxDirectSize - bytes.length) = bytes.length := by omega
  simp [used]

theorem extends_initStr : A.Extends s (initStr A s bytes).1 := by
  by_cases fits : bytes.length ≤ maxDirectSize
  · simp only [initStr, fits, dite_true]
    exact Extends.refl s
  · simp only [initStr, fits, dite_false]
    exact extends_propose s _

theorem extends_initBlob : A.Extends s (initBlob A s bytes).1 := by
  by_cases fits : bytes.length ≤ maxDirectSize
  · simp only [initBlob, fits, dite_true]
    exact Extends.refl s
  · simp only [initBlob, fits, dite_false]
    exact extends_propose s _

/-- A string of any length, direct or in a note, reads back as itself. -/
theorem newState_initStr (grown : A.Extends (initStr A s bytes).1 s') (n : Nat) :
    newState A s' (n + 1) (initStr A s bytes).2 = some (.str bytes) := by
  by_cases fits : bytes.length ≤ maxDirectSize
  · simp [initStr, fits, newState, take_paddedArea fits]
  · simp only [initStr, fits, dite_false] at grown ⊢
    simp [newState, pinRaw, pin_propose_of_extends grown]

theorem newState_initBlob (grown : A.Extends (initBlob A s bytes).1 s') (n : Nat) :
    newState A s' (n + 1) (initBlob A s bytes).2 = some (.blob bytes) := by
  by_cases fits : bytes.length ≤ maxDirectSize
  · simp [initBlob, fits, newState, take_paddedArea fits]
  · simp only [initBlob, fits, dite_false] at grown ⊢
    simp [newState, pinRaw, pin_propose_of_extends grown]

theorem getType_initStr (n : Nat) : getType A s' (n + 1) (initStr A s bytes).2 = some .str := by
  by_cases fits : bytes.length ≤ maxDirectSize
  · simp [initStr, fits, getType, TTycon.plainType]
  · simp [initStr, fits, getType, TTycon.plainType]

theorem getType_initBlob (n : Nat) : getType A s' (n + 1) (initBlob A s bytes).2 = some .blob := by
  by_cases fits : bytes.length ≤ maxDirectSize
  · simp [initBlob, fits, getType, TTycon.plainType]
  · simp [initBlob, fits, getType, TTycon.plainType]

theorem cStr_of_nulFree (nulFree : 0 ∉ bytes) : cStr bytes = bytes := by
  rw [cStr, List.takeWhile_eq_self_iff]
  intro b mem
  simp only [bne_iff_ne, ne_eq]
  rintro rfl
  exact nulFree mem

theorem extends_of_initStr {s₁ : σ} {core : Core} (encoded : initStr A s bytes = (s₁, core)) :
    A.Extends s s₁ := by
  have stored : A.Extends s (initStr A s bytes).1 := extends_initStr
  rwa [encoded] at stored

/-- A field name with no NUL is copied out whole; a direct one is read up to the
zero padding, an indirect one up to its terminating NUL. -/
theorem copyOut_initStr (nulFree : 0 ∉ bytes) (grown : A.Extends (initStr A s bytes).1 s') :
    copyOut A s' (initStr A s bytes).2 = some bytes := by
  by_cases fits : bytes.length ≤ maxDirectSize
  · have beforePadding : ∀ b ∈ bytes, (b != 0) = true := by
      intro b mem
      simp only [bne_iff_ne, ne_eq]
      rintro rfl
      exact nulFree mem
    simp [initStr, fits, copyOut, cStr, List.takeWhile_append_of_pos beforePadding]
  · simp only [initStr, fits, dite_false] at grown ⊢
    simp [copyOut, pinRaw, pin_propose_of_extends grown]

end Helpers

/-- The name core of a record field reads back as the name, whatever the fuel. -/
theorem settles_copyOut_initStr {s₁ : σ} {nameCore : Core} {name : List UInt8} (nulFree : 0 ∉ name)
    (encoded : initStr A s name = (s₁, nameCore)) :
    A.Settles (fun s' _ => copyOut A s' nameCore) s₁ name :=
  Settles.of_forall fun s' grown _ => by
    have stored : A.Extends (initStr A s name).1 s' := by rw [encoded]; exact grown
    have read := copyOut_initStr nulFree stored
    rwa [encoded] at read

/-- `TCore(arena, type)` only adds to the arena, and `GetType` reads a type whose field
names hold no NUL back from its default core. -/
theorem ofType_spec (s : σ) (t : Ty) :
    A.Extends s (ofType A s t).1 ∧
      (t.NulFreeNames →
        A.Settles (fun s' n => getType A s' n (ofType A s t).2) (ofType A s t).1 t) := by
  refine ofType.induct A
    (fun s t => A.Extends s (ofType A s t).1 ∧
      (t.NulFreeNames →
        A.Settles (fun s' n => getType A s' n (ofType A s t).2) (ofType A s t).1 t))
    (fun s ts => A.Extends s (ofTypes A s ts).1 ∧
      (Ty.listNulFreeNames ts →
        A.Settles (fun s' n => (ofTypes A s ts).2.mapM (getType A s' n)) (ofTypes A s ts).1 ts))
    (fun s fs => A.Extends s (ofFieldTypes A s fs).1 ∧
      (Ty.fieldsNulFreeNames fs → A.Settles
        (fun s' n => (ofFieldTypes A s fs).2.mapM (fieldOf A s' (getType A s' n)))
        (ofFieldTypes A s fs).1 fs))
    ?_ ?_ ?_ ?_ ?_ ?_ ?_ ?_ ?_ ?_ ?_ ?_ ?_ ?_ ?_ ?_ ?_ ?_ ?_
    ?free ?desc ?opt ?set ?vector ?map ?record ?tuple ?fieldsNil ?fieldsCons ?typesNil ?typesCons
    s t
  case free | desc | opt | set | vector =>
    intro s t s₁ core encoded ih
    simp only [encoded] at ih
    simp only [ofType, encoded]
    refine ⟨ih.1.trans (extends_proposeCores _ _ _), fun names => ?_⟩
    refine ((ih.2 names).mono (extends_proposeCores _ _ _)).step fun s' n grown got => ?_
    simp [getType, pinCores_proposeCores grown, got]
  case map =>
    intro s k v s₁ key encodedKey s₂ val encodedVal ihKey ihVal
    simp only [encodedKey] at ihKey
    simp only [encodedVal] at ihVal
    simp only [ofType, encodedKey, encodedVal]
    refine ⟨(ihKey.1.trans ihVal.1).trans (extends_proposePairs _ _ _), fun names => ?_⟩
    have keyReads := (ihKey.2 names.1).mono (ihVal.1.trans (extends_proposePairs .map true [(key, val)]))
    have valReads := (ihVal.2 names.2).mono (extends_proposePairs .map true [(key, val)])
    have pairReads : A.Settles (fun s' n => pairOf (getType A s' n) (key, val)) _ (k, v) :=
      keyReads.map₂ valReads fun s' n _ gotKey gotVal => by simp [pairOf, gotKey, gotVal]
    refine pairReads.step fun s' n grown got => ?_
    simp [getType, pinPairs_proposePairs grown, got]
  case record =>
    intro s fields s₁ pairs encoded ih
    simp only [encoded] at ih
    simp only [ofType, encoded]
    refine ⟨ih.1.trans (extends_proposePairs _ _ _), fun names => ?_⟩
    refine ((ih.2 names).mono (extends_proposePairs _ _ _)).step fun s' n grown got => ?_
    simp [getType, pinPairs_proposePairs grown, got]
  case tuple =>
    intro s elems s₁ cores encoded ih
    simp only [encoded] at ih
    simp only [ofType, encoded]
    refine ⟨ih.1.trans (extends_proposeCores _ _ _), fun names => ?_⟩
    refine ((ih.2 names).mono (extends_proposeCores _ _ _)).step fun s' n grown got => ?_
    simp [getType, pinCores_proposeCores grown, got]
  case fieldsNil | typesNil =>
    intro s
    exact ⟨Extends.refl s, fun _ => Settles.of_forall fun _ _ _ => rfl⟩
  case fieldsCons =>
    intro s name t rest s₁ nameCore encodedName s₂ core encoded s₃ pairs encodedRest ih ihRest
    simp only [encoded] at ih
    simp only [encodedRest] at ihRest
    simp only [ofFieldTypes, encodedName, encoded, encodedRest]
    refine ⟨((extends_of_initStr encodedName).trans ih.1).trans ihRest.1, fun names => ?_⟩
    obtain ⟨nulFree, typeNames, restNames⟩ := names
    rw [cStr_of_nulFree nulFree] at encodedName
    have nameReads := settles_copyOut_initStr nulFree encodedName
    have fieldReads :
        A.Settles (fun s' n => fieldOf A s' (getType A s' n) (nameCore, core)) s₂ (name, t) :=
      (nameReads.mono ih.1).map₂ (ih.2 typeNames) fun s' n _ gotName gotType => by
        simp [fieldOf, gotName, gotType]
    refine (fieldReads.mono ihRest.1).map₂ (ihRest.2 restNames) fun s' n _ got gotRest => ?_
    simp [got, gotRest]
  case typesCons =>
    intro s t rest s₁ core encoded s₂ cores encodedRest ih ihRest
    simp only [encoded] at ih
    simp only [encodedRest] at ihRest
    simp only [ofTypes, encoded, encodedRest]
    refine ⟨ih.1.trans ihRest.1, fun names => ?_⟩
    refine ((ih.2 names.1).mono ihRest.1).map₂ (ihRest.2 names.2) fun s' n _ got gotRest => ?_
    simp [got, gotRest]
  all_goals
    intro s
    exact ⟨Extends.refl s, fun _ => Settles.of_succ fun _ _ _ => rfl⟩

section Reads

variable (A) in
/-- `core` reads back, in `s` and every extension of it, as the state `e` and its
type, from some fuel on. -/
def ReadsBack (s : σ) (core : Core) (e : State) : Prop :=
  A.Settles (fun s' n => newState A s' n core) s e ∧
    A.Settles (fun s' n => getType A s' n core) s e.type

variable (A) in
/-- `cores` read back as the states `es` and their types. -/
def ReadsBackAll (s : σ) (cores : List Core) (es : List State) : Prop :=
  A.Settles (fun s' n => cores.mapM (newState A s' n)) s es ∧
    A.Settles (fun s' n => cores.mapM (getType A s' n)) s (State.types es)

theorem ReadsBack.mono {core : Core} {e : State} (reads : ReadsBack A s core e)
    (grown : A.Extends s s') : ReadsBack A s' core e :=
  ⟨reads.1.mono grown, reads.2.mono grown⟩

theorem ReadsBackAll.mono {cores : List Core} {es : List State} (reads : ReadsBackAll A s cores es)
    (grown : A.Extends s s') : ReadsBackAll A s' cores es :=
  ⟨reads.1.mono grown, reads.2.mono grown⟩

theorem ReadsBack.single {core : Core} {e : State} (reads : ReadsBack A s core e) :
    ReadsBackAll A s [core] [e] :=
  ⟨reads.1.map fun _ _ _ got => by simp [got],
    reads.2.map fun _ _ _ got => by simp [got, State.types]⟩

theorem ReadsBackAll.cons {core : Core} {cores : List Core} {e : State} {es : List State}
    (first : ReadsBack A s core e) (rest : ReadsBackAll A s cores es) :
    ReadsBackAll A s (core :: cores) (e :: es) :=
  ⟨first.1.map₂ rest.1 fun _ _ _ got gotRest => by simp [got, gotRest],
    first.2.map₂ rest.2 fun _ _ _ got gotRest => by simp [got, gotRest, State.types]⟩

/-- A list whose images are `b :: bs` starts with an element whose image is `b`. -/
theorem exists_cons_of_mapM {α β : Type} {f : α → Option β} {l : List α} {b : β} {bs : List β}
    (mapped : l.mapM f = some (b :: bs)) : ∃ a as, l = a :: as ∧ f a = some b := by
  cases l with
  | nil => simp at mapped
  | cons a as =>
    simp only [List.mapM_cons] at mapped
    simp_all [Option.bind_eq_some_iff]

/-- A container note of the cores of `e :: es` reads back as the type of `e` and
the states themselves (`SS::TArrayOfStates`). -/
theorem settles_arrayOfStates (tycon : TTycon) {cores : List Core} {e : State} {es : List State}
    (reads : ReadsBackAll A s cores (e :: es)) :
    A.Settles (fun s' n => arrayOfStates A s' (newState A s' n) (getType A s' n)
        (proposeCores A s tycon false cores).2.storage)
      (proposeCores A s tycon false cores).1 (e.type, e :: es) := by
  have stored := extends_proposeCores (A := A) (s := s) tycon false cores
  refine (reads.1.mono stored).map₂ (reads.2.mono stored) fun s' n grown decoded typed => ?_
  obtain ⟨first, rest, rfl, firstType⟩ := exists_cons_of_mapM (by simpa [State.types] using typed)
  simp [arrayOfStates, pinCores_proposeCores grown, decoded, firstType]

/-- An exemplar note reads back as its element type and no states. -/
theorem settles_arrayOfStates_exemplar (tycon : TTycon) {core : Core} {t : Ty}
    (typeReads : A.Settles (fun s' n => getType A s' n core) s t) :
    A.Settles (fun s' n => arrayOfStates A s' (newState A s' n) (getType A s' n)
        (proposeCores A s tycon true [core]).2.storage)
      (proposeCores A s tycon true [core]).1 (t, []) := by
  refine (typeReads.mono (extends_proposeCores _ _ _)).map fun s' n grown typed => ?_
  simp [arrayOfStates, pinCores_proposeCores grown, typed]

theorem settles_head_single {core : Core} {t : Ty}
    (typeReads : A.Settles (fun s' n => getType A s' n core) s t) :
    A.Settles (fun s' n => [core].head?.bind (getType A s' n)) s t :=
  typeReads.map fun _ _ _ got => by simpa using got

/-- The type of a container's first core is the type of its first state. -/
theorem settles_firstType (tycon : TTycon) (isExemplar : Bool) {cores : List Core} {t : Ty}
    (typeReads : A.Settles (fun s' n => cores.head?.bind (getType A s' n)) s t) :
    A.Settles (fun s' n => ((pinCores A s' (proposeCores A s tycon isExemplar cores).2.storage).bind
        List.head?).bind (getType A s' n))
      (proposeCores A s tycon isExemplar cores).1 t := by
  refine (typeReads.mono (extends_proposeCores _ _ _)).map fun s' n grown typed => ?_
  simpa [pinCores_proposeCores grown] using typed

theorem ReadsBackAll.firstType {cores : List Core} {e : State} {es : List State}
    (reads : ReadsBackAll A s cores (e :: es)) :
    A.Settles (fun s' n => cores.head?.bind (getType A s' n)) s e.type :=
  reads.2.map fun _ _ _ typed => by
    obtain ⟨first, rest, rfl, firstType⟩ := exists_cons_of_mapM (by simpa [State.types] using typed)
    simpa using firstType

variable (A) in
/-- The pairs of cores `pairs` read back as the entries `ps` and their types. -/
def ReadsBackPairs (s : σ) (pairs : List (Core × Core)) (ps : List (State × State)) : Prop :=
  A.Settles (fun s' n => pairs.mapM (pairOf (newState A s' n))) s ps ∧
    A.Settles (fun s' n => pairs.mapM (pairOf (getType A s' n))) s
      (ps.map fun p => (p.1.type, p.2.type))

theorem ReadsBackPairs.mono {pairs : List (Core × Core)} {ps : List (State × State)}
    (reads : ReadsBackPairs A s pairs ps) (grown : A.Extends s s') : ReadsBackPairs A s' pairs ps :=
  ⟨reads.1.mono grown, reads.2.mono grown⟩

theorem ReadsBackPairs.cons {key val : Core} {pairs : List (Core × Core)} {k v : State}
    {ps : List (State × State)} (keyReads : ReadsBack A s key k) (valReads : ReadsBack A s val v)
    (rest : ReadsBackPairs A s pairs ps) : ReadsBackPairs A s ((key, val) :: pairs) ((k, v) :: ps) := by
  have entry : A.Settles (fun s' n => pairOf (newState A s' n) (key, val)) s (k, v) :=
    keyReads.1.map₂ valReads.1 fun _ _ _ gotKey gotVal => by simp [pairOf, gotKey, gotVal]
  have entryType :
      A.Settles (fun s' n => pairOf (getType A s' n) (key, val)) s (k.type, v.type) :=
    keyReads.2.map₂ valReads.2 fun _ _ _ gotKey gotVal => by simp [pairOf, gotKey, gotVal]
  exact ⟨entry.map₂ rest.1 fun _ _ _ got gotRest => by simp [got, gotRest],
    entryType.map₂ rest.2 fun _ _ _ got gotRest => by simp [got, gotRest]⟩

theorem ReadsBackPairs.firstType {pairs : List (Core × Core)} {p : State × State}
    {ps : List (State × State)} (reads : ReadsBackPairs A s pairs (p :: ps)) :
    A.Settles (fun s' n => pairs.head?.bind (pairOf (getType A s' n))) s (p.1.type, p.2.type) :=
  reads.2.map fun _ _ _ typed => by
    obtain ⟨first, rest, rfl, firstType⟩ := exists_cons_of_mapM (by simpa using typed)
    simpa using firstType

/-- A map note of the pairs of `p :: ps` reads back as the key and value types of
`p` and the entries themselves (`SS::TArrayOfPairsOfStates`). -/
theorem settles_arrayOfPairsOfStates (tycon : TTycon) {pairs : List (Core × Core)}
    {p : State × State} {ps : List (State × State)} (reads : ReadsBackPairs A s pairs (p :: ps)) :
    A.Settles (fun s' n => arrayOfPairsOfStates A s' (newState A s' n) (getType A s' n)
        (proposePairs A s tycon false pairs).2.storage)
      (proposePairs A s tycon false pairs).1 (p.1.type, p.2.type, p :: ps) := by
  have stored := extends_proposePairs (A := A) (s := s) tycon false pairs
  refine (reads.1.mono stored).map₂ (reads.2.mono stored) fun s' n grown decoded typed => ?_
  obtain ⟨first, rest, rfl, firstType⟩ := exists_cons_of_mapM (by simpa using typed)
  simp [arrayOfPairsOfStates, pinPairs_proposePairs grown, decoded, firstType]

/-- An exemplar map note reads back as its key and value types and no entries. -/
theorem settles_arrayOfPairsOfStates_exemplar (tycon : TTycon) {key val : Core} {k v : Ty}
    (keyReads : A.Settles (fun s' n => getType A s' n key) s k)
    (valReads : A.Settles (fun s' n => getType A s' n val) s v) :
    A.Settles (fun s' n => arrayOfPairsOfStates A s' (newState A s' n) (getType A s' n)
        (proposePairs A s tycon true [(key, val)]).2.storage)
      (proposePairs A s tycon true [(key, val)]).1 (k, v, []) := by
  have stored := extends_proposePairs (A := A) (s := s) tycon true [(key, val)]
  refine (keyReads.mono stored).map₂ (valReads.mono stored) fun s' n grown gotKey gotVal => ?_
  simp [arrayOfPairsOfStates, pinPairs_proposePairs grown, pairOf, gotKey, gotVal]

/-- The types of a map's first pair of cores. -/
theorem settles_firstPairType (tycon : TTycon) (isExemplar : Bool) {pairs : List (Core × Core)}
    {k v : Ty} (typeReads : A.Settles (fun s' n => pairs.head?.bind (pairOf (getType A s' n))) s (k, v)) :
    A.Settles (fun s' n => ((pinPairs A s' (proposePairs A s tycon isExemplar pairs).2.storage).bind
        List.head?).bind (pairOf (getType A s' n)))
      (proposePairs A s tycon isExemplar pairs).1 (k, v) := by
  refine (typeReads.mono (extends_proposePairs _ _ _)).map fun s' n grown typed => ?_
  simpa [pinPairs_proposePairs grown] using typed

variable (A) in
/-- A record's pairs of cores read back as its fields and its values. -/
def ReadsBackFields (s : σ) (pairs : List (Core × Core)) (fields : List (List UInt8 × Ty))
    (vals : List State) : Prop :=
  A.Settles (fun s' n => pairs.mapM (fieldOf A s' (getType A s' n))) s fields ∧
    A.Settles (fun s' n => pairs.mapM fun pair => newState A s' n pair.2) s vals

theorem ReadsBackFields.mono {pairs : List (Core × Core)} {fields : List (List UInt8 × Ty)}
    {vals : List State} (reads : ReadsBackFields A s pairs fields vals) (grown : A.Extends s s') :
    ReadsBackFields A s' pairs fields vals :=
  ⟨reads.1.mono grown, reads.2.mono grown⟩

end Reads

theorem listNulFreeNames_types {elems : List State} :
    Ty.listNulFreeNames (types elems) ↔ ∀ e ∈ elems, e.type.NulFreeNames := by
  induction elems with
  | nil => simp [types, Ty.listNulFreeNames]
  | cons e rest ih => simp [types, Ty.listNulFreeNames, ih]

/-- `TCore(arena, state)` only adds to the arena, and a well-typed state whose field
names hold no NUL reads back from its core as itself and its type. -/
theorem ofState_spec (s : σ) (e : State) :
    A.Extends s (ofState A s e).1 ∧
      (e.WellTyped → e.type.NulFreeNames → ReadsBack A (ofState A s e).1 (ofState A s e).2 e) := by
  refine ofState.induct A
    (fun s e => A.Extends s (ofState A s e).1 ∧
      (e.WellTyped → e.type.NulFreeNames → ReadsBack A (ofState A s e).1 (ofState A s e).2 e))
    (fun s fields vals => A.Extends s (ofFields A s fields vals).1 ∧
      (valsOfFields fields vals → Ty.fieldsNulFreeNames fields →
        ReadsBackFields A (ofFields A s fields vals).1 (ofFields A s fields vals).2 fields vals))
    (fun s ps => A.Extends s (ofPairs A s ps).1 ∧
      ((∀ p ∈ ps, p.1.WellTyped ∧ p.1.type.NulFreeNames ∧ p.2.WellTyped ∧ p.2.type.NulFreeNames) →
        ReadsBackPairs A (ofPairs A s ps).1 (ofPairs A s ps).2 ps))
    (fun s es => A.Extends s (ofStates A s es).1 ∧
      ((∀ e ∈ es, e.WellTyped ∧ e.type.NulFreeNames) →
        ReadsBackAll A (ofStates A s es).1 (ofStates A s es).2 es))
    ?_ ?_ ?_ ?_ ?_ ?_ ?_ ?_ ?_ ?_ ?_ ?_ ?_ ?_ ?_ ?blob ?str ?tombstone ?void
    ?free ?desc ?optNone ?optSome ?setNil ?setCons ?vectorNil ?vectorCons ?mapNil ?mapCons
    ?recordNil ?recordCons ?tupleNil ?tupleCons ?fieldsCons ?fieldsOther ?statesNil ?statesCons
    ?pairsNil ?pairsCons s e
  case blob =>
    intro s bytes
    exact ⟨extends_initBlob, fun _ _ => ⟨Settles.of_succ fun _ grown n => newState_initBlob grown n,
      Settles.of_succ fun _ _ n => getType_initBlob n⟩⟩
  case str =>
    intro s bytes
    exact ⟨extends_initStr, fun _ _ => ⟨Settles.of_succ fun _ grown n => newState_initStr grown n,
      Settles.of_succ fun _ _ n => getType_initStr n⟩⟩
  case free =>
    intro s t s₁ core encoded
    have spec := ofType_spec (A := A) s t
    simp only [encoded] at spec
    simp only [ofState, encoded]
    refine ⟨spec.1.trans (extends_proposeCores _ _ _), fun _ names => ?_⟩
    have firstType := settles_firstType .free true (settles_head_single (spec.2 names))
    exact ⟨firstType.step fun _ _ _ got => by simp [newState, got],
      firstType.step fun _ _ _ got => by simp [getType, got, State.type]⟩
  case optNone | setNil | vectorNil =>
    intro s t s₁ core encoded
    have spec := ofType_spec (A := A) s t
    simp only [encoded] at spec
    simp only [ofState, encoded]
    refine ⟨spec.1.trans (extends_proposeCores _ _ _), fun _ names => ?_⟩
    have typeReads := spec.2 names
    exact ⟨(settles_arrayOfStates_exemplar _ typeReads).step fun _ _ _ got => by
        simp [newState, got],
      (settles_firstType _ _ (settles_head_single typeReads)).step
        fun _ _ _ got => by simp [getType, got, State.type]⟩
  case desc =>
    intro s e s₁ core encoded ih
    simp only [encoded] at ih
    simp only [ofState, encoded]
    refine ⟨ih.1.trans (extends_proposeCores _ _ _), fun typed names => ?_⟩
    have reads := (ih.2 typed names).single
    exact ⟨(settles_arrayOfStates .desc reads).step fun _ _ _ got => by simp [newState, got],
      (settles_firstType .desc false reads.firstType).step fun _ _ _ got => by
        simp [getType, got, State.type]⟩
  case optSome =>
    intro s elem e s₁ core encoded ih
    simp only [encoded] at ih
    simp only [ofState, encoded]
    refine ⟨ih.1.trans (extends_proposeCores _ _ _), fun typed names => ?_⟩
    obtain ⟨elemType, elemTyped⟩ := typed
    subst elemType
    have reads := (ih.2 elemTyped names).single
    exact ⟨(settles_arrayOfStates .opt reads).step fun _ _ _ got => by simp [newState, got],
      (settles_firstType .opt false reads.firstType).step fun _ _ _ got => by
        simp [getType, got, State.type]⟩
  case setCons | vectorCons =>
    intro s elem e es s₁ cores encoded ih
    simp only [encoded] at ih
    simp only [ofState, encoded]
    refine ⟨ih.1.trans (extends_proposeCores _ _ _), fun typed names => ?_⟩
    have elemsTyped := allOfType_iff.mp typed
    have reads := ih.2 fun x mem => ⟨(elemsTyped x mem).2, (elemsTyped x mem).1 ▸ names⟩
    have firstIsElem : e.type = elem := (elemsTyped e List.mem_cons_self).1
    exact ⟨(settles_arrayOfStates _ reads).step fun _ _ _ got => by
        simp [newState, got, firstIsElem],
      (settles_firstType _ false reads.firstType).step fun _ _ _ got => by
        simp [getType, got, State.type, firstIsElem]⟩
  case tupleNil =>
    intro s
    refine ⟨extends_proposeCores _ _ _, fun _ _ => ⟨?_, ?_⟩⟩
    · exact Settles.of_succ fun _ grown _ => by simp [ofState, newState, pinCores_proposeCores grown]
    · exact Settles.of_succ fun _ grown _ => by
        simp [ofState, getType, pinCores_proposeCores grown, State.type, State.types]
  case tupleCons =>
    intro s e es s₁ cores encoded ih
    simp only [encoded] at ih
    simp only [ofState, encoded]
    refine ⟨ih.1.trans (extends_proposeCores _ _ _), fun typed names => ?_⟩
    have elemsTyped := allWellTyped_iff.mp typed
    have elemsNamed := listNulFreeNames_types.mp names
    have reads := (ih.2 fun x mem => ⟨elemsTyped x mem, elemsNamed x mem⟩).mono
      (extends_proposeCores .tuple false cores)
    exact ⟨reads.1.step fun _ _ grown got => by simp [newState, pinCores_proposeCores grown, got],
      reads.2.step fun _ _ grown got => by
        simp [getType, pinCores_proposeCores grown, got, State.type]⟩
  case statesNil | pairsNil =>
    intro s
    exact ⟨Extends.refl s, fun _ => ⟨Settles.of_forall fun _ _ _ => rfl,
      Settles.of_forall fun _ _ _ => rfl⟩⟩
  case statesCons =>
    intro s e rest s₁ core encoded s₂ cores encodedRest ih ihRest
    simp only [encoded] at ih
    simp only [encodedRest] at ihRest
    simp only [ofStates, encoded, encodedRest]
    refine ⟨ih.1.trans ihRest.1, fun hyp => ?_⟩
    have first := (ih.2 (hyp e List.mem_cons_self).1 (hyp e List.mem_cons_self).2).mono ihRest.1
    exact ReadsBackAll.cons first (ihRest.2 fun x mem => hyp x (List.mem_cons_of_mem e mem))
  case mapNil =>
    intro s k v s₁ key encodedKey s₂ val encodedVal
    have keySpec := ofType_spec (A := A) s k
    have valSpec := ofType_spec (A := A) s₁ v
    simp only [encodedKey] at keySpec
    simp only [encodedVal] at valSpec
    simp only [ofState, encodedKey, encodedVal]
    refine ⟨(keySpec.1.trans valSpec.1).trans (extends_proposePairs _ _ _), fun _ names => ?_⟩
    have keyReads := (keySpec.2 names.1).mono valSpec.1
    have valReads := valSpec.2 names.2
    have pairReads :
        A.Settles (fun s' n => [(key, val)].head?.bind (pairOf (getType A s' n))) s₂ (k, v) :=
      keyReads.map₂ valReads fun _ _ _ gotKey gotVal => by simp [pairOf, gotKey, gotVal]
    exact ⟨(settles_arrayOfPairsOfStates_exemplar .map keyReads valReads).step
        fun _ _ _ got => by simp [newState, got],
      (settles_firstPairType .map true pairReads).step fun _ _ _ got => by
        simp [getType, got, State.type]⟩
  case mapCons =>
    intro s key val p ps s₁ pairs encoded ih
    simp only [encoded] at ih
    simp only [ofState, encoded]
    refine ⟨ih.1.trans (extends_proposePairs _ _ _), fun typed names => ?_⟩
    have entriesTyped := pairsOfType_iff.mp typed
    have reads := ih.2 fun q mem =>
      have typedQ := entriesTyped q mem
      ⟨typedQ.2.1, typedQ.1 ▸ names.1, typedQ.2.2.2, typedQ.2.2.1 ▸ names.2⟩
    have firstKey : p.1.type = key := (entriesTyped p List.mem_cons_self).1
    have firstVal : p.2.type = val := (entriesTyped p List.mem_cons_self).2.2.1
    exact ⟨(settles_arrayOfPairsOfStates .map reads).step fun _ _ _ got => by
        simp [newState, got, firstKey, firstVal],
      (settles_firstPairType .map false reads.firstType).step fun _ _ _ got => by
        simp [getType, got, State.type, firstKey, firstVal]⟩
  case recordNil =>
    intro s fields s₁ pairs encoded
    have sameAsType : ofState A s (.record fields []) = ofType A s (.record fields) := rfl
    refine ⟨sameAsType ▸ (ofType_spec s (.record fields)).1, fun typed _ => ?_⟩
    -- a well-typed record with no values has no fields
    cases fields with
    | cons f fs => exact absurd typed (by simp [WellTyped, valsOfFields])
    | nil =>
      refine ⟨Settles.of_succ fun _ grown _ => ?_, Settles.of_succ fun _ grown _ => ?_⟩
      · simp only [ofState, ofFieldTypes] at grown ⊢
        simp [newState, pinPairs_proposePairs grown]
      · simp only [ofState, ofFieldTypes] at grown ⊢
        simp [getType, pinPairs_proposePairs grown, State.type]
  case recordCons =>
    intro s fields v vs s₁ pairs encoded ih
    simp only [encoded] at ih
    simp only [ofState, encoded]
    refine ⟨ih.1.trans (extends_proposePairs _ _ _), fun typed names => ?_⟩
    have reads := (ih.2 typed names).mono (extends_proposePairs .record false pairs)
    exact ⟨reads.1.step₂ reads.2 fun _ _ grown gotFields gotVals => by
        simp [newState, pinPairs_proposePairs grown, gotFields, gotVals],
      reads.1.step fun _ _ grown got => by simp [getType, pinPairs_proposePairs grown, got, State.type]⟩
  case fieldsCons =>
    intro s name snd fields v vals s₁ nameCore encodedName s₂ core encoded s₃ pairs encodedRest ih
      ihRest
    simp only [encoded] at ih
    simp only [encodedRest] at ihRest
    simp only [ofFields, encodedName, encoded, encodedRest]
    refine ⟨((extends_of_initStr encodedName).trans ih.1).trans ihRest.1, fun typed names => ?_⟩
    obtain ⟨vType, vTyped, restTyped⟩ := typed
    obtain ⟨nulFree, typeNames, restNames⟩ := names
    rw [cStr_of_nulFree nulFree] at encodedName
    have reads := (ih.2 vTyped (vType ▸ typeNames)).mono ihRest.1
    have restReads := ihRest.2 restTyped restNames
    have fieldReads :
        A.Settles (fun s' n => fieldOf A s' (getType A s' n) (nameCore, core)) s₃ (name, snd) :=
      ((settles_copyOut_initStr nulFree encodedName).mono (ih.1.trans ihRest.1)).map₂ reads.2
        fun _ _ _ gotName gotType => by simp [fieldOf, gotName, gotType, vType]
    exact ⟨fieldReads.map₂ restReads.1 fun _ _ _ got gotRest => by simp [got, gotRest],
      reads.1.map₂ restReads.2 fun _ _ _ got gotRest => by simp [got, gotRest]⟩
  case fieldsOther =>
    intro vals s fields notBoth
    -- fewer values than fields, or fewer fields than values: no pairs are built
    cases fields with
    | nil =>
      cases vals with
      | nil =>
        exact ⟨Extends.refl s, fun _ _ => ⟨Settles.of_forall fun _ _ _ => rfl,
          Settles.of_forall fun _ _ _ => rfl⟩⟩
      | cons v vs => exact ⟨Extends.refl s, fun typed _ => absurd typed (by simp [valsOfFields])⟩
    | cons f fs =>
      cases vals with
      | nil =>
        obtain ⟨name, t⟩ := f
        exact ⟨Extends.refl s, fun typed _ => absurd typed (by simp [valsOfFields])⟩
      | cons v vs => exact absurd (notBoth f.1 f.2 fs v vs rfl rfl) id
  case pairsCons =>
    intro s k v rest s₁ key encodedKey s₂ val encodedVal s₃ pairs encodedRest ihKey ihVal ihRest
    simp only [encodedKey] at ihKey
    simp only [encodedVal] at ihVal
    simp only [encodedRest] at ihRest
    simp only [ofPairs, encodedKey, encodedVal, encodedRest]
    refine ⟨(ihKey.1.trans ihVal.1).trans ihRest.1, fun hyp => ?_⟩
    obtain ⟨kTyped, kNamed, vTyped, vNamed⟩ := hyp (k, v) List.mem_cons_self
    have keyReads := (ihKey.2 kTyped kNamed).mono (ihVal.1.trans ihRest.1)
    have valReads := (ihVal.2 vTyped vNamed).mono ihRest.1
    exact ReadsBackPairs.cons keyReads valReads
      (ihRest.2 fun q mem => hyp q (List.mem_cons_of_mem _ mem))
  case tombstone | void =>
    intro s
    exact ⟨Extends.refl s, fun _ _ => ⟨Settles.of_succ fun _ _ _ => rfl,
      Settles.of_succ fun _ _ _ => rfl⟩⟩
  all_goals
    intro s v
    exact ⟨Extends.refl s, fun _ _ => ⟨Settles.of_succ fun _ _ _ => rfl,
      Settles.of_succ fun _ _ _ => rfl⟩⟩
/-- The exact round trip: in the arena as `TCore(arena, state)` leaves it, and in every
later extension of it, `NewState` gives back the state and `GetType` its type once
the fuel covers the nesting. -/
theorem newState_ofState (s : σ) {e : State} (typed : e.WellTyped) (names : e.type.NulFreeNames) :
    ∃ N, ∀ s', A.Extends (ofState A s e).1 s' → ∀ n, N ≤ n →
      newState A s' n (ofState A s e).2 = some e ∧ getType A s' n (ofState A s e).2 = some e.type := by
  obtain ⟨N, decodes⟩ := ((ofState_spec s e).2 typed names).1
  obtain ⟨M, types⟩ := ((ofState_spec s e).2 typed names).2
  exact ⟨max N M, fun s' grown n enough =>
    ⟨decodes s' grown n (le_of_max_le_left enough), types s' grown n (le_of_max_le_right enough)⟩⟩

theorem newState_ofState_order_eq {σ : Type} (A : TExtensibleArena σ) (s : σ) (e : State)
    (sound : e.Sound) (names : e.type.NulFreeNames) :
    ∃ N, ∀ s', A.Extends (ofState A s e).1 s' → ∀ n, N ≤ n →
      newState A s' n (ofState A s e).2 = some e ∧ getType A s' n (ofState A s e).2 = some e.type ∧
        orderStates e e = some .eq ∧ orderTypes e.type e.type = some .eq := by
  obtain ⟨noEmpty, typed, nanFree⟩ := sound
  obtain ⟨N, readsBack⟩ := newState_ofState s typed names
  refine ⟨N, fun s' grown n enough => ⟨(readsBack s' grown n enough).1, (readsBack s' grown n enough).2, ?_⟩⟩
  exact ⟨(orderStates_orderLaws e.type noEmpty).refl ⟨rfl, typed, nanFree⟩,
    orderTypes_orderLaws.refl noEmpty⟩

theorem newState_ofState_order_eq_on_tuple :
    (State.tuple [.opt .int64 none, .str (List.replicate 24 7)]).Sound ∧
      (State.tuple [.opt .int64 none, .str (List.replicate 24 7)]).type.NulFreeNames ∧
      ∃ N, ∀ s', (listStore Note).Extends
          (ofState (listStore Note) [] (.tuple [.opt .int64 none, .str (List.replicate 24 7)])).1 s' →
        ∀ n, N ≤ n →
        newState (listStore Note) s' n
            (ofState (listStore Note) [] (.tuple [.opt .int64 none, .str (List.replicate 24 7)])).2 =
          some (.tuple [.opt .int64 none, .str (List.replicate 24 7)]) ∧
        getType (listStore Note) s' n
            (ofState (listStore Note) [] (.tuple [.opt .int64 none, .str (List.replicate 24 7)])).2 =
          some (State.tuple [.opt .int64 none, .str (List.replicate 24 7)]).type ∧
        orderStates (.tuple [.opt .int64 none, .str (List.replicate 24 7)])
            (.tuple [.opt .int64 none, .str (List.replicate 24 7)]) = some .eq ∧
        orderTypes (State.tuple [.opt .int64 none, .str (List.replicate 24 7)]).type
            (State.tuple [.opt .int64 none, .str (List.replicate 24 7)]).type = some .eq := by
  have sound : (State.tuple [.opt .int64 none, .str (List.replicate 24 7)]).Sound := by
    simp [State.Sound, State.type, types, Ty.NoEmptyRecord, Ty.listNoEmptyRecord, WellTyped,
      allWellTyped, NaNFree, allNaNFree]
  have names : (State.tuple [.opt .int64 none, .str (List.replicate 24 7)]).type.NulFreeNames := by
    simp [State.type, types, Ty.NulFreeNames, Ty.listNulFreeNames]
  exact ⟨sound, names, newState_ofState_order_eq (listStore Note) [] _ sound names⟩

/-- Two states that read back but do not compare `Eq` to themselves: a NaN `double`,
which comes back bit for bit but orders `Gt` against itself, and a record whose field
name holds a NUL, whose type comes back with the name cut at the NUL. -/
theorem ofState_roundTrip_not_eq :
    newState (listStore Note) [] 1 (ofState (listStore Note) [] (.double 0x7FF8000000000000)).2 =
        some (.double 0x7FF8000000000000) ∧
      orderStates (.double 0x7FF8000000000000) (.double 0x7FF8000000000000) = some .gt ∧
      getType (listStore Note) (ofState (listStore Note) [] (.record [([97, 0], .bool)] [.bool true])).1 2
          (ofState (listStore Note) [] (.record [([97, 0], .bool)] [.bool true])).2 =
        some (.record [([97], .bool)]) ∧
      orderTypes (.record [([97], .bool)]) (.record [([97, 0], .bool)]) = some .lt := by
  refine ⟨rfl, by decide +kernel, rfl, by decide +kernel⟩
end Orly.Atom

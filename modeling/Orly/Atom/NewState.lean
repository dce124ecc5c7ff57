import Orly.Atom.Core

namespace Orly.Atom

open Orly.Sabot AppendStore

variable {σ : Type} (A : TExtensibleArena σ) (s : σ)

/-- `IndirectCoreArray.IsExemplar`; false for every other storage. -/
def Storage.isExemplar : Storage → Bool
  | .indirectCoreArray _ _ isExemplar _ => isExemplar
  | _ => false

/-- The cores an indirect core array refers to: the first `ElemCount` cores of its
note. A note with fewer cores, or of another shape, is corrupt. -/
def pinCores : Storage → Option (List Core)
  | .indirectCoreArray offset elemCount _ _ =>
    match A.pin s offset with
    | some ⟨_, _, .cores cores⟩ =>
      if elemCount ≤ cores.length then some (cores.take elemCount) else none
    | _ => none
  | _ => none

/-- The pairs of cores an indirect core array of pairs refers to. -/
def pinPairs : Storage → Option (List (Core × Core))
  | .indirectCoreArray offset elemCount _ _ =>
    match A.pin s offset with
    | some ⟨_, _, .pairs pairs⟩ =>
      if elemCount ≤ pairs.length then some (pairs.take elemCount) else none
    | _ => none
  | _ => none

/-- The bytes of a blob or string note. -/
def pinRaw : Storage → Option (List UInt8)
  | .indirectScalarArray offset _ =>
    match A.pin s offset with
    | some ⟨_, _, .raw bytes⟩ => some bytes
    | _ => none
  | _ => none

/-- `TCore::CopyOut`: the name a record keeps in a string core. An indirect string
is read without its NUL; a direct one as a C string. -/
def copyOut (core : Core) : Option (List UInt8) :=
  match core.tycon, core.storage with
  | .str, storage => (pinRaw A s storage).map List.dropLast
  | .directStr _, .direct area => some (cStr area)
  | _, _ => none

/-- One pair of cores read with `decode`, left then right. -/
def pairOf {β : Type} (decode : Core → Option β) (pair : Core × Core) : Option (β × β) := do
  return (← decode pair.1, ← decode pair.2)

/-- `ST::TRecord::TPin::NewElem`: a field's name, copied out of the pair's first
core, and its type, read from the value core. -/
def fieldOf (typeOf : Core → Option Ty) (pair : Core × Core) : Option (List UInt8 × Ty) := do
  return (← copyOut A s pair.1, ← typeOf pair.2)

/-- `TCore::GetType`, with fuel for the pins it follows. The element type of a desc,
free, opt, set or vector is the type of its first core (`ST::TArrayOfTypes`), a
map's that of its first pair, and a record's field types those of its values. -/
def getType : Nat → Core → Option Ty
  | 0, _ => none
  | n + 1, ⟨tycon, storage⟩ =>
    match tycon with
    | .desc => .desc <$> ((pinCores A s storage).bind List.head? >>= getType n)
    | .free => .free <$> ((pinCores A s storage).bind List.head? >>= getType n)
    | .opt => .opt <$> ((pinCores A s storage).bind List.head? >>= getType n)
    | .set => .set <$> ((pinCores A s storage).bind List.head? >>= getType n)
    | .vector => .vector <$> ((pinCores A s storage).bind List.head? >>= getType n)
    | .map => (fun kv => .map kv.1 kv.2) <$>
      ((pinPairs A s storage).bind List.head? >>= pairOf (getType n))
    | .record => do
      return .record (← (← pinPairs A s storage).mapM (fieldOf A s (getType n)))
    | .tuple => do
      return .tuple (← (← pinCores A s storage).mapM (getType n))
    | tycon => tycon.plainType

/-- `SS::TArrayOfStates`: the element type, read from the first core, and the
states of the `ElemCount` cores, none when the core is an exemplar. -/
def arrayOfStates (decode : Core → Option State) (typeOf : Core → Option Ty)
    (storage : Storage) : Option (Ty × List State) := do
  let cores ← pinCores A s storage
  let t ← typeOf (← cores.head?)
  if storage.isExemplar then return (t, [])
  return (t, ← cores.mapM decode)

/-- `SS::TArrayOfPairsOfStates`, the same for the pairs of a map. -/
def arrayOfPairsOfStates (decode : Core → Option State) (typeOf : Core → Option Ty)
    (storage : Storage) : Option (Ty × Ty × List (State × State)) := do
  let pairs ← pinPairs A s storage
  let (k, v) ← pairOf typeOf (← pairs.head?)
  if storage.isExemplar then return (k, v, [])
  return (k, v, ← pairs.mapM (pairOf decode))

/-- `TCore::NewState`, with fuel for the pins it follows. A record or tuple reads
all `ElemCount` of its cores whatever the exemplar flag says. -/
def newState : Nat → Core → Option State
  | 0, _ => none
  | n + 1, ⟨tycon, storage⟩ =>
    match tycon, storage with
    | .directStr r, .direct area => some (.str (area.take (maxDirectSize - r)))
    | .directBlob r, .direct area => some (.blob (area.take (maxDirectSize - r)))
    | .blob, storage => .blob <$> pinRaw A s storage
    | .str, storage => (.str ∘ List.dropLast) <$> pinRaw A s storage
    | .tombstone, _ => some .tombstone
    | .void, _ => some .void
    | .free, storage => .free <$> ((pinCores A s storage).bind List.head? >>= getType A s n)
    | .desc, storage => do
      let (_, elems) ← arrayOfStates A s (newState n) (getType A s n) storage
      return .desc (← elems.head?)
    | .opt, storage => do
      let (t, elems) ← arrayOfStates A s (newState n) (getType A s n) storage
      return .opt t elems.head?
    | .set, storage => do
      let (t, elems) ← arrayOfStates A s (newState n) (getType A s n) storage
      return .set t elems
    | .vector, storage => do
      let (t, elems) ← arrayOfStates A s (newState n) (getType A s n) storage
      return .vector t elems
    | .map, storage => do
      let (k, v, elems) ← arrayOfPairsOfStates A s (newState n) (getType A s n) storage
      return .map k v elems
    | .record, storage => do
      let pairs ← pinPairs A s storage
      let fields ← pairs.mapM (fieldOf A s (getType A s n))
      return .record fields (← pairs.mapM fun pair => newState n pair.2)
    | .tuple, storage => do
      return .tuple (← (← pinCores A s storage).mapM (newState n))
    | tycon, .scalar val => if val.tycon = tycon then some val.toState else none
    | _, _ => none

section Fuel

variable {A s}

theorem grows_pairOf {β : Type} {f g : Core → Option β} (grows : Grows f g) :
    Grows (pairOf f) (pairOf g) := by
  rintro ⟨l, r⟩ ⟨a, b⟩ answered
  have left := grows l
  have right := grows r
  cases hl : f l <;> cases hr : f r <;> simp_all [Orly.Atom.pairOf]

theorem grows_fieldOf {f g : Core → Option Ty} (grows : Grows f g) :
    Grows (fieldOf A s f) (fieldOf A s g) := by
  rintro ⟨name, core⟩ ⟨n, t⟩ answered
  have typed := grows core
  cases hc : f core <;> simp_all [Orly.Atom.fieldOf]

/-- More fuel never changes a type `GetType` has read. -/
theorem getType_grows : ∀ {n m : Nat}, n ≤ m → Grows (getType A s n) (getType A s m)
  | 0, _, _, _, _, read => by simp [getType] at read
  | n + 1, 0, enough, _, _, _ => absurd enough (by omega)
  | n + 1, m + 1, enough, ⟨tycon, storage⟩, t, read => by
    have more : Grows (getType A s n) (getType A s m) := getType_grows (by omega)
    cases tycon <;> simp only [getType, bind_pure_comp] at read ⊢
    case desc | free | opt | set | vector => exact more.map_bind read
    case map => exact (grows_pairOf more).map_bind read
    case record => exact (((grows_fieldOf more).mapM).map Ty.record).bind read
    case tuple => exact ((more.mapM).map Ty.tuple).bind read
    all_goals exact read
theorem grows_arrayOfStates {decode decode' : Core → Option State} {typeOf typeOf' : Core → Option Ty}
    (decodes : Grows decode decode') (types : Grows typeOf typeOf') :
    Grows (arrayOfStates A s decode typeOf) (arrayOfStates A s decode' typeOf') := by
  intro storage result answered
  simp only [arrayOfStates, bind_pure_comp] at answered ⊢
  obtain ⟨cores, pinned, rest⟩ := Option.bind_eq_some_iff.mp answered
  obtain ⟨first, hfirst, rest⟩ := Option.bind_eq_some_iff.mp rest
  obtain ⟨t, typed, rest⟩ := Option.bind_eq_some_iff.mp rest
  refine Option.bind_eq_some_iff.mpr ⟨cores, pinned, Option.bind_eq_some_iff.mpr
    ⟨first, hfirst, Option.bind_eq_some_iff.mpr ⟨t, types first t typed, ?_⟩⟩⟩
  by_cases exemplar : storage.isExemplar = true
  · simpa [exemplar] using rest
  · simp only [exemplar] at rest ⊢
    exact (decodes.mapM.map (Prod.mk t)) cores result rest

theorem grows_arrayOfPairsOfStates {decode decode' : Core → Option State}
    {typeOf typeOf' : Core → Option Ty} (decodes : Grows decode decode') (types : Grows typeOf typeOf') :
    Grows (arrayOfPairsOfStates A s decode typeOf) (arrayOfPairsOfStates A s decode' typeOf') := by
  intro storage result answered
  simp only [arrayOfPairsOfStates, bind_pure_comp] at answered ⊢
  obtain ⟨pairs, pinned, rest⟩ := Option.bind_eq_some_iff.mp answered
  obtain ⟨first, hfirst, rest⟩ := Option.bind_eq_some_iff.mp rest
  obtain ⟨kv, typed, rest⟩ := Option.bind_eq_some_iff.mp rest
  refine Option.bind_eq_some_iff.mpr ⟨pairs, pinned, Option.bind_eq_some_iff.mpr
    ⟨first, hfirst, Option.bind_eq_some_iff.mpr ⟨kv, grows_pairOf types first kv typed, ?_⟩⟩⟩
  by_cases exemplar : storage.isExemplar = true
  · simpa [exemplar] using rest
  · simp only [exemplar] at rest ⊢
    exact ((grows_pairOf decodes).mapM.map _) pairs result rest

/-- More fuel never changes a state `NewState` has read. -/
theorem newState_grows : ∀ {n m : Nat}, n ≤ m → Grows (newState A s n) (newState A s m)
  | 0, _, _, _, _, read => by simp [newState] at read
  | n + 1, 0, enough, _, _, _ => absurd enough (by omega)
  | n + 1, m + 1, enough, ⟨tycon, storage⟩, t, read => by
    have more : Grows (newState A s n) (newState A s m) := newState_grows (by omega)
    have types : Grows (getType A s n) (getType A s m) := getType_grows (by omega)
    cases tycon
    case free =>
      simp only [newState] at read ⊢
      exact types.map_bind read
    case desc =>
      simp only [newState, bind_pure_comp] at read ⊢
      exact ((grows_arrayOfStates more types).then _) storage t read
    case opt | set | vector =>
      simp only [newState, bind_pure_comp] at read ⊢
      exact ((grows_arrayOfStates more types).map _) storage t read
    case map =>
      simp only [newState, bind_pure_comp] at read ⊢
      exact ((grows_arrayOfPairsOfStates more types).map _) storage t read
    case record =>
      simp only [newState, bind_pure_comp] at read ⊢
      obtain ⟨pairs, pinned, rest⟩ := Option.bind_eq_some_iff.mp read
      obtain ⟨fields, fieldsRead, valsRead⟩ := Option.bind_eq_some_iff.mp rest
      have values : Grows (fun pair : Core × Core => newState A s n pair.2)
          (fun pair => newState A s m pair.2) := fun pair => more pair.2
      exact Option.bind_eq_some_iff.mpr ⟨pairs, pinned, Option.bind_eq_some_iff.mpr
        ⟨fields, (grows_fieldOf types).mapM pairs fields fieldsRead,
          (values.mapM.map (State.record fields)) pairs t valsRead⟩⟩
    case tuple =>
      simp only [newState, bind_pure_comp] at read ⊢
      exact (more.mapM.map State.tuple).bind read
    all_goals cases storage <;> simpa only [newState] using read
/-- Two readings of one core, with any two fuels, agree. -/
theorem newState_unique {n m : Nat} {c : Core} {x y : State} (first : newState A s n c = some x)
    (second : newState A s m c = some y) : x = y := by
  have atMax := newState_grows (le_max_left n m) c x first
  rw [newState_grows (le_max_right n m) c y second] at atMax
  exact (Option.some.inj atMax).symm

end Fuel

end Orly.Atom

import Orly.Atom.KeyCompare
import Orly.Atom.RoundTrip
import Orly.Sabot.StateOrderLaws

/-! The order of an ordered arena: `TCore::TOrderedArenaCompare` and
`TCore::TNote::TOrderedArenaCompare` (`orly/atom/kit2.cc`).

When a data file is merged, the notes of its ordered arena are laid out in the order
`TNote::TOrderedArenaCompare` gives, so that `TryQuickOrderComparison` can later order
two whole notes by their offsets. The note comparison never builds a state. It walks
the cores of the two notes and compares each pair with `TCore::TOrderedArenaCompare`:
two indirections by their offsets, two scalars by the C++ `<` of their value type, and
two strings or two blobs, direct or indirect, by their bytes. An element decides when
one of its cores compares below the other; a container then falls back on the element
counts, while a tuple or record of one type has none to compare.

That agrees with `OrderStates` where the nested indirections are already laid out in
order and every element has an order of its own (`noteCompare_eq_orderStates`). A
`float` or `double` NaN has none: neither `<` holds, so the note comparison goes on to
the next element, where `OrderStates` has already answered `Gt`
(`noteCompare_nan_element`). A tombstone or void element has none either, and the
core comparison throws. -/
namespace Orly.Atom

open Orly.Sabot AppendStore

/-- `TCore::TryGetOffset`: the offset of the note a blob, a string or a container
refers to; none for the scalars, `Tombstone`, `Void` and the direct strings and
blobs. -/
def Core.tryGetOffset (core : Core) : Option Nat :=
  match core.tycon with
  | .blob | .str => some core.storage.offset
  | .free | .desc | .opt | .set | .vector | .map | .record | .tuple => some core.storage.offset
  | _ => none

/-- `lhs.ForceAs<T>() < rhs.ForceAs<T>()` for the value type `T` of a scalar: `float`
and `double` by IEEE `<`, `bool` with `false < true`, a uuid by `uuid_compare`. The
code asserts the two tycons agree. -/
def Scalar.lessThan : Scalar → Scalar → Option Bool
  | .int8 a, .int8 b => some (decide (a < b))
  | .int16 a, .int16 b => some (decide (a < b))
  | .int32 a, .int32 b => some (decide (a < b))
  | .int64 a, .int64 b => some (decide (a < b))
  | .uint8 a, .uint8 b => some (decide (a < b))
  | .uint16 a, .uint16 b => some (decide (a < b))
  | .uint32 a, .uint32 b => some (decide (a < b))
  | .uint64 a, .uint64 b => some (decide (a < b))
  | .bool a, .bool b => some (!a && b)
  | .char a, .char b => some (decide (a < b))
  | .float a, .float b => some (Ieee754.Format.binary32.lt a.toNat b.toNat)
  | .double a, .double b => some (Ieee754.Format.binary64.lt a.toNat b.toNat)
  | .duration a, .duration b => some (decide (a < b))
  | .timePoint a, .timePoint b => some (decide (a < b))
  | .uuid a, .uuid b => some (a.ult b)
  | _, _ => none

/-- `TNote::GetSize`: the bytes of a blob or string, a string's NUL left out, or the
elements of a container. -/
def Note.getSize (note : Note) : Nat :=
  match note.tycon, note.body with
  | .str, .raw bytes => bytes.length - 1
  | _, body => body.size

/-- `TCore(offset, note)`: the core that stands for a whole note, which throws for a
note of no indirect tycon. -/
def noteCore (offset : Nat) (note : Note) : Option Core :=
  match note.tycon with
  | .blob | .str => some ⟨note.tycon, .indirectScalarArray offset note.getSize⟩
  | .free | .desc | .opt | .set | .vector | .map | .record | .tuple => some (fullCore offset note)
  | _ => none

/-- The cores of a note, a pair's two in order. -/
def Body.nestedCores : Body → List Core
  | .raw _ => []
  | .cores elems => elems
  | .pairs elems => elems.flatMap fun pair => [pair.1, pair.2]

/-- The first cores of a note's pairs: a record's field names. -/
def Body.firsts : Body → List Core
  | .pairs elems => elems.map Prod.fst
  | _ => []

/-- The types of a type's elements: a container's element type, a map's key and value
types, a record's field types and a tuple's. -/
def elemTypes : Ty → List Ty
  | .desc t | .free t | .opt t | .set t | .vector t => [t]
  | .map k v => [k, v]
  | .record fields => fields.map Prod.snd
  | .tuple elems => elems
  | _ => []

/-- The types whose notes the note comparison orders: no free, which the ordered arena
never holds, and no element a core comparison throws on. -/
def ArenaOrderable (T : Ty) : Prop :=
  tyconOf T ≠ .free ∧ ∀ t ∈ elemTypes T, tyconOf t ≠ .tombstone ∧ tyconOf t ≠ .void

instance (T : Ty) : Decidable (ArenaOrderable T) := by
  unfold ArenaOrderable
  infer_instance

variable {σ : Type} (A : TExtensibleArena σ) (s : σ)

/-- `IsLt(QuickCompareMem(...))` of two strings, or failing that of two blobs, direct
or indirect; an indirect one is pinned and read without its NUL. -/
def bytesLessThan (lhs rhs : Core) : Option Bool :=
  match strBytes A s lhs, strBytes A s rhs with
  | some l, some r => some (quickCompareMem l r).isLt
  | _, _ =>
    match blobBytes A s lhs, blobBytes A s rhs with
    | some l, some r => some (quickCompareMem l r).isLt
    | _, _ => none

/-- `TCore::TOrderedArenaCompare::operator()` over the arena `s`: `none` where the code
throws `TCorrupt` or an assertion fails. Two indirections compare by offset; two
direct cores as scalars of the left one's tycon, or else as direct strings or blobs
(a tombstone or a void throws); an indirection against a direct core as strings or
blobs. -/
def orderedCoreCompare (lhs rhs : Core) : Option Bool :=
  match lhs.tryGetOffset, rhs.tryGetOffset with
  | some l, some r => some (decide (l < r))
  | none, none =>
    if lhs.tycon.isScalar then
      match lhs.storage, rhs.storage with
      | .scalar l, .scalar r => l.lessThan r
      | _, _ => none
    else bytesLessThan A s lhs rhs
  | _, _ => bytesLessThan A s lhs rhs

/-- One element of the loops of the note comparison: true if the left core compares
below the right one, false if the right one compares below the left one, and the rest
of the loop if neither does. -/
def compareStep (lhs rhs : Core) (rest : Option Bool) : Option Bool :=
  match orderedCoreCompare A s lhs rhs, orderedCoreCompare A s rhs lhs with
  | some true, _ => some true
  | some false, some true => some false
  | some false, some false => rest
  | _, _ => none

/-- The loop over the cores of two sets, vectors or tuples, ending with `atEnd` when
the shorter runs out. -/
def coresLoop (atEnd : Bool) : List Core → List Core → Option Bool
  | lhs :: ls, rhs :: rs => compareStep A s lhs rhs (coresLoop atEnd ls rs)
  | _, _ => some atEnd

/-- The loop over the pairs of two maps or records: each key (a record's field name),
then its value. -/
def pairsLoop (atEnd : Bool) : List (Core × Core) → List (Core × Core) → Option Bool
  | lhs :: ls, rhs :: rs =>
    compareStep A s lhs.1 rhs.1 (compareStep A s lhs.2 rhs.2 (pairsLoop atEnd ls rs))
  | _, _ => some atEnd

/-- `TCore::TNote::TOrderedArenaCompare::operator()`, for two notes of one tycon. Blobs
and strings compare by `memcmp` and size; a desc by its core the other way round; an
exemplar opt, set, vector or map, which holds no element, below any other; sets,
vectors and maps element by element and then by their counts; tuples and records
element by element only. A free, which the ordered arena never holds, throws. -/
def noteCompare (lhs rhs : Note) : Option Bool :=
  match lhs.tycon, lhs.body, rhs.body with
  | .blob, .raw l, .raw r => some (quickCompareMem l r).isLt
  | .str, .raw l, .raw r => some (quickCompareMem l.dropLast r.dropLast).isLt
  | .desc, .cores l, .cores r => do orderedCoreCompare A s (← r.head?) (← l.head?)
  | .opt, .cores l, .cores r =>
    if !lhs.isExemplar then
      if !rhs.isExemplar then do orderedCoreCompare A s (← l.head?) (← r.head?) else some false
    else some !rhs.isExemplar
  | .set, .cores l, .cores r | .vector, .cores l, .cores r =>
    if !lhs.isExemplar then
      if !rhs.isExemplar then coresLoop A s (decide (l.length < r.length)) l r else some false
    else some !rhs.isExemplar
  | .tuple, .cores l, .cores r => coresLoop A s false l r
  | .record, .pairs l, .pairs r => pairsLoop A s false l r
  | .map, .pairs l, .pairs r =>
    if !lhs.isExemplar then
      if !rhs.isExemplar then pairsLoop A s (decide (l.length < r.length)) l r else some false
    else some !rhs.isExemplar
  | _, _, _ => none

/-- The kind of state a core of the tycon reads back as: a direct string is a string
and a direct blob a blob. -/
def TTycon.kind : TTycon → TTycon
  | .directStr _ => .str
  | .directBlob _ => .blob
  | tycon => tycon

/-- What two cores of one arena must satisfy for their offsets to stand for their
order: where both are indirections, the states they read back as compare as their
offsets do. -/
def OffsetsAgree (c d : Core) : Prop :=
  ∀ o₁ o₂ n m y z, c.tryGetOffset = some o₁ → d.tryGetOffset = some o₂ →
    newState A s n c = some y → newState A s m d = some z →
    orderStates y z = some (.ofOrdering (compare o₁ o₂))

/-- Two cores compare, from either side, as the states `y` and `z` they stand for. -/
def CoresOrdered (c d : Core) (y z : State) : Prop :=
  orderedCoreCompare A s c d = some (decide (stateOrder y z = .lt)) ∧
    orderedCoreCompare A s d c = some (decide (stateOrder y z = .gt))

/-- Two states the core comparison orders: of one type, sound, and neither a tombstone
nor a void. -/
def CoreComparable (y z : State) : Prop :=
  y.type = z.type ∧ y.Sound ∧ z.Sound ∧ tyconOf y.type ≠ .tombstone ∧ tyconOf y.type ≠ .void

namespace TTycon

@[simp] theorem isScalar_kind (t : TTycon) : t.kind.isScalar = t.isScalar := by
  cases t with
  | directStr r =>
    have below : ¬ 48 ≤ (r : Nat) := by omega
    simp [kind, isScalar, toNat, below]
  | directBlob r =>
    have below : ¬ 48 ≤ 24 + (r : Nat) := by omega
    simp [kind, isScalar, toNat, below]
  | _ => rfl

theorem kind_of_isScalar {t : TTycon} (scalar : t.isScalar = true) : t.kind = t := by
  cases t with
  | directStr r =>
    have below : ¬ 48 ≤ (r : Nat) := by omega
    simp [isScalar, toNat, below] at scalar
  | directBlob r =>
    have below : ¬ 48 ≤ 24 + (r : Nat) := by omega
    simp [isScalar, toNat, below] at scalar
  | _ => rfl

/-- Only a string's tycons are of its kind, and a blob's of its. -/
theorem eq_of_kind_eq {t k : TTycon} (kind : t.kind = k) (notStr : k ≠ .str) (notBlob : k ≠ .blob) :
    t = k := by
  cases t <;> simp_all [TTycon.kind]

end TTycon

theorem Core.tryGetOffset_of_isScalar {c : Core} (scalar : c.tycon.isScalar = true) :
    c.tryGetOffset = none := by
  obtain ⟨tycon, storage⟩ := c
  cases tycon <;> simp_all [TTycon.isScalar, TTycon.toNat, Core.tryGetOffset]

/-- A core of the kind of a type that is no scalar, string, blob, tombstone or void is an
indirection. -/
theorem Core.tryGetOffset_of_note {c : Core} {t : Ty} (kind : tyconOf t = c.tycon.kind)
    (notScalar : (tyconOf t).isScalar = false) (notStr : t ≠ .str) (notBlob : t ≠ .blob)
    (notTombstone : t ≠ .tombstone) (notVoid : t ≠ .void) : ∃ o, c.tryGetOffset = some o := by
  have own : c.tycon = tyconOf t := TTycon.eq_of_kind_eq kind.symm
    (by cases t <;> simp [tyconOf] at notStr ⊢) (by cases t <;> simp [tyconOf] at notBlob ⊢)
  unfold Core.tryGetOffset
  rw [own]
  cases t
  case str => exact absurd rfl notStr
  case blob => exact absurd rfl notBlob
  case tombstone => exact absurd rfl notTombstone
  case void => exact absurd rfl notVoid
  case free | desc | opt | set | vector | map | record | tuple => exact ⟨_, rfl⟩
  all_goals exact absurd notScalar (by decide)

section Reads

variable {A s} {n : Nat} {c : Core} {y : State}

/-- A core reads back as a state of its own kind. -/
theorem tyconOf_type_of_newState (read : newState A s n c = some y) : tyconOf y.type = c.tycon.kind := by
  obtain ⟨k, rfl⟩ := exists_succ_of_newState read
  obtain ⟨tycon, storage⟩ := c
  cases tycon
  case blob | str =>
    simp [newState] at read
    obtain ⟨_, _, rfl⟩ := read
    rfl
  case free =>
    simp [newState, Option.bind_eq_some_iff] at read
    obtain ⟨_, _, _, _, rfl⟩ := read
    rfl
  case desc =>
    simp [newState, Option.bind_eq_some_iff] at read
    obtain ⟨_, _, _, _, _, rfl⟩ := read
    rfl
  case opt | set | vector =>
    simp [newState, Option.bind_eq_some_iff] at read
    obtain ⟨_, _, _, rfl⟩ := read
    rfl
  case map =>
    simp [newState, Option.bind_eq_some_iff] at read
    obtain ⟨_, _, _, _, rfl⟩ := read
    rfl
  case record =>
    simp [newState, Option.bind_eq_some_iff] at read
    obtain ⟨_, _, _, _, _, _, rfl⟩ := read
    rfl
  case tuple =>
    simp [newState, Option.bind_eq_some_iff] at read
    obtain ⟨_, _, _, _, rfl⟩ := read
    rfl
  -- the direct tycons, the scalars, the tombstone and the void read their storage area
  all_goals
    cases storage <;> simp [newState] at read
    all_goals first
      | (subst read; rfl)
      | (obtain ⟨tyconEq, rfl⟩ := read
         rw [Scalar.tyconOf_type, tyconEq]
         rfl)
      | (obtain ⟨tyconEq, -⟩ := read
         rename_i val
         cases val <;> cases tyconEq)

/-- A core that reads back as a string holds the string's bytes, pinned or direct. -/
theorem strBytes_of_newState (read : newState A s n c = some y) (str : y.type = .str) :
    ∃ bytes, strBytes A s c = some bytes ∧ y = .str bytes := by
  have kind := tyconOf_type_of_newState read
  rw [str] at kind
  obtain ⟨k, rfl⟩ := exists_succ_of_newState read
  obtain ⟨tycon, storage⟩ := c
  cases tycon <;> simp [tyconOf, TTycon.kind] at kind
  case str =>
    simp [newState] at read
    obtain ⟨raw, pinned, rfl⟩ := read
    exact ⟨raw.dropLast, by simp [strBytes, pinned], rfl⟩
  case directStr r =>
    cases storage <;> simp [newState] at read
    case direct area => exact ⟨_, rfl, read.symm⟩
    case scalar val =>
      obtain ⟨tyconEq, -⟩ := read
      cases val <;> cases tyconEq

/-- A core that reads back as a blob holds the blob's bytes, pinned or direct. -/
theorem blobBytes_of_newState (read : newState A s n c = some y) (blob : y.type = .blob) :
    ∃ bytes, blobBytes A s c = some bytes ∧ y = .blob bytes := by
  have kind := tyconOf_type_of_newState read
  rw [blob] at kind
  obtain ⟨k, rfl⟩ := exists_succ_of_newState read
  obtain ⟨tycon, storage⟩ := c
  cases tycon <;> simp [tyconOf, TTycon.kind] at kind
  case blob =>
    simp [newState] at read
    obtain ⟨raw, pinned, rfl⟩ := read
    exact ⟨raw, by simp [blobBytes, pinned], rfl⟩
  case directBlob r =>
    cases storage <;> simp [newState] at read
    case direct area => exact ⟨_, rfl, read.symm⟩
    case scalar val =>
      obtain ⟨tyconEq, -⟩ := read
      cases val <;> cases tyconEq

/-- A blob core holds no string. -/
theorem strBytes_of_blob (read : newState A s n c = some y) (blob : y.type = .blob) :
    strBytes A s c = none := by
  have kind := tyconOf_type_of_newState read
  rw [blob] at kind
  obtain ⟨tycon, storage⟩ := c
  cases tycon <;> simp [tyconOf, TTycon.kind] at kind <;> simp [strBytes]

end Reads

section Values

/-- `<` on two scalars of one kind is whether their comparison by `==` and `<` is `Lt`:
no value type has two values that are `==` and `<`. -/
theorem Scalar.lessThan_eq_map_isLt (u v : Scalar) :
    u.lessThan v = (u.quickCompare v).map TComparison.isLt := by
  cases u <;> cases v <;>
    simp only [Scalar.lessThan, Scalar.quickCompare, Option.map_some, Option.map_none, compareScalar,
      compareBool, compareFloat, compareDouble, compareUuid]
  all_goals
    congr 1
    rw [isLt_compareBy]
    intro less
  case bool.bool a b => cases a <;> cases b <;> simp_all
  case float.float a b => exact Ieee754.Format.eq_eq_false_of_lt less
  case double.double a b => exact Ieee754.Format.eq_eq_false_of_lt less
  case uuid.uuid a b =>
    rw [beq_eq_false_iff_ne]
    rintro rfl
    simp [BitVec.ult] at less
  all_goals
    rw [beq_eq_false_iff_ne]
    rintro rfl
    simp at less

theorem Scalar.quickCompare_isSome {u v : Scalar} (same : u.tycon = v.tycon) :
    ∃ comp, u.quickCompare v = some comp := by
  cases u <;> cases v <;> simp [Scalar.tycon, Scalar.quickCompare] at same ⊢

/-- Two sound scalars of one kind: `<` holds exactly where they are in order. -/
theorem Scalar.lessThan_eq_stateOrder {u v : Scalar} (same : u.tycon = v.tycon)
    (soundU : u.toState.Sound) (soundV : v.toState.Sound) :
    u.lessThan v = some (decide (stateOrder u.toState v.toState = .lt)) := by
  obtain ⟨comp, quick⟩ := Scalar.quickCompare_isSome same
  have visited := Scalar.quickCompare_eq quick
  rw [orderStatesVisitor_eq _ _ soundU soundV, Option.some.injEq] at visited
  rw [Scalar.lessThan_eq_map_isLt, quick, Option.map_some, ← visited, TComparison.isLt_ofOrdering]

end Values

section Cores

variable {A s} {c d : Core} {n m : Nat} {y z : State}

/-- Two indirections whose offsets agree with their states compare as the states do. -/
theorem orderedCoreCompare_of_offsets {o₁ o₂ : Nat} (offC : c.tryGetOffset = some o₁)
    (offD : d.tryGetOffset = some o₂) (readC : newState A s n c = some y)
    (readD : newState A s m d = some z) (sameType : y.type = z.type) (soundY : y.Sound)
    (soundZ : z.Sound) (agree : OffsetsAgree A s c d) :
    orderedCoreCompare A s c d = some (decide (stateOrder y z = .lt)) := by
  have byOffsets := agree o₁ o₂ n m y z offC offD readC readD
  rw [orderStates_eq soundY.1 ⟨rfl, soundY.2⟩ ⟨sameType.symm, soundZ.2⟩, Option.some.injEq,
    TComparison.ofOrdering_inj] at byOffsets
  simp only [orderedCoreCompare, offC, offD, byOffsets, compare_lt_iff_lt]

/-- Where not both cores are indirections and the left one is no scalar, the cores are
compared as strings or blobs. -/
theorem orderedCoreCompare_of_not_pinned (notScalar : c.tycon.isScalar = false)
    (notPinned : ¬ ∃ o₁ o₂, c.tryGetOffset = some o₁ ∧ d.tryGetOffset = some o₂) :
    orderedCoreCompare A s c d = bytesLessThan A s c d := by
  unfold orderedCoreCompare
  cases offC : c.tryGetOffset <;> cases offD : d.tryGetOffset
  · simp [notScalar]
  · rfl
  · rfl
  · exact absurd ⟨_, _, offC, offD⟩ notPinned

theorem bytesLessThan_of_strBytes {a b : List UInt8} (bytesC : strBytes A s c = some a)
    (bytesD : strBytes A s d = some b) : bytesLessThan A s c d = some (quickCompareMem a b).isLt := by
  simp [bytesLessThan, bytesC, bytesD]

theorem bytesLessThan_of_blobBytes {a b : List UInt8} (notStr : strBytes A s c = none)
    (bytesC : blobBytes A s c = some a) (bytesD : blobBytes A s d = some b) :
    bytesLessThan A s c d = some (quickCompareMem a b).isLt := by
  simp [bytesLessThan, notStr, bytesC, bytesD]

/-- Two bytes strings compare below exactly where they are in byte order. -/
theorem isLt_quickCompareMem (a b : List UInt8) :
    (quickCompareMem a b).isLt = decide (byteOrder a b = .lt) := by
  rw [quickCompareMem_eq, compareBytes_eq, TComparison.isLt_ofOrdering]

/-- Two cores that read back as sound states of one type with an order of their own, and
whose offsets agree with their states where both are indirections: the core comparison
is whether the states are in order. -/
theorem orderedCoreCompare_eq (readC : newState A s n c = some y) (readD : newState A s m d = some z)
    (sameType : y.type = z.type) (soundY : y.Sound) (soundZ : z.Sound)
    (notTombstone : y.type ≠ .tombstone) (notVoid : y.type ≠ .void) (agree : OffsetsAgree A s c d) :
    orderedCoreCompare A s c d = some (decide (stateOrder y z = .lt)) := by
  have kindC := tyconOf_type_of_newState readC
  have kindD := tyconOf_type_of_newState readD
  rw [← sameType] at kindD
  -- two indirections compare by offset, whatever they hold
  by_cases pinned : ∃ o₁ o₂, c.tryGetOffset = some o₁ ∧ d.tryGetOffset = some o₂
  · obtain ⟨o₁, o₂, offC, offD⟩ := pinned
    exact orderedCoreCompare_of_offsets offC offD readC readD sameType soundY soundZ agree
  by_cases str : y.type = .str
  · -- strings, direct or pinned, compare by their bytes
    have notScalar : c.tycon.isScalar = false := by
      rw [← TTycon.isScalar_kind, ← kindC, str]
      rfl
    obtain ⟨a, bytesC, rfl⟩ := strBytes_of_newState readC str
    obtain ⟨b, bytesD, rfl⟩ := strBytes_of_newState readD (sameType ▸ str)
    rw [orderedCoreCompare_of_not_pinned notScalar pinned, bytesLessThan_of_strBytes bytesC bytesD,
      isLt_quickCompareMem, stateOrder]
  by_cases blob : y.type = .blob
  · -- and so do blobs
    have notScalar : c.tycon.isScalar = false := by
      rw [← TTycon.isScalar_kind, ← kindC, blob]
      rfl
    obtain ⟨a, bytesC, rfl⟩ := blobBytes_of_newState readC blob
    obtain ⟨b, bytesD, rfl⟩ := blobBytes_of_newState readD (sameType ▸ blob)
    rw [orderedCoreCompare_of_not_pinned notScalar pinned,
      bytesLessThan_of_blobBytes (strBytes_of_blob readC blob) bytesC bytesD,
      isLt_quickCompareMem, stateOrder]
  by_cases scalar : (tyconOf y.type).isScalar = true
  · -- two scalars of the type's tycon compare by `<`
    have scalarC : c.tycon.isScalar = true := by rwa [← TTycon.isScalar_kind, ← kindC]
    have scalarD : d.tycon.isScalar = true := by rwa [← TTycon.isScalar_kind, ← kindD]
    have sameTycon : c.tycon = d.tycon := by
      rw [← TTycon.kind_of_isScalar scalarC, ← TTycon.kind_of_isScalar scalarD, ← kindC, ← kindD]
    obtain ⟨u, storedU, tyconU, rfl⟩ := newState_of_isScalar scalarC readC
    obtain ⟨v, storedV, tyconV, rfl⟩ := newState_of_isScalar scalarD readD
    simp only [orderedCoreCompare, Core.tryGetOffset_of_isScalar scalarC,
      Core.tryGetOffset_of_isScalar scalarD, scalarC, if_true, storedU, storedV]
    exact Scalar.lessThan_eq_stateOrder (by rw [tyconU, tyconV, sameTycon]) soundY soundZ
  -- every other kind lives in a note, so both cores are indirections
  obtain ⟨o₁, offC⟩ := Core.tryGetOffset_of_note kindC (Bool.eq_false_iff.mpr scalar) str blob
    notTombstone notVoid
  obtain ⟨o₂, offD⟩ := Core.tryGetOffset_of_note kindD (Bool.eq_false_iff.mpr scalar) str blob
    notTombstone notVoid
  exact absurd ⟨o₁, o₂, offC, offD⟩ pinned

/-- A direct core needs no agreement: it has no offset to stand for its order. -/
theorem offsetsAgree_of_direct (direct : c.tryGetOffset = none) : OffsetsAgree A s c d := by
  intro o₁ o₂ n m y z offC
  rw [direct] at offC
  cases offC

/-- The same from both sides: the right core compares below the left one exactly where
the states are the other way round. -/
theorem orderedCoreCompare_both (readC : newState A s n c = some y)
    (readD : newState A s m d = some z) (comparable : CoreComparable y z)
    (agreeCD : OffsetsAgree A s c d) (agreeDC : OffsetsAgree A s d c) :
    CoresOrdered A s c d y z := by
  obtain ⟨sameType, soundY, soundZ, tombstone, void⟩ := comparable
  have notTombstone : y.type ≠ .tombstone := fun eq => tombstone (by rw [eq]; rfl)
  have notVoid : y.type ≠ .void := fun eq => void (by rw [eq]; rfl)
  have swapped : stateOrder z y = (stateOrder y z).swap :=
    (stateOrder_laws y.type).swap ⟨rfl, soundY.2.1⟩ ⟨sameType.symm, soundZ.2.1⟩
  refine ⟨orderedCoreCompare_eq readC readD sameType soundY soundZ notTombstone notVoid agreeCD, ?_⟩
  rw [orderedCoreCompare_eq readD readC sameType.symm soundZ soundY (sameType ▸ notTombstone)
    (sameType ▸ notVoid) agreeDC, swapped]
  simp only [Ordering.swap_eq_lt]

end Cores

section Loops

variable {A s}

/-- One element of a loop, whose two cores compare as an order `o` says, before a rest
that answers as `tail` says: the loop answers as `o.then tail` does. -/
theorem compareStep_eq {c d : Core} {o tail : Ordering} {rest : Option Bool}
    (forward : orderedCoreCompare A s c d = some (decide (o = .lt)))
    (backward : orderedCoreCompare A s d c = some (decide (o = .gt)))
    (restEq : rest = some (decide (tail = .lt))) :
    compareStep A s c d rest = some (decide (o.then tail = .lt)) := by
  cases o <;> simp [compareStep, forward, backward, restEq, Ordering.then]

/-- The loop over the cores of two notes answers whether their states are in order,
element by element and then by count, when each pair of cores compares as its states
do. -/
theorem coresLoop_eq {atEnd : Bool} :
    ∀ (ls rs : List Core) (xs ys : List State), xs.length = ls.length → ys.length = rs.length →
      (∀ (i : Nat) (c d : Core) (y z : State), ls[i]? = some c → rs[i]? = some d →
        xs[i]? = some y → ys[i]? = some z → CoresOrdered A s c d y z) →
      atEnd = decide (ls.length < rs.length) →
      coresLoop A s atEnd ls rs = some (decide (statesOrder xs ys = .lt)) := by
  intro ls
  induction ls with
  | nil =>
    intro rs xs ys lengthL lengthR _ ending
    rw [List.length_nil, List.length_eq_zero_iff] at lengthL
    subst lengthL
    cases rs with
    | nil =>
      rw [List.length_nil, List.length_eq_zero_iff] at lengthR
      subst lengthR
      simp [coresLoop, statesOrder, ending]
    | cons d rs =>
      obtain ⟨z, ys, rfl⟩ := List.exists_cons_of_length_eq_add_one lengthR
      simp [coresLoop, statesOrder, ending]
  | cons c ls ih =>
    intro rs xs ys lengthL lengthR elems ending
    obtain ⟨y, xs, rfl⟩ := List.exists_cons_of_length_eq_add_one lengthL
    cases rs with
    | nil =>
      rw [List.length_nil, List.length_eq_zero_iff] at lengthR
      subst lengthR
      simp [coresLoop, statesOrder, ending]
    | cons d rs =>
      obtain ⟨z, ys, rfl⟩ := List.exists_cons_of_length_eq_add_one lengthR
      obtain ⟨forward, backward⟩ := elems 0 c d y z rfl rfl rfl rfl
      have rest := ih rs xs ys (by simpa using lengthL) (by simpa using lengthR)
        (fun i => elems (i + 1)) (by simpa using ending)
      rw [coresLoop, statesOrder]
      exact compareStep_eq forward backward rest

/-- The same for the pairs of two maps: each key, then its value. -/
theorem pairsLoop_eq {atEnd : Bool} :
    ∀ (ls rs : List (Core × Core)) (xs ys : List (State × State)), xs.length = ls.length →
      ys.length = rs.length →
      (∀ (i : Nat) (c d : Core × Core) (y z : State × State), ls[i]? = some c →
        rs[i]? = some d → xs[i]? = some y → ys[i]? = some z →
          CoresOrdered A s c.1 d.1 y.1 z.1 ∧ CoresOrdered A s c.2 d.2 y.2 z.2) →
      atEnd = decide (ls.length < rs.length) →
      pairsLoop A s atEnd ls rs = some (decide (pairsOrder xs ys = .lt)) := by
  intro ls
  induction ls with
  | nil =>
    intro rs xs ys lengthL lengthR _ ending
    rw [List.length_nil, List.length_eq_zero_iff] at lengthL
    subst lengthL
    cases rs with
    | nil =>
      rw [List.length_nil, List.length_eq_zero_iff] at lengthR
      subst lengthR
      simp [pairsLoop, pairsOrder, ending]
    | cons d rs =>
      obtain ⟨z, ys, rfl⟩ := List.exists_cons_of_length_eq_add_one lengthR
      simp [pairsLoop, pairsOrder, ending]
  | cons c ls ih =>
    intro rs xs ys lengthL lengthR elems ending
    obtain ⟨y, xs, rfl⟩ := List.exists_cons_of_length_eq_add_one lengthL
    cases rs with
    | nil =>
      rw [List.length_nil, List.length_eq_zero_iff] at lengthR
      subst lengthR
      simp [pairsLoop, pairsOrder, ending]
    | cons d rs =>
      obtain ⟨z, ys, rfl⟩ := List.exists_cons_of_length_eq_add_one lengthR
      obtain ⟨⟨forwardKey, backwardKey⟩, ⟨forwardVal, backwardVal⟩⟩ := elems 0 c d y z rfl rfl rfl rfl
      have rest := ih rs xs ys (by simpa using lengthL) (by simpa using lengthR)
        (fun i => elems (i + 1)) (by simpa using ending)
      rw [pairsLoop, pairsOrder, Ordering.then_assoc]
      exact compareStep_eq forwardKey backwardKey (compareStep_eq forwardVal backwardVal rest)

/-- Entries whose keys are all equal to themselves and the same on both sides compare as
their values do. -/
theorem pairsOrder_zip_same :
    ∀ (keys : List State) (vs ws : List State), vs.length = keys.length → ws.length = keys.length →
      (∀ k ∈ keys, stateOrder k k = .eq) → pairsOrder (keys.zip vs) (keys.zip ws) = statesOrder vs ws
  | [], [], [], _, _, _ => by simp [pairsOrder, statesOrder]
  | k :: keys, v :: vs, w :: ws, lengthV, lengthW, self => by
    have rest := pairsOrder_zip_same keys vs ws (by simpa using lengthV) (by simpa using lengthW)
      (fun k' mem => self k' (List.mem_cons_of_mem _ mem))
    simp [pairsOrder, statesOrder, self k List.mem_cons_self, rest]

end Loops

section Reading

variable {A s} {o n : Nat} {note : Note} {storage : Storage} {x : State}

/-- What `TArrayOfStates` reads: the cores of the storage, whose states it keeps unless
the storage is an exemplar. The element type comes from the first core, so a note it
reads has one, and it holds no state exactly when it is an exemplar. -/
theorem arrayOfStates_eq_some {decode : Core → Option State} {typeOf : Core → Option Ty}
    {t : Ty} {elems : List State}
    (arr : arrayOfStates A s decode typeOf storage = some (t, elems)) :
    ∃ cores, pinCores A s storage = some cores ∧ (elems = [] ↔ storage.isExemplar = true) ∧
      (storage.isExemplar = false → cores.mapM decode = some elems) := by
  simp only [arrayOfStates] at arr
  obtain ⟨cores, pinned, arr⟩ := Option.bind_eq_some_iff.mp arr
  obtain ⟨first, head, arr⟩ := Option.bind_eq_some_iff.mp arr
  obtain ⟨t', -, arr⟩ := Option.bind_eq_some_iff.mp arr
  refine ⟨cores, pinned, ?_⟩
  cases exemplar : storage.isExemplar with
  | true =>
    simp only [exemplar, if_true, pure, Option.some.injEq, Prod.mk.injEq] at arr
    simp [← arr.2]
  | false =>
    simp only [exemplar, Bool.false_eq_true, if_false] at arr
    obtain ⟨decoded, mapped, made⟩ := Option.bind_eq_some_iff.mp arr
    simp only [pure, Option.some.injEq, Prod.mk.injEq] at made
    obtain ⟨-, rfl⟩ := made
    obtain ⟨rest, rfl⟩ := List.head?_eq_some_iff.mp head
    refine ⟨⟨fun empty => ?_, fun impossible => absurd impossible Bool.false_ne_true⟩,
      fun _ => mapped⟩
    have lengths := length_eq_of_mapM mapped
    simp [empty] at lengths

/-- The same for `TArrayOfPairsOfStates`. -/
theorem arrayOfPairsOfStates_eq_some {decode : Core → Option State} {typeOf : Core → Option Ty}
    {k v : Ty} {elems : List (State × State)}
    (arr : arrayOfPairsOfStates A s decode typeOf storage = some (k, v, elems)) :
    ∃ pairs, pinPairs A s storage = some pairs ∧ (elems = [] ↔ storage.isExemplar = true) ∧
      (storage.isExemplar = false → pairs.mapM (pairOf decode) = some elems) := by
  simp only [arrayOfPairsOfStates] at arr
  obtain ⟨pairs, pinned, arr⟩ := Option.bind_eq_some_iff.mp arr
  obtain ⟨first, head, arr⟩ := Option.bind_eq_some_iff.mp arr
  obtain ⟨⟨k', v'⟩, -, arr⟩ := Option.bind_eq_some_iff.mp arr
  refine ⟨pairs, pinned, ?_⟩
  cases exemplar : storage.isExemplar with
  | true =>
    simp only [exemplar, if_true, pure, Option.some.injEq, Prod.mk.injEq] at arr
    simp [← arr.2.2]
  | false =>
    simp only [exemplar, Bool.false_eq_true, if_false] at arr
    obtain ⟨decoded, mapped, made⟩ := Option.bind_eq_some_iff.mp arr
    simp only [pure, Option.some.injEq, Prod.mk.injEq] at made
    obtain ⟨-, -, rfl⟩ := made
    obtain ⟨rest, rfl⟩ := List.head?_eq_some_iff.mp head
    refine ⟨⟨fun empty => ?_, fun impossible => absurd impossible Bool.false_ne_true⟩,
      fun _ => mapped⟩
    have lengths := length_eq_of_mapM mapped
    simp [empty] at lengths

theorem pairOf_eq_some {β : Type} {decode : Core → Option β} {pair : Core × Core} {y : β × β}
    (read : pairOf decode pair = some y) : decode pair.1 = some y.1 ∧ decode pair.2 = some y.2 := by
  simp only [pairOf] at read
  obtain ⟨a, first, read⟩ := Option.bind_eq_some_iff.mp read
  obtain ⟨b, second, read⟩ := Option.bind_eq_some_iff.mp read
  cases read
  exact ⟨first, second⟩

/-- The whole core of a pinned note refers to all its cores, and only a note of cores
has any. -/
theorem pinCores_fullCore {cores : List Core} (pinned : A.pin s o = some note) :
    pinCores A s (fullCore o note).storage = some cores ↔ note.body = .cores cores := by
  obtain ⟨tycon, isExemplar, body⟩ := note
  cases body <;> simp [pinCores, fullCore, pinned, Body.size, eq_comm]

theorem pinPairs_fullCore {pairs : List (Core × Core)} (pinned : A.pin s o = some note) :
    pinPairs A s (fullCore o note).storage = some pairs ↔ note.body = .pairs pairs := by
  obtain ⟨tycon, isExemplar, body⟩ := note
  cases body <;> simp [pinPairs, fullCore, pinned, Body.size, eq_comm]

/-- A blob or string note's core pins the note's bytes. -/
theorem pinRaw_noteCore {size : Nat} {bytes : List UInt8} (pinned : A.pin s o = some note)
    (raw : pinRaw A s (.indirectScalarArray o size) = some bytes) : note.body = .raw bytes := by
  obtain ⟨tycon, isExemplar, body⟩ := note
  cases body <;> simp_all [pinRaw]

/-- A string core whose bytes the quick path pins reads back as those bytes. -/
theorem newState_succ_of_strBytes {c : Core} {bytes : List UInt8}
    (pinned : strBytes A s c = some bytes) (k : Nat) : newState A s (k + 1) c = some (.str bytes) := by
  obtain ⟨tycon, storage⟩ := c
  cases tycon <;> simp only [strBytes, reduceCtorEq] at pinned
  case str =>
    obtain ⟨raw, pinnedRaw, rfl⟩ := Option.map_eq_some_iff.mp pinned
    simp [newState, pinnedRaw]
  case directStr r =>
    cases storage <;> simp only [reduceCtorEq, Option.some.injEq] at pinned
    simp [newState, pinned]

/-- The core `TCore(offset, note)` stands for a note of its own tycon, which is of its own
kind. -/
theorem tycon_of_noteCore {c : Core} (made : noteCore o note = some c) :
    c.tycon = note.tycon ∧ note.tycon.kind = note.tycon := by
  obtain ⟨tycon, isExemplar, body⟩ := note
  cases tycon <;> simp only [noteCore, reduceCtorEq, Option.some.injEq] at made <;>
    simp [← made, fullCore, TTycon.kind]

theorem newState_desc (read : newState A s n ⟨.desc, storage⟩ = some x) :
    ∃ k t xs y, n = k + 1 ∧ arrayOfStates A s (newState A s k) (getType A s k) storage =
      some (t, xs) ∧ xs.head? = some y ∧ x = .desc y := by
  obtain ⟨k, rfl⟩ := exists_succ_of_newState read
  simp only [newState] at read
  obtain ⟨⟨t, xs⟩, arr, read⟩ := Option.bind_eq_some_iff.mp read
  obtain ⟨y, head, made⟩ := Option.bind_eq_some_iff.mp read
  exact ⟨k, t, xs, y, rfl, arr, head, (Option.some.inj made).symm⟩

theorem newState_opt (read : newState A s n ⟨.opt, storage⟩ = some x) :
    ∃ k t xs, n = k + 1 ∧ arrayOfStates A s (newState A s k) (getType A s k) storage =
      some (t, xs) ∧ x = .opt t xs.head? := by
  obtain ⟨k, rfl⟩ := exists_succ_of_newState read
  simp only [newState] at read
  obtain ⟨⟨t, xs⟩, arr, made⟩ := Option.bind_eq_some_iff.mp read
  exact ⟨k, t, xs, rfl, arr, (Option.some.inj made).symm⟩

theorem newState_set (read : newState A s n ⟨.set, storage⟩ = some x) :
    ∃ k t xs, n = k + 1 ∧ arrayOfStates A s (newState A s k) (getType A s k) storage =
      some (t, xs) ∧ x = .set t xs := by
  obtain ⟨k, rfl⟩ := exists_succ_of_newState read
  simp only [newState] at read
  obtain ⟨⟨t, xs⟩, arr, made⟩ := Option.bind_eq_some_iff.mp read
  exact ⟨k, t, xs, rfl, arr, (Option.some.inj made).symm⟩

theorem newState_vector (read : newState A s n ⟨.vector, storage⟩ = some x) :
    ∃ k t xs, n = k + 1 ∧ arrayOfStates A s (newState A s k) (getType A s k) storage =
      some (t, xs) ∧ x = .vector t xs := by
  obtain ⟨k, rfl⟩ := exists_succ_of_newState read
  simp only [newState] at read
  obtain ⟨⟨t, xs⟩, arr, made⟩ := Option.bind_eq_some_iff.mp read
  exact ⟨k, t, xs, rfl, arr, (Option.some.inj made).symm⟩

theorem newState_map (read : newState A s n ⟨.map, storage⟩ = some x) :
    ∃ k kt vt ps, n = k + 1 ∧ arrayOfPairsOfStates A s (newState A s k) (getType A s k) storage =
      some (kt, vt, ps) ∧ x = .map kt vt ps := by
  obtain ⟨k, rfl⟩ := exists_succ_of_newState read
  simp only [newState] at read
  obtain ⟨⟨kt, vt, ps⟩, arr, made⟩ := Option.bind_eq_some_iff.mp read
  exact ⟨k, kt, vt, ps, rfl, arr, (Option.some.inj made).symm⟩

theorem newState_record (read : newState A s n ⟨.record, storage⟩ = some x) :
    ∃ k pairs fields vals, n = k + 1 ∧ pinPairs A s storage = some pairs ∧
      pairs.mapM (fieldOf A s (getType A s k)) = some fields ∧
      pairs.mapM (fun pair => newState A s k pair.2) = some vals ∧ x = .record fields vals := by
  obtain ⟨k, rfl⟩ := exists_succ_of_newState read
  simp only [newState] at read
  obtain ⟨pairs, pinned, read⟩ := Option.bind_eq_some_iff.mp read
  obtain ⟨fields, named, read⟩ := Option.bind_eq_some_iff.mp read
  obtain ⟨vals, valued, made⟩ := Option.bind_eq_some_iff.mp read
  exact ⟨k, pairs, fields, vals, rfl, pinned, named, valued, (Option.some.inj made).symm⟩

theorem fieldOf_eq_some {typeOf : Core → Option Ty} {pair : Core × Core} {field : List UInt8 × Ty}
    (named : fieldOf A s typeOf pair = some field) :
    copyOut A s pair.1 = some field.1 ∧ typeOf pair.2 = some field.2 := by
  simp only [fieldOf] at named
  obtain ⟨name, copied, named⟩ := Option.bind_eq_some_iff.mp named
  obtain ⟨t, typed, named⟩ := Option.bind_eq_some_iff.mp named
  cases named
  exact ⟨copied, typed⟩

/-- The whole core of a note of a known tycon. -/
theorem fullCore_of_tycon {tycon : TTycon} (is : note.tycon = tycon) :
    fullCore o note = ⟨tycon, (fullCore o note).storage⟩ := by
  simp only [fullCore, is]

/-- A blob note's core reads back as the note's bytes. -/
theorem newState_blob_note {size : Nat} (pinned : A.pin s o = some note)
    (read : newState A s n ⟨.blob, .indirectScalarArray o size⟩ = some x) :
    ∃ bytes, note.body = .raw bytes ∧ x = .blob bytes := by
  obtain ⟨k, rfl⟩ := exists_succ_of_newState read
  simp only [newState] at read
  obtain ⟨bytes, raw, rfl⟩ := Option.map_eq_some_iff.mp read
  exact ⟨bytes, pinRaw_noteCore pinned raw, rfl⟩

/-- A string note's core reads back as the note's bytes without the NUL it keeps. -/
theorem newState_str_note {size : Nat} (pinned : A.pin s o = some note)
    (read : newState A s n ⟨.str, .indirectScalarArray o size⟩ = some x) :
    ∃ bytes, note.body = .raw bytes ∧ x = .str bytes.dropLast := by
  obtain ⟨k, rfl⟩ := exists_succ_of_newState read
  simp only [newState] at read
  obtain ⟨bytes, raw, rfl⟩ := Option.map_eq_some_iff.mp read
  exact ⟨bytes, pinRaw_noteCore pinned raw, rfl⟩

end Reading

section Elements

variable {A s}

theorem State.sound_str (bytes : List UInt8) : (State.str bytes).Sound := ⟨trivial, trivial, trivial⟩

theorem coreComparable_of_type {u : Ty} {y z : State} (typeY : y.type = u) (typeZ : z.type = u)
    (soundY : y.Sound) (soundZ : z.Sound) (orderable : tyconOf u ≠ .tombstone ∧ tyconOf u ≠ .void) :
    CoreComparable y z :=
  ⟨typeY.trans typeZ.symm, soundY, soundZ, typeY ▸ orderable.1, typeY ▸ orderable.2⟩

/-- Two lists of states of one list of types compare place by place, where the core
comparison orders each type. -/
theorem comparable_of_types_eq {xs ys : List State} (same : State.types xs = State.types ys)
    (soundL : ∀ e ∈ xs, e.Sound) (soundR : ∀ e ∈ ys, e.Sound)
    (orderable : ∀ t ∈ State.types xs, tyconOf t ≠ .tombstone ∧ tyconOf t ≠ .void) :
    ∀ (i : Nat) (y z : State), xs[i]? = some y → ys[i]? = some z → CoreComparable y z := by
  intro i y z atX atY
  have memY : y.type ∈ State.types xs := by
    rw [State.types_eq_map]
    exact List.mem_map_of_mem (List.mem_of_getElem? atX)
  rw [State.types_eq_map, State.types_eq_map] at same
  have typeY : (xs.map State.type)[i]? = some y.type := by simp [atX]
  have typeZ : (ys.map State.type)[i]? = some z.type := by simp [atY]
  rw [same, typeZ, Option.some.injEq] at typeY
  exact ⟨typeY.symm, soundL y (List.mem_of_getElem? atX), soundR z (List.mem_of_getElem? atY),
    orderable _ memY⟩

theorem types_of_valsOfFields : ∀ {fields : List (List UInt8 × Ty)} {vals : List State},
    State.valsOfFields fields vals → State.types vals = fields.map Prod.snd
  | [], [], _ => rfl
  | (_, _) :: _, _ :: _, ⟨valType, _, rest⟩ => by
    rw [State.types, types_of_valsOfFields rest, valType, List.map_cons]
  | [], _ :: _, typed | _ :: _, [], typed => typed.elim

theorem mem_nestedCores_pairs {pairs : List (Core × Core)} {pair : Core × Core}
    (mem : pair ∈ pairs) :
    pair.1 ∈ (Body.pairs pairs).nestedCores ∧ pair.2 ∈ (Body.pairs pairs).nestedCores := by
  simp only [Body.nestedCores, List.mem_flatMap]
  exact ⟨⟨pair, mem, by simp⟩, ⟨pair, mem, by simp⟩⟩

/-- Agreement over the cores of two notes holds from either side. -/
theorem offsetsAgree_both {left right : List Core}
    (nested : ∀ c ∈ left ++ right, ∀ d ∈ left ++ right, OffsetsAgree A s c d) {e f : Core}
    (inL : e ∈ left) (inR : f ∈ right) : OffsetsAgree A s e f ∧ OffsetsAgree A s f e :=
  ⟨nested _ (List.mem_append_left _ inL) _ (List.mem_append_right _ inR),
    nested _ (List.mem_append_right _ inR) _ (List.mem_append_left _ inL)⟩

/-- Cores read element by element into states the core comparison orders compare, place
by place, as those states do. -/
theorem coresOrdered_of_mapM {ls rs : List Core} {xs ys : List State} {k k' : Nat}
    (mappedL : ls.mapM (newState A s k) = some xs) (mappedR : rs.mapM (newState A s k') = some ys)
    (comparable : ∀ (i : Nat) (y z : State), xs[i]? = some y → ys[i]? = some z → CoreComparable y z)
    (nested : ∀ c ∈ ls ++ rs, ∀ d ∈ ls ++ rs, OffsetsAgree A s c d) :
    ∀ (i : Nat) (c d : Core) (y z : State), ls[i]? = some c → rs[i]? = some d →
      xs[i]? = some y → ys[i]? = some z → CoresOrdered A s c d y z := by
  intro i c d y z atL atR atX atY
  have agree := offsetsAgree_both nested (List.mem_of_getElem? atL) (List.mem_of_getElem? atR)
  exact orderedCoreCompare_both (getElem?_of_mapM mappedL atL atX)
    (getElem?_of_mapM mappedR atR atY) (comparable i y z atX atY) agree.1 agree.2

/-- The same for the pairs of two maps, key and value. -/
theorem pairsOrdered_of_mapM {ls rs : List (Core × Core)} {xs ys : List (State × State)}
    {k k' : Nat} (mappedL : ls.mapM (pairOf (newState A s k)) = some xs)
    (mappedR : rs.mapM (pairOf (newState A s k')) = some ys)
    (comparable : ∀ (i : Nat) (y z : State × State), xs[i]? = some y → ys[i]? = some z →
      CoreComparable y.1 z.1 ∧ CoreComparable y.2 z.2)
    (nested : ∀ c ∈ (Body.pairs ls).nestedCores ++ (Body.pairs rs).nestedCores,
      ∀ d ∈ (Body.pairs ls).nestedCores ++ (Body.pairs rs).nestedCores, OffsetsAgree A s c d) :
    ∀ (i : Nat) (c d : Core × Core) (y z : State × State), ls[i]? = some c → rs[i]? = some d →
      xs[i]? = some y → ys[i]? = some z →
        CoresOrdered A s c.1 d.1 y.1 z.1 ∧ CoresOrdered A s c.2 d.2 y.2 z.2 := by
  intro i c d y z atL atR atX atY
  obtain ⟨readC₁, readC₂⟩ := pairOf_eq_some (getElem?_of_mapM mappedL atL atX)
  obtain ⟨readD₁, readD₂⟩ := pairOf_eq_some (getElem?_of_mapM mappedR atR atY)
  obtain ⟨comparable₁, comparable₂⟩ := comparable i y z atX atY
  obtain ⟨memC₁, memC₂⟩ := mem_nestedCores_pairs (List.mem_of_getElem? atL)
  obtain ⟨memD₁, memD₂⟩ := mem_nestedCores_pairs (List.mem_of_getElem? atR)
  have agree₁ := offsetsAgree_both nested memC₁ memD₁
  have agree₂ := offsetsAgree_both nested memC₂ memD₂
  exact ⟨orderedCoreCompare_both readC₁ readD₁ comparable₁ agree₁.1 agree₁.2,
    orderedCoreCompare_both readC₂ readD₂ comparable₂ agree₂.1 agree₂.2⟩

/-- Two field names of one record type compare equal from either side. -/
theorem coresOrdered_names {c d : Core} {name : List UInt8} (namedC : copyOut A s c = some name)
    (namedD : copyOut A s d = some name) (bytesC : copyOut A s c = strBytes A s c)
    (bytesD : copyOut A s d = strBytes A s d) (agreeCD : OffsetsAgree A s c d)
    (agreeDC : OffsetsAgree A s d c) : CoresOrdered A s c d (.str name) (.str name) :=
  orderedCoreCompare_both (newState_succ_of_strBytes (bytesC ▸ namedC) 0)
    (newState_succ_of_strBytes (bytesD ▸ namedD) 0)
    ⟨rfl, State.sound_str name, State.sound_str name, nofun, nofun⟩ agreeCD agreeDC

/-- The exemplar logic of the note comparison: an exemplar holds no element, and
compares below exactly the notes that hold one. -/
theorem exemplarCompare_eq {α : Type} (ord : List α → List α → Ordering) {el er : Bool}
    {xs ys : List α} {both : Option Bool}
    (nilNil : ord [] [] = .eq) (nilCons : ∀ b bs, ord [] (b :: bs) = .lt)
    (consNil : ∀ a as, ord (a :: as) [] = .gt)
    (emptyL : xs = [] ↔ el = true) (emptyR : ys = [] ↔ er = true)
    (elems : el = false → er = false → both = some (decide (ord xs ys = .lt))) :
    (if !el then if !er then both else some false else some !er) =
      some (decide (ord xs ys = .lt)) := by
  cases el <;> cases er
  case false.false => simpa using elems rfl rfl
  case false.true =>
    obtain ⟨a, as, rfl⟩ := List.exists_cons_of_ne_nil (by simpa using emptyL)
    rw [emptyR.mpr rfl]
    simp [consNil]
  case true.false =>
    obtain ⟨b, bs, rfl⟩ := List.exists_cons_of_ne_nil (by simpa using emptyR)
    rw [emptyL.mpr rfl]
    simp [nilCons]
  case true.true =>
    rw [emptyL.mpr rfl, emptyR.mpr rfl]
    simp [nilNil]

end Elements

section NoteKinds

variable {A s} {o₁ o₂ n m : Nat} {l r : Note} {x y : State}

/-- Two sets or two vectors read whole, their elements all of one type the core comparison
orders: the note comparison is the element order, whatever their exemplar flags. -/
theorem noteCompare_array {k k' : Nat} {t t' : Ty} {xs ys : List State}
    (kind : l.tycon = .set ∨ l.tycon = .vector)
    (pinnedL : A.pin s o₁ = some l) (pinnedR : A.pin s o₂ = some r)
    (arrL : arrayOfStates A s (newState A s k) (getType A s k) (fullCore o₁ l).storage = some (t, xs))
    (arrR : arrayOfStates A s (newState A s k') (getType A s k') (fullCore o₂ r).storage =
      some (t', ys))
    (comparable : ∀ y ∈ xs, ∀ z ∈ ys, CoreComparable y z)
    (nested : ∀ c ∈ l.body.nestedCores ++ r.body.nestedCores,
      ∀ d ∈ l.body.nestedCores ++ r.body.nestedCores, OffsetsAgree A s c d) :
    noteCompare A s l r = some (decide (statesOrder xs ys = .lt)) := by
  obtain ⟨ls, pinL, emptyL, mappedL⟩ := arrayOfStates_eq_some arrL
  obtain ⟨rs, pinR, emptyR, mappedR⟩ := arrayOfStates_eq_some arrR
  have bodyL := (pinCores_fullCore pinnedL).mp pinL
  have bodyR := (pinCores_fullCore pinnedR).mp pinR
  simp only [bodyL, bodyR, Body.nestedCores] at nested
  have loop : l.isExemplar = false → r.isExemplar = false →
      coresLoop A s (decide (ls.length < rs.length)) ls rs =
        some (decide (statesOrder xs ys = .lt)) := by
    intro fullL fullR
    have mappedL := mappedL fullL
    have mappedR := mappedR fullR
    exact coresLoop_eq ls rs xs ys (length_eq_of_mapM mappedL) (length_eq_of_mapM mappedR)
      (coresOrdered_of_mapM mappedL mappedR (fun _ y z atX atY =>
        comparable y (List.mem_of_getElem? atX) z (List.mem_of_getElem? atY)) nested) rfl
  obtain ⟨tycon, el, bl⟩ := l
  obtain ⟨tycon', er, br⟩ := r
  simp only at bodyL bodyR kind
  subst bodyL bodyR
  rcases kind with rfl | rfl <;>
    exact exemplarCompare_eq statesOrder rfl (fun _ _ => rfl) (fun _ _ => rfl) emptyL emptyR loop

/-- The first cores of two notes read element by element compare as their first
states. -/
theorem heads_ordered {k k' : Nat} {ls rs : List Core} {xs ys : List State} {y z : State}
    (mappedL : ls.mapM (newState A s k) = some xs) (mappedR : rs.mapM (newState A s k') = some ys)
    (headX : xs.head? = some y) (headY : ys.head? = some z) (comparable : CoreComparable y z)
    (nested : ∀ c ∈ ls ++ rs, ∀ d ∈ ls ++ rs, OffsetsAgree A s c d) :
    ∃ c d, ls.head? = some c ∧ rs.head? = some d ∧ CoresOrdered A s c d y z := by
  obtain ⟨xs', rfl⟩ := List.head?_eq_some_iff.mp headX
  obtain ⟨ys', rfl⟩ := List.head?_eq_some_iff.mp headY
  obtain ⟨c, ls', rfl, readC⟩ := exists_cons_of_mapM mappedL
  obtain ⟨d, rs', rfl, readD⟩ := exists_cons_of_mapM mappedR
  have agree := offsetsAgree_both nested List.mem_cons_self List.mem_cons_self
  exact ⟨c, d, rfl, rfl, orderedCoreCompare_both readC readD comparable agree.1 agree.2⟩

/-- A note read whole through `TArrayOfStates` that yields a first state is no exemplar. -/
theorem not_exemplar_of_head {t : Ty} {xs : List State} {y : State} {k : Nat}
    (arr : arrayOfStates A s (newState A s k) (getType A s k) (fullCore o₁ l).storage =
      some (t, xs)) (headX : xs.head? = some y) : l.isExemplar = false := by
  obtain ⟨_, _, empty, _⟩ := arrayOfStates_eq_some arr
  refine Bool.eq_false_iff.mpr fun exemplar => ?_
  rw [empty.mpr exemplar] at headX
  cases headX

section

variable (pinnedL : A.pin s o₁ = some l) (pinnedR : A.pin s o₂ = some r)
  (readL : newState A s n (fullCore o₁ l) = some x) (readR : newState A s m (fullCore o₂ r) = some y)
  (sameType : x.type = y.type) (soundX : x.Sound) (soundY : y.Sound)
  (orderable : ArenaOrderable x.type)
  (nested : ∀ c ∈ l.body.nestedCores ++ r.body.nestedCores,
    ∀ d ∈ l.body.nestedCores ++ r.body.nestedCores, OffsetsAgree A s c d)
include pinnedL pinnedR readL readR sameType soundX soundY orderable nested

/-- Two sets: element by element, then by count. -/
theorem noteCompare_set (tyconL : l.tycon = .set) (tyconR : r.tycon = .set) :
    noteCompare A s l r = some (decide (stateOrder x y = .lt)) := by
  rw [fullCore_of_tycon tyconL] at readL
  rw [fullCore_of_tycon tyconR] at readR
  obtain ⟨k, t, xs, rfl, arrL, rfl⟩ := newState_set readL
  obtain ⟨k', t', ys, rfl, arrR, rfl⟩ := newState_set readR
  simp only [State.type, Ty.set.injEq] at sameType
  subst sameType
  have elemOk := orderable.2 t (List.mem_singleton_self t)
  simp only [stateOrder]
  exact noteCompare_array (.inl tyconL) pinnedL pinnedR arrL arrR (fun y' my z' mz =>
    coreComparable_of_type (State.allOfType_iff.mp soundX.2.1 y' my).1
      (State.allOfType_iff.mp soundY.2.1 z' mz).1 (soundX.set y' my) (soundY.set z' mz) elemOk) nested

/-- Two vectors: the same. -/
theorem noteCompare_vector (tyconL : l.tycon = .vector) (tyconR : r.tycon = .vector) :
    noteCompare A s l r = some (decide (stateOrder x y = .lt)) := by
  rw [fullCore_of_tycon tyconL] at readL
  rw [fullCore_of_tycon tyconR] at readR
  obtain ⟨k, t, xs, rfl, arrL, rfl⟩ := newState_vector readL
  obtain ⟨k', t', ys, rfl, arrR, rfl⟩ := newState_vector readR
  simp only [State.type, Ty.vector.injEq] at sameType
  subst sameType
  have elemOk := orderable.2 t (List.mem_singleton_self t)
  simp only [stateOrder]
  exact noteCompare_array (.inr tyconL) pinnedL pinnedR arrL arrR (fun y' my z' mz =>
    coreComparable_of_type (State.allOfType_iff.mp soundX.2.1 y' my).1
      (State.allOfType_iff.mp soundY.2.1 z' mz).1 (soundX.vector y' my) (soundY.vector z' mz)
      elemOk) nested

/-- Two maps: entry by entry, key then value, then by count. -/
theorem noteCompare_map (tyconL : l.tycon = .map) (tyconR : r.tycon = .map) :
    noteCompare A s l r = some (decide (stateOrder x y = .lt)) := by
  rw [fullCore_of_tycon tyconL] at readL
  rw [fullCore_of_tycon tyconR] at readR
  obtain ⟨k, kt, vt, xs, rfl, arrL, rfl⟩ := newState_map readL
  obtain ⟨k', kt', vt', ys, rfl, arrR, rfl⟩ := newState_map readR
  simp only [State.type, Ty.map.injEq] at sameType
  obtain ⟨rfl, rfl⟩ := sameType
  have keyOk := orderable.2 kt (by simp [elemTypes, State.type])
  have valOk := orderable.2 vt (by simp [elemTypes, State.type])
  obtain ⟨ls, pinL, emptyL, mappedL⟩ := arrayOfPairsOfStates_eq_some arrL
  obtain ⟨rs, pinR, emptyR, mappedR⟩ := arrayOfPairsOfStates_eq_some arrR
  have bodyL := (pinPairs_fullCore pinnedL).mp pinL
  have bodyR := (pinPairs_fullCore pinnedR).mp pinR
  rw [bodyL, bodyR] at nested
  have typedL := State.pairsOfType_iff.mp soundX.2.1
  have typedR := State.pairsOfType_iff.mp soundY.2.1
  have loop : l.isExemplar = false → r.isExemplar = false →
      pairsLoop A s (decide (ls.length < rs.length)) ls rs =
        some (decide (pairsOrder xs ys = .lt)) := by
    intro fullL fullR
    have mappedL := mappedL fullL
    have mappedR := mappedR fullR
    refine pairsLoop_eq ls rs xs ys (length_eq_of_mapM mappedL) (length_eq_of_mapM mappedR)
      (pairsOrdered_of_mapM mappedL mappedR ?_ nested) rfl
    intro i p q atX atY
    have memP := List.mem_of_getElem? atX
    have memQ := List.mem_of_getElem? atY
    exact ⟨coreComparable_of_type (typedL p memP).1 (typedR q memQ).1 (soundX.map p memP).1
        (soundY.map q memQ).1 keyOk,
      coreComparable_of_type (typedL p memP).2.2.1 (typedR q memQ).2.2.1 (soundX.map p memP).2
        (soundY.map q memQ).2 valOk⟩
  obtain ⟨tycon, el, bl⟩ := l
  obtain ⟨tycon', er, br⟩ := r
  simp only at bodyL bodyR tyconL
  subst bodyL bodyR tyconL
  simp only [stateOrder]
  exact exemplarCompare_eq pairsOrder rfl (fun _ _ => rfl) (fun _ _ => rfl) emptyL emptyR loop

/-- Two opts: an empty one below a full one, two full ones as their elements. -/
theorem noteCompare_opt (tyconL : l.tycon = .opt) (tyconR : r.tycon = .opt) :
    noteCompare A s l r = some (decide (stateOrder x y = .lt)) := by
  rw [fullCore_of_tycon tyconL] at readL
  rw [fullCore_of_tycon tyconR] at readR
  obtain ⟨k, t, xs, rfl, arrL, rfl⟩ := newState_opt readL
  obtain ⟨k', t', ys, rfl, arrR, rfl⟩ := newState_opt readR
  simp only [State.type, Ty.opt.injEq] at sameType
  subst sameType
  have elemOk := orderable.2 t (List.mem_singleton_self t)
  obtain ⟨ls, pinL, emptyL, mappedL⟩ := arrayOfStates_eq_some arrL
  obtain ⟨rs, pinR, emptyR, mappedR⟩ := arrayOfStates_eq_some arrR
  have bodyL := (pinCores_fullCore pinnedL).mp pinL
  have bodyR := (pinCores_fullCore pinnedR).mp pinR
  simp only [bodyL, bodyR, Body.nestedCores] at nested
  have heads : l.isExemplar = false → r.isExemplar = false →
      (do orderedCoreCompare A s (← ls.head?) (← rs.head?)) =
        some (decide (stateOrder (.opt t xs.head?) (.opt t ys.head?) = .lt)) := by
    intro fullL fullR
    -- a full opt holds its element
    obtain ⟨y', headX⟩ := Option.ne_none_iff_exists'.mp fun none =>
      Bool.false_ne_true (fullL ▸ emptyL.mp (List.head?_eq_none_iff.mp none))
    obtain ⟨z', headY⟩ := Option.ne_none_iff_exists'.mp fun none =>
      Bool.false_ne_true (fullR ▸ emptyR.mp (List.head?_eq_none_iff.mp none))
    have soundX' : (State.opt t (some y')).Sound := headX ▸ soundX
    have soundY' : (State.opt t (some z')).Sound := headY ▸ soundY
    have comparable := coreComparable_of_type soundX'.2.1.1 soundY'.2.1.1 soundX'.opt soundY'.opt
      elemOk
    obtain ⟨c, d, headL, headR, ordered⟩ :=
      heads_ordered (mappedL fullL) (mappedR fullR) headX headY comparable nested
    simp [headL, headR, headX, headY, stateOrder, ordered.1]
  obtain ⟨tycon, el, bl⟩ := l
  obtain ⟨tycon', er, br⟩ := r
  simp only at bodyL bodyR tyconL
  subst bodyL bodyR tyconL
  exact exemplarCompare_eq (fun xs ys => stateOrder (.opt t xs.head?) (.opt t ys.head?)) rfl
    (fun _ _ => rfl) (fun _ _ => rfl) emptyL emptyR heads

/-- Two descs: their elements the other way round. -/
theorem noteCompare_desc (tyconL : l.tycon = .desc) (tyconR : r.tycon = .desc) :
    noteCompare A s l r = some (decide (stateOrder x y = .lt)) := by
  rw [fullCore_of_tycon tyconL] at readL
  rw [fullCore_of_tycon tyconR] at readR
  obtain ⟨k, t, xs, y', rfl, arrL, headX, rfl⟩ := newState_desc readL
  obtain ⟨k', t', ys, z', rfl, arrR, headY, rfl⟩ := newState_desc readR
  simp only [State.type, Ty.desc.injEq] at sameType
  have elemOk := orderable.2 y'.type (List.mem_singleton_self _)
  obtain ⟨ls, pinL, -, mappedL⟩ := arrayOfStates_eq_some arrL
  obtain ⟨rs, pinR, -, mappedR⟩ := arrayOfStates_eq_some arrR
  have bodyL := (pinCores_fullCore pinnedL).mp pinL
  have bodyR := (pinCores_fullCore pinnedR).mp pinR
  simp only [bodyL, bodyR, Body.nestedCores] at nested
  obtain ⟨c, d, headL, headR, ordered⟩ := heads_ordered
    (mappedL (not_exemplar_of_head arrL headX)) (mappedR (not_exemplar_of_head arrR headY))
    headX headY ⟨sameType, soundX.desc, soundY.desc, elemOk⟩ nested
  obtain ⟨tycon, el, bl⟩ := l
  obtain ⟨tycon', er, br⟩ := r
  simp only at bodyL bodyR tyconL
  subst bodyL bodyR tyconL
  simp [noteCompare, headL, headR, ordered.2, stateOrder, Ordering.swap_eq_lt]

/-- Two tuples of one type: element by element. -/
theorem noteCompare_tuple (tyconL : l.tycon = .tuple) (tyconR : r.tycon = .tuple) :
    noteCompare A s l r = some (decide (stateOrder x y = .lt)) := by
  rw [fullCore_of_tycon tyconL] at readL
  rw [fullCore_of_tycon tyconR] at readR
  obtain ⟨k, ls, xs, rfl, pinL, mappedL, rfl⟩ := newState_tuple readL
  obtain ⟨k', rs, ys, rfl, pinR, mappedR, rfl⟩ := newState_tuple readR
  simp only [State.type, Ty.tuple.injEq] at sameType
  have bodyL := (pinCores_fullCore pinnedL).mp pinL
  have bodyR := (pinCores_fullCore pinnedR).mp pinR
  simp only [bodyL, bodyR, Body.nestedCores] at nested
  have lengths : ls.length = rs.length := by
    rw [← length_eq_of_mapM mappedL, ← length_eq_of_mapM mappedR, length_eq_of_types_eq sameType]
  obtain ⟨tycon, el, bl⟩ := l
  obtain ⟨tycon', er, br⟩ := r
  simp only at bodyL bodyR tyconL
  subst bodyL bodyR tyconL
  simp only [noteCompare, stateOrder]
  exact coresLoop_eq ls rs xs ys (length_eq_of_mapM mappedL) (length_eq_of_mapM mappedR)
    (coresOrdered_of_mapM mappedL mappedR
      (comparable_of_types_eq sameType soundX.tuple soundY.tuple orderable.2) nested)
    (by simp [lengths])

/-- Two records of one type: field by field, each name and then its value. The names of
one type are equal, so the values decide. -/
theorem noteCompare_record (tyconL : l.tycon = .record) (tyconR : r.tycon = .record)
    (names : ∀ c ∈ l.body.firsts ++ r.body.firsts, copyOut A s c = strBytes A s c) :
    noteCompare A s l r = some (decide (stateOrder x y = .lt)) := by
  rw [fullCore_of_tycon tyconL] at readL
  rw [fullCore_of_tycon tyconR] at readR
  obtain ⟨k, ls, fields, xs, rfl, pinL, namedL, valuedL, rfl⟩ := newState_record readL
  obtain ⟨k', rs, fields', ys, rfl, pinR, namedR, valuedR, rfl⟩ := newState_record readR
  simp only [State.type, Ty.record.injEq] at sameType
  subst sameType
  have bodyL := (pinPairs_fullCore pinnedL).mp pinL
  have bodyR := (pinPairs_fullCore pinnedR).mp pinR
  rw [bodyL, bodyR] at nested
  simp only [bodyL, bodyR, Body.firsts] at names
  have typesL := types_of_valsOfFields soundX.2.1
  have typesR := types_of_valsOfFields soundY.2.1
  have comparable := comparable_of_types_eq (typesL.trans typesR.symm) soundX.record
    soundY.record (typesL ▸ orderable.2)
  have lengthL : xs.length = fields.length :=
    (length_eq_of_mapM valuedL).trans (length_eq_of_mapM namedL).symm
  have lengthR : ys.length = fields.length :=
    (length_eq_of_mapM valuedR).trans (length_eq_of_mapM namedR).symm
  -- the entries of a record, as the pair loop sees them: each field name and its value
  let keys := fields.map fun field => State.str field.1
  have keyed : pairsOrder (keys.zip xs) (keys.zip ys) = statesOrder xs ys := by
    refine pairsOrder_zip_same keys xs ys (by simp [keys, lengthL]) (by simp [keys, lengthR]) ?_
    intro key mem
    obtain ⟨field, -, rfl⟩ := List.mem_map.mp mem
    simp only [stateOrder]
    exact byteOrder_laws.refl trivial
  have entries : ∀ (i : Nat) (c d : Core × Core) (p q : State × State), ls[i]? = some c →
      rs[i]? = some d → (keys.zip xs)[i]? = some p → (keys.zip ys)[i]? = some q →
        CoresOrdered A s c.1 d.1 p.1 q.1 ∧ CoresOrdered A s c.2 d.2 p.2 q.2 := by
    intro i c d p q atL atR atP atQ
    obtain ⟨keyP, valP⟩ := List.getElem?_zip_eq_some.mp atP
    obtain ⟨keyQ, valQ⟩ := List.getElem?_zip_eq_some.mp atQ
    simp only [keys, List.getElem?_map, Option.map_eq_some_iff] at keyP keyQ
    obtain ⟨field, fieldAt, nameP⟩ := keyP
    obtain ⟨field', fieldAt', nameQ⟩ := keyQ
    rw [fieldAt, Option.some.injEq] at fieldAt'
    subst fieldAt'
    rw [← nameP, ← nameQ]
    obtain ⟨namedC, -⟩ := fieldOf_eq_some (getElem?_of_mapM namedL atL fieldAt)
    obtain ⟨namedD, -⟩ := fieldOf_eq_some (getElem?_of_mapM namedR atR fieldAt)
    obtain ⟨memC₁, memC₂⟩ := mem_nestedCores_pairs (List.mem_of_getElem? atL)
    obtain ⟨memD₁, memD₂⟩ := mem_nestedCores_pairs (List.mem_of_getElem? atR)
    have agree₁ := offsetsAgree_both nested memC₁ memD₁
    have agree₂ := offsetsAgree_both nested memC₂ memD₂
    have bytesC := names c.1 (List.mem_append_left _ (List.mem_map_of_mem (List.mem_of_getElem? atL)))
    have bytesD := names d.1 (List.mem_append_right _ (List.mem_map_of_mem (List.mem_of_getElem? atR)))
    exact ⟨coresOrdered_names namedC namedD bytesC bytesD agree₁.1 agree₁.2,
      orderedCoreCompare_both (getElem?_of_mapM valuedL atL valP) (getElem?_of_mapM valuedR atR valQ)
        (comparable i p.2 q.2 valP valQ) agree₂.1 agree₂.2⟩
  obtain ⟨tycon, el, bl⟩ := l
  obtain ⟨tycon', er, br⟩ := r
  simp only at bodyL bodyR tyconL
  subst bodyL bodyR tyconL
  simp only [noteCompare, stateOrder, ← keyed]
  exact pairsLoop_eq ls rs (keys.zip xs) (keys.zip ys)
    (by simp [keys, lengthL, length_eq_of_mapM namedL])
    (by simp [keys, lengthR, length_eq_of_mapM namedR]) entries
    (by simp [← length_eq_of_mapM namedL, ← length_eq_of_mapM namedR])

end

/-- Two blob notes: by their bytes. -/
theorem noteCompare_blob (tyconL : l.tycon = .blob) (pinnedL : A.pin s o₁ = some l)
    (pinnedR : A.pin s o₂ = some r) {sizeL sizeR : Nat}
    (readL : newState A s n ⟨.blob, .indirectScalarArray o₁ sizeL⟩ = some x)
    (readR : newState A s m ⟨.blob, .indirectScalarArray o₂ sizeR⟩ = some y) :
    noteCompare A s l r = some (decide (stateOrder x y = .lt)) := by
  obtain ⟨bl, bodyL, rfl⟩ := newState_blob_note pinnedL readL
  obtain ⟨br, bodyR, rfl⟩ := newState_blob_note pinnedR readR
  obtain ⟨tycon, el, bl'⟩ := l
  obtain ⟨tycon', er, br'⟩ := r
  simp only at bodyL bodyR tyconL
  subst bodyL bodyR tyconL
  simp only [noteCompare, isLt_quickCompareMem]
  rfl

/-- Two string notes: by their bytes, each without its NUL. -/
theorem noteCompare_str (tyconL : l.tycon = .str) (pinnedL : A.pin s o₁ = some l)
    (pinnedR : A.pin s o₂ = some r) {sizeL sizeR : Nat}
    (readL : newState A s n ⟨.str, .indirectScalarArray o₁ sizeL⟩ = some x)
    (readR : newState A s m ⟨.str, .indirectScalarArray o₂ sizeR⟩ = some y) :
    noteCompare A s l r = some (decide (stateOrder x y = .lt)) := by
  obtain ⟨bl, bodyL, rfl⟩ := newState_str_note pinnedL readL
  obtain ⟨br, bodyR, rfl⟩ := newState_str_note pinnedR readR
  obtain ⟨tycon, el, bl'⟩ := l
  obtain ⟨tycon', er, br'⟩ := r
  simp only at bodyL bodyR tyconL
  subst bodyL bodyR tyconL
  simp only [noteCompare, isLt_quickCompareMem]
  rfl

/-- The note comparison is the `Lt` of the state order on two notes of one orderable type
whose nested indirections are laid out in order, the record names read alike by both
readers. Each tycon's rule is one of the lemmas above. -/
theorem noteCompare_eq_stateOrder (pinnedL : A.pin s o₁ = some l) (pinnedR : A.pin s o₂ = some r)
    (readL : (noteCore o₁ l).bind (newState A s n) = some x)
    (readR : (noteCore o₂ r).bind (newState A s m) = some y)
    (sameType : x.type = y.type) (soundX : x.Sound) (soundY : y.Sound)
    (orderable : ArenaOrderable x.type)
    (nested : ∀ c ∈ l.body.nestedCores ++ r.body.nestedCores,
      ∀ d ∈ l.body.nestedCores ++ r.body.nestedCores, OffsetsAgree A s c d)
    (names : l.tycon = .record →
      ∀ c ∈ l.body.firsts ++ r.body.firsts, copyOut A s c = strBytes A s c) :
    noteCompare A s l r = some (decide (stateOrder x y = .lt)) := by
  obtain ⟨c, madeL, readL⟩ := Option.bind_eq_some_iff.mp readL
  obtain ⟨d, madeR, readR⟩ := Option.bind_eq_some_iff.mp readR
  obtain ⟨tyconC, kindL⟩ := tycon_of_noteCore madeL
  obtain ⟨tyconD, kindR⟩ := tycon_of_noteCore madeR
  have tyconX : tyconOf x.type = l.tycon := by rw [tyconOf_type_of_newState readL, tyconC, kindL]
  have sameTycon : r.tycon = l.tycon := by
    rw [← tyconX, sameType, tyconOf_type_of_newState readR, tyconD, kindR]
  -- one case per tycon of the left note; `TCore(offset, note)` throws on the others
  cases tyconL : l.tycon
  all_goals have tyconR := sameTycon.trans tyconL
  all_goals simp only [noteCore, tyconL, tyconR, reduceCtorEq, Option.some.injEq] at madeL madeR
  all_goals try subst madeL madeR
  case blob => exact noteCompare_blob tyconL pinnedL pinnedR readL readR
  case str => exact noteCompare_str tyconL pinnedL pinnedR readL readR
  case free => exact absurd (tyconX.trans tyconL) orderable.1
  case desc =>
    exact noteCompare_desc pinnedL pinnedR readL readR sameType soundX soundY orderable nested
      tyconL tyconR
  case opt =>
    exact noteCompare_opt pinnedL pinnedR readL readR sameType soundX soundY orderable nested
      tyconL tyconR
  case set =>
    exact noteCompare_set pinnedL pinnedR readL readR sameType soundX soundY orderable nested
      tyconL tyconR
  case vector =>
    exact noteCompare_vector pinnedL pinnedR readL readR sameType soundX soundY orderable nested
      tyconL tyconR
  case map =>
    exact noteCompare_map pinnedL pinnedR readL readR sameType soundX soundY orderable nested
      tyconL tyconR
  case record =>
    exact noteCompare_record pinnedL pinnedR readL readR sameType soundX soundY orderable nested
      tyconL tyconR (names tyconL)
  case tuple =>
    exact noteCompare_tuple pinnedL pinnedR readL readR sameType soundX soundY orderable nested
      tyconL tyconR

end NoteKinds

section Claims

variable {A s} {o₁ o₂ n m : Nat} {l r : Note} {x y : State}

theorem noteCompare_eq_orderStates (pinnedL : A.pin s o₁ = some l)
    (pinnedR : A.pin s o₂ = some r)
    (readL : (noteCore o₁ l).bind (newState A s n) = some x)
    (readR : (noteCore o₂ r).bind (newState A s m) = some y)
    (sameType : x.type = y.type) (soundX : x.Sound) (soundY : y.Sound)
    (orderable : ArenaOrderable x.type)
    (nested : ∀ c ∈ l.body.nestedCores ++ r.body.nestedCores,
      ∀ d ∈ l.body.nestedCores ++ r.body.nestedCores, OffsetsAgree A s c d)
    (names : l.tycon = .record →
      ∀ c ∈ l.body.firsts ++ r.body.firsts, copyOut A s c = strBytes A s c) :
    noteCompare A s l r = some (decide (orderStates x y = some .lt)) := by
  simp only [orderStates_eq soundX.1 ⟨rfl, soundX.2⟩ ⟨sameType.symm, soundY.2⟩,
    Option.some.injEq, TComparison.ofOrdering_eq_lt]
  exact noteCompare_eq_stateOrder pinnedL pinnedR readL readR sameType soundX soundY orderable
    nested names

/-- The bits of a quiet NaN, of `1.0` and of `1.5` as `double`s. -/
def doubleNaN : UInt64 := 0x7FF8000000000000
def doubleOne : UInt64 := 0x3FF0000000000000
def doubleOneHalf : UInt64 := 0x3FF8000000000000

/-- A tuple of a `double` and an `int8`, as its note of two scalar cores, and as a state. -/
def pairNote (d : UInt64) (i : Int8) : Note :=
  ⟨.tuple, false, .cores [⟨.double, .scalar (.double d)⟩, ⟨.int8, .scalar (.int8 i)⟩]⟩

def pairState (d : UInt64) (i : Int8) : State := .tuple [.double d, .int8 i]

/-- The tuples `(1.5, 1)` and `(1.0, 2)`: the note comparison says the first is not below
the second, as `OrderStates` does. -/
theorem noteCompare_orders_pairs :
    noteCompare (listStore Note) [pairNote doubleOneHalf 1, pairNote doubleOne 2]
        (pairNote doubleOneHalf 1) (pairNote doubleOne 2) =
      some (decide (orderStates (pairState doubleOneHalf 1) (pairState doubleOne 2) = some .lt)) := by
  have readL : (noteCore 0 (pairNote doubleOneHalf 1)).bind
      (newState (listStore Note) [pairNote doubleOneHalf 1, pairNote doubleOne 2] 2) =
        some (pairState doubleOneHalf 1) := rfl
  have readR : (noteCore 1 (pairNote doubleOne 2)).bind
      (newState (listStore Note) [pairNote doubleOneHalf 1, pairNote doubleOne 2] 2) =
        some (pairState doubleOne 2) := rfl
  have sound : ∀ d i, Ieee754.Format.binary64.isNaN d.toNat = false → (pairState d i).Sound := by
    intro d i number
    refine ⟨?_, ?_, ?_⟩
    · simp [pairState, State.type, State.types, Ty.NoEmptyRecord, Ty.listNoEmptyRecord]
    · simp [pairState, State.WellTyped, State.allWellTyped]
    · simp [pairState, State.NaNFree, State.allNaNFree, number]
  have direct : ∀ c ∈ (pairNote doubleOneHalf 1).body.nestedCores ++
      (pairNote doubleOne 2).body.nestedCores, c.tryGetOffset = none := by decide
  exact noteCompare_eq_orderStates rfl rfl readL readR rfl (sound _ _ (by decide))
    (sound _ _ (by decide)) (by decide) (fun c mem _ _ => offsetsAgree_of_direct (direct c mem))
    (by decide)

/-- A NaN as the first element of a tuple: neither `<` holds, so the note comparison goes on
to the second element and puts the NaN tuple first, where `OrderStates` has already put it
last. The two tuples are of one type, and hold no indirection to lay out. -/
theorem noteCompare_nan_element :
    (noteCore 0 (pairNote doubleNaN 1)).bind
        (newState (listStore Note) [pairNote doubleNaN 1, pairNote doubleOne 2] 2) =
      some (pairState doubleNaN 1) ∧
    (noteCore 1 (pairNote doubleOne 2)).bind
        (newState (listStore Note) [pairNote doubleNaN 1, pairNote doubleOne 2] 2) =
      some (pairState doubleOne 2) ∧
    (pairState doubleNaN 1).type = (pairState doubleOne 2).type ∧
    (∀ c ∈ (pairNote doubleNaN 1).body.nestedCores ++ (pairNote doubleOne 2).body.nestedCores,
      c.tryGetOffset = none) ∧
    noteCompare (listStore Note) [pairNote doubleNaN 1, pairNote doubleOne 2]
        (pairNote doubleNaN 1) (pairNote doubleOne 2) = some true ∧
    orderStates (pairState doubleNaN 1) (pairState doubleOne 2) = some .gt :=
  ⟨rfl, rfl, rfl, by decide, by decide, by decide +kernel⟩

end Claims

end Orly.Atom

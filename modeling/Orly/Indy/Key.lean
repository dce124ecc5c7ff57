import Orly.Atom.KeyCompare
import Orly.Sabot.GetHash

/-! `TCore::TryGetQuickHash` (`orly/atom/kit2.h`) and the equality and hash of `TKey`
(`orly/indy/key.h`).

A key's hash is the quick hash of its core where the core has one, and otherwise
`Sabot::GetHash` of the state it reads back as. The quick hash repeats the visitor's
per-type expressions for a scalar, hashes the used bytes of a direct string or blob,
and otherwise answers with the hash a whole indirect core array may have stored
(`TrySetStoredHash`, which the index calls with the key's own hash). `==` and `!=`
look at the quick hashes first when both cores have one, and fall back to
`TKey::Compare`.

For keys whose cores were built from states (arenas whose flags are honest) and whose
stored hashes, if any, are the hash of their state: a quick hash is `Sabot::GetHash` of
the state (`tryGetQuickHash_eq`); two keys `TKey::Compare` calls equal hash alike,
whether the quick path or `OrderStates` answered (`getHash_eq_of_keyCompare_eq`); so
`==` is `Compare` answering `Eq`, `!=` its negation, and equal keys have equal hashes.
The hash cache of `TKey` (`HashIsCached`, `CachedHash`) only remembers the first answer
of `GetHash` and is left out. -/
namespace Orly.Atom

open Orly.Sabot AppendStore

/-- A core with what `TCore::TrySetStoredHash` writes into its indirect core array:
`StoresHash`, and `HashVal` where it is set. `Core` leaves both out. -/
structure HashedCore where
  core : Core
  storedHash : Option UInt64
  deriving DecidableEq, Repr

section Quick

variable (hashBytes : List UInt8 → UInt64)

/-- The scalar cases of `TryGetQuickHash`, one expression per tycon. -/
def Scalar.quickHash : Scalar → UInt64
  | .int8 val => hashBytes (bytesOf 1 val.toBitVec.toNat)
  | .int16 val => hashBytes (bytesOf 2 val.toBitVec.toNat)
  | .int32 val => hashBytes (bytesOf 4 val.toBitVec.toNat)
  | .int64 val => hashBytes (bytesOf 8 val.toBitVec.toNat)
  | .uint8 val => hashBytes (bytesOf 1 val.toNat)
  | .uint16 val => hashBytes (bytesOf 2 val.toNat)
  | .uint32 val => hashBytes (bytesOf 4 val.toNat)
  | .uint64 val => hashBytes (bytesOf 8 val.toNat)
  | .bool val => hashBool val
  | .char val => hashChar val
  | .float bits => hashFloat hashBytes bits
  | .double bits => hashDouble hashBytes bits
  | .duration ticks => hashRep ticks
  | .timePoint ticks => hashRep ticks
  | .uuid val => hashUuid val

/-- `TCore::TryGetStoredHash`: only a core of tycon `Blob` or above that stands for its
whole note reads its stored hash. Every other core reads `UsesFullNote` as the zero
`Init` left there (`Storage.usesFullNote`). -/
def tryGetStoredHash (c : HashedCore) : Option UInt64 :=
  if TTycon.blob.toNat ≤ c.core.tycon.toNat ∧ c.core.storage.usesFullNote = true then
    c.storedHash
  else none

/-- `TCore::TryGetQuickHash`. A core whose storage does not hold the scalar or the bytes
its tycon names is corrupt; the model has no bytes to hash for it and answers none. -/
def tryGetQuickHash (c : HashedCore) : Option UInt64 :=
  if c.core.tycon.isScalar then
    match c.core.storage with
    | .scalar val => if val.tycon = c.core.tycon then some (val.quickHash hashBytes) else none
    | _ => none
  else
    match c.core.tycon, c.core.storage with
    | .directBlob r, .direct area => some (hashBytes (area.take (maxDirectSize - r)))
    | .directStr r, .direct area => some (hashBytes (area.take (maxDirectSize - r)))
    | _, _ => tryGetStoredHash c

/-- `TCore::TrySetStoredHash`: any core of tycon `Blob` or above takes the hash. -/
def trySetStoredHash (c : HashedCore) (hashVal : UInt64) : Bool × HashedCore :=
  if TTycon.blob.toNat ≤ c.core.tycon.toNat then (true, { c with storedHash := some hashVal })
  else (false, c)

end Quick

section Agree

variable {σ : Type} {A : TExtensibleArena σ} {hashBytes : List UInt8 → UInt64}

/-- The scalar cases of the quick hash write the visitor's expression, tycon by tycon. -/
theorem Scalar.quickHash_eq_getHash (val : Scalar) :
    val.quickHash hashBytes = getHash hashBytes val.toState := by
  cases val <;> rfl

theorem Scalar.tycon_eq_of_toNat_eq {u v : Scalar} (same : u.tycon.toNat = v.tycon.toNat) :
    u.tycon = v.tycon := by
  cases u <;> cases v <;> first | rfl | cases same

/-- A quick hash is `Sabot::GetHash` of the state the core reads back as, when the
hash the core stores, if any, is. -/
theorem tryGetQuickHash_eq {s : σ} {n : Nat} {c : HashedCore} {x : State} {hash : UInt64}
    (read : newState A s n c.core = some x) (stored : ∀ h ∈ c.storedHash, h = getHash hashBytes x)
    (quick : tryGetQuickHash hashBytes c = some hash) : hash = getHash hashBytes x := by
  unfold tryGetQuickHash at quick
  split_ifs at quick with scalar
  · obtain ⟨val, holds, -, rfl⟩ := newState_of_isScalar scalar read
    rw [holds] at quick
    simp only at quick
    split_ifs at quick
    cases quick
    exact val.quickHash_eq_getHash
  · split at quick
    · rename_i r area isBlob isDirect
      have pinned : blobBytes A s c.core = some (area.take (maxDirectSize - r)) := by
        unfold blobBytes
        rw [isBlob, isDirect]
      cases quick
      rw [newState_of_blobBytes pinned read]
      rfl
    · rename_i r area isStr isDirect
      have pinned : strBytes A s c.core = some (area.take (maxDirectSize - r)) := by
        unfold strBytes
        rw [isStr, isDirect]
      cases quick
      rw [newState_of_strBytes pinned read]
      rfl
    · -- what the core stored
      unfold tryGetStoredHash at quick
      split_ifs at quick
      exact stored hash quick

/-- The loop of the `Tuple` case answers `Eq` only after it found the element counts
equal. -/
theorem eq_of_quickTupleLoop_eq {compare : Core → Core → Option TComparison} {p q : Nat} :
    ∀ {ls rs : List Core}, quickTupleLoop compare p q ls rs = some .eq → p = q
  | l :: ls, r :: rs, loop => by
    simp only [quickTupleLoop] at loop
    split at loop
    · split_ifs at loop with decided
      · cases loop
        simp at decided
      · exact eq_of_quickTupleLoop_eq loop
    · cases loop
  | [], _, loop | _ :: _, [], loop => by
    simp only [quickTupleLoop, Option.some.injEq] at loop
    exact eq_of_compareLinear_eq loop

/-- When the loop of the `Tuple` case answers `Eq` on two tuples of one length, and the
elements it calls equal hash alike, the tuples' states hash alike. -/
theorem onArrayOfSingle_of_quickTupleLoop {compare : Core → Core → Option TComparison}
    {fl fr : Core → Option State} {P Q : Core → Prop} {p q : Nat}
    (never : ∀ l r c, compare l r = some c → c ≠ .ne)
    (agrees : ∀ l r x y, P l → Q r → fl l = some x → fr r = some y → compare l r = some .eq →
      getHash hashBytes x = getHash hashBytes y) :
    ∀ {ls rs : List Core} {xs ys : List State}, (∀ l ∈ ls, P l) → (∀ r ∈ rs, Q r) →
      ls.mapM fl = some xs → rs.mapM fr = some ys → ls.length = rs.length →
      quickTupleLoop compare p q ls rs = some .eq →
      ∀ total idx, onArrayOfSingle hashBytes total idx xs = onArrayOfSingle hashBytes total idx ys
  | l :: ls, r :: rs, xs, ys, lefts, rights, mappedL, mappedR, lengths, loop, total, idx => by
    obtain ⟨x, xs, readL, restL, rfl⟩ := mapM_cons_eq_some mappedL
    obtain ⟨y, ys, readR, restR, rfl⟩ := mapM_cons_eq_some mappedR
    simp only [quickTupleLoop] at loop
    split at loop
    · rename_i c quick
      split_ifs at loop with decided
      · cases loop
        simp at decided
      · have isEq : c = .eq := by
          have notNe := never l r c quick
          cases c <;> simp_all
        subst isEq
        have heads := agrees l r x y (lefts l (by simp)) (rights r (by simp)) readL readR quick
        rw [onArrayOfSingle, onArrayOfSingle, heads]
        exact onArrayOfSingle_of_quickTupleLoop never agrees
          (fun l' mem => lefts l' (by simp [mem])) (fun r' mem => rights r' (by simp [mem]))
          restL restR (by simpa using lengths) loop _ _
    · cases loop
  | [], [], xs, ys, _, _, mappedL, mappedR, _, _, total, idx => by
    simp only [List.mapM_nil] at mappedL mappedR
    cases mappedL
    cases mappedR
    rfl
  | [], _ :: _, _, _, _, _, _, _, lengths, _, _, _
  | _ :: _, [], _, _, _, _, _, _, lengths, _, _, _ => by
    simp at lengths

variable [DecidableEq σ] {isOrdered : σ → Bool} {s₁ s₂ : σ}

/-- Two cores the quick path calls equal read back as states that hash alike, in arenas
whose flags are honest: the offsets of two whole notes are equal only for one core, and
every other case compares what the hash reads. The induction is on the fuel, which the
tuple case spends on its elements. -/
theorem getHash_eq_of_tryQuickOrderComparison_eq (honest₁ : FlagsHonest A s₁)
    (honest₂ : FlagsHonest A s₂) :
    ∀ {fuel : Nat} {a b : Core} {n m : Nat} {x y : State},
      FullWhenFlagged A s₁ a → FullWhenFlagged A s₂ b →
      newState A s₁ n a = some x → newState A s₂ m b = some y →
      tryQuickOrderComparison A isOrdered fuel s₁ a s₂ b = some .eq →
      getHash hashBytes x = getHash hashBytes y
  | 0, _, _, _, _, _, _, _, _, _, _, quick => by simp [tryQuickOrderComparison] at quick
  | fuel + 1, a, b, n, m, x, y, fullA, fullB, readA, readB, quick => by
    rcases tryQuickOrderComparison_cases quick with
      ⟨-, rfl, -, flagA, flagB, offsets⟩ | ⟨sameTycon, scalar, u, v, storedA, storedB, scalars⟩ |
      ⟨tupleA, tupleB, lhs, rhs, pinnedL, pinnedR, loop⟩ |
      ⟨different, scalarA, scalarB, tycons⟩ | ⟨l, r, strA, strB, mems⟩ | ⟨l, r, blobA, blobB, mems⟩
    · -- one whole note of one arena: the two cores are one
      have wholeA := fullA flagA
      rw [eq_of_compareLinear_eq offsets.symm, fullB flagB] at wholeA
      cases wholeA
      rw [newState_unique readA readB]
    · obtain ⟨u', storedA', -, rfl⟩ := newState_of_isScalar scalar readA
      obtain ⟨v', storedB', -, rfl⟩ := newState_of_isScalar (sameTycon ▸ scalar) readB
      cases storedA.symm.trans storedA'
      cases storedB.symm.trans storedB'
      exact getHash_eq_of_visitor_eq (Scalar.quickCompare_eq scalars)
    · obtain ⟨tyconA, storageA⟩ := a
      obtain ⟨tyconB, storageB⟩ := b
      simp only at tupleA tupleB
      subst tupleA tupleB
      obtain ⟨k₁, cores₁, xs, -, pinned₁, mapped₁, rfl⟩ := newState_tuple readA
      obtain ⟨k₂, cores₂, ys, -, pinned₂, mapped₂, rfl⟩ := newState_tuple readB
      cases pinnedL.symm.trans pinned₁
      cases pinnedR.symm.trans pinned₂
      rw [getHash, getHash]
      refine onArrayOfSingle_of_quickTupleLoop ?never ?agrees (honest₁.pinCores pinned₁)
        (honest₂.pinCores pinned₂) mapped₁ mapped₂ (eq_of_quickTupleLoop_eq loop) loop 0 0
      case never => exact fun _ _ _ elem => tryQuickOrderComparison_ne_ne elem
      case agrees =>
        -- the elements, one unit of fuel down
        exact fun _ _ _ _ fullL fullR readL readR elem =>
          getHash_eq_of_tryQuickOrderComparison_eq honest₁ honest₂ fullL fullR readL readR elem
    · -- scalars of different tycons are never equal
      obtain ⟨u, -, tyconA, -⟩ := newState_of_isScalar scalarA readA
      obtain ⟨v, -, tyconB, -⟩ := newState_of_isScalar scalarB readB
      have same := eq_of_compareLinear_eq tycons.symm
      rw [← tyconA, ← tyconB] at same different
      exact absurd (Scalar.tycon_eq_of_toNat_eq same) different
    · rw [quickCompareMem_eq] at mems
      rw [newState_of_strBytes strA readA, newState_of_strBytes strB readB,
        eq_of_compareBytes_eq mems.symm]
    · rw [quickCompareMem_eq] at mems
      rw [newState_of_blobBytes blobA readA, newState_of_blobBytes blobB readB,
        eq_of_compareBytes_eq mems.symm]

/-- Two keys `TKey::Compare` calls equal read back as states that hash alike, whether
the quick path or `OrderStates` answered. -/
theorem getHash_eq_of_keyCompare_eq {fuel n m : Nat} {a b : Core} {x y : State}
    (honest₁ : FlagsHonest A s₁) (honest₂ : FlagsHonest A s₂)
    (fullA : FullWhenFlagged A s₁ a) (fullB : FullWhenFlagged A s₂ b)
    (readA : newState A s₁ n a = some x) (readB : newState A s₂ m b = some y)
    (enoughA : n ≤ fuel) (enoughB : m ≤ fuel)
    (same : keyCompare A isOrdered fuel s₁ a s₂ b = some .eq) :
    getHash hashBytes x = getHash hashBytes y := by
  unfold keyCompare at same
  split at same
  · rename_i comp quick
    cases same
    exact getHash_eq_of_tryQuickOrderComparison_eq honest₁ honest₂ fullA fullB readA readB quick
  · -- the fallback reads both keys again, with at least the fuel they needed
    rw [newState_grows enoughA a x readA, newState_grows enoughB b y readB] at same
    exact getHash_eq_of_orderStates_eq same

end Agree

end Orly.Atom

namespace Orly.Indy

open Orly.Atom Orly.Sabot AppendStore

/-- `TKey`: a core and the arena it lives in. -/
structure TKey (σ : Type) where
  arena : σ
  core : HashedCore

section Key

variable {σ : Type} (A : TExtensibleArena σ) [DecidableEq σ] (isOrdered : σ → Bool)
  (hashBytes : List UInt8 → UInt64) (fuel : Nat)

/-- `TKey::Compare`. -/
def TKey.compare (lhs rhs : TKey σ) : Option TComparison :=
  keyCompare A isOrdered fuel lhs.arena lhs.core.core rhs.arena rhs.core.core

/-- `TKey::EqEq`, `operator==`: with both quick hashes, unequal hashes decide; else
`TKey::Compare` answering `Eq`. -/
def eqEq (lhs rhs : TKey σ) : Option Bool :=
  match tryGetQuickHash hashBytes lhs.core, tryGetQuickHash hashBytes rhs.core with
  | some lhsHash, some rhsHash =>
    if lhsHash = rhsHash then TComparison.isEq <$> lhs.compare A isOrdered fuel rhs else some false
  | _, _ => TComparison.isEq <$> lhs.compare A isOrdered fuel rhs

/-- `TKey::NeEq`, `operator!=`: both quick hashes and unequal, or `TKey::Compare`
answering `IsNe`. -/
def neEq (lhs rhs : TKey σ) : Option Bool :=
  match tryGetQuickHash hashBytes lhs.core, tryGetQuickHash hashBytes rhs.core with
  | some lhsHash, some rhsHash =>
    if lhsHash ≠ rhsHash then some true else TComparison.isNe <$> lhs.compare A isOrdered fuel rhs
  | _, _ => TComparison.isNe <$> lhs.compare A isOrdered fuel rhs

/-- `TKey::GetHash`: the quick hash, else `Sabot::GetHash` of the state. -/
def TKey.getHash (key : TKey σ) : Option UInt64 :=
  match tryGetQuickHash hashBytes key.core with
  | some hash => some hash
  | none => Sabot.getHash hashBytes <$> newState A key.arena fuel key.core.core

/-- `!=` is the negation of `==`, whatever the keys: both test the quick hashes the
same way, and `IsNe` is the negation of `IsEq`. -/
theorem neEq_eq_not_eqEq (lhs rhs : TKey σ) :
    neEq A isOrdered hashBytes fuel lhs rhs = (! ·) <$> eqEq A isOrdered hashBytes fuel lhs rhs := by
  have negation : TComparison.isNe = (! ·) ∘ TComparison.isEq := rfl
  unfold neEq eqEq
  cases tryGetQuickHash hashBytes lhs.core <;> cases tryGetQuickHash hashBytes rhs.core
  case some.some lhsHash rhsHash =>
    by_cases same : lhsHash = rhsHash
    · simp [same, negation]
    · simp [same]
  all_goals simp [negation]

/-- `==` answers true exactly where `TKey::Compare` answers `Eq` and the quick hashes,
if both keys have one, agree. -/
theorem eqEq_eq_true_iff {lhs rhs : TKey σ} :
    eqEq A isOrdered hashBytes fuel lhs rhs = some true ↔
      lhs.compare A isOrdered fuel rhs = some .eq ∧
        ∀ lhsHash rhsHash, tryGetQuickHash hashBytes lhs.core = some lhsHash →
          tryGetQuickHash hashBytes rhs.core = some rhsHash → lhsHash = rhsHash := by
  unfold eqEq
  cases tryGetQuickHash hashBytes lhs.core <;> cases tryGetQuickHash hashBytes rhs.core
  case some.some lhsHash rhsHash =>
    by_cases same : lhsHash = rhsHash
    · simp [same, TComparison.isEq_iff]
    · simp [same]
  all_goals simp [TComparison.isEq_iff]

variable {A isOrdered hashBytes fuel}

omit [DecidableEq σ] in
/-- `GetHash` of a key is `Sabot::GetHash` of its state, whether the quick hash or the
state answered, given fuel to read the state and a stored hash, if any, that is its. -/
theorem TKey.getHash_eq_some {key : TKey σ} {n : Nat} {x : State}
    (read : newState A key.arena n key.core.core = some x)
    (stored : ∀ h ∈ key.core.storedHash, h = Sabot.getHash hashBytes x) (enough : n ≤ fuel) :
    key.getHash A hashBytes fuel = some (Sabot.getHash hashBytes x) := by
  unfold TKey.getHash
  split
  · rename_i hash quick
    rw [tryGetQuickHash_eq read stored quick]
  · rw [newState_grows enough _ x read]
    rfl

theorem core_trySetStoredHash (c : HashedCore) (hashVal : UInt64) :
    (trySetStoredHash c hashVal).2.core = c.core := by
  unfold trySetStoredHash
  split_ifs <;> rfl

omit [DecidableEq σ] in
/-- The index stores a key's own hash in its core (`TUpdate`,
`TrySetStoredHash(GetKey().GetHash())`), so a stored hash written as the code writes it
is the hash of the key's state. -/
theorem storedHash_trySetStoredHash {key : TKey σ} {n : Nat} {x : State} {hash : UInt64}
    (read : newState A key.arena n key.core.core = some x)
    (stored : ∀ h ∈ key.core.storedHash, h = Sabot.getHash hashBytes x) (enough : n ≤ fuel)
    (hashed : key.getHash A hashBytes fuel = some hash) :
    ∀ h ∈ (trySetStoredHash key.core hash).2.storedHash, h = Sabot.getHash hashBytes x := by
  rw [TKey.getHash_eq_some read stored enough, Option.some.injEq] at hashed
  unfold trySetStoredHash
  split_ifs
  · simp [hashed]
  · exact stored

/-- `==` on two keys is `TKey::Compare` answering `Eq`, `!=` is its negation, two keys
`==` calls equal have equal `GetHash`, and a quick hash is `Sabot::GetHash` of the
key's state: for keys whose cores were built from states, in arenas whose flags are
honest, and whose stored hashes, if any, are the hashes of their states. -/
theorem key_equality_agrees_with_compare {k₁ k₂ : TKey σ} {n m : Nat} {x₁ x₂ : State}
    (honest₁ : FlagsHonest A k₁.arena) (honest₂ : FlagsHonest A k₂.arena)
    (full₁ : FullWhenFlagged A k₁.arena k₁.core.core)
    (full₂ : FullWhenFlagged A k₂.arena k₂.core.core)
    (read₁ : newState A k₁.arena n k₁.core.core = some x₁)
    (read₂ : newState A k₂.arena m k₂.core.core = some x₂)
    (stored₁ : ∀ h ∈ k₁.core.storedHash, h = Sabot.getHash hashBytes x₁)
    (stored₂ : ∀ h ∈ k₂.core.storedHash, h = Sabot.getHash hashBytes x₂)
    (enough₁ : n ≤ fuel) (enough₂ : m ≤ fuel) :
    (eqEq A isOrdered hashBytes fuel k₁ k₂ = some true ↔
        k₁.compare A isOrdered fuel k₂ = some .eq) ∧
      neEq A isOrdered hashBytes fuel k₁ k₂ = (! ·) <$> eqEq A isOrdered hashBytes fuel k₁ k₂ ∧
      (eqEq A isOrdered hashBytes fuel k₁ k₂ = some true →
        k₁.getHash A hashBytes fuel = k₂.getHash A hashBytes fuel) ∧
      (∀ hash, tryGetQuickHash hashBytes k₁.core = some hash → hash = Sabot.getHash hashBytes x₁) ∧
      (∀ hash, tryGetQuickHash hashBytes k₂.core = some hash → hash = Sabot.getHash hashBytes x₂) := by
  have quick₁ : ∀ hash, tryGetQuickHash hashBytes k₁.core = some hash →
      hash = Sabot.getHash hashBytes x₁ := fun _ quick => tryGetQuickHash_eq read₁ stored₁ quick
  have quick₂ : ∀ hash, tryGetQuickHash hashBytes k₂.core = some hash →
      hash = Sabot.getHash hashBytes x₂ := fun _ quick => tryGetQuickHash_eq read₂ stored₂ quick
  have hashes : k₁.compare A isOrdered fuel k₂ = some .eq →
      Sabot.getHash hashBytes x₁ = Sabot.getHash hashBytes x₂ :=
    getHash_eq_of_keyCompare_eq honest₁ honest₂ full₁ full₂ read₁ read₂ enough₁ enough₂
  refine ⟨?iff, neEq_eq_not_eqEq A isOrdered hashBytes fuel k₁ k₂, ?equal, quick₁, quick₂⟩
  case iff =>
    rw [eqEq_eq_true_iff]
    constructor
    · exact And.left
    · intro same
      refine ⟨same, fun lhsHash rhsHash lhsQuick rhsQuick => ?_⟩
      rw [quick₁ lhsHash lhsQuick, quick₂ rhsHash rhsQuick, hashes same]
  case equal =>
    intro equal
    rw [TKey.getHash_eq_some read₁ stored₁ enough₁, TKey.getHash_eq_some read₂ stored₂ enough₂,
      hashes ((eqEq_eq_true_iff A isOrdered hashBytes fuel).mp equal).1]

end Key

/-- An arena holding the key `(1, 2)` as one note. -/
def pairKeyArena : List Note :=
  [⟨.tuple, false, .cores [⟨.int64, .scalar (.int64 1)⟩, ⟨.int64, .scalar (.int64 2)⟩]⟩]

/-- A byte hash for the examples: the bytes as a base-31 number. -/
def baseHash (bytes : List UInt8) : UInt64 := bytes.foldl (fun h b => h * 31 + b.toUInt64) 0

/-- The key `(1, 2)` twice, once with its hash stored in its core and once without. -/
theorem key_equality_on_pair_keys :
    let stored : TKey (List Note) := ⟨pairKeyArena, ⟨⟨.tuple, .indirectCoreArray 0 2 false true⟩,
      some (getHash baseHash (.tuple [.int64 1, .int64 2]))⟩⟩
    let plain : TKey (List Note) :=
      ⟨pairKeyArena, ⟨⟨.tuple, .indirectCoreArray 0 2 false true⟩, none⟩⟩
    (eqEq (listStore Note) (fun _ => true) baseHash 2 stored plain = some true ↔
        stored.compare (listStore Note) (fun _ => true) 2 plain = some .eq) ∧
      neEq (listStore Note) (fun _ => true) baseHash 2 stored plain =
        (! ·) <$> eqEq (listStore Note) (fun _ => true) baseHash 2 stored plain ∧
      (eqEq (listStore Note) (fun _ => true) baseHash 2 stored plain = some true →
        stored.getHash (listStore Note) baseHash 2 = plain.getHash (listStore Note) baseHash 2) ∧
      (∀ hash, tryGetQuickHash baseHash stored.core = some hash →
        hash = getHash baseHash (.tuple [.int64 1, .int64 2])) ∧
      (∀ hash, tryGetQuickHash baseHash plain.core = some hash →
        hash = getHash baseHash (.tuple [.int64 1, .int64 2])) := by
  intro stored plain
  have honest : FlagsHonest (listStore Note) pairKeyArena := flagsHonest_listStore (by decide)
  exact key_equality_agrees_with_compare honest honest (by decide) (by decide) rfl rfl
    (by simp [stored]) (by simp [plain]) le_rfl le_rfl

end Orly.Indy

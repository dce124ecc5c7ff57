import Orly.Atom.QuickCompare
import Orly.Sabot.TypeOrderLaws

/-! When `TKey::Compare` is `OrderStates`.

The quick path of `TCore::TryQuickOrderComparison` never builds a state, and it never
compares types: two scalars of one tycon are compared as values, two tuples element by
element, and two whole notes of one ordered arena by offset. So it can agree with
`OrderStates` only where the types agree, and where the arena keeps its promises.

Those promises are two properties of the arena's states, stated here over the decoder:
a core that says it uses its full note does (`FlagsHonest`, as `TCore(offset, note)`,
`InitIndirectCoreArray` and `TryTruncateTuple` keep the flag), and in an ordered arena
the offsets of whole notes are in the order of the states they read back as
(`OffsetsOrdered`). Under them, and for two cores that read back as states of one type,
the quick path answers only with the order of the states, and so `TKey::Compare` is
`OrderStates` once it has the fuel to read both keys.

Without the common type the quick path is wrong: a key's prefixes, cut by
`TryTruncateTuple`, can hold elements of different types that are whole notes of an
ordered arena, and their offsets then order what `OrderStates` calls equal. -/
namespace Orly.Atom

open Orly.Sabot AppendStore

theorem orderStates_eq_visitor {x y : State} (same : x.type = y.type)
    (noEmpty : x.type.NoEmptyRecord) : orderStates x y = orderStatesVisitor x y .eq := by
  have sameType : orderTypes x.type y.type = some .eq := by
    rw [← same]
    exact orderTypes_orderLaws.refl noEmpty
  simp only [orderStates, sameType]

section Values

/-- The quick comparison of two scalars is the visitor's: both use the value type's
`==` and `<`. -/
theorem Scalar.quickCompare_eq {u v : Scalar} {comp : TComparison}
    (quick : u.quickCompare v = some comp) :
    orderStatesVisitor u.toState v.toState .eq = some comp := by
  cases u <;> cases v <;> simp only [Scalar.quickCompare, reduceCtorEq] at quick <;>
    (cases quick; rfl)

theorem Scalar.quickCompare_ne_ne {u v : Scalar} {comp : TComparison}
    (quick : u.quickCompare v = some comp) : comp ≠ .ne := by
  cases u <;> cases v <;> simp only [Scalar.quickCompare, reduceCtorEq, Option.some.injEq] at quick <;>
    (subst quick; exact compareBy_ne_ne _ _ _ _)

theorem Scalar.tyconOf_type (u : Scalar) : tyconOf u.toState.type = u.tycon := by
  cases u <;> rfl

theorem compareLinear_succ (a b : Nat) : compareLinear (a + 1) (b + 1) = compareLinear a b := by
  simp [compareLinear, compareBy]

theorem quickCompareMem_cons (a b : UInt8) (as bs : List UInt8) :
    quickCompareMem (a :: as) (b :: bs) =
      if a = b then quickCompareMem as bs else if a < b then .lt else .gt := by
  simp only [quickCompareMem, List.length_cons, Nat.add_min_add_right, List.take_succ_cons, memcmp]
  by_cases same : a = b
  · simp [same, compareLinear_succ]
  · by_cases below : a < b <;> simp [same, below]

/-- `memcmp` of the common length, then the lengths, is the visitor's order of bytes. -/
theorem quickCompareMem_eq : ∀ lhs rhs : List UInt8, quickCompareMem lhs rhs = compareBytes lhs rhs
  | a :: as, b :: bs => by
    rw [quickCompareMem_cons, quickCompareMem_eq as bs, compareBytes]
  | [], rhs => by simp [quickCompareMem, memcmp, compareBytes]
  | a :: as, [] => by simp [quickCompareMem, memcmp, compareBytes]

theorem quickCompareMem_ne_ne (lhs rhs : List UInt8) : quickCompareMem lhs rhs ≠ .ne := by
  unfold quickCompareMem
  split
  · exact compareBy_ne_ne _ _ _ _
  · simp
  · simp

theorem length_eq_of_types_eq :
    ∀ {xs ys : List State}, State.types xs = State.types ys → xs.length = ys.length
  | [], [], _ => rfl
  | _ :: _, _ :: _, same => by
    simp only [State.types, List.cons.injEq] at same
    simp [length_eq_of_types_eq same.2]
  | [], _ :: _, same | _ :: _, [], same => by simp [State.types] at same

end Values

variable {σ : Type} {A : TExtensibleArena σ} {s : σ} {n : Nat} {c : Core} {x : State}

section Reads

theorem exists_succ_of_newState (read : newState A s n c = some x) : ∃ k, n = k + 1 := by
  cases n with
  | zero => simp [newState] at read
  | succ k => exact ⟨k, rfl⟩

/-- A scalar core reads back as the scalar its storage holds. -/
theorem newState_of_isScalar (scalar : c.tycon.isScalar = true) (read : newState A s n c = some x) :
    ∃ v, c.storage = .scalar v ∧ v.tycon = c.tycon ∧ x = v.toState := by
  obtain ⟨k, rfl⟩ := exists_succ_of_newState read
  obtain ⟨tycon, storage⟩ := c
  cases tycon
  case directStr r | directBlob r =>
    -- the direct tycons lie below `Int8`
    have small := r.isLt
    simp only [TTycon.isScalar, TTycon.toNat, Bool.and_eq_true] at scalar
    have atLeast := of_decide_eq_true scalar.1
    omega
  all_goals simp [TTycon.isScalar, TTycon.toNat] at scalar
  all_goals
    cases storage <;> simp [newState] at read ⊢
    exact ⟨read.1, read.2.symm⟩

/-- The bytes the quick path reads from a string core are the string `NewState` reads. -/
theorem newState_of_strBytes {bytes : List UInt8} (pinned : strBytes A s c = some bytes)
    (read : newState A s n c = some x) : x = .str bytes := by
  obtain ⟨k, rfl⟩ := exists_succ_of_newState read
  obtain ⟨tycon, storage⟩ := c
  cases tycon <;> simp [strBytes] at pinned
  case str =>
    obtain ⟨raw, pinnedRaw, rfl⟩ := pinned
    simp [newState, pinnedRaw] at read
    exact read.symm
  case directStr r =>
    cases storage <;> simp at pinned
    simp [newState] at read
    rw [← read, pinned]

/-- The bytes the quick path reads from a blob core are the blob `NewState` reads. -/
theorem newState_of_blobBytes {bytes : List UInt8} (pinned : blobBytes A s c = some bytes)
    (read : newState A s n c = some x) : x = .blob bytes := by
  obtain ⟨k, rfl⟩ := exists_succ_of_newState read
  obtain ⟨tycon, storage⟩ := c
  cases tycon <;> simp [blobBytes] at pinned
  case blob =>
    simp [newState, pinned] at read
    exact read.symm
  case directBlob r =>
    cases storage <;> simp at pinned
    simp [newState] at read
    rw [← read, pinned]

/-- A tuple core reads back as the states of the cores it pins. -/
theorem newState_tuple {storage : Storage} (read : newState A s n ⟨.tuple, storage⟩ = some x) :
    ∃ k cores xs, n = k + 1 ∧ pinCores A s storage = some cores ∧
      cores.mapM (newState A s k) = some xs ∧ x = .tuple xs := by
  obtain ⟨k, rfl⟩ := exists_succ_of_newState read
  simp only [newState, bind_pure_comp] at read
  obtain ⟨cores, pinned, decoded⟩ := Option.bind_eq_some_iff.mp read
  obtain ⟨xs, mapped, rfl⟩ := Option.map_eq_some_iff.mp decoded
  exact ⟨k, cores, xs, rfl, pinned, mapped, rfl⟩

end Reads

section Arena

variable (A)

/-- The core that stands for the whole note at `offset`, as `TCore(offset, note)` and
`InitIndirectCoreArray` leave it. -/
def fullCore (offset : Nat) (note : Note) : Core :=
  ⟨note.tycon, .indirectCoreArray offset note.body.size note.isExemplar true⟩

/-- A core that says it uses its full note does. -/
def FullWhenFlagged (s : σ) (core : Core) : Prop :=
  core.storage.usesFullNote = true →
    (A.pin s core.storage.offset).map (fullCore core.storage.offset) = some core

instance (s : σ) (core : Core) : Decidable (FullWhenFlagged A s core) := by
  unfold FullWhenFlagged
  infer_instance

/-- Every core kept in a note of the arena says truly whether it uses its full note. -/
def FlagsHonest (s : σ) : Prop :=
  ∀ offset tycon isExemplar cores, A.pin s offset = some ⟨tycon, isExemplar, .cores cores⟩ →
    ∀ core ∈ cores, FullWhenFlagged A s core

/-- What an ordered arena promises: the offsets of its notes are in the order of the
states their whole cores read back as. -/
def OffsetsOrdered (s : σ) : Prop :=
  ∀ o₁ o₂ n₁ n₂ k₁ k₂ x₁ x₂, A.pin s o₁ = some n₁ → A.pin s o₂ = some n₂ →
    newState A s k₁ (fullCore o₁ n₁) = some x₁ → newState A s k₂ (fullCore o₂ n₂) = some x₂ →
    orderStates x₁ x₂ = some (.ofOrdering (compare o₁ o₂))

/-- The cores of a note of cores, the notes the quick path descends into. -/
def Body.coreList : Body → List Core
  | .cores elems => elems
  | _ => []

variable {A}

/-- A truncated tuple no longer claims its full note. -/
theorem fullWhenFlagged_of_tryTruncateTuple {core truncated : Core}
    (truncate : tryTruncateTuple core = some truncated) : FullWhenFlagged A s truncated := by
  intro flagged
  unfold tryTruncateTuple at truncate
  split at truncate
  · split_ifs at truncate
    cases truncate
    simp [Storage.usesFullNote] at flagged
  · cases truncate

theorem FlagsHonest.pinCores {storage : Storage} {cores : List Core} (honest : FlagsHonest A s)
    (pinned : pinCores A s storage = some cores) : ∀ core ∈ cores, FullWhenFlagged A s core := by
  intro core mem
  cases storage with
  | indirectCoreArray offset elemCount isExemplar usesFullNote =>
    simp only [Orly.Atom.pinCores] at pinned
    split at pinned
    · rename_i tycon isEx all read
      split_ifs at pinned
      cases pinned
      exact honest offset tycon isEx all read core (List.mem_of_mem_take mem)
    · cases pinned
  | _ => simp [Orly.Atom.pinCores] at pinned

/-- The flags of a list arena are honest when those of each of its notes are. -/
theorem flagsHonest_listStore {arena : List Note}
    (honest : ∀ note ∈ arena, ∀ core ∈ note.body.coreList, FullWhenFlagged (listStore Note) arena core) :
    FlagsHonest (listStore Note) arena := by
  intro offset tycon isExemplar cores pinned core mem
  exact honest _ (List.mem_of_getElem? pinned) core mem

/-- The offsets of a list arena are ordered when the states its whole notes read back
as are, position by position. -/
theorem offsetsOrdered_listStore {arena : List Note} (states : List State) (fuel : Nat)
    (lengths : states.length = arena.length)
    (reads : ∀ o (inBounds : o < arena.length),
      newState (listStore Note) arena fuel (fullCore o arena[o]) = states[o]?)
    (sorted : ∀ i (left : i < states.length) j (right : j < states.length),
      orderStates states[i] states[j] = some (.ofOrdering (compare i j))) :
    OffsetsOrdered (listStore Note) arena := by
  intro o₁ o₂ n₁ n₂ k₁ k₂ x₁ x₂ pin₁ pin₂ read₁ read₂
  obtain ⟨in₁, rfl⟩ := List.getElem?_eq_some_iff.mp pin₁
  obtain ⟨in₂, rfl⟩ := List.getElem?_eq_some_iff.mp pin₂
  have pos₁ : o₁ < states.length := lengths ▸ in₁
  have pos₂ : o₂ < states.length := lengths ▸ in₂
  have decoded₁ := reads o₁ in₁
  have decoded₂ := reads o₂ in₂
  rw [List.getElem?_eq_getElem pos₁] at decoded₁
  rw [List.getElem?_eq_getElem pos₂] at decoded₂
  rw [newState_unique read₁ decoded₁, newState_unique read₂ decoded₂]
  exact sorted o₁ pos₁ o₂ pos₂

end Arena

section Quick

variable [DecidableEq σ] {isOrdered : σ → Bool} {fuel : Nat} {s₁ s₂ : σ} {a b : Core}
  {comp : TComparison}

/-- What one call of the quick path can answer, case by case as the code tries them. -/
theorem tryQuickOrderComparison_cases
    (quick : tryQuickOrderComparison A isOrdered (fuel + 1) s₁ a s₂ b = some comp) :
    (a.tycon = b.tycon ∧ s₁ = s₂ ∧ isOrdered s₁ = true ∧ a.storage.usesFullNote = true ∧
        b.storage.usesFullNote = true ∧ comp = compareLinear a.storage.offset b.storage.offset) ∨
      (a.tycon = b.tycon ∧ a.tycon.isScalar = true ∧ ∃ u v, a.storage = .scalar u ∧
        b.storage = .scalar v ∧ u.quickCompare v = some comp) ∨
      (a.tycon = .tuple ∧ b.tycon = .tuple ∧ ∃ lhs rhs, pinCores A s₁ a.storage = some lhs ∧
        pinCores A s₂ b.storage = some rhs ∧
        quickTupleLoop (fun l r => tryQuickOrderComparison A isOrdered fuel s₁ l s₂ r)
          lhs.length rhs.length lhs rhs = some comp) ∨
      (a.tycon ≠ b.tycon ∧ a.tycon.isScalar = true ∧ b.tycon.isScalar = true ∧
        comp = compareLinear a.tycon.toNat b.tycon.toNat) ∨
      (∃ l r, strBytes A s₁ a = some l ∧ strBytes A s₂ b = some r ∧ comp = quickCompareMem l r) ∨
      (∃ l r, blobBytes A s₁ a = some l ∧ blobBytes A s₂ b = some r ∧
        comp = quickCompareMem l r) := by
  simp only [tryQuickOrderComparison] at quick
  split_ifs at quick with offsets scalars tuples kinds
  · exact .inl ⟨offsets.1, offsets.2.2.1, offsets.2.2.2.1, offsets.2.2.2.2.1, offsets.2.2.2.2.2,
      (Option.some.inj quick).symm⟩
  · split at quick
    · exact .inr (.inl ⟨scalars.1, scalars.2, _, _, ‹_›, ‹_›, quick⟩)
    · cases quick
  · obtain ⟨lhs, pinnedL, rest⟩ := Option.bind_eq_some_iff.mp quick
    obtain ⟨rhs, pinnedR, loop⟩ := Option.bind_eq_some_iff.mp rest
    exact .inr (.inr (.inl ⟨tuples.1, tuples.2, lhs, rhs, pinnedL, pinnedR, loop⟩))
  · -- the scalar case before it did not apply, so the tycons differ
    have different : a.tycon ≠ b.tycon := fun same => scalars ⟨same, kinds.1⟩
    exact .inr (.inr (.inr (.inl ⟨different, kinds.1, kinds.2, (Option.some.inj quick).symm⟩)))
  · split at quick
    · exact .inr (.inr (.inr (.inr (.inl ⟨_, _, ‹_›, ‹_›, (Option.some.inj quick).symm⟩))))
    · split at quick
      · exact .inr (.inr (.inr (.inr (.inr ⟨_, _, ‹_›, ‹_›, (Option.some.inj quick).symm⟩))))
      · cases quick

theorem quickTupleLoop_ne_ne {compare : Core → Core → Option TComparison} {p q : Nat}
    (never : ∀ l r c, compare l r = some c → c ≠ .ne) :
    ∀ {ls rs : List Core}, quickTupleLoop compare p q ls rs = some comp → comp ≠ .ne
  | l :: ls, r :: rs, loop => by
    simp only [quickTupleLoop] at loop
    split at loop
    · split_ifs at loop with decided
      · cases loop
        rcases decided with rfl | rfl <;> simp
      · exact quickTupleLoop_ne_ne never loop
    · cases loop
  | [], _, loop | _ :: _, [], loop => by
    simp only [quickTupleLoop, Option.some.injEq] at loop
    subst loop
    exact compareBy_ne_ne _ _ _ _

/-- The quick path never answers `Ne`. -/
theorem tryQuickOrderComparison_ne_ne : ∀ {fuel : Nat} {s₁ s₂ : σ} {a b : Core} {comp : TComparison},
    tryQuickOrderComparison A isOrdered fuel s₁ a s₂ b = some comp → comp ≠ .ne
  | 0, _, _, _, _, _, quick => by simp [tryQuickOrderComparison] at quick
  | fuel + 1, s₁, s₂, a, b, comp, quick => by
    rcases tryQuickOrderComparison_cases quick with
      ⟨-, -, -, -, -, rfl⟩ | ⟨-, -, u, v, -, -, scalars⟩ | ⟨-, -, lhs, rhs, -, -, loop⟩ |
      ⟨-, -, -, rfl⟩ | ⟨l, r, -, -, rfl⟩ | ⟨l, r, -, -, rfl⟩
    · exact compareBy_ne_ne _ _ _ _
    · exact Scalar.quickCompare_ne_ne scalars
    · exact quickTupleLoop_ne_ne (fun _ _ _ elem => tryQuickOrderComparison_ne_ne elem) loop
    · exact compareBy_ne_ne _ _ _ _
    · exact quickCompareMem_ne_ne l r
    · exact quickCompareMem_ne_ne l r

/-- When the loop of the `Tuple` case answers, and every element it compares quickly
is ordered as `OrderStates` orders the elements' states, the loop's answer is
`OnArrayOfSingleStates` of the two tuples' states. -/
theorem onArrayOfSingleStates_of_quickTupleLoop {compare : Core → Core → Option TComparison}
    {fl fr : Core → Option State} {P Q : Core → Prop} {p : Nat}
    (never : ∀ l r c, compare l r = some c → c ≠ .ne)
    (agrees : ∀ l r x y c, P l → Q r → fl l = some x → fr r = some y → x.type = y.type →
      x.type.NoEmptyRecord → compare l r = some c → orderStates x y = some c) :
    ∀ {ls rs : List Core} {xs ys : List State}, (∀ l ∈ ls, P l) → (∀ r ∈ rs, Q r) →
      ls.mapM fl = some xs → rs.mapM fr = some ys → State.types xs = State.types ys →
      Ty.listNoEmptyRecord (State.types xs) → quickTupleLoop compare p p ls rs = some comp →
      onArrayOfSingleStates xs ys .eq = some comp
  | l :: ls, r :: rs, xs, ys, lefts, rights, mappedL, mappedR, sameTypes, noEmpty, loop => by
    obtain ⟨x, xs, readL, restL, rfl⟩ := mapM_cons_eq_some mappedL
    obtain ⟨y, ys, readR, restR, rfl⟩ := mapM_cons_eq_some mappedR
    simp only [State.types, List.cons.injEq] at sameTypes
    simp only [State.types, Ty.listNoEmptyRecord] at noEmpty
    simp only [quickTupleLoop] at loop
    split at loop
    · rename_i c quick
      have ordered := agrees l r x y c (lefts l (by simp)) (rights r (by simp)) readL readR
        sameTypes.1 noEmpty.1 quick
      rw [orderStates_eq_visitor sameTypes.1 noEmpty.1] at ordered
      rw [onArrayOfSingleStates, ordered]
      split_ifs at loop with decided
      · cases loop
        rcases decided with rfl | rfl <;> rfl
      · have isEq : c = .eq := by
          have notNe := never l r c quick
          cases c <;> simp_all
        subst isEq
        exact onArrayOfSingleStates_of_quickTupleLoop never agrees
          (fun l' mem => lefts l' (by simp [mem])) (fun r' mem => rights r' (by simp [mem]))
          restL restR sameTypes.2 noEmpty.2 loop
    · cases loop
  | [], rs, xs, ys, _, _, mappedL, mappedR, sameTypes, _, loop
  | _ :: _, [], xs, ys, _, _, mappedL, mappedR, sameTypes, _, loop => by
    -- one tuple has run out, and the types make the other run out too
    simp only [quickTupleLoop, Option.some.injEq] at loop
    have lengths := length_eq_of_types_eq sameTypes
    have := length_eq_of_mapM mappedL
    have := length_eq_of_mapM mappedR
    subst loop
    cases xs <;> cases ys <;>
      simp_all [onArrayOfSingleStates, compareLinear_eq_ofOrdering, TComparison.isEq]

/-- The quick path agrees with `OrderStates` wherever it answers, for two cores that
read back as states of one type, in arenas whose flags are honest and whose ordered
arenas keep their notes in order. The induction is on the fuel, which the tuple case
spends on its elements. -/
theorem tryQuickOrderComparison_eq_orderStates
    (ordered : ∀ s, isOrdered s = true → OffsetsOrdered A s)
    (honest₁ : FlagsHonest A s₁) (honest₂ : FlagsHonest A s₂) :
    ∀ {fuel : Nat} {a b : Core} {n m : Nat} {x y : State} {comp : TComparison},
      FullWhenFlagged A s₁ a → FullWhenFlagged A s₂ b →
      newState A s₁ n a = some x → newState A s₂ m b = some y →
      x.type = y.type → x.type.NoEmptyRecord →
      tryQuickOrderComparison A isOrdered fuel s₁ a s₂ b = some comp → orderStates x y = some comp
  | 0, _, _, _, _, _, _, _, _, _, _, _, _, _, quick => by simp [tryQuickOrderComparison] at quick
  | fuel + 1, a, b, n, m, x, y, comp, fullA, fullB, readA, readB, sameType, noEmpty, quick => by
    rcases tryQuickOrderComparison_cases quick with
      ⟨-, rfl, isOrd, flagA, flagB, rfl⟩ | ⟨sameTycon, scalar, u, v, storedA, storedB, scalars⟩ |
      ⟨tupleA, tupleB, lhs, rhs, pinnedL, pinnedR, loop⟩ |
      ⟨different, scalarA, scalarB, -⟩ | ⟨l, r, strA, strB, rfl⟩ | ⟨l, r, blobA, blobB, rfl⟩
    · -- offsets of whole notes in one ordered arena
      obtain ⟨note₁, pin₁, wholeA⟩ := Option.map_eq_some_iff.mp (fullA flagA)
      obtain ⟨note₂, pin₂, wholeB⟩ := Option.map_eq_some_iff.mp (fullB flagB)
      rw [← wholeA] at readA
      rw [← wholeB] at readB
      rw [ordered s₁ isOrd _ _ _ _ _ _ _ _ pin₁ pin₂ readA readB, compareLinear_eq_ofOrdering]
    · obtain ⟨u', storedA', -, rfl⟩ := newState_of_isScalar scalar readA
      obtain ⟨v', storedB', -, rfl⟩ := newState_of_isScalar (sameTycon ▸ scalar) readB
      cases storedA.symm.trans storedA'
      cases storedB.symm.trans storedB'
      rw [orderStates_eq_visitor sameType noEmpty, Scalar.quickCompare_eq scalars]
    · obtain ⟨tyconA, storageA⟩ := a
      obtain ⟨tyconB, storageB⟩ := b
      simp only at tupleA tupleB
      subst tupleA tupleB
      obtain ⟨k₁, cores₁, xs, -, pinned₁, mapped₁, rfl⟩ := newState_tuple readA
      obtain ⟨k₂, cores₂, ys, -, pinned₂, mapped₂, rfl⟩ := newState_tuple readB
      cases pinnedL.symm.trans pinned₁
      cases pinnedR.symm.trans pinned₂
      simp only [State.type, Ty.tuple.injEq] at sameType
      have lengths : rhs.length = lhs.length := by
        rw [← length_eq_of_mapM mapped₁, ← length_eq_of_mapM mapped₂,
          length_eq_of_types_eq sameType]
      rw [lengths] at loop
      rw [orderStates_eq_visitor (by simp [State.type, sameType]) noEmpty]
      refine onArrayOfSingleStates_of_quickTupleLoop ?never ?agrees (honest₁.pinCores pinned₁)
        (honest₂.pinCores pinned₂) mapped₁ mapped₂ sameType noEmpty loop
      case never => exact fun _ _ _ elem => tryQuickOrderComparison_ne_ne elem
      case agrees =>
        -- the elements, one unit of fuel down
        exact fun _ _ _ _ _ fullL fullR readL readR same noEmpty' elem =>
          tryQuickOrderComparison_eq_orderStates ordered honest₁ honest₂ fullL fullR readL readR
            same noEmpty' elem
    · -- scalars of different tycons read back as states of different types
      obtain ⟨u, -, tyconA, rfl⟩ := newState_of_isScalar scalarA readA
      obtain ⟨v, -, tyconB, rfl⟩ := newState_of_isScalar scalarB readB
      have tycons := congrArg tyconOf sameType
      rw [Scalar.tyconOf_type, Scalar.tyconOf_type, tyconA, tyconB] at tycons
      exact absurd tycons different
    · rw [newState_of_strBytes strA readA] at noEmpty ⊢
      have sameKind : (State.str l).type = (State.str r).type := rfl
      rw [newState_of_strBytes strB readB, orderStates_eq_visitor sameKind noEmpty,
        quickCompareMem_eq]
      rfl
    · rw [newState_of_blobBytes blobA readA] at noEmpty ⊢
      have sameKind : (State.blob l).type = (State.blob r).type := rfl
      rw [newState_of_blobBytes blobB readB, orderStates_eq_visitor sameKind noEmpty,
        quickCompareMem_eq]
      rfl

/-- `TKey::Compare` is `OrderStates` for two keys of one type: the quick path answers
with the order of the states wherever it answers, and once the fuel reads both keys
the fallback is `OrderStates` itself. -/
theorem keyCompare_eq_orderStates {n m : Nat} {x y : State}
    (ordered : ∀ s, isOrdered s = true → OffsetsOrdered A s)
    (honest₁ : FlagsHonest A s₁) (honest₂ : FlagsHonest A s₂)
    (fullA : FullWhenFlagged A s₁ a) (fullB : FullWhenFlagged A s₂ b)
    (readA : newState A s₁ n a = some x) (readB : newState A s₂ m b = some y)
    (sameType : x.type = y.type) (noEmpty : x.type.NoEmptyRecord) :
    (∀ fuel comp, tryQuickOrderComparison A isOrdered fuel s₁ a s₂ b = some comp →
        orderStates x y = some comp) ∧
      ∀ fuel, n ≤ fuel → m ≤ fuel → keyCompare A isOrdered fuel s₁ a s₂ b = orderStates x y := by
  have quickAgrees : ∀ fuel comp, tryQuickOrderComparison A isOrdered fuel s₁ a s₂ b = some comp →
      orderStates x y = some comp := fun _ _ quick =>
    tryQuickOrderComparison_eq_orderStates ordered honest₁ honest₂ fullA fullB readA readB
      sameType noEmpty quick
  refine ⟨quickAgrees, fun fuel enoughA enoughB => ?_⟩
  unfold keyCompare
  split
  · rename_i comp quick
    exact (quickAgrees fuel comp quick).symm
  · -- the fallback reads both keys again, with at least the fuel they needed
    rw [newState_grows enoughA a x readA, newState_grows enoughB b y readB]
    rfl

/-- Two keys `(1, 2)` and `(1, 3)` of one type, each the whole note of an ordered arena. -/
def keyPairArena : List Note :=
  [⟨.tuple, false, .cores [⟨.int64, .scalar (.int64 1)⟩, ⟨.int64, .scalar (.int64 2)⟩]⟩,
    ⟨.tuple, false, .cores [⟨.int64, .scalar (.int64 1)⟩, ⟨.int64, .scalar (.int64 3)⟩]⟩]

theorem keyCompare_eq_orderStates_on_keys :
    OffsetsOrdered (listStore Note) keyPairArena ∧ FlagsHonest (listStore Note) keyPairArena ∧
      keyCompare (listStore Note) (fun s => decide (s = keyPairArena)) 2 keyPairArena
          ⟨.tuple, .indirectCoreArray 0 2 false true⟩ keyPairArena
          ⟨.tuple, .indirectCoreArray 1 2 false true⟩ =
        orderStates (.tuple [.int64 1, .int64 2]) (.tuple [.int64 1, .int64 3]) := by
  have ordered : OffsetsOrdered (listStore Note) keyPairArena := by
    refine offsetsOrdered_listStore [.tuple [.int64 1, .int64 2], .tuple [.int64 1, .int64 3]] 2
      rfl (fun o inBounds => ?_) (by decide +kernel)
    rcases o with _ | _ | o
    · rfl
    · rfl
    · exact absurd inBounds (by simp [keyPairArena])
  have honest : FlagsHonest (listStore Note) keyPairArena :=
    flagsHonest_listStore (by decide +kernel)
  have readA : newState (listStore Note) keyPairArena 2 ⟨.tuple, .indirectCoreArray 0 2 false true⟩ =
      some (.tuple [.int64 1, .int64 2]) := rfl
  have readB : newState (listStore Note) keyPairArena 2 ⟨.tuple, .indirectCoreArray 1 2 false true⟩ =
      some (.tuple [.int64 1, .int64 3]) := rfl
  have noEmpty : (State.tuple [.int64 1, .int64 2]).type.NoEmptyRecord := by
    simp [State.type, State.types, Ty.NoEmptyRecord, Ty.listNoEmptyRecord]
  refine ⟨ordered, honest, ?_⟩
  have onlyOrdered : ∀ s, decide (s = keyPairArena) = true → OffsetsOrdered (listStore Note) s := by
    intro s isOrdered
    rw [of_decide_eq_true isOrdered]
    exact ordered
  exact (keyCompare_eq_orderStates onlyOrdered honest honest (by decide +kernel)
    (by decide +kernel) readA readB rfl noEmpty).2 2 le_rfl le_rfl

/-- An ordered arena in which two prefixes of different types meet: the unknown opts
of `Int64` and of `Str`, then the keys `(opt, 1)` and `(opt, 2)` that hold them. -/
def mixedPrefixArena : List Note :=
  [⟨.opt, true, .cores [⟨.int64, .scalar (.int64 0)⟩]⟩,
    ⟨.opt, true, .cores [⟨.directStr 23, .direct zeroArea⟩]⟩,
    ⟨.tuple, false, .cores [⟨.opt, .indirectCoreArray 0 1 true true⟩, ⟨.int8, .scalar (.int8 1)⟩]⟩,
    ⟨.tuple, false, .cores [⟨.opt, .indirectCoreArray 1 1 true true⟩, ⟨.int8, .scalar (.int8 2)⟩]⟩]

/-- The prefixes `(opt)` of the two keys, cut by `TryTruncateTuple`, read back as
states `OrderStates` calls equal, and `TKey::Compare` orders them by the offsets of
their elements. -/
theorem keyCompare_mixed_prefixes :
    OffsetsOrdered (listStore Note) mixedPrefixArena ∧
      FlagsHonest (listStore Note) mixedPrefixArena ∧
      tryTruncateTuple ⟨.tuple, .indirectCoreArray 2 2 false true⟩ =
        some ⟨.tuple, .indirectCoreArray 2 1 false false⟩ ∧
      tryTruncateTuple ⟨.tuple, .indirectCoreArray 3 2 false true⟩ =
        some ⟨.tuple, .indirectCoreArray 3 1 false false⟩ ∧
      newState (listStore Note) mixedPrefixArena 4 ⟨.tuple, .indirectCoreArray 2 1 false false⟩ =
        some (.tuple [.opt .int64 none]) ∧
      newState (listStore Note) mixedPrefixArena 4 ⟨.tuple, .indirectCoreArray 3 1 false false⟩ =
        some (.tuple [.opt .str none]) ∧
      tryQuickOrderComparison (listStore Note) (fun s => decide (s = mixedPrefixArena)) 4
        mixedPrefixArena ⟨.tuple, .indirectCoreArray 2 1 false false⟩
        mixedPrefixArena ⟨.tuple, .indirectCoreArray 3 1 false false⟩ = some .lt ∧
      keyCompare (listStore Note) (fun s => decide (s = mixedPrefixArena)) 4
        mixedPrefixArena ⟨.tuple, .indirectCoreArray 2 1 false false⟩
        mixedPrefixArena ⟨.tuple, .indirectCoreArray 3 1 false false⟩ = some .lt ∧
      orderStates (.tuple [.opt .int64 none]) (.tuple [.opt .str none]) = some .eq := by
  refine ⟨?ordered, flagsHonest_listStore (by decide +kernel), rfl, rfl, rfl, rfl,
    by decide +kernel, by decide +kernel, by decide +kernel⟩
  refine offsetsOrdered_listStore
    [.opt .int64 none, .opt .str none, .tuple [.opt .int64 none, .int8 1],
      .tuple [.opt .str none, .int8 2]] 4 rfl (fun o inBounds => ?_) (by decide +kernel)
  rcases o with _ | _ | _ | _ | o
  all_goals first | rfl | exact absurd inBounds (by simp [mixedPrefixArena])

end Quick

end Orly.Atom

import Orly.Sabot.StateOrder
import Orly.Sabot.TypeOrderLaws

/-! `stateOrder` is a total preorder on the well-typed states of each type.

Two states of one kind compare by what the kind holds (`stateOrder_eq_kindOrder`):
a scalar by its key, bytes by `byteOrder`, a `desc` reversed, an `opt`, set,
vector, record or tuple by its elements in order, a map by its entries. A state of
type `T` holds states of the types `T` is built from, so induction on `T`
assembles the laws from the combinators of `ThreeWay`; a record and a tuple
compare position by position, each position at its own type. -/
namespace Orly.Sabot

open ThreeWay

namespace State

/-- The key a scalar compares by. -/
def key : State → Int
  | .int8 v | .char v => v.toInt
  | .int16 v => v.toInt
  | .int32 v => v.toInt
  | .int64 v | .duration v | .timePoint v => v.toInt
  | .uint8 v => v.toNat
  | .uint16 v => v.toNat
  | .uint32 v => v.toNat
  | .uint64 v => v.toNat
  | .bool v => v.toNat
  | .float bits => Ieee754.Format.binary32.key bits.toNat
  | .double bits => Ieee754.Format.binary64.key bits.toNat
  | .uuid v => v.toNat
  | _ => 0

/-- The bytes of a blob or a string. -/
def bytes : State → List UInt8
  | .blob b | .str b => b
  | _ => []

/-- The state under a `desc`. -/
def inner : State → State
  | .desc s => s
  | s => s

/-- The elements of an `opt` (none or one), a set, a vector, a record or a tuple. -/
def elems : State → List State
  | .opt _ v => v.toList
  | .set _ ss | .vector _ ss | .record _ ss | .tuple ss => ss
  | _ => []

/-- The entries of a map. -/
def pairs : State → List (State × State)
  | .map _ _ ps => ps
  | _ => []

/-- The states of type `T` the repository builds. -/
def InType (T : Ty) (s : State) : Prop := s.type = T ∧ s.WellTyped

end State

/-- One map entry against another: key, then value. -/
def pairOrder (l r : State × State) : Ordering := (stateOrder l.1 r.1).then (stateOrder l.2 r.2)

theorem statesOrder_eq_compareLex (ls rs : List State) :
    statesOrder ls rs = List.compareLex stateOrder ls rs := by
  induction ls generalizing rs with
  | nil => cases rs <;> simp [statesOrder, List.compareLex_nil_nil, List.compareLex_nil_cons]
  | cons l ls ih =>
    cases rs with
    | nil => simp [statesOrder, List.compareLex_cons_nil]
    | cons r rs => rw [statesOrder, List.compareLex_cons_cons, ih]

theorem pairsOrder_eq_compareLex (ls rs : List (State × State)) :
    pairsOrder ls rs = List.compareLex pairOrder ls rs := by
  induction ls generalizing rs with
  | nil => cases rs <;> simp [pairsOrder, List.compareLex_nil_nil, List.compareLex_nil_cons]
  | cons l ls ih =>
    cases rs with
    | nil => simp [pairsOrder, List.compareLex_cons_nil]
    | cons r rs => rw [pairsOrder, List.compareLex_cons_cons, ih, pairOrder]

/-- What two states of one kind compare, by the type of the first. -/
def kindOrder : Ty → State → State → Ordering
  | .free _, _, _ | .tombstone, _, _ | .void, _, _ => .eq
  | .blob, a, b | .str, a, b => byteOrder a.bytes b.bytes
  | .desc _, a, b => (stateOrder a.inner b.inner).swap
  | .opt _, a, b | .set _, a, b | .vector _, a, b | .record _, a, b | .tuple _, a, b =>
    List.compareLex stateOrder a.elems b.elems
  | .map _ _, a, b => List.compareLex pairOrder a.pairs b.pairs
  | _, a, b => compare a.key b.key

theorem compare_natCast (a b : Nat) : compare (a : Int) (b : Int) = compare a b := by
  rcases lt_trichotomy a b with less | rfl | greater
  · rw [compare_lt_iff_lt.mpr less, compare_lt_iff_lt.mpr (by omega)]
  · simp
  · rw [compare_gt_iff_gt.mpr greater, compare_gt_iff_gt.mpr (by omega)]

theorem stateOrder_eq_kindOrder {a b : State} (same : a.type.tycon = b.type.tycon) :
    stateOrder a b = kindOrder a.type a b := by
  cases a <;> cases b
  all_goals try (cases same; done)
  case opt.opt t v u w =>
    cases v <;> cases w <;>
      simp [stateOrder, kindOrder, State.elems, State.type, List.compareLex_nil_nil,
        List.compareLex_nil_cons, List.compareLex_cons_nil, List.compareLex_cons_cons]
  all_goals
    simp [stateOrder, kindOrder, State.key, State.bytes, State.inner, State.elems, State.pairs,
      State.type, statesOrder_eq_compareLex, pairsOrder_eq_compareLex, compare_natCast]

namespace State.InType

theorem tycon_eq {T : Ty} {a b : State} (ta : InType T a) (tb : InType T b) :
    a.type.tycon = b.type.tycon := by
  rw [ta.1, tb.1]

theorem inner {t : Ty} {s : State} (typed : InType (.desc t) s) : InType t s.inner := by
  obtain ⟨sType, sTyped⟩ := typed
  cases s <;> try (cases sType; done)
  case desc x =>
    cases sType
    exact ⟨rfl, sTyped⟩

theorem elems_opt {t : Ty} {s : State} (typed : InType (.opt t) s) : ∀ x ∈ s.elems, InType t x := by
  obtain ⟨sType, sTyped⟩ := typed
  cases s <;> try (cases sType; done)
  case opt u v =>
    cases sType
    cases v with
    | none => simp [State.elems]
    | some x =>
      intro y mem
      simp only [State.elems, Option.toList_some, List.mem_singleton] at mem
      exact mem ▸ sTyped

theorem elems_set {t : Ty} {s : State} (typed : InType (.set t) s) : ∀ x ∈ s.elems, InType t x := by
  obtain ⟨sType, sTyped⟩ := typed
  cases s <;> try (cases sType; done)
  case set u ss =>
    cases sType
    exact allOfType_iff.mp sTyped

theorem elems_vector {t : Ty} {s : State} (typed : InType (.vector t) s) :
    ∀ x ∈ s.elems, InType t x := by
  obtain ⟨sType, sTyped⟩ := typed
  cases s <;> try (cases sType; done)
  case vector u ss =>
    cases sType
    exact allOfType_iff.mp sTyped

theorem pairs_map {k v : Ty} {s : State} (typed : InType (.map k v) s) :
    ∀ p ∈ s.pairs, InType k p.1 ∧ InType v p.2 := by
  obtain ⟨sType, sTyped⟩ := typed
  cases s <;> try (cases sType; done)
  case map k' v' ps =>
    cases sType
    intro p mem
    obtain ⟨kType, kTyped, vType, vTyped⟩ := pairsOfType_iff.mp sTyped p mem
    exact ⟨⟨kType, kTyped⟩, ⟨vType, vTyped⟩⟩

theorem forall₂_of_valsOfFields {fields : List (List UInt8 × Ty)} {vals : List State}
    (typed : valsOfFields fields vals) :
    List.Forall₂ (fun P x => P x) (fields.map fun f => InType f.2) vals := by
  induction fields generalizing vals with
  | nil => cases vals <;> simp_all [valsOfFields]
  | cons f fields ih =>
    cases vals with
    | nil => simp [valsOfFields] at typed
    | cons v vals =>
      obtain ⟨name, t⟩ := f
      obtain ⟨vType, vTyped, rest⟩ := typed
      exact List.Forall₂.cons ⟨vType, vTyped⟩ (ih rest)

theorem elems_record {fields : List (List UInt8 × Ty)} {s : State}
    (typed : InType (.record fields) s) :
    List.Forall₂ (fun P x => P x) (fields.map fun f => InType f.2) s.elems := by
  obtain ⟨sType, sTyped⟩ := typed
  cases s <;> try (cases sType; done)
  case record fs vals =>
    cases sType
    exact forall₂_of_valsOfFields sTyped

theorem forall₂_types {ss : List State} (typed : allWellTyped ss) :
    List.Forall₂ (fun P x => P x) ((types ss).map InType) ss := by
  induction ss with
  | nil => exact List.Forall₂.nil
  | cons s ss ih => exact List.Forall₂.cons ⟨rfl, typed.1⟩ (ih typed.2)

theorem elems_tuple {ts : List Ty} {s : State} (typed : InType (.tuple ts) s) :
    List.Forall₂ (fun P x => P x) (ts.map InType) s.elems := by
  obtain ⟨sType, sTyped⟩ := typed
  cases s <;> try (cases sType; done)
  case tuple ss =>
    cases sType
    exact forall₂_types sTyped

end State.InType

/-- The comparator of each kind is lawful on the states of a type whose smaller
component types already have lawful orders. -/
theorem kindOrder_laws {n : Nat} (smaller : ∀ T, sizeOf T < n → TotalPreorderOn stateOrder (State.InType T))
    (T : Ty) (small : sizeOf T < n + 1) : TotalPreorderOn (kindOrder T) (State.InType T) := by
  have byKey : TotalPreorderOn (fun a b : State => compare a.key b.key) (State.InType T) :=
    (TotalPreorderOn.ofLinearOrder.comap State.key).mono (fun _ _ => trivial)
  have byBytes : TotalPreorderOn (fun a b : State => byteOrder a.bytes b.bytes) (State.InType T) :=
    (byteOrder_laws.comap State.bytes).mono (fun _ _ => trivial)
  cases T
  case free | tombstone | void => exact TotalPreorderOn.const_eq
  case blob | str => exact byBytes
  case desc t =>
    have inner := smaller t (by simp at small; omega)
    exact (inner.swapped.comap State.inner).mono (fun _ typed => typed.inner)
  case opt t =>
    have elem := smaller t (by simp at small; omega)
    exact (elem.compareLex.comap State.elems).mono (fun _ typed => typed.elems_opt)
  case set t =>
    have elem := smaller t (by simp at small; omega)
    exact (elem.compareLex.comap State.elems).mono (fun _ typed => typed.elems_set)
  case vector t =>
    have elem := smaller t (by simp at small; omega)
    exact (elem.compareLex.comap State.elems).mono (fun _ typed => typed.elems_vector)
  case map k v =>
    have key := smaller k (by simp at small; omega)
    have val := smaller v (by simp at small; omega)
    have entry : TotalPreorderOn pairOrder (fun p => State.InType k p.1 ∧ State.InType v p.2) :=
      ((key.comap Prod.fst).mono (fun _ typed => typed.1)).then
        ((val.comap Prod.snd).mono (fun _ typed => typed.2))
    exact (entry.compareLex.comap State.pairs).mono (fun _ typed => typed.pairs_map)
  case record fields =>
    have field : ∀ P ∈ fields.map (fun f => State.InType f.2), TotalPreorderOn stateOrder P := by
      intro P mem
      obtain ⟨f, mf, rfl⟩ := List.mem_map.mp mem
      have := Ty.sizeOf_lt_of_mem_recordFields (t := .record fields) mf
      exact smaller f.2 (by omega)
    exact ((TotalPreorderOn.compareLex_forall₂ field).comap State.elems).mono
      (fun _ typed => typed.elems_record)
  case tuple ts =>
    have elem : ∀ P ∈ ts.map State.InType, TotalPreorderOn stateOrder P := by
      intro P mem
      obtain ⟨t, mt, rfl⟩ := List.mem_map.mp mem
      have := List.sizeOf_lt_of_mem mt
      exact smaller t (by simp at small; omega)
    exact ((TotalPreorderOn.compareLex_forall₂ elem).comap State.elems).mono
      (fun _ typed => typed.elems_tuple)
  all_goals exact byKey

/-- `stateOrder` is a total preorder on the well-typed states of each type. -/
theorem stateOrder_laws (T : Ty) : TotalPreorderOn stateOrder (State.InType T) := by
  have bounded : ∀ n, ∀ T : Ty, sizeOf T < n → TotalPreorderOn stateOrder (State.InType T) := by
    intro n
    induction n with
    | zero => intro T small; exact absurd small (Nat.not_lt_zero _)
    | succ n ih =>
      intro T small
      exact (kindOrder_laws ih T small).congr (fun ta tb => by
        rw [stateOrder_eq_kindOrder (ta.tycon_eq tb), ta.1])
  exact bounded (sizeOf T + 1) T (Nat.lt_succ_self _)

/-- On states of one type `T` the type comparison is `Eq`, so `OrderStates` is the
visitor started at `Eq`. -/
theorem orderStates_eq {T : Ty} (noEmpty : T.NoEmptyRecord) {a b : State}
    (ta : a.type = T ∧ a.WellTyped ∧ a.NaNFree) (tb : b.type = T ∧ b.WellTyped ∧ b.NaNFree) :
    orderStates a b = some (Orly.Atom.TComparison.ofOrdering (stateOrder a b)) := by
  have sameType : orderTypes a.type b.type = some .eq := by
    rw [ta.1, tb.1, orderTypes, orderTypesVisitor_eq T T noEmpty noEmpty,
      typeOrder_laws.refl trivial]
    rfl
  rw [orderStates, sameType]
  exact orderStatesVisitor_eq a b ⟨ta.1 ▸ noEmpty, ta.2⟩ ⟨tb.1 ▸ noEmpty, tb.2⟩

/-- `OrderStates` obeys the laws of an index order on the well-typed, NaN-free states
of each type without empty records. -/
theorem orderStates_orderLaws (T : Ty) (noEmpty : T.NoEmptyRecord) :
    Orly.Atom.OrderLaws orderStates (fun s => s.type = T ∧ s.WellTyped ∧ s.NaNFree) :=
  Orly.Atom.OrderLaws.of_refines
    ((stateOrder_laws T).mono (fun _ typed => ⟨typed.1, typed.2.1⟩))
    (fun ta tb => orderStates_eq noEmpty ta tb)

theorem orderTypes_orderStates_laws :
    Orly.Atom.OrderLaws orderTypes Ty.NoEmptyRecord ∧
      ∀ T : Ty, T.NoEmptyRecord →
        Orly.Atom.OrderLaws orderStates (fun s => s.type = T ∧ s.WellTyped ∧ s.NaNFree) :=
  ⟨orderTypes_orderLaws, orderStates_orderLaws⟩

theorem orderTypes_orderStates_laws_on_pairs :
    (Ty.tuple [.opt .int64, .str]).NoEmptyRecord ∧
      Orly.Atom.OrderLaws orderStates
        (fun s => s.type = .tuple [.opt .int64, .str] ∧ s.WellTyped ∧ s.NaNFree) := by
  have noEmpty : (Ty.tuple [.opt .int64, .str]).NoEmptyRecord := by
    simp [Ty.NoEmptyRecord, Ty.listNoEmptyRecord]
  exact ⟨noEmpty, orderTypes_orderStates_laws.2 _ noEmpty⟩

end Orly.Sabot

import Orly.Sabot.CompareStates
import Orly.Sabot.StateOrderLaws

/-! The orders `CompareTypes` and `CompareStates` compute, and where they are defined.

`typeCompare` is the type visitor of `Orly.Sabot.CompareStates` with the shared comparison
taken out. Every cell assigns before it reads, except a tuple cell whose loop does not run,
so on types with no tuple of no elements the visitor returns `typeCompare` whatever it held
on entry (`compareTypesVisitor_eq`). `typeCompare` orders two types by their kinds and then
by what the kind holds, in order (`typeCompare_eq_then`); induction on size makes it a total
order (`typeCompare_laws`) that is `Eq` only on equal types (`eq_of_typeCompare_eq`).

The state visitor's cells of one kind are those of `OrderStates`, and two states of one type
meet only such cells, down to their last element, so on states of one type `CompareStates`
is `OrderStates` (`compareStatesVisitor_eq_orderStatesVisitor`). Across types it orders by
`typeCompare` first, which is not the order of `OrderTypes`: there a `free` or `opt` type
sits just below the type it wraps, here among the unary kinds. -/
namespace Orly.Sabot

open Orly.Atom ThreeWay

namespace Ty

mutual
/-- No tuple type anywhere inside has no elements. -/
def NoEmptyTuple : Ty → Prop
  | .desc t | .free t | .opt t | .set t | .vector t => t.NoEmptyTuple
  | .map k v => k.NoEmptyTuple ∧ v.NoEmptyTuple
  | .record fields => fieldsNoEmptyTuple fields
  | .tuple elems => elems ≠ [] ∧ listNoEmptyTuple elems
  | _ => True

/-- `NoEmptyTuple` for each field type. -/
def fieldsNoEmptyTuple : List (List UInt8 × Ty) → Prop
  | [] => True
  | (_, t) :: rest => t.NoEmptyTuple ∧ fieldsNoEmptyTuple rest

/-- `NoEmptyTuple` for each element type. -/
def listNoEmptyTuple : List Ty → Prop
  | [] => True
  | t :: rest => t.NoEmptyTuple ∧ listNoEmptyTuple rest
end

/-- The types a kind holds in the order `CompareTypes` visits them: the element of a unary
kind, the key and the value of a map, the elements of a tuple. -/
def children : Ty → List Ty
  | .desc t | .free t | .opt t | .set t | .vector t => [t]
  | .map k v => [k, v]
  | .tuple elems => elems
  | _ => []

theorem sizeOf_lt_of_mem_children {t x : Ty} (mem : x ∈ t.children) : sizeOf x < sizeOf t := by
  cases t <;> simp only [children, List.mem_cons, List.not_mem_nil, or_false] at mem
  case tuple elems =>
    have := List.sizeOf_lt_of_mem mem
    simp only [tuple.sizeOf_spec]
    omega
  all_goals rcases mem with rfl | rfl <;> simp <;> omega

end Ty

mutual
/-- The order of types `CompareTypes` computes where it is defined. -/
def typeCompare : Ty → Ty → Ordering
  | .desc l, .desc r => typeCompare l r
  | .free l, .free r => typeCompare l r
  | .opt l, .opt r => typeCompare l r
  | .set l, .set r => typeCompare l r
  | .vector l, .vector r => typeCompare l r
  | .map lk lv, .map rk rv => (typeCompare lk rk).then (typeCompare lv rv)
  | .record lf, .record rf => fieldsCompare lf rf
  | .tuple ls, .tuple rs => elemsCompare ls rs
  | l, r => compare l.tycon r.tycon
  termination_by l r => sizeOf l + sizeOf r

/-- Record fields in order, each by name and then type, then the field counts. -/
def fieldsCompare : List (List UInt8 × Ty) → List (List UInt8 × Ty) → Ordering
  | (ln, lt) :: lf, (rn, rt) :: rf =>
    ((byteOrder ln rn).then (typeCompare lt rt)).then (fieldsCompare lf rf)
  | [], [] => .eq
  | [], _ :: _ => .lt
  | _ :: _, [] => .gt
  termination_by l r => sizeOf l + sizeOf r

/-- Tuple element types in order, then the element counts. -/
def elemsCompare : List Ty → List Ty → Ordering
  | l :: ls, r :: rs => (typeCompare l r).then (elemsCompare ls rs)
  | [], [] => .eq
  | [], _ :: _ => .lt
  | _ :: _, [] => .gt
  termination_by l r => sizeOf l + sizeOf r
end

/-- On types without empty tuples the visitor is `typeCompare`, whatever the shared
comparison held on entry: the tuple loop is asked for an assigned comparison only where it
can end without assigning one, and the record loop always starts from `Eq`. -/
theorem compareTypesVisitor_eq (l r : Ty) (hl : l.NoEmptyTuple) (hr : r.NoEmptyTuple)
    (c : Option TComparison) :
    compareTypesVisitor l r c = some (TComparison.ofOrdering (typeCompare l r)) := by
  refine typeCompare.induct
    (fun l r => l.NoEmptyTuple → r.NoEmptyTuple → ∀ c,
      compareTypesVisitor l r c = some (TComparison.ofOrdering (typeCompare l r)))
    (fun ls rs => Ty.listNoEmptyTuple ls → Ty.listNoEmptyTuple rs → ∀ c,
      (c = some .eq ∨ ls ≠ [] ∧ rs ≠ []) →
        compareTupleTypes ls rs c = some (TComparison.ofOrdering (elemsCompare ls rs)))
    (fun lf rf => Ty.fieldsNoEmptyTuple lf → Ty.fieldsNoEmptyTuple rf →
      compareRecordTypes lf rf (some .eq) = some (TComparison.ofOrdering (fieldsCompare lf rf)))
    ?desc ?free ?opt ?set ?vector ?map ?record ?tuple ?other
    ?elemsCons ?elemsNil ?elemsShorter ?elemsLonger
    ?fieldsCons ?fieldsNil ?fieldsShorter ?fieldsLonger l r hl hr c
  case desc | free | opt | set | vector =>
    intro l r ih hl hr c
    rw [compareTypesVisitor, typeCompare, ih hl hr]
  case map =>
    intro lk lv rk rv ihKey ihVal hl hr c
    rw [compareTypesVisitor, typeCompare, ihKey hl.1 hr.1]
    cases typeCompare lk rk
    all_goals simp [TComparison.ofOrdering, ihVal hl.2 hr.2]
  case record =>
    intro lf rf ih hl hr c
    rw [compareTypesVisitor, typeCompare]
    exact ih hl hr
  case tuple =>
    intro ls rs ih hl hr c
    rw [compareTypesVisitor, typeCompare]
    exact ih hl.2 hr.2 c (Or.inr ⟨hl.1, hr.1⟩)
  case other =>
    intro l r _ _ _ _ _ _ _ _ _ _ c
    rw [compareTypesVisitor.eq_9, typeCompare.eq_9, compareLinear_eq_ofOrdering]
    all_goals assumption
  case elemsCons =>
    intro l ls r rs ihHead ihTail hl hr c _
    rw [compareTupleTypes, elemsCompare, ihHead hl.1 hr.1]
    cases typeCompare l r
    all_goals simp [TComparison.ofOrdering, ihTail hl.2 hr.2 (some .eq) (Or.inl rfl)]
  case elemsNil =>
    intro _ _ c entry
    simp at entry
    simp [compareTupleTypes, entry, elemsCompare, compareLinear_eq_ofOrdering, TComparison.isEq]
  case elemsShorter =>
    intro _ _ _ _ c entry
    simp at entry
    simp [compareTupleTypes, entry, elemsCompare, compareLinear_eq_ofOrdering, TComparison.isEq]
    exact compare_lt_iff_lt.mpr (by omega)
  case elemsLonger =>
    intro _ _ _ _ c entry
    simp at entry
    simp [compareTupleTypes, entry, elemsCompare, compareLinear_eq_ofOrdering, TComparison.isEq]
    exact compare_gt_iff_gt.mpr (by omega)
  case fieldsCons =>
    intro ln lt lf rn rt rf ihType ihFields hl hr
    rw [compareRecordTypes, fieldsCompare, compareBytes_eq, ihType hl.1 hr.1]
    cases byteOrder ln rn
    · rfl
    · cases typeCompare lt rt
      all_goals simp [TComparison.ofOrdering, ihFields hl.2 hr.2]
    · rfl
  case fieldsNil =>
    intros
    simp [compareRecordTypes, fieldsCompare, compareLinear_eq_ofOrdering, TComparison.isEq]
  case fieldsShorter =>
    intros
    simp [compareRecordTypes, fieldsCompare, compareLinear_eq_ofOrdering, TComparison.isEq]
    exact compare_lt_iff_lt.mpr (by omega)
  case fieldsLonger =>
    intros
    simp [compareRecordTypes, fieldsCompare, compareLinear_eq_ofOrdering, TComparison.isEq]
    exact compare_gt_iff_gt.mpr (by omega)

/-- One record field against another: name, then type. -/
def fieldCompare (l r : List UInt8 × Ty) : Ordering := (byteOrder l.1 r.1).then (typeCompare l.2 r.2)

/-- What two types compare after their kinds: the types they hold in order, then their
fields. At most one of the two is not empty for any kind. -/
def kindCompare (l r : Ty) : Ordering :=
  (List.compareLex typeCompare l.children r.children).then
    (List.compareLex fieldCompare l.recordFields r.recordFields)

theorem elemsCompare_eq_compareLex (ls rs : List Ty) :
    elemsCompare ls rs = List.compareLex typeCompare ls rs := by
  induction ls generalizing rs with
  | nil => cases rs <;> simp [elemsCompare, List.compareLex_nil_nil, List.compareLex_nil_cons]
  | cons l ls ih =>
    cases rs with
    | nil => simp [elemsCompare, List.compareLex_cons_nil]
    | cons r rs => rw [elemsCompare, List.compareLex_cons_cons, ih]

theorem fieldsCompare_eq_compareLex (lf rf : List (List UInt8 × Ty)) :
    fieldsCompare lf rf = List.compareLex fieldCompare lf rf := by
  induction lf generalizing rf with
  | nil => cases rf <;> simp [fieldsCompare, List.compareLex_nil_nil, List.compareLex_nil_cons]
  | cons f lf ih =>
    cases rf with
    | nil => simp [fieldsCompare, List.compareLex_cons_nil]
    | cons g rf => rw [fieldsCompare, List.compareLex_cons_cons, ih, fieldCompare]

/-- Two types of one kind that is none of the kinds holding other types (the constant cells
on the diagonal) hold no types and no fields. -/
theorem Ty.children_nil_of_tycon_eq {l r : Ty} (same : l.tycon = r.tycon)
    (notDesc : ∀ x y, l = .desc x → r = .desc y → False)
    (notFree : ∀ x y, l = .free x → r = .free y → False)
    (notOpt : ∀ x y, l = .opt x → r = .opt y → False)
    (notSet : ∀ x y, l = .set x → r = .set y → False)
    (notVector : ∀ x y, l = .vector x → r = .vector y → False)
    (notMap : ∀ xk xv yk yv, l = .map xk xv → r = .map yk yv → False)
    (notRecord : ∀ xs ys, l = .record xs → r = .record ys → False)
    (notTuple : ∀ xs ys, l = .tuple xs → r = .tuple ys → False) :
    l.children = [] ∧ r.children = [] ∧ l.recordFields = [] ∧ r.recordFields = [] := by
  cases l <;> cases r
  all_goals first
    | exact ⟨rfl, rfl, rfl, rfl⟩
    | exact (notDesc _ _ rfl rfl).elim
    | exact (notFree _ _ rfl rfl).elim
    | exact (notOpt _ _ rfl rfl).elim
    | exact (notSet _ _ rfl rfl).elim
    | exact (notVector _ _ rfl rfl).elim
    | exact (notMap _ _ _ _ rfl rfl).elim
    | exact (notRecord _ _ rfl rfl).elim
    | exact (notTuple _ _ rfl rfl).elim
    | exact nomatch same

/-- `CompareTypes` orders two types by their kinds, then by what the kinds hold. -/
theorem typeCompare_eq_then (l r : Ty) :
    typeCompare l r = (compare l.tycon r.tycon).then (kindCompare l r) := by
  refine typeCompare.induct
    (fun l r => typeCompare l r = (compare l.tycon r.tycon).then (kindCompare l r))
    (fun _ _ => True) (fun _ _ => True)
    ?desc ?free ?opt ?set ?vector ?map ?record ?tuple ?other
    ?elemsCons ?elemsNil ?elemsShorter ?elemsLonger
    ?fieldsCons ?fieldsNil ?fieldsShorter ?fieldsLonger l r
  case desc | free | opt | set | vector | map | record | tuple =>
    intros
    simp [typeCompare, kindCompare, Ty.tycon, Ty.children, Ty.recordFields, List.compareLex_cons_cons,
      List.compareLex_nil_nil, elemsCompare_eq_compareLex, fieldsCompare_eq_compareLex]
  case other =>
    intro l r notDesc notFree notOpt notSet notVector notMap notRecord notTuple
    rw [typeCompare.eq_9]
    · by_cases same : l.tycon = r.tycon
      · obtain ⟨nilL, nilR, noFieldsL, noFieldsR⟩ := Ty.children_nil_of_tycon_eq same
          notDesc notFree notOpt notSet notVector notMap notRecord notTuple
        rw [kindCompare, nilL, nilR, noFieldsL, noFieldsR, same]
        simp [List.compareLex_nil_nil]
      · have unequal : compare l.tycon r.tycon ≠ .eq := fun h => same (compare_eq_iff_eq.mp h)
        cases h : compare l.tycon r.tycon <;> simp_all
    all_goals assumption
  all_goals intros; trivial

/-- From types smaller than `n` to types of size at most `n`: the kind, the types a kind
holds and the fields are compared by lawful comparators, and what a type holds is smaller. -/
theorem typeCompare_laws_succ {n : Nat} (smaller : TotalPreorderOn typeCompare (fun t => sizeOf t < n)) :
    TotalPreorderOn typeCompare (fun t => sizeOf t < n + 1) := by
  have field : TotalPreorderOn fieldCompare (fun f => sizeOf f.2 < n) :=
    ((byteOrder_laws.comap Prod.fst).mono (fun _ _ => trivial)).then (smaller.comap Prod.snd)
  have children : TotalPreorderOn (fun l r : Ty => List.compareLex typeCompare l.children r.children)
      (fun t => sizeOf t < n + 1) :=
    (smaller.compareLex.comap Ty.children).mono
      (fun _ small _ mem => by have := Ty.sizeOf_lt_of_mem_children mem; omega)
  have fields : TotalPreorderOn (fun l r : Ty => List.compareLex fieldCompare l.recordFields r.recordFields)
      (fun t => sizeOf t < n + 1) :=
    (field.compareLex.comap Ty.recordFields).mono
      (fun _ small _ mem => by have := Ty.sizeOf_lt_of_mem_recordFields mem; omega)
  have whole := ((TotalPreorderOn.ofLinearOrder.comap Ty.tycon).mono
    (Q := fun t : Ty => sizeOf t < n + 1) (fun _ _ => trivial)).then (children.then fields)
  exact whole.congr fun _ _ => (typeCompare_eq_then _ _).symm

/-- `typeCompare` is a total preorder on all types. -/
theorem typeCompare_laws : TotalPreorderOn typeCompare (fun _ => True) := by
  have bounded : ∀ n, TotalPreorderOn typeCompare (fun t => sizeOf t < n) := by
    intro n
    induction n with
    | zero => exact ⟨fun small => absurd small (Nat.not_lt_zero _),
        fun small => absurd small (Nat.not_lt_zero _)⟩
    | succ n ih => exact typeCompare_laws_succ ih
  refine ⟨fun {a b} _ _ => ?_, fun {a b c} _ _ _ => ?_⟩
  · exact (bounded (sizeOf a + sizeOf b + 1)).swap (by omega) (by omega)
  · exact (bounded (sizeOf a + sizeOf b + sizeOf c + 1)).trans (by omega) (by omega) (by omega)

theorem eq_of_byteOrder_eq {a b : List UInt8} (same : byteOrder a b = .eq) : a = b :=
  eq_of_compareLex_eq (fun _ _ _ _ bytes => UInt8.toNat_inj.mp (compare_eq_iff_eq.mp bytes)) same

/-- A type is its kind, the types it holds and its fields. -/
theorem Ty.eq_of_parts_eq {a b : Ty} (same : a.tycon = b.tycon) (children : a.children = b.children)
    (fields : a.recordFields = b.recordFields) : a = b := by
  cases a <;> cases b
  all_goals try (cases same; done)
  all_goals simp_all [Ty.children, Ty.recordFields]

/-- Types that `typeCompare` finds equal are equal: induction on size, through the kinds,
the types they hold and the fields. -/
theorem eq_of_typeCompare_eq {a b : Ty} (same : typeCompare a b = .eq) : a = b := by
  have bounded : ∀ n, ∀ a b : Ty, sizeOf a < n → typeCompare a b = .eq → a = b := by
    intro n
    induction n with
    | zero => intro a _ small; exact absurd small (Nat.not_lt_zero _)
    | succ n ih =>
      intro a b small same
      rw [typeCompare_eq_then, kindCompare, Ordering.then_eq_eq, Ordering.then_eq_eq] at same
      obtain ⟨kinds, children, fields⟩ := same
      refine Ty.eq_of_parts_eq (compare_eq_iff_eq.mp kinds) ?_ ?_
      · refine eq_of_compareLex_eq (fun x mx y _ held => ?_) children
        have := Ty.sizeOf_lt_of_mem_children mx
        exact ih x y (by omega) held
      · refine eq_of_compareLex_eq (fun f mf g _ held => ?_) fields
        rw [fieldCompare, Ordering.then_eq_eq] at held
        have := Ty.sizeOf_lt_of_mem_recordFields mf
        exact Prod.ext (eq_of_byteOrder_eq held.1) (ih f.2 g.2 (by omega) held.2)
  exact bounded (sizeOf a + 1) a b (Nat.lt_succ_self _) same

/-! ## States -/

namespace State

/-- Two states the visitor can meet side by side: of one type, and well typed. -/
def Alike (l r : State) : Prop := l.type = r.type ∧ l.WellTyped ∧ r.WellTyped

theorem alike_of_allOfType {t : Ty} {ls rs : List State} (left : allOfType t ls)
    (right : allOfType t rs) : ∀ p ∈ ls.zip rs, Alike p.1 p.2 := by
  intro p mem
  obtain ⟨lType, lTyped⟩ := allOfType_iff.mp left p.1 (List.of_mem_zip mem).1
  obtain ⟨rType, rTyped⟩ := allOfType_iff.mp right p.2 (List.of_mem_zip mem).2
  exact ⟨lType.trans rType.symm, lTyped, rTyped⟩

theorem alike_of_pairsOfType {k v : Ty} {ls rs : List (State × State)} (left : pairsOfType k v ls)
    (right : pairsOfType k v rs) : ∀ p ∈ ls.zip rs, Alike p.1.1 p.2.1 ∧ Alike p.1.2 p.2.2 := by
  intro p mem
  obtain ⟨lk, lkTyped, lv, lvTyped⟩ := pairsOfType_iff.mp left p.1 (List.of_mem_zip mem).1
  obtain ⟨rk, rkTyped, rv, rvTyped⟩ := pairsOfType_iff.mp right p.2 (List.of_mem_zip mem).2
  exact ⟨⟨lk.trans rk.symm, lkTyped, rkTyped⟩, ⟨lv.trans rv.symm, lvTyped, rvTyped⟩⟩

theorem alike_of_valsOfFields {fields : List (List UInt8 × Ty)} :
    ∀ {ls rs : List State}, valsOfFields fields ls → valsOfFields fields rs →
      ∀ p ∈ ls.zip rs, Alike p.1 p.2 := by
  induction fields with
  | nil =>
    intro ls rs left _ p mem
    cases ls with
    | nil => simp at mem
    | cons l ls => simp [valsOfFields] at left
  | cons f fields ih =>
    intro ls rs left right p mem
    cases ls with
    | nil => simp [valsOfFields] at left
    | cons l ls =>
      cases rs with
      | nil => simp [valsOfFields] at right
      | cons r rs =>
        obtain ⟨lType, lTyped, lRest⟩ := left
        obtain ⟨rType, rTyped, rRest⟩ := right
        rw [List.zip_cons_cons, List.mem_cons] at mem
        rcases mem with rfl | later
        · exact ⟨lType.trans rType.symm, lTyped, rTyped⟩
        · exact ih lRest rRest p later

theorem alike_of_types {ls : List State} :
    ∀ {rs : List State}, types ls = types rs → allWellTyped ls → allWellTyped rs →
      ∀ p ∈ ls.zip rs, Alike p.1 p.2 := by
  induction ls with
  | nil => intro rs _ _ _ p mem; simp at mem
  | cons l ls ih =>
    intro rs same left right p mem
    cases rs with
    | nil => simp at mem
    | cons r rs =>
      rw [types, types, List.cons.injEq] at same
      rw [List.zip_cons_cons, List.mem_cons] at mem
      rcases mem with rfl | later
      · exact ⟨same.1, left.1, right.1⟩
      · exact ih same.2 left.2 right.2 p later

namespace Alike

theorem desc {l r : State} (alike : Alike (.desc l) (.desc r)) : Alike l r :=
  ⟨Ty.desc.inj alike.1, alike.2.1, alike.2.2⟩

theorem opt {t u : Ty} {l r : State} (alike : Alike (.opt t (some l)) (.opt u (some r))) :
    Alike l r :=
  ⟨alike.2.1.1.trans ((Ty.opt.inj alike.1).trans alike.2.2.1.symm), alike.2.1.2, alike.2.2.2⟩

theorem set {t u : Ty} {ls rs : List State} (alike : Alike (.set t ls) (.set u rs)) :
    ∀ p ∈ ls.zip rs, Alike p.1 p.2 := by
  obtain ⟨same, left, right⟩ := alike
  cases Ty.set.inj same
  exact alike_of_allOfType left right

theorem vector {t u : Ty} {ls rs : List State} (alike : Alike (.vector t ls) (.vector u rs)) :
    ∀ p ∈ ls.zip rs, Alike p.1 p.2 := by
  obtain ⟨same, left, right⟩ := alike
  cases Ty.vector.inj same
  exact alike_of_allOfType left right

theorem map {k v k' v' : Ty} {ls rs : List (State × State)} (alike : Alike (.map k v ls) (.map k' v' rs)) :
    ∀ p ∈ ls.zip rs, Alike p.1.1 p.2.1 ∧ Alike p.1.2 p.2.2 := by
  obtain ⟨same, left, right⟩ := alike
  obtain ⟨rfl, rfl⟩ := Ty.map.inj same
  exact alike_of_pairsOfType left right

theorem record {fields fields' : List (List UInt8 × Ty)} {ls rs : List State}
    (alike : Alike (.record fields ls) (.record fields' rs)) : ∀ p ∈ ls.zip rs, Alike p.1 p.2 := by
  obtain ⟨same, left, right⟩ := alike
  cases Ty.record.inj same
  exact alike_of_valsOfFields left right

theorem tuple {ls rs : List State} (alike : Alike (.tuple ls) (.tuple rs)) :
    ∀ p ∈ ls.zip rs, Alike p.1 p.2 :=
  alike_of_types (Ty.tuple.inj alike.1) alike.2.1 alike.2.2

end Alike

end State

/-- On two states of one type the visitors of `CompareStates` and `OrderStates` agree:
they meet only cells of one kind, whose code is the same. The induction follows
`stateOrder`, whose patterns are the visitors'. -/
theorem compareStatesVisitor_eq_orderStatesVisitor (l r : State) (alike : l.Alike r) (c : TComparison) :
    compareStatesVisitor l r c = orderStatesVisitor l r c := by
  refine stateOrder.induct
    (fun l r => l.Alike r → ∀ c, compareStatesVisitor l r c = orderStatesVisitor l r c)
    (fun ls rs => (∀ p ∈ ls.zip rs, p.1.1.Alike p.2.1 ∧ p.1.2.Alike p.2.2) → ∀ c,
      comparePairsOfStates ls rs c = onArrayOfPairsOfStates ls rs c)
    (fun ls rs => (∀ p ∈ ls.zip rs, p.1.Alike p.2) → ∀ c,
      compareSingleStates ls rs c = onArrayOfSingleStates ls rs c)
    ?free ?tombstone ?void ?int8 ?int16 ?int32 ?int64 ?uint8 ?uint16 ?uint32 ?uint64 ?bool ?char
    ?float ?double ?duration ?timePoint ?uuid ?blob ?str ?desc ?optNone ?optSomeNone
    ?optNoneSome ?optSome ?set ?vector ?map ?record ?tuple ?other
    ?statesCons ?statesNil ?statesShorter ?statesLonger
    ?pairsCons ?pairsNil ?pairsShorter ?pairsLonger l r alike c
  case free | tombstone | void | int8 | int16 | int32 | int64 | uint8 | uint16 | uint32 | uint64
      | bool | char | float | double | duration | timePoint | uuid | blob | str
      | optNone | optSomeNone | optNoneSome =>
    intros
    rw [compareStatesVisitor, orderStatesVisitor]
  case desc =>
    intro l r ih alike c
    rw [compareStatesVisitor, orderStatesVisitor, ih alike.desc c]
  case optSome =>
    intro _ l _ r ih alike c
    rw [compareStatesVisitor, orderStatesVisitor, ih alike.opt c]
  case set =>
    intro _ ls _ rs ih alike c
    rw [compareStatesVisitor, orderStatesVisitor, ih alike.set c]
  case vector =>
    intro _ ls _ rs ih alike c
    rw [compareStatesVisitor, orderStatesVisitor, ih alike.vector c]
  case map =>
    intro _ _ ls _ _ rs ih alike c
    rw [compareStatesVisitor, orderStatesVisitor, ih alike.map c]
  case record =>
    intro _ ls _ rs ih alike c
    rw [compareStatesVisitor, orderStatesVisitor, ih alike.record c]
  case tuple =>
    intro ls rs ih alike c
    rw [compareStatesVisitor, orderStatesVisitor, ih alike.tuple c]
  case other =>
    -- states of one type are of one kind, so some pattern above matched them
    intro l r notFree notTombstone notVoid notInt8 notInt16 notInt32 notInt64 notUInt8 notUInt16
      notUInt32 notUInt64 notBool notChar notFloat notDouble notDuration notTimePoint notUuid notBlob
      notStr notDesc notOptNone notOptSomeNone notOptNoneSome notOptSome notSet notVector notMap
      notRecord notTuple alike c
    exfalso
    obtain ⟨same, -, -⟩ := alike
    cases l <;> cases r
    all_goals try (cases same; done)
    case opt.opt t v u w =>
      cases v <;> cases w
      · exact notOptNone _ _ rfl rfl
      · exact notOptNoneSome _ _ _ rfl rfl
      · exact notOptSomeNone _ _ _ rfl rfl
      · exact notOptSome _ _ _ _ rfl rfl
    all_goals first
      | exact notDesc _ _ rfl rfl
      | exact notSet _ _ _ _ rfl rfl
      | exact notVector _ _ _ _ rfl rfl
      | exact notMap _ _ _ _ _ _ rfl rfl
      | exact notRecord _ _ _ _ rfl rfl
      | exact notTuple _ _ rfl rfl
      | simp_all
  case statesCons =>
    intro l ls r rs ihHead ihTail alike c
    rw [List.zip_cons_cons] at alike
    have head := ihHead (alike _ List.mem_cons_self) c
    have tail := ihTail (fun p mem => alike p (List.mem_cons_of_mem _ mem)) .eq
    -- both loops decide on the head's comparison
    cases o : orderStatesVisitor l r c with
    | none => simp only [compareSingleStates, onArrayOfSingleStates, head, o]
    | some o' => cases o' <;> simp only [compareSingleStates, onArrayOfSingleStates, head, tail, o]
  case statesNil | statesShorter | statesLonger =>
    intros
    simp only [compareSingleStates, onArrayOfSingleStates]
  case pairsCons =>
    intro lk lv ls rk rv rs ihKey ihVal ihTail alike c
    rw [List.zip_cons_cons] at alike
    obtain ⟨keys, vals⟩ := alike _ List.mem_cons_self
    have key := ihKey keys c
    have val := ihVal vals .eq
    have tail := ihTail (fun p mem => alike p (List.mem_cons_of_mem _ mem)) .eq
    -- both loops decide on the key's comparison, then on the value's
    cases ok : orderStatesVisitor lk rk c with
    | none => simp only [comparePairsOfStates, onArrayOfPairsOfStates, key, ok]
    | some o =>
      cases o
      case eq =>
        cases ov : orderStatesVisitor lv rv .eq with
        | none => simp only [comparePairsOfStates, onArrayOfPairsOfStates, key, val, ok, ov]
        | some o' =>
          cases o' <;> simp only [comparePairsOfStates, onArrayOfPairsOfStates, key, val, tail, ok, ov]
      all_goals simp only [comparePairsOfStates, onArrayOfPairsOfStates, key, ok]
  case pairsNil | pairsShorter | pairsLonger =>
    intros
    simp only [comparePairsOfStates, onArrayOfPairsOfStates]

/-- On two well-typed states of one type with no empty record and no empty tuple,
`CompareStates` is `OrderStates`: both find the type `Eq` to itself and go on to visitors
that agree. -/
theorem compareStates_eq_orderStates {l r : State} (same : l.type = r.type)
    (noEmptyRecord : l.type.NoEmptyRecord) (noEmptyTuple : l.type.NoEmptyTuple)
    (lTyped : l.WellTyped) (rTyped : r.WellTyped) : compareStates l r = orderStates l r := by
  have types : compareTypes l.type r.type = some .eq := by
    rw [compareTypes, ← same, compareTypesVisitor_eq _ _ noEmptyTuple noEmptyTuple,
      typeCompare_laws.refl trivial]
    rfl
  have orders : orderTypes l.type r.type = some .eq := by
    rw [orderTypes, ← same, orderTypesVisitor_eq _ _ noEmptyRecord noEmptyRecord,
      typeOrder_laws.refl trivial]
    rfl
  rw [compareStates, orderStates, types, orders]
  exact compareStatesVisitor_eq_orderStatesVisitor l r ⟨same, lTyped, rTyped⟩ .eq

/-- Where the two type orders part: `OrderTypes` places `opt t` just below `t`, while
`CompareTypes` places it among the unary kinds, above every kind before `Desc` (19), the
first kind that holds another type. So across types `CompareStates` and `OrderStates` order
states differently. -/
theorem compareTypes_opt_above {t : Ty} (plain : t.tycon < 19) :
    compareTypes t (.opt t) = some .lt ∧ orderTypes t (.opt t) = some .gt := by
  have self : orderTypesVisitor t t none = some .eq := by
    have noEmpty : t.NoEmptyRecord := by
      cases t <;> simp_all [Ty.tycon, Ty.NoEmptyRecord]
    rw [orderTypesVisitor_eq t t noEmpty noEmpty, typeOrder_laws.refl trivial]
    rfl
  cases t <;> simp only [Ty.tycon] at plain
  all_goals first
    | omega
    | exact ⟨by simp [compareTypes, compareTypesVisitor, compareLinear_eq_ofOrdering, Ty.tycon]; rfl,
        by simp [orderTypes, orderTypesVisitor, self, aboveWrapper, TComparison.isGe]⟩

/-- The order `CompareStates` computes on sound states: the types, then the states. -/
def stateCompare (a b : State) : Ordering := (typeCompare a.type b.type).then (stateOrder a b)

/-- On sound states whose types have no empty tuple `CompareStates` is `stateCompare`: a
type that `typeCompare` finds `Eq` is the same type, and on states of one type the visitor
is `OrderStates`'. -/
theorem compareStates_eq {a b : State} (sa : a.Sound) (sb : b.Sound) (ta : a.type.NoEmptyTuple)
    (tb : b.type.NoEmptyTuple) : compareStates a b = some (.ofOrdering (stateCompare a b)) := by
  rw [compareStates, compareTypes, compareTypesVisitor_eq _ _ ta tb, stateCompare]
  cases order : typeCompare a.type b.type
  case eq =>
    have same := eq_of_typeCompare_eq order
    exact (compareStatesVisitor_eq_orderStatesVisitor a b ⟨same, sa.2.1, sb.2.1⟩ .eq).trans
      (orderStatesVisitor_eq a b sa sb)
  all_goals rfl

/-- `stateCompare` is a total preorder on sound states whose types have no empty tuple:
the types are, and states of one type compare by `stateOrder`, a total preorder on each
type. -/
theorem stateCompare_laws : TotalPreorderOn stateCompare (fun s => s.Sound ∧ s.type.NoEmptyTuple) := by
  have types : TotalPreorderOn (fun a b : State => typeCompare a.type b.type)
      (fun s => s.Sound ∧ s.type.NoEmptyTuple) :=
    (typeCompare_laws.comap State.type).mono (fun _ _ => trivial)
  refine types.thenOn (fun {a b} pa pb same => ?_) (fun {a b c} pa pb pc ab bc => ?_)
  · exact (stateOrder_laws a.type).swap ⟨rfl, pa.1.2.1⟩ ⟨(eq_of_typeCompare_eq same).symm, pb.1.2.1⟩
  · have tb := (eq_of_typeCompare_eq ab).symm
    exact (stateOrder_laws a.type).trans ⟨rfl, pa.1.2.1⟩ ⟨tb, pb.1.2.1⟩
      ⟨(eq_of_typeCompare_eq bc).symm.trans tb, pc.1.2.1⟩

/-- `CompareTypes` is a total order on types with no empty tuple: it always answers `Lt`,
`Eq` or `Gt`, swapping the types reverses it, `Lt` is transitive, and `Eq` holds exactly of
equal types, which is what `PushKey` asserts of the keys of one index and `MakeArena` tests
between neighbouring notes. -/
theorem compareTypes_orders_types :
    OrderLaws compareTypes Ty.NoEmptyTuple ∧
      ∀ {l r : Ty}, l.NoEmptyTuple → r.NoEmptyTuple → (compareTypes l r = some .eq ↔ l = r) := by
  refine ⟨OrderLaws.of_refines (typeCompare_laws.mono fun _ _ => trivial)
    (fun hl hr => compareTypesVisitor_eq _ _ hl hr none), fun {l r} hl hr => ⟨fun same => ?_, ?_⟩⟩
  · rw [compareTypes, compareTypesVisitor_eq _ _ hl hr, Option.some.injEq] at same
    exact eq_of_typeCompare_eq (TComparison.ofOrdering_injective same)
  · rintro rfl
    rw [compareTypes, compareTypesVisitor_eq _ _ hl hl, typeCompare_laws.refl trivial]
    rfl

theorem compareTypes_orders_types_sample :
    (Ty.map .str (.opt .int64)).NoEmptyTuple ∧
      (compareTypes (.map .str (.opt .int64)) (.map .str (.opt .int64)) = some .eq ↔
        Ty.map .str (.opt .int64) = .map .str (.opt .int64)) :=
  have noEmpty : (Ty.map .str (.opt .int64)).NoEmptyTuple := by simp [Ty.NoEmptyTuple]
  ⟨noEmpty, compareTypes_orders_types.2 noEmpty noEmpty⟩

/-- `CompareStates` is a total order on sound states whose types have no empty tuple, by
type first (`CompareTypes`) and then by value; and on well-typed states of one type with no
empty record or tuple it is `OrderStates`, NaNs included. -/
theorem compareStates_orders_states :
    OrderLaws compareStates (fun s => s.Sound ∧ s.type.NoEmptyTuple) ∧
      ∀ {l r : State}, l.type = r.type → l.type.NoEmptyRecord → l.type.NoEmptyTuple →
        l.WellTyped → r.WellTyped → compareStates l r = orderStates l r :=
  ⟨OrderLaws.of_refines stateCompare_laws (fun pa pb => compareStates_eq pa.1 pb.1 pa.2 pb.2),
    compareStates_eq_orderStates⟩

/-- Two pairs of an `int64` and a string that differ in the string. -/
theorem compareStates_orders_states_sample :
    (State.tuple [.int64 3, .str [97]]).type = (State.tuple [.int64 3, .str [98]]).type ∧
      (State.tuple [.int64 3, .str [97]]).type.NoEmptyRecord ∧
      (State.tuple [.int64 3, .str [97]]).type.NoEmptyTuple ∧
      (State.tuple [.int64 3, .str [97]]).WellTyped ∧ (State.tuple [.int64 3, .str [98]]).WellTyped ∧
      compareStates (.tuple [.int64 3, .str [97]]) (.tuple [.int64 3, .str [98]]) =
        orderStates (.tuple [.int64 3, .str [97]]) (.tuple [.int64 3, .str [98]]) :=
  have same : (State.tuple [.int64 3, .str [97]]).type = (State.tuple [.int64 3, .str [98]]).type := rfl
  have noEmptyRecord : (State.tuple [.int64 3, .str [97]]).type.NoEmptyRecord := by
    simp [State.type, State.types, Ty.NoEmptyRecord, Ty.listNoEmptyRecord]
  have noEmptyTuple : (State.tuple [.int64 3, .str [97]]).type.NoEmptyTuple := by
    simp [State.type, State.types, Ty.NoEmptyTuple, Ty.listNoEmptyTuple]
  have lTyped : (State.tuple [.int64 3, .str [97]]).WellTyped := by
    simp [State.WellTyped, State.allWellTyped]
  have rTyped : (State.tuple [.int64 3, .str [98]]).WellTyped := by
    simp [State.WellTyped, State.allWellTyped]
  ⟨same, noEmptyRecord, noEmptyTuple, lTyped, rTyped,
    compareStates_orders_states.2 same noEmptyRecord noEmptyTuple lTyped rTyped⟩

end Orly.Sabot

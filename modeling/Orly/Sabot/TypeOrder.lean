import Orly.Lib.ThreeWay
import Orly.Sabot.OrderTypes

/-! The order `OrderTypes` computes, and where it is defined.

`typeOrder` is the visitor of `Orly.Sabot.OrderTypes` with the shared comparison
taken out: every cell assigns before it reads, except the record cell on a record
with no fields, so on types without empty records the visitor returns
`typeOrder` whatever the comparison held on entry (`orderTypesVisitor_eq`). -/
namespace Orly.Sabot

open Orly.Atom

/-- The byte order, for field names and for blob and string payloads: `memcmp`, then
the length. -/
def byteOrder (lhs rhs : List UInt8) : Ordering :=
  List.compareLex (fun a b => compare a.toNat b.toNat) lhs rhs

theorem compareBytes_eq (lhs rhs : List UInt8) :
    compareBytes lhs rhs = TComparison.ofOrdering (byteOrder lhs rhs) := by
  induction lhs generalizing rhs with
  | nil =>
    cases rhs with
    | nil => rfl
    | cons b bs =>
      simp only [compareBytes, byteOrder, compareLinear_eq_ofOrdering, List.compareLex_nil_cons,
        List.length_nil, List.length_cons]
      rw [compare_lt_iff_lt.mpr (by omega)]
  | cons a as ih =>
    cases rhs with
    | nil =>
      simp only [compareBytes, byteOrder, compareLinear_eq_ofOrdering, List.compareLex_cons_nil,
        List.length_nil, List.length_cons]
      rw [compare_gt_iff_gt.mpr (by omega)]
    | cons b bs =>
      rw [compareBytes, byteOrder, List.compareLex_cons_cons]
      by_cases same : a = b
      · subst same
        simp [ih, byteOrder]
      · by_cases less : a < b
        · have : a.toNat < b.toNat := UInt8.lt_iff_toNat_lt.mp less
          simp [same, less, compare_lt_iff_lt.mpr this, TComparison.ofOrdering]
        · have : b.toNat < a.toNat := by
            have : a.toNat ≠ b.toNat := fun h => same (UInt8.toNat_inj.mp h)
            have : ¬ a.toNat < b.toNat := fun h => less (UInt8.lt_iff_toNat_lt.mpr h)
            omega
          simp [same, less, compare_gt_iff_gt.mpr this, TComparison.ofOrdering]

/-- `aboveWrapper` on a defined comparison. -/
def aboveWrapperOrder (o : Ordering) : Ordering := if o = .lt then .lt else .gt

mutual
/-- The order of types `OrderTypes` computes where it is defined. -/
def typeOrder : Ty → Ty → Ordering
  | .free l, .free r => typeOrder l r
  | .free l, .opt r => (typeOrder l r).then .lt
  | .opt l, .free r => (typeOrder l r).then .gt
  | .opt l, .opt r => typeOrder l r
  | .free l, r => (aboveWrapperOrder (typeOrder r l)).swap
  | .opt l, r => (aboveWrapperOrder (typeOrder r l)).swap
  | l, .free r => aboveWrapperOrder (typeOrder l r)
  | l, .opt r => aboveWrapperOrder (typeOrder l r)
  | .desc l, .desc r => typeOrder l r
  | .set l, .set r => typeOrder l r
  | .vector l, .vector r => typeOrder l r
  | .map lk lv, .map rk rv => (typeOrder lk rk).then (typeOrder lv rv)
  | .record lf, .record rf => fieldsOrder lf rf
  | .tuple _, .tuple _ => .eq
  | l, r => compare l.tycon r.tycon
  termination_by l r => sizeOf l + sizeOf r

/-- Record fields in order: name, then type, then the field count. -/
def fieldsOrder : List (List UInt8 × Ty) → List (List UInt8 × Ty) → Ordering
  | (ln, lt) :: lf, (rn, rt) :: rf =>
    ((byteOrder ln rn).then (typeOrder lt rt)).then (fieldsOrder lf rf)
  | [], [] => .eq
  | [], _ :: _ => .lt
  | _ :: _, [] => .gt
  termination_by l r => sizeOf l + sizeOf r
end



theorem aboveWrapper_ofOrdering (o : Ordering) :
    aboveWrapper (TComparison.ofOrdering o) = TComparison.ofOrdering (aboveWrapperOrder o) := by
  cases o <;> rfl

/-- On types without empty records the visitor is `typeOrder`, whatever the shared
comparison held on entry: the motive of the record loop asks for an assigned
comparison only where the loop can end without assigning one, on two empty lists. -/
theorem orderTypesVisitor_eq (l r : Ty) (hl : l.NoEmptyRecord) (hr : r.NoEmptyRecord)
    (c : Option TComparison) :
    orderTypesVisitor l r c = some (TComparison.ofOrdering (typeOrder l r)) := by
  refine typeOrder.induct
    (fun l r => l.NoEmptyRecord → r.NoEmptyRecord → ∀ c,
      orderTypesVisitor l r c = some (TComparison.ofOrdering (typeOrder l r)))
    (fun lf rf => Ty.fieldsNoEmptyRecord lf → Ty.fieldsNoEmptyRecord rf → ∀ c,
      (c = some .eq ∨ lf ≠ [] ∧ rf ≠ []) →
        orderRecordFields lf rf c = some (TComparison.ofOrdering (fieldsOrder lf rf)))
    ?freeFree ?freeOpt ?optFree ?optOpt ?freeRow ?optRow ?freeColumn ?optColumn
    ?desc ?set ?vector ?map ?record ?tuple ?other
    ?fieldsCons ?fieldsNil ?fieldsShorter ?fieldsLonger l r hl hr c
  case freeFree | optOpt | desc | set | vector =>
    intro l r ih hl hr c
    rw [orderTypesVisitor, typeOrder, ih hl hr]
  case freeOpt =>
    intro l r ih hl hr c
    rw [orderTypesVisitor, typeOrder, ih hl hr]
    cases typeOrder l r <;> rfl
  case optFree =>
    intro l r ih hl hr c
    rw [orderTypesVisitor, typeOrder, ih hl hr]
    cases typeOrder l r <;> rfl
  case freeRow =>
    intro l r notFree notOpt ih hl hr c
    rw [orderTypesVisitor.eq_5 _ _ _ notFree notOpt, typeOrder.eq_5 _ _ notFree notOpt,
      ih hr hl, Option.map_some, aboveWrapper_ofOrdering, TComparison.reverse_ofOrdering]
  case optRow =>
    intro l r notFree notOpt ih hl hr c
    rw [orderTypesVisitor.eq_6 _ _ _ notFree notOpt, typeOrder.eq_6 _ _ notFree notOpt,
      ih hr hl, Option.map_some, aboveWrapper_ofOrdering, TComparison.reverse_ofOrdering]
  case freeColumn =>
    intro l r notFree notOpt ih hl hr c
    rw [orderTypesVisitor.eq_7 _ _ _ notFree notOpt, typeOrder.eq_7 _ _ notFree notOpt,
      ih hl hr, Option.map_some, aboveWrapper_ofOrdering]
  case optColumn =>
    intro l r notFree notOpt ih hl hr c
    rw [orderTypesVisitor.eq_8 _ _ _ notFree notOpt, typeOrder.eq_8 _ _ notFree notOpt,
      ih hl hr, Option.map_some, aboveWrapper_ofOrdering]
  case map =>
    intro lk lv rk rv ihKey ihVal hl hr c
    rw [orderTypesVisitor, typeOrder, ihKey hl.1 hr.1]
    cases key : typeOrder lk rk
    all_goals simp [TComparison.ofOrdering, ihVal hl.2 hr.2]
  case record =>
    intro lf rf ih hl hr c
    rw [orderTypesVisitor, typeOrder]
    exact ih hl.2 hr.2 c (Or.inr ⟨hl.1, hr.1⟩)
  case tuple =>
    intro _ _ _ _ c
    rw [orderTypesVisitor, typeOrder]
    rfl
  case other =>
    intro l r _ _ _ _ _ _ _ _ _ _ _ _ _ _ _ _ c
    rw [orderTypesVisitor.eq_15, typeOrder.eq_15, compareLinear_eq_ofOrdering]
    all_goals assumption
  case fieldsCons =>
    intro ln lt lf rn rt rf ihType ihFields hl hr c _
    rw [orderRecordFields, fieldsOrder, compareBytes_eq, ihType hl.1 hr.1]
    cases name : byteOrder ln rn
    · rfl
    · cases ty : typeOrder lt rt
      all_goals simp [TComparison.ofOrdering, ihFields hl.2 hr.2 (some .eq) (Or.inl rfl)]
    · rfl
  case fieldsNil =>
    intro _ _ c entry
    simp at entry
    simp [orderRecordFields, entry, fieldsOrder, compareLinear_eq_ofOrdering, TComparison.isEq]
  case fieldsShorter =>
    intro _ _ _ _ c entry
    simp at entry
    simp [orderRecordFields, entry, fieldsOrder, compareLinear_eq_ofOrdering, TComparison.isEq]
    exact compare_lt_iff_lt.mpr (by omega)
  case fieldsLonger =>
    intro _ _ _ _ c entry
    simp at entry
    simp [orderRecordFields, entry, fieldsOrder, compareLinear_eq_ofOrdering, TComparison.isEq]
    exact compare_gt_iff_gt.mpr (by omega)

theorem byteOrder_swap (lhs rhs : List UInt8) : byteOrder rhs lhs = (byteOrder lhs rhs).swap :=
  ThreeWay.compareLex_swap_of_forall (fun _ _ _ _ => Std.OrientedCmp.eq_swap)

/-- Swapping two types swaps their order. A row cell of `Free` or `Opt` is the
reverse of the column cell by definition, so only the diagonal and the constant
cells need the induction. -/
theorem typeOrder_swap (l r : Ty) : typeOrder r l = (typeOrder l r).swap := by
  refine typeOrder.induct
    (fun l r => typeOrder r l = (typeOrder l r).swap)
    (fun lf rf => fieldsOrder rf lf = (fieldsOrder lf rf).swap)
    ?freeFree ?freeOpt ?optFree ?optOpt ?freeRow ?optRow ?freeColumn ?optColumn
    ?desc ?set ?vector ?map ?record ?tuple ?other
    ?fieldsCons ?fieldsNil ?fieldsShorter ?fieldsLonger l r
  case freeFree | optOpt | desc | set | vector | record =>
    intro l r ih
    rw [typeOrder, typeOrder, ih]
  case freeOpt | optFree =>
    intro l r ih
    rw [typeOrder, typeOrder, ih, Ordering.swap_then]
    rfl
  case freeRow =>
    intro l r notFree notOpt _
    rw [typeOrder.eq_5 _ _ notFree notOpt, typeOrder.eq_7 _ _ notFree notOpt,
      Ordering.swap_swap]
  case optRow =>
    intro l r notFree notOpt _
    rw [typeOrder.eq_6 _ _ notFree notOpt, typeOrder.eq_8 _ _ notFree notOpt,
      Ordering.swap_swap]
  case freeColumn =>
    intro l r notFree notOpt _
    rw [typeOrder.eq_5 _ _ notFree notOpt, typeOrder.eq_7 _ _ notFree notOpt]
  case optColumn =>
    intro l r notFree notOpt _
    rw [typeOrder.eq_6 _ _ notFree notOpt, typeOrder.eq_8 _ _ notFree notOpt]
  case map =>
    intro lk lv rk rv ihKey ihVal
    rw [typeOrder, typeOrder, ihKey, ihVal, Ordering.swap_then]
  case tuple =>
    intro _ _
    rw [typeOrder, typeOrder]
    rfl
  case other =>
    intro l r _ _ _ _ _ _ _ _ _ _ _ notMap _ _
    rw [typeOrder.eq_15 r l, typeOrder.eq_15 l r]
    · exact Std.OrientedCmp.eq_swap
    all_goals first
      | assumption
      | exact fun lk lv rk rv onLeft onRight => notMap rk rv lk lv onRight onLeft
      | (intros; subst_vars; simp_all)
  case fieldsCons =>
    intro ln lt lf rn rt rf ihType ihFields
    rw [fieldsOrder, fieldsOrder, byteOrder_swap, ihType, ihFields, Ordering.swap_then,
      Ordering.swap_then]
  case fieldsNil | fieldsShorter | fieldsLonger =>
    intros
    simp [fieldsOrder]

end Orly.Sabot

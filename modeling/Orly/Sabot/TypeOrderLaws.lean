import Orly.Sabot.TypeOrder

/-! `typeOrder` is a total preorder on all types.

The proof takes a type apart into the type under its outer `free` and `opt`
wrappers and the list of those wrappers. Two types compare first by what lies under
the wrappers, then by the wrappers, the innermost deciding first: `free t` and
`opt t` sit just below `t`, `free` below `opt` (`typeOrder_eq_then_wrapperOrder`).
Under the wrappers, two types compare by their kind, then by their element types
and record fields (`typeOrder_eq_of_not_isWrapper`). Both parts are built from
lawful comparators with the combinators of `ThreeWay`, by induction on the size
of the types. -/
namespace Orly.Sabot

open ThreeWay

namespace Ty

/-- `Free` and `Opt`, the kinds that `OnWithFree` and `OnWithOpt` place just below
the type they wrap. -/
def isWrapper : Ty → Bool
  | .free _ | .opt _ => true
  | _ => false

/-- The type under all the outer wrappers. -/
def base : Ty → Ty
  | .free t | .opt t => t.base
  | t => t

/-- The outer wrappers, outermost first: `false` for `free`, `true` for `opt`. -/
def wrappers : Ty → List Bool
  | .free t => false :: t.wrappers
  | .opt t => true :: t.wrappers
  | _ => []

/-- The element types of a unary or binary kind, in the order the visitor compares
them. -/
def elems : Ty → List Ty
  | .desc t | .set t | .vector t => [t]
  | .map k v => [k, v]
  | _ => []

/-- The fields of a record type. -/
def recordFields : Ty → List (List UInt8 × Ty)
  | .record fields => fields
  | _ => []

theorem isWrapper_base (t : Ty) : t.base.isWrapper = false := by
  induction t using base.induct with
  | case1 t ih | case2 t ih => simpa [base] using ih
  | case3 t notFree notOpt =>
    cases t <;> simp_all [base, isWrapper]

theorem isWrapper_eq_false {t : Ty} (notFree : ∀ u, t = .free u → False)
    (notOpt : ∀ u, t = .opt u → False) : t.isWrapper = false := by
  cases t <;> simp_all [isWrapper]

theorem base_of_not_isWrapper {t : Ty} (plain : t.isWrapper = false) :
    t.base = t ∧ t.wrappers = [] := by
  cases t <;> simp_all [isWrapper, base, wrappers]

theorem sizeOf_base_le (t : Ty) : sizeOf t.base ≤ sizeOf t := by
  induction t using base.induct with
  | case1 t ih | case2 t ih =>
    simp only [base, free.sizeOf_spec, opt.sizeOf_spec]
    omega
  | case3 t notFree notOpt =>
    cases t <;> simp_all [base]

theorem sizeOf_lt_of_mem_elems {t x : Ty} (mem : x ∈ t.elems) : sizeOf x < sizeOf t := by
  cases t <;> simp only [elems, List.mem_cons, List.not_mem_nil, or_false] at mem
  all_goals rcases mem with rfl | rfl <;> simp <;> omega

theorem sizeOf_lt_of_mem_recordFields {t : Ty} {f : List UInt8 × Ty} (mem : f ∈ t.recordFields) :
    sizeOf f.2 < sizeOf t := by
  cases t <;> simp only [recordFields, List.not_mem_nil] at mem
  have inList := List.sizeOf_lt_of_mem mem
  obtain ⟨name, ty⟩ := f
  simp only [record.sizeOf_spec, Prod.mk.sizeOf_spec] at inList ⊢
  omega

end Ty

/-- The order of wrapper lists: position by position from the outside, the inner
positions deciding first; `free` is below `opt`, and a wrapper below its absence. -/
def wrapperOrder : List Bool → List Bool → Ordering
  | [], [] => .eq
  | _ :: ws, [] => (wrapperOrder ws []).then .lt
  | [], _ :: vs => (wrapperOrder [] vs).then .gt
  | w :: ws, v :: vs => (wrapperOrder ws vs).then (compare w v)

/-- Wrapper lists as base-3 numerals, least significant digit outermost, with the
digit `0` for an absent wrapper so that the numeral is finite: a larger numeral is
a lower wrapper list. -/
def wrapperRank : List Bool → Nat
  | [] => 0
  | w :: ws => (if w then 1 else 2) + 3 * wrapperRank ws

theorem compare_digit_shift {a b : Nat} (A B : Nat) (ha : a < 3) (hb : b < 3) :
    compare (a + 3 * A) (b + 3 * B) = (compare A B).then (compare a b) := by
  rcases lt_trichotomy A B with less | rfl | greater
  · rw [compare_lt_iff_lt.mpr less, compare_lt_iff_lt.mpr (by omega)]
    rfl
  · rw [compare_eq_iff_eq.mpr rfl, Ordering.eq_then]
    rcases lt_trichotomy a b with less | rfl | greater
    · rw [compare_lt_iff_lt.mpr less, compare_lt_iff_lt.mpr (by omega)]
    · rw [compare_eq_iff_eq.mpr rfl, compare_eq_iff_eq.mpr rfl]
    · rw [compare_gt_iff_gt.mpr greater, compare_gt_iff_gt.mpr (by omega)]
  · rw [compare_gt_iff_gt.mpr greater, compare_gt_iff_gt.mpr (by omega)]
    rfl

theorem wrapperOrder_eq_compare (ws vs : List Bool) :
    wrapperOrder ws vs = compare (wrapperRank vs) (wrapperRank ws) := by
  induction ws, vs using wrapperOrder.induct with
  | case1 => simp [wrapperOrder, wrapperRank]
  | case2 w ws ih =>
    have shift := compare_digit_shift 0 (wrapperRank ws) (a := 0)
      (b := if w then 1 else 2) (by omega) (by split <;> omega)
    rw [Nat.mul_zero, Nat.add_zero,
      compare_lt_iff_lt.mpr (show 0 < (if w then 1 else 2) by split <;> omega)] at shift
    rw [wrapperOrder, ih, wrapperRank, wrapperRank, shift]
  | case3 v vs ih =>
    have shift := compare_digit_shift (wrapperRank vs) 0 (a := if v then 1 else 2)
      (b := 0) (by split <;> omega) (by omega)
    rw [Nat.mul_zero, Nat.add_zero,
      compare_gt_iff_gt.mpr (show 0 < (if v then 1 else 2) by split <;> omega)] at shift
    rw [wrapperOrder, ih, wrapperRank, wrapperRank, shift]
  | case4 w ws v vs ih =>
    rw [wrapperOrder, ih, wrapperRank, wrapperRank,
      compare_digit_shift _ _ (by split <;> omega) (by split <;> omega)]
    cases w <;> cases v <;> rfl

theorem wrapperOrder_laws : TotalPreorderOn wrapperOrder (fun _ => True) := by
  have laws := (TotalPreorderOn.ofLinearOrder (α := Nat)).comap wrapperRank |>.swapped
  have same : wrapperOrder = fun ws vs => (compare (wrapperRank ws) (wrapperRank vs)).swap := by
    funext ws vs
    rw [wrapperOrder_eq_compare]
    exact Std.OrientedCmp.eq_swap
  rw [same]
  exact laws

theorem byteOrder_laws : TotalPreorderOn byteOrder (fun _ => True) := by
  have laws := (TotalPreorderOn.ofLinearOrder (α := Nat)).comap UInt8.toNat |>.compareLex
  exact laws.mono (fun _ _ _ _ => trivial)

theorem wrapperOrder_swap (ws vs : List Bool) : wrapperOrder vs ws = (wrapperOrder ws vs).swap :=
  wrapperOrder_laws.swap trivial trivial

theorem aboveWrapperOrder_eq_then (o : Ordering) : aboveWrapperOrder o = o.then .gt := by
  cases o <;> rfl

/-- Two types compare by what lies under their wrappers, then by the wrappers. -/
theorem typeOrder_eq_then_wrapperOrder (t u : Ty) :
    typeOrder t u = (typeOrder t.base u.base).then (wrapperOrder t.wrappers u.wrappers) := by
  refine typeOrder.induct
    (fun t u => typeOrder t u = (typeOrder t.base u.base).then (wrapperOrder t.wrappers u.wrappers))
    (fun _ _ => True)
    ?freeFree ?freeOpt ?optFree ?optOpt ?freeRow ?optRow ?freeColumn ?optColumn
    ?desc ?set ?vector ?map ?record ?tuple ?other
    ?fieldsCons ?fieldsNil ?fieldsShorter ?fieldsLonger t u
  case freeFree | optOpt =>
    intro l r ih
    rw [typeOrder, ih]
    simp [Ty.base, Ty.wrappers, wrapperOrder]
  case freeOpt | optFree =>
    intro l r ih
    rw [typeOrder, ih]
    simp [Ty.base, Ty.wrappers, wrapperOrder, Ordering.then_assoc]
    rfl
  case freeRow | optRow =>
    intro l r notFree notOpt ih
    obtain ⟨plainBase, plainWrappers⟩ := Ty.base_of_not_isWrapper (Ty.isWrapper_eq_false notFree notOpt)
    first
      | rw [typeOrder.eq_5 _ _ notFree notOpt]
      | rw [typeOrder.eq_6 _ _ notFree notOpt]
    rw [ih, plainBase, plainWrappers, aboveWrapperOrder_eq_then, Ordering.swap_then,
      Ordering.swap_then, ← typeOrder_swap, ← wrapperOrder_swap]
    simp [Ty.base, Ty.wrappers, wrapperOrder, Ordering.then_assoc]
  case freeColumn | optColumn =>
    intro l r notFree notOpt ih
    obtain ⟨plainBase, plainWrappers⟩ := Ty.base_of_not_isWrapper (Ty.isWrapper_eq_false notFree notOpt)
    first
      | rw [typeOrder.eq_7 _ _ notFree notOpt]
      | rw [typeOrder.eq_8 _ _ notFree notOpt]
    rw [ih, plainBase, plainWrappers, aboveWrapperOrder_eq_then]
    simp [Ty.base, Ty.wrappers, wrapperOrder, Ordering.then_assoc]
  case desc | set | vector | record =>
    intros
    simp [Ty.base, Ty.wrappers, wrapperOrder]
  case map =>
    intros
    simp [Ty.base, Ty.wrappers, wrapperOrder]
  case tuple =>
    intros
    simp [Ty.base, Ty.wrappers, wrapperOrder]
  case other =>
    intro l r _ _ _ _ notFreeL notOptL notFreeR notOptR _ _ _ _ _ _
    obtain ⟨plainL, wrappersL⟩ := Ty.base_of_not_isWrapper (Ty.isWrapper_eq_false notFreeL notOptL)
    obtain ⟨plainR, wrappersR⟩ := Ty.base_of_not_isWrapper (Ty.isWrapper_eq_false notFreeR notOptR)
    rw [plainL, plainR, wrappersL, wrappersR, wrapperOrder, Ordering.then_eq]
  case fieldsCons | fieldsNil | fieldsShorter | fieldsLonger =>
    intros
    trivial

/-- What two types of one kind compare after the kind: their element types, then
their record fields. -/
def payloadOrder (l r : Ty) : Ordering :=
  (List.compareLex typeOrder l.elems r.elems).then (fieldsOrder l.recordFields r.recordFields)

/-- Two types of one kind that is neither unary, binary nor a record (the constant
cells of the table on its diagonal) have no element types and no fields. -/
theorem Ty.payload_nil_of_tycon_eq {l r : Ty} (same : l.tycon = r.tycon)
    (notDesc : ∀ x y, l = .desc x → r = .desc y → False)
    (notSet : ∀ x y, l = .set x → r = .set y → False)
    (notVector : ∀ x y, l = .vector x → r = .vector y → False)
    (notMap : ∀ xk xv yk yv, l = .map xk xv → r = .map yk yv → False)
    (notRecord : ∀ xs ys, l = .record xs → r = .record ys → False) :
    l.elems = [] ∧ r.elems = [] ∧ l.recordFields = [] ∧ r.recordFields = [] := by
  cases l <;> cases r
  all_goals first
    | exact ⟨rfl, rfl, rfl, rfl⟩
    | exact (notDesc _ _ rfl rfl).elim
    | exact (notSet _ _ rfl rfl).elim
    | exact (notVector _ _ rfl rfl).elim
    | exact (notMap _ _ _ _ rfl rfl).elim
    | exact (notRecord _ _ rfl rfl).elim
    | exact nomatch same

/-- Under the wrappers, two types compare by kind, then by what they are built from. -/
theorem typeOrder_eq_of_not_isWrapper {l r : Ty} (plainL : l.isWrapper = false)
    (plainR : r.isWrapper = false) :
    typeOrder l r = (compare l.tycon r.tycon).then (payloadOrder l r) := by
  refine typeOrder.induct
    (fun l r => l.isWrapper = false → r.isWrapper = false →
      typeOrder l r = (compare l.tycon r.tycon).then (payloadOrder l r))
    (fun _ _ => True)
    ?freeFree ?freeOpt ?optFree ?optOpt ?freeRow ?optRow ?freeColumn ?optColumn
    ?desc ?set ?vector ?map ?record ?tuple ?other
    ?fieldsCons ?fieldsNil ?fieldsShorter ?fieldsLonger l r plainL plainR
  case freeFree | freeOpt | optFree | optOpt | freeRow | optRow =>
    intros
    simp_all [Ty.isWrapper]
  case freeColumn | optColumn =>
    intros
    simp_all [Ty.isWrapper]
  case desc | set | vector | map | record | tuple =>
    intros
    simp [typeOrder, payloadOrder, Ty.tycon, Ty.elems, Ty.recordFields, List.compareLex_cons_cons,
      List.compareLex_nil_nil, fieldsOrder]
  case other =>
    intro l r _ _ _ _ _ _ _ _ notDesc notSet notVector notMap notRecord _ _ _
    rw [typeOrder.eq_15]
    · by_cases same : l.tycon = r.tycon
      · obtain ⟨nilL, nilR, noFieldsL, noFieldsR⟩ :=
          Ty.payload_nil_of_tycon_eq same notDesc notSet notVector notMap notRecord
        rw [payloadOrder, nilL, nilR, noFieldsL, noFieldsR, same]
        simp [fieldsOrder, List.compareLex_nil_nil]
      · have unequal : compare l.tycon r.tycon ≠ .eq := fun h => same (compare_eq_iff_eq.mp h)
        cases h : compare l.tycon r.tycon <;> simp_all
    all_goals assumption
  case fieldsCons | fieldsNil | fieldsShorter | fieldsLonger =>
    intros
    trivial

/-- One record field against another: name, then type. -/
def fieldOrder (l r : List UInt8 × Ty) : Ordering := (byteOrder l.1 r.1).then (typeOrder l.2 r.2)

theorem fieldsOrder_eq_compareLex (lf rf : List (List UInt8 × Ty)) :
    fieldsOrder lf rf = List.compareLex fieldOrder lf rf := by
  induction lf generalizing rf with
  | nil => cases rf <;> simp [fieldsOrder, List.compareLex_nil_nil, List.compareLex_nil_cons]
  | cons f lf ih =>
    cases rf with
    | nil => simp [fieldsOrder, List.compareLex_cons_nil]
    | cons g rf => rw [fieldsOrder, List.compareLex_cons_cons, ih, fieldOrder]

/-- From types smaller than `n` to types of size at most `n`: the kind, the element
types, the fields and the wrappers are compared by lawful comparators, and the
element and field types are smaller than the type they are part of. -/
theorem typeOrder_laws_succ {n : Nat} (smaller : TotalPreorderOn typeOrder (fun t => sizeOf t < n)) :
    TotalPreorderOn typeOrder (fun t => sizeOf t < n + 1) := by
  have field : TotalPreorderOn fieldOrder (fun f => sizeOf f.2 < n) :=
    ((byteOrder_laws.comap Prod.fst).mono (fun _ _ => trivial)).then (smaller.comap Prod.snd)
  have elems : TotalPreorderOn (fun l r : Ty => List.compareLex typeOrder l.elems r.elems)
      (fun t => sizeOf t < n + 1) :=
    (smaller.compareLex.comap Ty.elems).mono
      (fun _ small _ mem => by have := Ty.sizeOf_lt_of_mem_elems mem; omega)
  have fields : TotalPreorderOn (fun l r : Ty => fieldsOrder l.recordFields r.recordFields)
      (fun t => sizeOf t < n + 1) := by
    have laws := (field.compareLex.comap Ty.recordFields).mono (Q := fun t => sizeOf t < n + 1)
      (fun _ small _ mem => by have := Ty.sizeOf_lt_of_mem_recordFields mem; omega)
    simpa only [fieldsOrder_eq_compareLex] using laws
  have plain : TotalPreorderOn (fun l r : Ty => (compare l.tycon r.tycon).then (payloadOrder l r))
      (fun t => sizeOf t < n + 1) :=
    ((TotalPreorderOn.ofLinearOrder.comap Ty.tycon).mono (fun _ _ => trivial)).then
      (elems.then fields)
  have whole := ((plain.comap Ty.base).mono (Q := fun t => sizeOf t < n + 1)
      (fun t small => lt_of_le_of_lt (Ty.sizeOf_base_le t) small)).then
    ((wrapperOrder_laws.comap Ty.wrappers).mono (fun _ _ => trivial))
  have same : typeOrder = fun t u => ((compare t.base.tycon u.base.tycon).then
      (payloadOrder t.base u.base)).then (wrapperOrder t.wrappers u.wrappers) := by
    funext t u
    rw [typeOrder_eq_then_wrapperOrder,
      typeOrder_eq_of_not_isWrapper (Ty.isWrapper_base t) (Ty.isWrapper_base u)]
  rw [same]
  exact whole

/-- `typeOrder` is a total preorder on all types. -/
theorem typeOrder_laws : TotalPreorderOn typeOrder (fun _ => True) := by
  have bounded : ∀ n, TotalPreorderOn typeOrder (fun t => sizeOf t < n) := by
    intro n
    induction n with
    | zero => exact ⟨fun small => absurd small (Nat.not_lt_zero _),
        fun small => absurd small (Nat.not_lt_zero _)⟩
    | succ n ih => exact typeOrder_laws_succ ih
  refine ⟨fun {a b} _ _ => ?_, fun {a b c} _ _ _ => ?_⟩
  · exact (bounded (sizeOf a + sizeOf b + 1)).swap (by omega) (by omega)
  · exact (bounded (sizeOf a + sizeOf b + sizeOf c + 1)).trans (by omega) (by omega) (by omega)

/-- `OrderTypes` obeys the laws of an index order on types without empty records. -/
theorem orderTypes_orderLaws : Orly.Atom.OrderLaws orderTypes Ty.NoEmptyRecord :=
  Orly.Atom.OrderLaws.of_refines (typeOrder_laws.mono (fun _ _ => trivial))
    (fun hl hr => orderTypesVisitor_eq _ _ hl hr none)

end Orly.Sabot

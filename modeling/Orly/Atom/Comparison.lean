import Mathlib
import Orly.Lib.ThreeWay

/-! The result type every comparison of the atom layer returns, with the small
predicates the source writes around it (`orly/atom/comparison.h`).

`TComparison` has a fourth value, `Ne`, for values that are unequal but cannot be
ordered. None of the orders modelled here ever produces it, but it is part of the
type the C++ functions return, so it stays part of the model; `ofOrdering` is the
embedding of the three ordered outcomes. -/
namespace Orly.Atom

/-- `Atom::TComparison`. -/
inductive TComparison where
  | lt
  | eq
  | gt
  | ne
  deriving DecidableEq, Repr

namespace TComparison

/-- `IsEq`: true for `==`. -/
def isEq : TComparison → Bool
  | .eq => true
  | _ => false

/-- `IsNe`: true for `!=`, which includes `Lt` and `Gt`. -/
def isNe (c : TComparison) : Bool := !c.isEq

/-- `IsGe`. The source throws `TNotOrdered` on `Ne`; no comparison that reaches a
call of it in this development is `Ne`. -/
def isGe : TComparison → Bool
  | .gt => true
  | .eq => true
  | _ => false

/-- `IsLt`, with the same caveat as `isGe` on `Ne`. -/
def isLt : TComparison → Bool
  | .lt => true
  | _ => false

/-- `GetDesc`, and the `Reverse` of the type visitor: swap `Lt` and `Gt`. -/
def reverse : TComparison → TComparison
  | .lt => .gt
  | .gt => .lt
  | c => c

/-- The three ordered outcomes. -/
def ofOrdering : Ordering → TComparison
  | .lt => .lt
  | .eq => .eq
  | .gt => .gt

theorem isEq_iff {c : TComparison} : c.isEq = true ↔ c = .eq := by
  cases c <;> simp [isEq]

@[simp] theorem isEq_ofOrdering (o : Ordering) : (ofOrdering o).isEq = (o == .eq) := by
  cases o <;> rfl

@[simp] theorem reverse_ofOrdering (o : Ordering) : (ofOrdering o).reverse = ofOrdering o.swap := by
  cases o <;> rfl

@[simp] theorem ofOrdering_ne_ne (o : Ordering) : ofOrdering o ≠ .ne := by
  cases o <;> simp [ofOrdering]

theorem ofOrdering_injective : Function.Injective ofOrdering := by
  intro a b same
  cases a <;> cases b <;> first | rfl | cases same

@[simp] theorem ofOrdering_inj {a b : Ordering} : ofOrdering a = ofOrdering b ↔ a = b :=
  ofOrdering_injective.eq_iff

@[simp] theorem ofOrdering_eq_eq {o : Ordering} : ofOrdering o = .eq ↔ o = .eq := by
  cases o <;> simp [ofOrdering]

@[simp] theorem ofOrdering_eq_lt {o : Ordering} : ofOrdering o = .lt ↔ o = .lt := by
  cases o <;> simp [ofOrdering]

@[simp] theorem ofOrdering_eq_gt {o : Ordering} : ofOrdering o = .gt ↔ o = .gt := by
  cases o <;> simp [ofOrdering]

@[simp] theorem isLt_ofOrdering (o : Ordering) : (ofOrdering o).isLt = decide (o = .lt) := by
  cases o <;> rfl

end TComparison

/-- `CompareOrdered`-style comparison by the C++ `==` and `<` of a value type, in the
form the sabot visitors write it: `lhs == rhs ? Eq : (lhs < rhs ? Lt : Gt)`. -/
def compareBy {α : Type} (eq lt : α → α → Bool) (lhs rhs : α) : TComparison :=
  if eq lhs rhs then .eq else if lt lhs rhs then .lt else .gt

/-- The same comparison for a type whose `==` and `<` are the ones of a linear order. -/
def compareLinear {α : Type} [LinearOrder α] (lhs rhs : α) : TComparison :=
  compareBy (fun a b => decide (a = b)) (fun a b => decide (a < b)) lhs rhs

/-- A comparison by `==` and `<` that agree with equality and order of a key into a
linear order is the three-way comparison of the keys. -/
theorem compareBy_eq_ofOrdering {α β : Type} [LinearOrder β] {eq lt : α → α → Bool}
    (key : α → β) {lhs rhs : α} (eqIff : eq lhs rhs = true ↔ key lhs = key rhs)
    (ltIff : lt lhs rhs = true ↔ key lhs < key rhs) :
    compareBy eq lt lhs rhs = TComparison.ofOrdering (compare (key lhs) (key rhs)) := by
  rcases lt_trichotomy (key lhs) (key rhs) with less | same | greater
  · have notEq : eq lhs rhs = false := Bool.eq_false_iff.mpr (fun h => less.ne (eqIff.mp h))
    rw [compareBy, notEq, ltIff.mpr less, compare_lt_iff_lt.mpr less]
    rfl
  · rw [compareBy, eqIff.mpr same, compare_eq_iff_eq.mpr same]
    rfl
  · have notEq : eq lhs rhs = false := Bool.eq_false_iff.mpr (fun h => greater.ne' (eqIff.mp h))
    have notLt : lt lhs rhs = false :=
      Bool.eq_false_iff.mpr (fun h => (lt_asymm greater) (ltIff.mp h))
    rw [compareBy, notEq, notLt, compare_gt_iff_gt.mpr greater]
    rfl

theorem compareLinear_eq_ofOrdering {α : Type} [LinearOrder α] (lhs rhs : α) :
    compareLinear lhs rhs = TComparison.ofOrdering (compare lhs rhs) :=
  compareBy_eq_ofOrdering id (by simp) (by simp)

/-- A comparison by `==` and `<` answers `Lt` exactly where `<` holds, when `<` never
holds of two values `==` calls equal. -/
theorem isLt_compareBy {α : Type} {eq lt : α → α → Bool} {lhs rhs : α}
    (apart : lt lhs rhs = true → eq lhs rhs = false) : (compareBy eq lt lhs rhs).isLt = lt lhs rhs := by
  unfold compareBy
  cases equal : eq lhs rhs <;> cases less : lt lhs rhs <;> simp_all [TComparison.isLt]

/-- A comparison by `==` and `<` answers `Eq` exactly where `==` holds. -/
theorem compareBy_eq_eq_iff {α : Type} {eq lt : α → α → Bool} {lhs rhs : α} :
    compareBy eq lt lhs rhs = .eq ↔ eq lhs rhs = true := by
  unfold compareBy
  split_ifs <;> simp_all

theorem compareBy_ne_ne {α : Type} (eq lt : α → α → Bool) (lhs rhs : α) :
    compareBy eq lt lhs rhs ≠ .ne := by
  unfold compareBy
  split_ifs <;> simp

/-- What an index needs of a comparison on the values satisfying `P`: it always
answers `Lt`, `Eq` or `Gt`, a value is equal to itself, swapping the arguments
reverses the answer, and `Lt` is transitive. -/
structure OrderLaws {α : Type} (cmp : α → α → Option TComparison) (P : α → Prop) : Prop where
  ordered : ∀ {a b}, P a → P b → ∃ o : Ordering, cmp a b = some (.ofOrdering o)
  refl : ∀ {a}, P a → cmp a a = some .eq
  reverse : ∀ {a b}, P a → P b → cmp b a = (cmp a b).map TComparison.reverse
  lt_trans : ∀ {a b c}, P a → P b → P c → cmp a b = some .lt → cmp b c = some .lt →
    cmp a c = some .lt

/-- A comparison that computes a total preorder on `P` obeys the laws there. -/
theorem OrderLaws.of_refines {α : Type} {cmp : α → α → Option TComparison} {P : α → Prop}
    {ord : α → α → Ordering} (laws : ThreeWay.TotalPreorderOn ord P)
    (refines : ∀ {a b}, P a → P b → cmp a b = some (.ofOrdering (ord a b))) : OrderLaws cmp P where
  ordered pa pb := ⟨ord _ _, refines pa pb⟩
  refl pa := by rw [refines pa pa, laws.refl pa]; rfl
  reverse pa pb := by
    rw [refines pb pa, refines pa pb, laws.swap pa pb, Option.map_some,
      TComparison.reverse_ofOrdering]
  lt_trans pa pb pc ab bc := by
    rw [refines pa pb, Option.some_inj, TComparison.ofOrdering_eq_lt] at ab
    rw [refines pb pc, Option.some_inj, TComparison.ofOrdering_eq_lt] at bc
    rw [refines pa pc, laws.lt_trans pa pb pc ab bc]
    rfl

end Orly.Atom

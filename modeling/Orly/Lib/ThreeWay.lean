import Mathlib.Order.Basic
import Mathlib.Data.List.Forall2

/-! Three-way comparisons that are total preorders on part of their domain.

A comparator built by a visitor is usually lawful only on the values it is meant
for (one type, no NaN, no malformed input), so the laws here are stated relative to
a predicate, and every combinator that builds a comparator from smaller ones
(reversal, `Ordering.then`, `List.compareLex`, element by element or position by
position) carries them over. Transitivity is stated on `isLE`, the form
`Std.TransCmp` uses; the strict and mixed forms follow. -/
namespace ThreeWay

variable {α β : Type*}

/-- `cmp` is a total preorder on the values satisfying `P`: swapping its arguments
swaps its answer, and `≤` is transitive. -/
structure TotalPreorderOn (cmp : α → α → Ordering) (P : α → Prop) : Prop where
  swap : ∀ {a b}, P a → P b → cmp b a = (cmp a b).swap
  trans : ∀ {a b c}, P a → P b → P c → (cmp a b).isLE → (cmp b c).isLE → (cmp a c).isLE

namespace TotalPreorderOn

variable {cmp : α → α → Ordering} {P Q : α → Prop} {a b c : α}

theorem refl (laws : TotalPreorderOn cmp P) (pa : P a) : cmp a a = .eq := by
  have self := laws.swap pa pa
  cases hc : cmp a a <;> simp_all

theorem lt_of_le_of_lt (laws : TotalPreorderOn cmp P) (pa : P a) (pb : P b) (pc : P c)
    (ab : (cmp a b).isLE) (bc : cmp b c = .lt) : cmp a c = .lt := by
  by_contra notLt
  have ca : (cmp c a).isLE := by
    rw [laws.swap pa pc]
    cases h : cmp a c <;> simp_all
  have cb := laws.trans pc pa pb ca ab
  rw [laws.swap pb pc, bc] at cb
  exact absurd cb (by decide)

theorem lt_of_lt_of_le (laws : TotalPreorderOn cmp P) (pa : P a) (pb : P b) (pc : P c)
    (ab : cmp a b = .lt) (bc : (cmp b c).isLE) : cmp a c = .lt := by
  by_contra notLt
  have ca : (cmp c a).isLE := by
    rw [laws.swap pa pc]
    cases h : cmp a c <;> simp_all
  have ba := laws.trans pb pc pa bc ca
  rw [laws.swap pa pb, ab] at ba
  exact absurd ba (by decide)

theorem lt_trans (laws : TotalPreorderOn cmp P) (pa : P a) (pb : P b) (pc : P c)
    (ab : cmp a b = .lt) (bc : cmp b c = .lt) : cmp a c = .lt :=
  laws.lt_of_lt_of_le pa pb pc ab (Ordering.isLE_of_eq_lt bc)

theorem eq_trans (laws : TotalPreorderOn cmp P) (pa : P a) (pb : P b) (pc : P c)
    (ab : cmp a b = .eq) (bc : cmp b c = .eq) : cmp a c = .eq := by
  have ac := laws.trans pa pb pc (Ordering.isLE_of_eq_eq ab) (Ordering.isLE_of_eq_eq bc)
  have ba : cmp b a = .eq := by rw [laws.swap pa pb, ab]; rfl
  have cb : cmp c b = .eq := by rw [laws.swap pb pc, bc]; rfl
  have ca := laws.trans pc pb pa (Ordering.isLE_of_eq_eq cb) (Ordering.isLE_of_eq_eq ba)
  rw [laws.swap pa pc] at ca
  cases h : cmp a c <;> simp_all

theorem mono (laws : TotalPreorderOn cmp P) (sub : ∀ x, Q x → P x) : TotalPreorderOn cmp Q :=
  ⟨fun qa qb => laws.swap (sub _ qa) (sub _ qb),
    fun qa qb qc => laws.trans (sub _ qa) (sub _ qb) (sub _ qc)⟩

/-- A comparator that agrees with a total preorder on `P` is one. -/
theorem congr {cmp' : α → α → Ordering} (laws : TotalPreorderOn cmp P)
    (same : ∀ {a b}, P a → P b → cmp a b = cmp' a b) : TotalPreorderOn cmp' P :=
  ⟨fun pa pb => by rw [← same pa pb, ← same pb pa, laws.swap pa pb],
    fun pa pb pc => by rw [← same pa pb, ← same pb pc, ← same pa pc]; exact laws.trans pa pb pc⟩

/-- The comparator that finds everything equal is a total preorder. -/
theorem const_eq : TotalPreorderOn (fun _ _ : α => Ordering.eq) P :=
  ⟨fun _ _ => rfl, fun _ _ _ _ _ => rfl⟩

/-- Reversing a total preorder (a `desc` modifier) gives one. -/
theorem swapped (laws : TotalPreorderOn cmp P) :
    TotalPreorderOn (fun x y => (cmp x y).swap) P := by
  refine ⟨fun pa pb => by rw [laws.swap pa pb], fun pa pb pc ab bc => ?_⟩
  rw [← laws.swap pa pb] at ab
  rw [← laws.swap pb pc] at bc
  rw [← laws.swap pa pc]
  exact laws.trans pc pb pa bc ab

/-- Pulling a total preorder back along a map. -/
theorem comap (f : β → α) (laws : TotalPreorderOn cmp P) :
    TotalPreorderOn (fun x y => cmp (f x) (f y)) (fun x => P (f x)) :=
  ⟨fun pa pb => laws.swap pa pb, fun pa pb pc => laws.trans pa pb pc⟩

/-- Breaking the ties of one total preorder with a second comparator gives a total
preorder, provided the second obeys the laws among values the first finds equal. -/
theorem thenOn {cmp' : α → α → Ordering} (first : TotalPreorderOn cmp P)
    (swap' : ∀ {a b}, P a → P b → cmp a b = .eq → cmp' b a = (cmp' a b).swap)
    (trans' : ∀ {a b c}, P a → P b → P c → cmp a b = .eq → cmp b c = .eq →
      (cmp' a b).isLE → (cmp' b c).isLE → (cmp' a c).isLE) :
    TotalPreorderOn (fun x y => (cmp x y).then (cmp' x y)) P := by
  refine ⟨fun {x y} pa pb => ?_, fun pa pb pc ab bc => ?_⟩
  · by_cases tie : cmp x y = .eq
    · rw [first.swap pa pb, tie, swap' pa pb tie]; rfl
    · rw [first.swap pa pb, Ordering.swap_then]
      cases h : cmp x y <;> simp_all
  · rw [Ordering.isLE_then_iff_or] at ab bc ⊢
    rcases ab with ab | ⟨ab, ab'⟩
    · exact Or.inl (first.lt_of_lt_of_le pa pb pc ab
        (by rcases bc with bc | ⟨bc, -⟩ <;> simp [bc]))
    · rcases bc with bc | ⟨bc, bc'⟩
      · exact Or.inl (first.lt_of_le_of_lt pa pb pc (by simp [ab]) bc)
      · exact Or.inr ⟨first.eq_trans pa pb pc ab bc, trans' pa pb pc ab bc ab' bc'⟩

/-- Breaking the ties of one total preorder with another gives one. -/
theorem «then» {cmp' : α → α → Ordering} (first : TotalPreorderOn cmp P)
    (second : TotalPreorderOn cmp' P) :
    TotalPreorderOn (fun x y => (cmp x y).then (cmp' x y)) P :=
  first.thenOn (fun pa pb _ => second.swap pa pb)
    (fun pa pb pc _ _ => second.trans pa pb pc)

/-- A linear order's `compare` is a total preorder everywhere. -/
theorem ofLinearOrder [LinearOrder α] :
    TotalPreorderOn (compare : α → α → Ordering) (fun _ => True) :=
  ⟨fun _ _ => Std.OrientedCmp.eq_swap, fun _ _ _ => Std.TransCmp.isLE_trans⟩

end TotalPreorderOn

section Lex

variable {cmp : α → α → Ordering}

theorem compareLex_swap_of_forall {xs ys : List α}
    (swap : ∀ x ∈ xs, ∀ y ∈ ys, cmp y x = (cmp x y).swap) :
    List.compareLex cmp ys xs = (List.compareLex cmp xs ys).swap := by
  induction xs generalizing ys with
  | nil => cases ys <;> rfl
  | cons x xs ih =>
    cases ys with
    | nil => rfl
    | cons y ys =>
      rw [List.compareLex_cons_cons, List.compareLex_cons_cons, Ordering.swap_then,
        swap x (by simp) y (by simp),
        ih (fun x' mx y' my => swap x' (by simp [mx]) y' (by simp [my]))]

/-- The lexicographic extension of a total preorder on `P` is a total preorder on
the lists whose elements all satisfy `P`. -/
theorem TotalPreorderOn.compareLex {P : α → Prop} (laws : TotalPreorderOn cmp P) :
    TotalPreorderOn (List.compareLex cmp) (fun l => ∀ x ∈ l, P x) := by
  refine ⟨fun pa pb => compareLex_swap_of_forall
    (fun x mx y my => laws.swap (pa x mx) (pb y my)), ?_⟩
  intro xs ys zs
  induction xs generalizing ys zs with
  | nil => intro _ _ _ _ _; exact List.isLE_compareLex_nil_left
  | cons x xs ih =>
    intro px py pz xy yz
    cases ys with
    | nil => exact absurd xy (by simp [List.compareLex_cons_nil])
    | cons y ys =>
      cases zs with
      | nil => exact absurd yz (by simp [List.compareLex_cons_nil])
      | cons z zs =>
        rw [List.compareLex_cons_cons, Ordering.isLE_then_iff_or] at xy yz ⊢
        have hx := px x (by simp)
        have hy := py y (by simp)
        have hz := pz z (by simp)
        rcases xy with xy | ⟨xy, xys⟩
        · exact Or.inl (laws.lt_of_lt_of_le hx hy hz xy
            (by rcases yz with yz | ⟨yz, -⟩ <;> simp [yz]))
        · rcases yz with yz | ⟨yz, yzs⟩
          · exact Or.inl (laws.lt_of_le_of_lt hx hy hz (by simp [xy]) yz)
          · exact Or.inr ⟨laws.eq_trans hx hy hz xy yz,
              ih (fun a ma => px a (by simp [ma])) (fun a ma => py a (by simp [ma]))
                (fun a ma => pz a (by simp [ma])) xys yzs⟩

/-- Position by position: when the `i`-th elements of the lists satisfy the `i`-th
predicate of `Ps`, on which `cmp` is a total preorder, the lexicographic comparison
is a total preorder on such lists. This is the shape of a tuple of fixed type. -/
theorem TotalPreorderOn.compareLex_forall₂ {Ps : List (α → Prop)}
    (laws : ∀ P ∈ Ps, TotalPreorderOn cmp P) :
    TotalPreorderOn (List.compareLex cmp) (List.Forall₂ (fun P x => P x) Ps) := by
  induction Ps with
  | nil =>
    refine ⟨fun pa pb => ?_, fun pa pb pc _ _ => ?_⟩
    · rw [List.forall₂_nil_left_iff.mp pa, List.forall₂_nil_left_iff.mp pb]; rfl
    · rw [List.forall₂_nil_left_iff.mp pa, List.forall₂_nil_left_iff.mp pc]; rfl
  | cons P Ps ih =>
    have head := laws P (by simp)
    have tail := ih (fun Q mq => laws Q (by simp [mq]))
    refine ⟨fun pa pb => ?_, fun pa pb pc ab bc => ?_⟩
    · obtain ⟨x, xs, hx, hxs, rfl⟩ := List.forall₂_cons_left_iff.mp pa
      obtain ⟨y, ys, hy, hys, rfl⟩ := List.forall₂_cons_left_iff.mp pb
      rw [List.compareLex_cons_cons, List.compareLex_cons_cons, Ordering.swap_then,
        head.swap hx hy, tail.swap hxs hys]
    · obtain ⟨x, xs, hx, hxs, rfl⟩ := List.forall₂_cons_left_iff.mp pa
      obtain ⟨y, ys, hy, hys, rfl⟩ := List.forall₂_cons_left_iff.mp pb
      obtain ⟨z, zs, hz, hzs, rfl⟩ := List.forall₂_cons_left_iff.mp pc
      rw [List.compareLex_cons_cons, Ordering.isLE_then_iff_or] at ab bc ⊢
      rcases ab with ab | ⟨ab, abs⟩
      · exact Or.inl (head.lt_of_lt_of_le hx hy hz ab
          (by rcases bc with bc | ⟨bc, -⟩ <;> simp [bc]))
      · rcases bc with bc | ⟨bc, bcs⟩
        · exact Or.inl (head.lt_of_le_of_lt hx hy hz (by simp [ab]) bc)
        · exact Or.inr ⟨head.eq_trans hx hy hz ab bc, tail.trans hxs hys hzs abs bcs⟩

/-- Lists that compare `eq` lexicographically are equal, when elements that compare `eq`
are. -/
theorem eq_of_compareLex_eq {xs ys : List α}
    (eq : ∀ x ∈ xs, ∀ y ∈ ys, cmp x y = .eq → x = y) (same : List.compareLex cmp xs ys = .eq) :
    xs = ys := by
  induction xs generalizing ys with
  | nil =>
    cases ys with
    | nil => rfl
    | cons y ys => simp [List.compareLex_nil_cons] at same
  | cons x xs ih =>
    cases ys with
    | nil => simp [List.compareLex_cons_nil] at same
    | cons y ys =>
      rw [List.compareLex_cons_cons, Ordering.then_eq_eq] at same
      rw [eq x (by simp) y (by simp) same.1,
        ih (fun x' mx y' my => eq x' (by simp [mx]) y' (by simp [my])) same.2]

end Lex

end ThreeWay

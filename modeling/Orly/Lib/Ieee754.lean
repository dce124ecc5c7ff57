import Mathlib.Order.Basic
import Mathlib.Tactic.Ring

/-! Comparison of IEEE 754 binary floating-point values held as bit patterns.

A value is its bit pattern in a binary interchange format: a sign bit above
`exponentBits` exponent bits above `mantissaBits` mantissa bits. The quiet
comparisons `==` and `<` of IEEE 754 §5.11 order every value that is not a NaN by
its position on the extended real line, with `-0 == +0`; a NaN is unordered, so both
comparisons are false on it. For the sign-magnitude encoding that position is
`key`: the magnitude bits read as a natural number, negated when the sign bit is
set. -/
namespace Ieee754

/-- A binary interchange format. -/
structure Format where
  exponentBits : Nat
  mantissaBits : Nat

namespace Format

/-- binary32, C++ `float`. -/
def binary32 : Format := ⟨8, 23⟩

/-- binary64, C++ `double`. -/
def binary64 : Format := ⟨11, 52⟩

variable (f : Format)

/-- The exponent and mantissa bits together. -/
def magnitude (bits : Nat) : Nat := bits % 2 ^ (f.exponentBits + f.mantissaBits)

/-- The sign bit. -/
def signBit (bits : Nat) : Bool := bits / 2 ^ (f.exponentBits + f.mantissaBits) % 2 == 1

/-- All exponent bits set and a nonzero mantissa. -/
def isNaN (bits : Nat) : Bool :=
  f.magnitude bits / 2 ^ f.mantissaBits == 2 ^ f.exponentBits - 1 &&
    bits % 2 ^ f.mantissaBits != 0

/-- The position of a non-NaN value on the extended real line, both zeros at `0`. -/
def key (bits : Nat) : Int :=
  if f.signBit bits then -(f.magnitude bits : Int) else f.magnitude bits

/-- IEEE `compareQuietEqual`. -/
def eq (a b : Nat) : Bool := !f.isNaN a && !f.isNaN b && f.key a == f.key b

/-- IEEE `compareQuietLess`. -/
def lt (a b : Nat) : Bool := !f.isNaN a && !f.isNaN b && decide (f.key a < f.key b)

variable {f}

theorem eq_iff_of_not_isNaN {a b : Nat} (na : f.isNaN a = false) (nb : f.isNaN b = false) :
    f.eq a b = true ↔ f.key a = f.key b := by
  simp [eq, na, nb]

theorem lt_iff_of_not_isNaN {a b : Nat} (na : f.isNaN a = false) (nb : f.isNaN b = false) :
    f.lt a b = true ↔ f.key a < f.key b := by
  simp [lt, na, nb]

/-- Two values `<` orders are not `==`. -/
theorem eq_eq_false_of_lt {a b : Nat} (less : f.lt a b = true) : f.eq a b = false := by
  simp only [lt, Bool.and_eq_true, Bool.not_eq_true', decide_eq_true_eq] at less
  simp only [eq, less.1.1, less.1.2, Bool.not_false, Bool.true_and, beq_eq_false_iff_ne]
  exact ne_of_lt less.2

@[simp] theorem isNaN_zero : f.isNaN 0 = false := by
  simp [isNaN]

@[simp] theorem key_zero : f.key 0 = 0 := by
  simp [key, magnitude]

theorem eq_zero_iff {a : Nat} : f.eq a 0 = true ↔ f.isNaN a = false ∧ f.key a = 0 := by
  simp [eq]

/-- `==` relates a value to zero exactly when it relates any value it equals. -/
theorem eq_zero_congr {a b : Nat} (same : f.eq a b = true) : f.eq a 0 = f.eq b 0 := by
  simp only [eq, isNaN_zero, key_zero, Bool.not_false, Bool.and_true, Bool.and_eq_true,
    Bool.not_eq_true', beq_iff_eq] at same ⊢
  rw [same.1.1, same.1.2, same.2]

theorem natAbs_key (a : Nat) : (f.key a).natAbs = f.magnitude a := by
  unfold key
  split <;> simp

theorem key_neg_iff {a : Nat} : f.key a < 0 ↔ f.signBit a = true ∧ f.magnitude a ≠ 0 := by
  unfold key
  cases f.signBit a with
  | false => simp
  | true =>
    simp only [if_true, Left.neg_neg_iff, true_and]
    omega

/-- Below the format's width, the sign bit is the bit above the magnitude. -/
theorem div_eq_of_signBit {a : Nat} (width : a < 2 ^ (f.exponentBits + f.mantissaBits + 1)) :
    a / 2 ^ (f.exponentBits + f.mantissaBits) = if f.signBit a then 1 else 0 := by
  have below : a / 2 ^ (f.exponentBits + f.mantissaBits) < 2 := by
    rw [Nat.div_lt_iff_lt_mul (Nat.two_pow_pos _)]
    rw [Nat.pow_succ] at width
    omega
  unfold signBit
  generalize a / 2 ^ (f.exponentBits + f.mantissaBits) = q at below ⊢
  rcases (by omega : q = 0 ∨ q = 1) with rfl | rfl <;> decide

/-- Two values of the format that `==` calls equal and that are not zeros are the same
bit pattern: only the two zeros are equal without being the same. -/
theorem eq_of_eq_of_ne_zero {a b : Nat} (widthA : a < 2 ^ (f.exponentBits + f.mantissaBits + 1))
    (widthB : b < 2 ^ (f.exponentBits + f.mantissaBits + 1)) (same : f.eq a b = true)
    (nonzero : f.eq a 0 = false) : a = b := by
  simp only [eq, Bool.and_eq_true, Bool.not_eq_true', beq_iff_eq] at same
  have keyNonzero : f.key a ≠ 0 := fun zero => by simp [eq_zero_iff.mpr ⟨same.1.1, zero⟩] at nonzero
  have magnitudes : f.magnitude a = f.magnitude b := by rw [← natAbs_key, ← natAbs_key, same.2]
  have signs : f.signBit a = f.signBit b := by
    have magnitudeA : f.magnitude a ≠ 0 := fun zero => keyNonzero (by
      rw [← Int.natAbs_eq_zero, natAbs_key, zero])
    have magnitudeB : f.magnitude b ≠ 0 := magnitudes ▸ magnitudeA
    have negative : f.key a < 0 ↔ f.key b < 0 := by rw [same.2]
    rw [key_neg_iff, key_neg_iff] at negative
    cases signA : f.signBit a <;> cases signB : f.signBit b <;> simp_all
  have highA := Nat.div_add_mod a (2 ^ (f.exponentBits + f.mantissaBits))
  have highB := Nat.div_add_mod b (2 ^ (f.exponentBits + f.mantissaBits))
  rw [div_eq_of_signBit widthA] at highA
  rw [div_eq_of_signBit widthB, ← signs] at highB
  unfold magnitude at magnitudes
  omega

/-- A NaN is not equal to itself. -/
theorem eq_self_of_isNaN {a : Nat} (nan : f.isNaN a = true) : f.eq a a = false := by
  simp [eq, nan]

/-- Nor is it less than itself. -/
theorem lt_self_of_isNaN {a : Nat} (nan : f.isNaN a = true) : f.lt a a = false := by
  simp [lt, nan]

end Format

end Ieee754

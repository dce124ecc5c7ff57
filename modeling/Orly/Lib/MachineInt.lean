import Mathlib.Data.Nat.Size
import Mathlib.Data.BitVec

/-! Facts about machine integers: base-128 digits of 64-bit integers, and the sign of a
two's complement bit vector.

A 64-bit integer is written seven bits a byte: its low digit is `v &&& 0x7F`, the rest
`v >>> 7`, and a byte may carry a flag in its high bit. The first section turns these into
`%`, `/` and `+` on `Nat`, and an `|||` of a digit above a smaller accumulator into a sum.
The second gives an arithmetic shift right by all but one bit, and the negation of the
lowest bit, by the sign and the lowest bit, and a shift left by one as a product. The
third says when the balanced residue that 64-bit arithmetic takes leaves an integer as
it is. -/
namespace MachineInt

section Base128

theorem toNat_shiftRight_seven (v : UInt64) : (v >>> 7).toNat = v.toNat / 128 := by
  rw [UInt64.toNat_shiftRight]
  simp [Nat.shiftRight_eq_div_pow]

theorem toNat_lowDigit (v : UInt64) : ((v &&& 0x7F).toUInt8).toNat = v.toNat % 128 := by
  rw [UInt64.toNat_toUInt8, UInt64.toNat_and]
  have mask : (0x7F : UInt64).toNat = 2 ^ 7 - 1 := rfl
  rw [mask, Nat.and_two_pow_sub_one_eq_mod]
  omega

/-- Setting the flag bit of a digit adds 128. -/
theorem toNat_or_flag {b : UInt8} (digit : b.toNat < 128) : (b ||| 0x80).toNat = b.toNat + 128 := by
  rw [UInt8.toNat_or]
  have flag : (0x80 : UInt8).toNat = 2 ^ 7 * 1 := rfl
  rw [flag, Nat.or_comm, ← Nat.two_pow_add_eq_or_of_lt digit]
  omega

/-- The digit of a byte, flag or not. -/
theorem toNat_and_digit (b : UInt8) : (b &&& 0x7F).toNat = b.toNat % 128 := by
  rw [UInt8.toNat_and]
  have mask : (0x7F : UInt8).toNat = 2 ^ 7 - 1 := rfl
  rw [mask, Nat.and_two_pow_sub_one_eq_mod]

/-- A byte has its flag bit clear exactly when it is a bare digit. -/
theorem and_flag_eq_zero_iff (b : UInt8) : b &&& 0x80 = 0 ↔ b.toNat < 128 := by
  have flag : (0x80 : UInt8).toNat = 2 ^ 7 := rfl
  have byte := b.toNat_lt
  rw [← UInt8.toNat_inj, UInt8.toNat_and, flag, UInt8.toNat_zero]
  constructor
  · intro clear
    have bit : (b.toNat &&& 2 ^ 7).testBit 7 = false := by rw [clear]; rfl
    rw [Nat.testBit_and, Nat.testBit_two_pow_self, Bool.and_true,
      Nat.testBit_eq_decide_div_mod_eq] at bit
    simp only [decide_eq_false_iff_not] at bit
    omega
  · intro digit
    apply Nat.eq_of_testBit_eq
    intro i
    rw [Nat.testBit_and, Nat.testBit_two_pow, Nat.zero_testBit]
    by_cases seven : i = 7
    · subst seven
      simp [Nat.testBit_lt_two_pow (show b.toNat < 2 ^ 7 by omega)]
    · simp [Ne.symm seven]

/-- Or-ing a value shifted above an accumulator that fits below the shift adds it. -/
theorem toNat_or_shiftLeft {accum x : UInt64} {shift : Nat} (low : accum.toNat < 2 ^ shift)
    (fits : accum.toNat + x.toNat * 2 ^ shift < 2 ^ 64) :
    (accum ||| x <<< shift.toUInt64).toNat = accum.toNat + x.toNat * 2 ^ shift := by
  by_cases zero : x.toNat = 0
  · have x0 : x = 0 := UInt64.toNat_inj.mp zero
    subst x0
    simp
  · have below : shift < 64 := by
      have pow : 2 ^ shift < 2 ^ 64 := by
        calc 2 ^ shift ≤ x.toNat * 2 ^ shift := Nat.le_mul_of_pos_left _ (Nat.pos_of_ne_zero zero)
          _ < 2 ^ 64 := by omega
      exact (Nat.pow_lt_pow_iff_right (by decide)).mp pow
    have amount : shift.toUInt64.toNat % 64 = shift := by
      rw [Nat.toUInt64_eq, UInt64.toNat_ofNat', Nat.mod_eq_of_lt (by omega : shift < 2 ^ 64),
        Nat.mod_eq_of_lt below]
    rw [UInt64.toNat_or, UInt64.toNat_shiftLeft, amount, Nat.shiftLeft_eq,
      Nat.mod_eq_of_lt (by omega), Nat.or_comm, Nat.mul_comm, ← Nat.two_pow_add_eq_or_of_lt low]
    omega

end Base128

section TwosComplement

variable {w : Nat}

theorem getElem_last_eq_msb (x : BitVec w) (last : w - 1 < w) : x[w - 1] = x.msb := by
  rw [BitVec.msb_eq_getLsbD_last, BitVec.getLsbD_eq_getElem last]

/-- Shifting right arithmetically by all but one bit spreads the sign over every bit. -/
theorem sshiftRight_sign (x : BitVec w) :
    x.sshiftRight (w - 1) = if x.msb then BitVec.allOnes w else 0#w := by
  ext i hi
  rw [BitVec.getElem_sshiftRight]
  split
  · have last : w - 1 + i = w - 1 := by omega
    simp only [last, getElem_last_eq_msb x (Nat.sub_one_lt_of_lt hi)]
    cases x.msb <;> simp
  · cases x.msb <;> simp

theorem and_one (n : BitVec w) : n &&& 1#w = if n.getLsbD 0 then 1#w else 0#w := by
  ext i hi
  by_cases zero : i = 0
  · subst zero
    cases lsb : n.getLsbD 0 <;> simp [← BitVec.getLsbD_eq_getElem, lsb]
  · cases n.getLsbD 0 <;> simp [zero]

/-- The negated lowest bit is all ones or all zeros. -/
theorem neg_and_one (n : BitVec w) :
    -(n &&& 1#w) = if n.getLsbD 0 then BitVec.allOnes w else 0#w := by
  rw [and_one]
  cases n.getLsbD 0 <;> simp [BitVec.neg_one_eq_allOnes]

theorem shiftLeft_one_eq_ofInt (x : BitVec w) : x <<< 1 = BitVec.ofInt w (2 * x.toInt) := by
  rw [BitVec.ofInt_mul, BitVec.ofInt_toInt, BitVec.shiftLeft_eq_mul_twoPow, BitVec.mul_comm]
  congr 1
  apply BitVec.eq_of_toNat_eq
  simp

end TwosComplement

section Residues

/-- An integer in the range of 64-bit two's complement is its own balanced residue. -/
theorem bmod_of_fits {n : Int} (low : -2 ^ 63 ≤ n) (high : n < 2 ^ 63) : n.bmod (2 ^ 64) = n :=
  Int.bmod_eq_of_le (by omega) (by omega)

theorem bmod_toInt (x : Int64) : x.toInt.bmod (2 ^ 64) = x.toInt :=
  bmod_of_fits x.le_toInt x.toInt_lt

end Residues

end MachineInt

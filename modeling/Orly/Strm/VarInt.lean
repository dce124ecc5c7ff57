import Orly.Lib.MachineInt
import Mathlib.Tactic.Ring

/-! The binary stream's var-ints (`strm/bin/var_int.cc`): `TVarIntEncoder::Encode` and the
resumable `TVarIntDecoder::Decode`.

The encoder writes a 64-bit value seven bits a byte, least significant first, with the
high bit set on every byte but the last: one byte for each started group of seven bits,
at least one and at most ten (`encode_length`). The decoder takes its bytes from any
number of buffers: `Decode` consumes a buffer up to the end of a value and stops there, and
`Shift`, the place of the next seven bits, is zero exactly when a value is complete. So a
caller that feeds the encodings of `v₁ … vₙ` to one decoder, split into chunks in any way,
and takes `operator*` after each call, gets back `v₁ … vₙ` (`feedChunks_encodings`), and
`operator*` is non-null after a prefix of the bytes exactly when it ends an encoding
(`deref_isSome_after_iff`).

What one byte does, `step`, is stated once; `decode_cons` says a call of `Decode` is steps
up to the first byte that ends a value, and every result on the decoder follows from
these two. -/
namespace Orly.Strm

open MachineInt

/-- `TVarIntEncoder::Encode(n)`: the bytes from `Buffer` to `Limit`. -/
def TVarIntEncoder.encode (n : UInt64) : List UInt8 :=
  let byte := (n &&& 0x7F).toUInt8
  let rest := n >>> 7
  if rest ≠ 0 then (byte ||| 0x80) :: TVarIntEncoder.encode rest else [byte]
termination_by n.toNat
decreasing_by
  have nonzero : (n >>> 7).toNat ≠ 0 := fun zero => ‹n >>> 7 ≠ 0› (UInt64.toNat_inj.mp zero)
  rw [toNat_shiftRight_seven] at nonzero ⊢
  omega

/-- `TVarIntDecoder`: the value decoded or being decoded, and the place of the next seven
bits, zero when the value is complete. -/
structure TVarIntDecoder where
  accum : UInt64
  shift : Nat
  deriving DecidableEq

namespace TVarIntDecoder

/-- A default-constructed decoder, as though it had just decoded zero. -/
def init : TVarIntDecoder := ⟨0, 0⟩

/-- `operator*`: the value, once it is complete. -/
def deref (d : TVarIntDecoder) : Option UInt64 := if d.shift = 0 then some d.accum else none

/-- `if (!Shift) Accum = 0`: a decoder at a complete value starts a new one. -/
def reset (d : TVarIntDecoder) : TVarIntDecoder := if d.shift = 0 then ⟨0, 0⟩ else d

/-- `Accum |= static_cast<int64_t>(byte & 0x7F) << Shift`. The signed shift wraps as the
unsigned one does, and a shift of 64 or more, which the code leaves undefined, is taken
modulo 64. -/
def orByte (d : TVarIntDecoder) (byte : UInt8) : UInt64 :=
  d.accum ||| (byte &&& 0x7F).toUInt64 <<< d.shift.toUInt64

/-- The loop of `Decode`: it consumes bytes until one without the high bit ends the value,
and returns the bytes it did not consume. -/
def consume (d : TVarIntDecoder) : List UInt8 → TVarIntDecoder × List UInt8
  | [] => (d, [])
  | byte :: bytes =>
    if byte &&& 0x80 ≠ 0 then consume ⟨d.orByte byte, d.shift + 7⟩ bytes
    else (⟨d.orByte byte, 0⟩, bytes)

/-- `TVarIntDecoder::Decode(start, limit)`: the decoder after the call, and the bytes from
the pointer it returns to `limit`. -/
def decode (d : TVarIntDecoder) (bytes : List UInt8) : TVarIntDecoder × List UInt8 :=
  d.reset.consume bytes

/-- What one byte does to the decoder, the reset at the start of a value included. -/
def step (d : TVarIntDecoder) (byte : UInt8) : TVarIntDecoder :=
  ⟨d.reset.orByte byte, if byte &&& 0x80 ≠ 0 then d.reset.shift + 7 else 0⟩

theorem step_shift_eq_zero_iff (d : TVarIntDecoder) (byte : UInt8) :
    (d.step byte).shift = 0 ↔ byte &&& 0x80 = 0 := by
  by_cases flag : byte &&& 0x80 = 0 <;> simp [step, flag]

theorem deref_isSome_iff (d : TVarIntDecoder) : d.deref.isSome ↔ d.shift = 0 := by
  by_cases zero : d.shift = 0 <;> simp [deref, zero]

theorem reset_of_shift_ne_zero {d : TVarIntDecoder} (midValue : d.shift ≠ 0) : d.reset = d := by
  simp [reset, midValue]

theorem step_of_shift_eq_zero {d : TVarIntDecoder} (complete : d.shift = 0) (byte : UInt8) :
    d.step byte = init.step byte := by
  simp [step, reset, complete, init]

/-- A call of `Decode` on a non-empty buffer: one step, then, unless that byte ended the
value, a call on the rest. -/
theorem decode_cons (d : TVarIntDecoder) (byte : UInt8) (bytes : List UInt8) :
    d.decode (byte :: bytes) =
      if (d.step byte).shift = 0 then (d.step byte, bytes) else (d.step byte).decode bytes := by
  by_cases flag : byte &&& 0x80 = 0
  · simp [decode, consume, step, flag]
  · have midValue : (d.step byte).shift ≠ 0 := by simp [step, flag]
    rw [if_neg midValue, decode, consume, if_pos flag, decode, reset_of_shift_ne_zero midValue]
    simp [step, flag]

theorem decode_nil_of_shift_ne_zero {d : TVarIntDecoder} (midValue : d.shift ≠ 0) :
    d.decode [] = (d, []) := by
  simp [decode, reset_of_shift_ne_zero midValue, consume]

theorem length_decode_cons_le (d : TVarIntDecoder) (byte : UInt8) (bytes : List UInt8) :
    (d.decode (byte :: bytes)).2.length ≤ bytes.length := by
  induction bytes generalizing d byte with
  | nil =>
    rw [decode_cons]
    split
    · rfl
    · simp [decode, consume]
  | cons next bytes ih =>
    rw [decode_cons]
    split
    · simp
    · exact Nat.le_succ_of_le (ih _ _)

end TVarIntDecoder

open TVarIntDecoder TVarIntEncoder

/-- A caller feeding a chunk to the decoder: it calls `Decode` until the chunk is consumed
and takes the value `operator*` points at after each call, if there is one. -/
def feedChunk (d : TVarIntDecoder) : List UInt8 → TVarIntDecoder × List UInt64
  | [] => (d, [])
  | byte :: bytes =>
    let decoded := d.decode (byte :: bytes)
    let fed := feedChunk decoded.1 decoded.2
    (fed.1, decoded.1.deref.toList ++ fed.2)
termination_by bytes => bytes.length
decreasing_by exact Nat.lt_succ_of_le (length_decode_cons_le d byte bytes)

/-- The caller feeding its chunks one after the other to one decoder. -/
def feedChunks (d : TVarIntDecoder) : List (List UInt8) → TVarIntDecoder × List UInt64
  | [] => (d, [])
  | chunk :: chunks =>
    let fed := feedChunk d chunk
    let rest := feedChunks fed.1 chunks
    (rest.1, fed.2 ++ rest.2)

section Feeding

/-- Feeding a chunk is feeding its bytes one by one: the calls of `Decode` end where they
end, and `operator*` is null at every other byte. -/
theorem feedChunk_cons (d : TVarIntDecoder) (byte : UInt8) (bytes : List UInt8) :
    feedChunk d (byte :: bytes) =
      ((feedChunk (d.step byte) bytes).1,
        (d.step byte).deref.toList ++ (feedChunk (d.step byte) bytes).2) := by
  rw [feedChunk]
  simp only [decode_cons]
  split
  · rfl
  · rename_i midValue
    have none : (d.step byte).deref = none := by simp [deref, midValue]
    cases bytes with
    | nil => simp [decode_nil_of_shift_ne_zero midValue, feedChunk, none]
    | cons next bytes =>
      conv => rhs; rw [feedChunk]
      simp [none]

theorem feedChunk_fst (d : TVarIntDecoder) (bytes : List UInt8) :
    (feedChunk d bytes).1 = bytes.foldl step d := by
  induction bytes generalizing d with
  | nil => simp [feedChunk]
  | cons byte bytes ih => rw [feedChunk_cons, ih, List.foldl_cons]

theorem feedChunk_append (d : TVarIntDecoder) (front back : List UInt8) :
    feedChunk d (front ++ back) =
      ((feedChunk (feedChunk d front).1 back).1,
        (feedChunk d front).2 ++ (feedChunk (feedChunk d front).1 back).2) := by
  induction front generalizing d with
  | nil => simp [feedChunk]
  | cons byte front ih =>
    rw [List.cons_append, feedChunk_cons, ih, feedChunk_cons]
    simp

/-- Which chunks the caller feeds makes no difference: only their bytes count. -/
theorem feedChunks_eq (d : TVarIntDecoder) (chunks : List (List UInt8)) :
    feedChunks d chunks = feedChunk d chunks.flatten := by
  induction chunks generalizing d with
  | nil => simp [feedChunks, feedChunk]
  | cons chunk chunks ih => rw [feedChunks, ih, List.flatten_cons, feedChunk_append]

/-- Bytes that all continue a value give no value. -/
theorem feedChunk_snd_of_continuing (d : TVarIntDecoder) :
    ∀ bytes : List UInt8, (∀ b ∈ bytes, b &&& 0x80 ≠ 0) → (feedChunk d bytes).2 = []
  | [], _ => by rw [feedChunk]
  | byte :: bytes, continuing => by
    have midValue : (d.step byte).shift ≠ 0 := fun zero =>
      continuing byte (List.mem_cons_self ..) ((step_shift_eq_zero_iff d byte).mp zero)
    rw [feedChunk_cons, feedChunk_snd_of_continuing _ bytes
      (fun b mem => continuing b (List.mem_cons_of_mem _ mem))]
    simp [deref, midValue]

end Feeding

section Encoding

theorem toNat_ofNat_of_lt {n : Nat} (fits : n < 2 ^ 64) : (UInt64.ofNat n).toNat = n := by
  rw [UInt64.toNat_ofNat', Nat.mod_eq_of_lt fits]

/-- The encoder's loop on `Nat` values: the low digit, flagged when more follow. -/
theorem encode_eq (n : UInt64) :
    encode n = if n.toNat / 128 = 0 then [UInt8.ofNat (n.toNat % 128)]
      else UInt8.ofNat (n.toNat % 128 + 128) :: encode (n >>> 7) := by
  rw [encode]
  have digit : (n &&& 0x7F).toUInt8 = UInt8.ofNat (n.toNat % 128) := by
    apply UInt8.toNat_inj.mp
    rw [toNat_lowDigit, UInt8.toNat_ofNat']
    omega
  have restZero : n >>> 7 = 0 ↔ n.toNat / 128 = 0 := by
    rw [← UInt64.toNat_inj, toNat_shiftRight_seven]
    rfl
  by_cases last : n.toNat / 128 = 0
  · rw [if_pos last, if_neg (not_not.mpr (restZero.mpr last)), digit]
  · rw [if_neg last, if_pos (mt restZero.mp last)]
    congr 1
    apply UInt8.toNat_inj.mp
    rw [toNat_or_flag (by rw [toNat_lowDigit]; omega), toNat_lowDigit, UInt8.toNat_ofNat']
    omega

theorem encode_ne_nil (n : UInt64) : encode n ≠ [] := by
  rw [encode_eq]
  split <;> simp

/-- The encoding's flags: set on every byte but the last. -/
theorem encode_eq_append (n : UInt64) :
    ∃ init last, encode n = init ++ [last] ∧ (∀ b ∈ init, b &&& 0x80 ≠ 0) ∧ last &&& 0x80 = 0 := by
  induction size : n.toNat using Nat.strong_induction_on generalizing n with
  | _ size ih =>
    rw [encode_eq]
    by_cases last : n.toNat / 128 = 0
    · rw [if_pos last]
      refine ⟨[], _, rfl, by simp, ?_⟩
      rw [and_flag_eq_zero_iff, UInt8.toNat_ofNat']
      omega
    · rw [if_neg last]
      obtain ⟨init, final, split, flagged, clear⟩ :=
        ih (n >>> 7).toNat (by rw [toNat_shiftRight_seven]; omega) (n >>> 7) rfl
      refine ⟨UInt8.ofNat (n.toNat % 128 + 128) :: init, final, by rw [split]; rfl, ?_, clear⟩
      intro b mem
      rcases List.mem_cons.mp mem with first | later
      · rw [first, Ne, and_flag_eq_zero_iff, UInt8.toNat_ofNat']
        omega
      · exact flagged b later

/-- Decoding an encoding from any place `shift`, above an accumulator that fits below it,
adds the value there. -/
theorem foldl_step_encode (n accum : UInt64) (shift : Nat) (low : accum.toNat < 2 ^ shift)
    (fits : accum.toNat + n.toNat * 2 ^ shift < 2 ^ 64) :
    (encode n).foldl step ⟨accum, shift⟩ = ⟨UInt64.ofNat (accum.toNat + n.toNat * 2 ^ shift), 0⟩ := by
  induction size : n.toNat using Nat.strong_induction_on generalizing n accum shift with
  | _ size ih =>
    subst size
    -- at a complete value the accumulator is below `2 ^ 0`, so the reset changes nothing
    have unreset : (⟨accum, shift⟩ : TVarIntDecoder).reset = ⟨accum, shift⟩ := by
      by_cases zero : shift = 0
      · have accumZero : accum = 0 := by
          apply UInt64.toNat_inj.mp
          rw [zero] at low
          simpa using low
        simp [reset, zero, accumZero]
      · exact reset_of_shift_ne_zero zero
    have digitFits : accum.toNat + n.toNat % 128 * 2 ^ shift < 2 ^ 64 := by
      have : n.toNat % 128 * 2 ^ shift ≤ n.toNat * 2 ^ shift :=
        Nat.mul_le_mul_right _ (Nat.mod_le _ _)
      omega
    rw [encode_eq]
    by_cases last : n.toNat / 128 = 0
    · rw [if_pos last, List.foldl_cons, List.foldl_nil]
      have clear : UInt8.ofNat (n.toNat % 128) &&& 0x80 = 0 := by
        rw [and_flag_eq_zero_iff, UInt8.toNat_ofNat']
        omega
      have digit : (UInt8.ofNat (n.toNat % 128) &&& 0x7F).toUInt64.toNat = n.toNat := by
        rw [UInt8.toNat_toUInt64, toNat_and_digit, UInt8.toNat_ofNat']
        omega
      have orBits := toNat_or_shiftLeft low (by rw [digit]; exact fits)
      rw [digit] at orBits
      rw [step, unreset]
      simp only [orByte, clear, ne_eq, not_true_eq_false, if_false, TVarIntDecoder.mk.injEq,
        and_true]
      apply UInt64.toNat_inj.mp
      rw [orBits, toNat_ofNat_of_lt fits]
    · rw [if_neg last, List.foldl_cons]
      have flagged : UInt8.ofNat (n.toNat % 128 + 128) &&& 0x80 ≠ 0 := by
        rw [Ne, and_flag_eq_zero_iff, UInt8.toNat_ofNat']
        omega
      have digit : (UInt8.ofNat (n.toNat % 128 + 128) &&& 0x7F).toUInt64.toNat = n.toNat % 128 := by
        rw [UInt8.toNat_toUInt64, toNat_and_digit, UInt8.toNat_ofNat']
        omega
      have orBits := toNat_or_shiftLeft low (by rw [digit]; exact digitFits)
      rw [digit] at orBits
      have stepped : step ⟨accum, shift⟩ (UInt8.ofNat (n.toNat % 128 + 128)) =
          ⟨accum ||| (UInt8.ofNat (n.toNat % 128 + 128) &&& 0x7F).toUInt64 <<< shift.toUInt64,
            shift + 7⟩ := by
        rw [step, unreset]
        simp only [orByte, flagged, ne_eq, not_false_eq_true, if_true]
      -- the rest of the value sits seven bits higher
      have split : n.toNat * 2 ^ shift =
          n.toNat % 128 * 2 ^ shift + n.toNat / 128 * 2 ^ (shift + 7) := by
        have parts := Nat.div_add_mod n.toNat 128
        rw [Nat.pow_add]
        calc n.toNat * 2 ^ shift = (128 * (n.toNat / 128) + n.toNat % 128) * 2 ^ shift := by
              rw [parts]
          _ = n.toNat % 128 * 2 ^ shift + n.toNat / 128 * (2 ^ shift * 2 ^ 7) := by ring
      have lowNext : (accum ||| (UInt8.ofNat (n.toNat % 128 + 128) &&& 0x7F).toUInt64 <<<
          shift.toUInt64).toNat < 2 ^ (shift + 7) := by
        rw [orBits, Nat.pow_add]
        have : n.toNat % 128 * 2 ^ shift ≤ 127 * 2 ^ shift :=
          Nat.mul_le_mul_right _ (by omega)
        omega
      rw [stepped, ih (n >>> 7).toNat (by rw [toNat_shiftRight_seven]; omega) (n >>> 7) _ _
        lowNext (by rw [orBits, toNat_shiftRight_seven]; omega) rfl]
      rw [orBits, toNat_shiftRight_seven, Nat.add_assoc, ← split]

/-- From a complete value, decoding an encoding gives its value. -/
theorem foldl_step_encode_of_complete {d : TVarIntDecoder} (complete : d.shift = 0) (n : UInt64) :
    (encode n).foldl step d = ⟨n, 0⟩ := by
  obtain ⟨first, rest, split⟩ := List.exists_cons_of_ne_nil (encode_ne_nil n)
  have fromInit := foldl_step_encode n 0 0 (by simp) (by simpa using n.toNat_lt)
  rw [split, List.foldl_cons, step_of_shift_eq_zero complete, ← List.foldl_cons, ← split]
  simpa [init] using fromInit

/-- Fed an encoding from a complete value, the caller gets its value, once, at its end. -/
theorem feedChunk_encode {d : TVarIntDecoder} (complete : d.shift = 0) (n : UInt64) :
    feedChunk d (encode n) = (⟨n, 0⟩, [n]) := by
  obtain ⟨front, last, split, flagged, _⟩ := encode_eq_append n
  have whole := foldl_step_encode_of_complete complete n
  rw [split, List.foldl_append, List.foldl_cons, List.foldl_nil] at whole
  rw [split, feedChunk_append, feedChunk_snd_of_continuing d front flagged, feedChunk_cons]
  simp only [feedChunk_fst, List.foldl_nil, whole]
  simp [feedChunk, deref]

theorem feedChunk_encodings {d : TVarIntDecoder} (complete : d.shift = 0) (values : List UInt64) :
    (feedChunk d (values.flatMap encode)).2 = values := by
  induction values generalizing d with
  | nil => simp [feedChunk]
  | cons value values ih =>
    rw [List.flatMap_cons, feedChunk_append, feedChunk_encode complete]
    simp [ih (d := ⟨value, 0⟩) rfl]

/-- The chunked round trip: the encodings of `values`, cut into chunks in any way and fed
to a new decoder, give back `values`. -/
theorem feedChunks_encodings (values : List UInt64) (chunks : List (List UInt8))
    (cut : chunks.flatten = values.flatMap encode) :
    (feedChunks init chunks).2 = values := by
  rw [feedChunks_eq, cut, feedChunk_encodings rfl]

end Encoding

section Length

/-- The encoding is as long as the least number of 7-bit digits that hold the value. -/
theorem encode_length_bounds (n : UInt64) :
    n.toNat < 128 ^ (encode n).length ∧
      ((encode n).length = 1 ∨ 128 ^ ((encode n).length - 1) ≤ n.toNat) := by
  induction size : n.toNat using Nat.strong_induction_on generalizing n with
  | _ size ih =>
    subst size
    rw [encode_eq]
    by_cases last : n.toNat / 128 = 0
    · rw [if_pos last]
      simp only [List.length_singleton, pow_one, true_or, and_true]
      omega
    · rw [if_neg last, List.length_cons]
      obtain ⟨below, least⟩ :=
        ih (n >>> 7).toNat (by rw [toNat_shiftRight_seven]; omega) (n >>> 7) rfl
      rw [toNat_shiftRight_seven] at below least
      refine ⟨?_, Or.inr ?_⟩
      · rw [pow_succ]
        omega
      · rw [Nat.add_sub_cancel]
        rcases least with one | atLeast
        · rw [one, pow_one]
          omega
        · obtain ⟨more, isSucc⟩ : ∃ more, (encode (n >>> 7)).length = more + 1 :=
            Nat.exists_eq_add_one.mpr (List.length_pos_iff.mpr (encode_ne_nil _))
          rw [isSucc, Nat.add_sub_cancel] at atLeast
          rw [isSucc, pow_succ]
          omega

/-- `max(1, ⌈bitlength(n) / 7⌉)` bytes, at most `MaxSize`, ten. -/
theorem encode_length (n : UInt64) :
    (encode n).length = max 1 ((n.toNat.size + 6) / 7) ∧ (encode n).length ≤ 10 := by
  obtain ⟨below, least⟩ := encode_length_bounds n
  have digits : ∀ k : Nat, (128 : Nat) ^ k = 2 ^ (7 * k) := fun k => by rw [pow_mul]; rfl
  have sizeLe : n.toNat.size ≤ 7 * (encode n).length := Nat.size_le.mpr (by rw [← digits]; exact below)
  have sizeLe64 : n.toNat.size ≤ 64 := Nat.size_le.mpr n.toNat_lt
  have positive : 0 < (encode n).length := List.length_pos_iff.mpr (encode_ne_nil n)
  rcases least with one | atLeast
  · refine ⟨?_, by omega⟩
    rw [one]
    omega
  · rw [digits] at atLeast
    have sizeGt : 7 * ((encode n).length - 1) < n.toNat.size := Nat.lt_size.mpr atLeast
    omega

end Length

section Boundaries

theorem shift_foldl_step_concat (d : TVarIntDecoder) (front : List UInt8) (last : UInt8) :
    ((front ++ [last]).foldl step d).shift = 0 ↔ last &&& 0x80 = 0 := by
  rw [List.foldl_append, List.foldl_cons, List.foldl_nil, step_shift_eq_zero_iff]

/-- Within one encoding, from a complete value, the value is complete again only at its
end. -/
theorem shift_foldl_take_encode {d : TVarIntDecoder} (complete : d.shift = 0) (n : UInt64)
    {j : Nat} (within : j ≤ (encode n).length) :
    (((encode n).take j).foldl step d).shift = 0 ↔ j = 0 ∨ j = (encode n).length := by
  obtain ⟨front, last, split, flagged, clear⟩ := encode_eq_append n
  rw [split]
  rw [split, List.length_append, List.length_singleton] at within
  by_cases start : j = 0
  · subst start
    simp [complete]
  by_cases whole : j = front.length + 1
  · subst whole
    rw [List.take_of_length_le (by simp), shift_foldl_step_concat]
    simp [clear]
  -- a proper prefix ends in a flagged byte of `front`
  obtain ⟨i, rfl⟩ := Nat.exists_eq_add_one.mpr (Nat.pos_of_ne_zero start)
  have inFront : i < front.length := by omega
  have prefixEq : (front ++ [last]).take (i + 1) = front.take i ++ [front[i]] := by
    rw [List.take_append_of_le_length inFront, List.take_concat_get']
  rw [prefixEq, shift_foldl_step_concat]
  simp only [List.length_append, List.length_singleton, start, whole, or_self, iff_false]
  exact flagged _ (List.getElem_mem _)

/-- `operator*` is non-null after the first `j` bytes of the encodings of `values` exactly
when they end an encoding, that of `values[k - 1]`, or are none. -/
theorem deref_isSome_after_iff (values : List UInt64) :
    ∀ {d : TVarIntDecoder}, d.shift = 0 → ∀ j ≤ (values.flatMap encode).length,
      (((values.flatMap encode).take j).foldl step d).deref.isSome ↔
        ∃ k ≤ values.length, j = ((values.take k).flatMap encode).length := by
  induction values with
  | nil =>
    intro d complete j within
    simp only [List.flatMap_nil, List.length_nil, Nat.le_zero] at within
    subst within
    simp [deref_isSome_iff, complete]
  | cons value values ih =>
    intro d complete j within
    rw [deref_isSome_iff, List.flatMap_cons]
    have positive : 0 < (encode value).length := List.length_pos_iff.mpr (encode_ne_nil value)
    by_cases inFirst : j ≤ (encode value).length
    · rw [List.take_append_of_le_length inFirst, shift_foldl_take_encode complete value inFirst]
      constructor
      · rintro (start | whole)
        · exact ⟨0, Nat.zero_le _, by simp [start]⟩
        · exact ⟨1, by simp, by simp [whole]⟩
      · rintro ⟨k, _, ends⟩
        cases k with
        | zero => exact Or.inl (by simpa using ends)
        | succ k =>
          rw [List.take_succ_cons, List.flatMap_cons, List.length_append] at ends
          exact Or.inr (by omega)
    · rw [List.take_append, List.take_of_length_le (by omega), List.foldl_append,
        foldl_step_encode_of_complete complete, ← deref_isSome_iff]
      rw [List.flatMap_cons, List.length_append] at within
      rw [ih (d := ⟨value, 0⟩) rfl (j - (encode value).length) (by omega)]
      constructor
      · rintro ⟨k, bound, ends⟩
        refine ⟨k + 1, by simp [bound], ?_⟩
        rw [List.take_succ_cons, List.flatMap_cons, List.length_append]
        omega
      · rintro ⟨k, bound, ends⟩
        cases k with
        | zero => simp at ends; omega
        | succ k =>
          rw [List.take_succ_cons, List.flatMap_cons, List.length_append] at ends
          exact ⟨k, by simpa using bound, by omega⟩

/-- After the caller has fed chunks that begin the encodings of `values`, `operator*` is
non-null exactly when they end an encoding. -/
theorem feedChunks_deref_isSome_iff (values : List UInt64) (chunks : List (List UInt8))
    (isPrefix : chunks.flatten <+: values.flatMap encode) :
    (feedChunks init chunks).1.deref.isSome ↔
      ∃ k ≤ values.length, chunks.flatten.length = ((values.take k).flatMap encode).length := by
  have taken : chunks.flatten = (values.flatMap encode).take chunks.flatten.length :=
    List.prefix_iff_eq_take.mp isPrefix
  rw [feedChunks_eq, feedChunk_fst, taken]
  rw [List.length_take, Nat.min_eq_left isPrefix.length_le]
  exact deref_isSome_after_iff values rfl _ isPrefix.length_le

end Boundaries

end Orly.Strm

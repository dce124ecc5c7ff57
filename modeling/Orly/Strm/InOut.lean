import Orly.Strm.VarInt

/-! Integers on the binary stream: the zig-zag code (`strm/bin/zig_zag.h`), `TOut`'s writers
and `TIn`'s readers of 16, 32 and 64-bit integers (`strm/bin/out.h`, `strm/bin/in.h`), and
`TIn::ReadVarInt` (`strm/bin/in.cc`).

A signed integer is written as the var-int of its zig-zag code, an unsigned one as its own
var-int, both widened to 64 bits; they are read back by `ReadVarInt`, narrowed to their
width, and decoded from zig-zag when signed. `ReadVarInt` decodes from the workspace at
hand and skips what `Decode` consumed, until the value is complete. The zig-zag code of
`x` is `2x` or `-2x - 1` by sign (`toZigZag_eq`) and `FromZigZag` inverts it
(`fromZigZag_toZigZag`), so any sequence of integers written by `TOut` is read back by
`TIn`, however the stream cuts the bytes into workspaces (`readVarIntValues_write`).

Signed and unsigned integers of `w` bits are both their bit vectors of width `w`, so the
conversions between them, and the narrowing of a `uint64_t`, keep the low bits. For
`int16_t` the code computes `ToZigZag` on the promoted `int` and converts the result to
`uint16_t`, which gives the same bits. -/
namespace Orly.Strm

open MachineInt TVarIntDecoder TVarIntEncoder

section ZigZag

variable {w : Nat}

/-- `ToZigZag(n)`: `(n << 1) ^ (n >> digits)`, the right shift arithmetic, by `w - 1`
bits for a signed `w`-bit type. -/
def toZigZag (n : BitVec w) : BitVec w := (n <<< 1) ^^^ n.sshiftRight (w - 1)

/-- `FromZigZag(n)`: `(n >> 1) ^ (-(n & 1))`. -/
def fromZigZag (n : BitVec w) : BitVec w := (n >>> 1) ^^^ -(n &&& 1#w)

theorem toZigZag_eq_sign (x : BitVec w) :
    toZigZag x = if x.msb then ~~~(x <<< 1) else x <<< 1 := by
  rw [toZigZag, sshiftRight_sign]
  cases x.msb <;> simp [BitVec.xor_allOnes]

/-- The zig-zag code: `2x` for `x ≥ 0` and `-2x - 1` for `x < 0`, modulo `2 ^ w`. -/
theorem toZigZag_eq (x : BitVec w) :
    toZigZag x = BitVec.ofInt w (if 0 ≤ x.toInt then 2 * x.toInt else -2 * x.toInt - 1) := by
  rw [toZigZag_eq_sign, BitVec.msb_eq_toInt]
  by_cases negative : x.toInt < 0
  · have split : -2 * x.toInt - 1 = -(2 * x.toInt) + -1 := by omega
    simp only [negative, decide_true, if_true, Int.not_le.mpr negative, if_false, split,
      BitVec.ofInt_add, BitVec.ofInt_neg, ← shiftLeft_one_eq_ofInt, BitVec.not_eq_neg_add,
      BitVec.sub_eq_add_neg]
    simp
  · simp [negative, Int.not_lt.mp negative, shiftLeft_one_eq_ofInt]

theorem fromZigZag_toZigZag (x : BitVec w) : fromZigZag (toZigZag x) = x := by
  rw [fromZigZag, toZigZag, sshiftRight_sign, neg_and_one]
  ext i hi
  have positive : 0 < w := by omega
  -- every bit but the top one comes back from the bit above it; the top one is the sign
  by_cases below : 1 + i < w
  · cases sign : x.msb <;> simp [below, positive]
  · have last : i = w - 1 := by omega
    subst last
    cases sign : x.msb <;> simp [getElem_last_eq_msb, sign, positive]

end ZigZag

section ReadVarInt

/-- `TCons::Peek(start, limit)`: `Refresh` moves past workspaces that are used up, and the
unread bytes of the next one are peeked; at the end of the stream it throws `TPastEnd`. -/
def peek : List (List UInt8) → Option (List UInt8 × List (List UInt8))
  | [] => none
  | [] :: buffers => peek buffers
  | (byte :: bytes) :: buffers => some (byte :: bytes, buffers)

theorem peek_eq_some {buffers rest : List (List UInt8)} {buffer : List UInt8}
    (peeked : peek buffers = some (buffer, rest)) :
    buffer ≠ [] ∧ buffers.flatten = buffer ++ rest.flatten := by
  induction buffers with
  | nil => simp [peek] at peeked
  | cons first buffers ih =>
    cases first with
    | nil => simpa [peek] using ih peeked
    | cons byte bytes =>
      simp only [peek, Option.some.injEq, Prod.mk.injEq] at peeked
      obtain ⟨rfl, rfl⟩ := peeked
      simp

theorem flatten_of_peek_eq_none {buffers : List (List UInt8)} (noMore : peek buffers = none) :
    buffers.flatten = [] := by
  induction buffers with
  | nil => rfl
  | cons first buffers ih =>
    cases first with
    | nil => simpa [peek] using ih noMore
    | cons byte bytes => simp [peek] at noMore

theorem length_decode_lt (d : TVarIntDecoder) {bytes : List UInt8} (nonempty : bytes ≠ []) :
    (d.decode bytes).2.length < bytes.length := by
  obtain ⟨byte, rest, rfl⟩ := List.exists_cons_of_ne_nil nonempty
  exact Nat.lt_succ_of_le (length_decode_cons_le d byte rest)

set_option linter.unusedVariables false in
/-- `TIn::ReadVarInt` from the decoder `d`: `Peek`, `Decode`, `Skip(cursor - start)`, until
`operator*` gives a value. -/
def readVarInt (d : TVarIntDecoder) (buffers : List (List UInt8)) :
    Option (UInt64 × List (List UInt8)) :=
  match peeked : peek buffers with
  | none => none
  | some (buffer, rest) =>
    let decoded := d.decode buffer
    match decoded.1.deref with
    | some value => some (value, decoded.2 :: rest)
    | none => readVarInt decoded.1 (decoded.2 :: rest)
termination_by buffers.flatten.length
decreasing_by
  obtain ⟨nonempty, split⟩ := peek_eq_some peeked
  have fewer := length_decode_lt d nonempty
  simp only [List.flatten_cons, List.length_append, split]
  omega

theorem readVarInt_of_peek {d : TVarIntDecoder} {buffers rest : List (List UInt8)}
    {buffer : List UInt8} (peeked : peek buffers = some (buffer, rest)) :
    readVarInt d buffers =
      match (d.decode buffer).1.deref with
      | some value => some (value, (d.decode buffer).2 :: rest)
      | none => readVarInt (d.decode buffer).1 ((d.decode buffer).2 :: rest) := by
  rw [readVarInt]
  split
  · rename_i none
    rw [peeked] at none
    cases none
  · rename_i buffer' rest' some
    rw [peeked] at some
    cases some
    rfl

/-- Bytes that all continue a value, then one that ends it: one call of `Decode` consumes
them, and stops. -/
theorem decode_append_of_flagged (d : TVarIntDecoder) {front : List UInt8} {last : UInt8}
    (flagged : ∀ b ∈ front, b &&& 0x80 ≠ 0) (clear : last &&& 0x80 = 0) (after : List UInt8) :
    d.decode (front ++ last :: after) = ((front ++ [last]).foldl step d, after) := by
  induction front generalizing d with
  | nil =>
    rw [List.nil_append, decode_cons, if_pos ((step_shift_eq_zero_iff d last).mpr clear)]
    rfl
  | cons byte front ih =>
    have midValue : (d.step byte).shift ≠ 0 := fun zero =>
      flagged byte (List.mem_cons_self ..) ((step_shift_eq_zero_iff d byte).mp zero)
    rw [List.cons_append, decode_cons, if_neg midValue,
      ih _ (fun b mem => flagged b (List.mem_cons_of_mem _ mem))]
    rfl

/-- A non-empty buffer of bytes that all continue a value: `Decode` consumes it all. -/
theorem decode_of_flagged (d : TVarIntDecoder) {bytes : List UInt8} (nonempty : bytes ≠ [])
    (flagged : ∀ b ∈ bytes, b &&& 0x80 ≠ 0) :
    d.decode bytes = (bytes.foldl step d, []) ∧ (bytes.foldl step d).shift ≠ 0 := by
  induction bytes generalizing d with
  | nil => exact absurd rfl nonempty
  | cons byte bytes ih =>
    have midValue : (d.step byte).shift ≠ 0 := fun zero =>
      flagged byte (List.mem_cons_self ..) ((step_shift_eq_zero_iff d byte).mp zero)
    rw [decode_cons, if_neg midValue, List.foldl_cons]
    cases bytes with
    | nil => exact ⟨decode_nil_of_shift_ne_zero midValue, midValue⟩
    | cons next bytes =>
      exact ih _ (List.cons_ne_nil _ _) (fun b mem => flagged b (List.mem_cons_of_mem _ mem))

/-- What is left of an encoding after some of its bytes: bytes that continue the value, then
the one that ends it. -/
theorem encode_suffix {n : UInt64} {front back : List UInt8} (split : front ++ back = encode n)
    (nonempty : back ≠ []) :
    ∃ init last, back = init ++ [last] ∧ (∀ b ∈ init, b &&& 0x80 ≠ 0) ∧ last &&& 0x80 = 0 := by
  obtain ⟨encInit, encLast, encSplit, flagged, clear⟩ := encode_eq_append n
  obtain ⟨init, last, rfl⟩ := List.eq_nil_or_concat back |>.resolve_left nonempty
  rw [List.concat_eq_append, encSplit, ← List.append_assoc] at split
  rw [List.concat_eq_append]
  obtain ⟨frontInit, lastEq⟩ := List.append_inj' split rfl
  simp only [List.cons.injEq, and_true] at lastEq
  subst lastEq
  refine ⟨init, last, rfl, fun b mem => flagged b ?_, clear⟩
  rw [← frontInit]
  exact List.mem_append_right _ mem

/-- `ReadVarInt`, from a decoder that has decoded `front` of an encoding, over a stream whose
bytes are the rest of it and then `after`: it returns the value, and leaves `after`. -/
theorem readVarInt_encode (n : UInt64) (after : List UInt8) :
    ∀ (buffers : List (List UInt8)) (front back : List UInt8), front ++ back = encode n →
      back ≠ [] → buffers.flatten = back ++ after →
      ∃ rest, readVarInt (front.foldl step init) buffers = some (n, rest) ∧ rest.flatten = after := by
  intro buffers
  induction size : buffers.flatten.length using Nat.strong_induction_on generalizing buffers with
  | _ size ih =>
    intro front back split nonempty stream
    obtain ⟨init', last, backSplit, flagged, clear⟩ := encode_suffix split nonempty
    cases peeked : peek buffers with
    | none =>
      rw [flatten_of_peek_eq_none peeked] at stream
      exact absurd (List.append_eq_nil_iff.mp stream.symm).1 nonempty
    | some pair =>
      obtain ⟨buffer, rest⟩ := pair
      obtain ⟨bufferNonempty, bufferSplit⟩ := peek_eq_some peeked
      rw [readVarInt_of_peek peeked]
      rw [bufferSplit] at stream
      -- the value ends in this workspace, or the workspace ends inside the value
      have ends : ∀ left, buffer = back ++ left → after = left ++ rest.flatten →
          ∃ rest', (match ((front.foldl step init).decode buffer).1.deref with
            | some value => some (value, ((front.foldl step init).decode buffer).2 :: rest)
            | none => readVarInt ((front.foldl step init).decode buffer).1
                (((front.foldl step init).decode buffer).2 :: rest)) = some (n, rest') ∧
            rest'.flatten = after := by
        intro left inBuffer afterSplit
        have decoded : (front.foldl step init).decode buffer =
            ((front ++ back).foldl step init, left) := by
          rw [inBuffer, backSplit, List.append_assoc, List.singleton_append,
            decode_append_of_flagged _ flagged clear, ← List.foldl_append, ← List.append_assoc]
        rw [decoded, split, foldl_step_encode_of_complete rfl]
        exact ⟨left :: rest, rfl, by simp [afterSplit]⟩
      rcases List.append_eq_append_iff.mp stream with ⟨more, backEq, restEq⟩ | ⟨left, bufferEq, afterEq⟩
      · by_cases done : more = []
        · subst done
          exact ends [] (by simpa using backEq.symm) (by simpa using restEq.symm)
        · -- every byte of the workspace continues the value
          have bufferFlagged : ∀ b ∈ buffer, b &&& 0x80 ≠ 0 := by
            intro b mem
            obtain ⟨moreInit, moreLast, rfl⟩ := List.eq_nil_or_concat more |>.resolve_left done
            rw [List.concat_eq_append, ← List.append_assoc, backSplit] at backEq
            have inInit : buffer ++ moreInit = init' := (List.append_inj' backEq.symm rfl).1
            exact flagged b (inInit ▸ List.mem_append_left _ mem)
          obtain ⟨decoded, midValue⟩ := decode_of_flagged (front.foldl step init) bufferNonempty
            bufferFlagged
          have noValue : ((front.foldl step init).decode buffer).1.deref = none := by
            simp [decoded, deref, midValue]
          rw [noValue, decoded, ← List.foldl_append]
          apply ih ([] :: rest).flatten.length _ ([] :: rest) rfl (front ++ buffer) more
            (by rw [List.append_assoc, ← backEq, split]) done (by simpa using restEq)
          rw [← size, bufferSplit, List.length_append]
          simpa using List.length_pos_iff.mpr bufferNonempty
      · exact ends left bufferEq afterEq

/-- `TIn::ReadVarInt`, with its new decoder: a stream that begins with an encoding gives its
value and the rest of the stream. -/
theorem readVarInt_init_encode (n : UInt64) (after : List UInt8) (buffers : List (List UInt8))
    (stream : buffers.flatten = encode n ++ after) :
    ∃ rest, readVarInt init buffers = some (n, rest) ∧ rest.flatten = after :=
  readVarInt_encode n after buffers [] (encode n) rfl (encode_ne_nil n) stream

end ReadVarInt

section Integers

/-- The integer types `TOut` writes and `TIn` reads as var-ints. -/
inductive VarIntType where
  | int16 | int32 | int64 | uint16 | uint32 | uint64
  deriving DecidableEq, Repr

namespace VarIntType

def bits : VarIntType → Nat
  | int16 | uint16 => 16
  | int32 | uint32 => 32
  | int64 | uint64 => 64

def isSigned : VarIntType → Bool
  | int16 | int32 | int64 => true
  | uint16 | uint32 | uint64 => false

theorem bits_le (t : VarIntType) : t.bits ≤ 64 := by
  cases t <;> decide

end VarIntType

/-- An integer of one of those types. -/
abbrev VarIntValue := (t : VarIntType) × BitVec t.bits

/-- `TOut::operator<<`: `WriteVarInt` of the value, or of its zig-zag code when signed,
widened to `uint64_t`. -/
def writeValue (value : VarIntValue) : List UInt8 :=
  encode (UInt64.ofBitVec
    ((if value.1.isSigned then toZigZag value.2 else value.2).setWidth 64))

/-- `TIn::operator>>`: `ReadVarInt`, narrowed to the type, and decoded from zig-zag when
signed. -/
def readValue (t : VarIntType) (buffers : List (List UInt8)) :
    Option (BitVec t.bits × List (List UInt8)) :=
  (readVarInt init buffers).map fun (wide, rest) =>
    let narrow := wide.toBitVec.setWidth t.bits
    (if t.isSigned then fromZigZag narrow else narrow, rest)

/-- Reading integers of the given types one after another. -/
def readValues : List VarIntType → List (List UInt8) → Option (List VarIntValue × List (List UInt8))
  | [], buffers => some ([], buffers)
  | t :: types, buffers => do
    let (x, buffers) ← readValue t buffers
    let (values, buffers) ← readValues types buffers
    pure (⟨t, x⟩ :: values, buffers)

/-- Narrowing the widened code gives the code back, and decoding it gives the value. -/
theorem narrow_write (value : VarIntValue) :
    let wide := (if value.1.isSigned then toZigZag value.2 else value.2).setWidth 64
    (if value.1.isSigned then fromZigZag (wide.setWidth value.1.bits)
      else wide.setWidth value.1.bits) = value.2 := by
  intro wide
  have narrow : ∀ x : BitVec value.1.bits, (x.setWidth 64).setWidth value.1.bits = x := by
    intro x
    rw [BitVec.setWidth_setWidth_of_le _ (VarIntType.bits_le _), BitVec.setWidth_eq]
  cases signed : value.1.isSigned
  · simp [wide, signed, narrow]
  · simp [wide, signed, narrow, fromZigZag_toZigZag]

theorem readValue_write (value : VarIntValue) (after : List UInt8) (buffers : List (List UInt8))
    (stream : buffers.flatten = writeValue value ++ after) :
    ∃ rest, readValue value.1 buffers = some (value.2, rest) ∧ rest.flatten = after := by
  obtain ⟨rest, read, restFlat⟩ := readVarInt_init_encode _ after buffers stream
  refine ⟨rest, ?_, restFlat⟩
  rw [readValue, read, Option.map_some]
  simp only [narrow_write]

/-- What `TOut` writes, `TIn` reads back, however the stream cuts it into workspaces. -/
theorem readValues_write (values : List VarIntValue) :
    ∀ (buffers : List (List UInt8)) (after : List UInt8),
      buffers.flatten = values.flatMap writeValue ++ after →
      ∃ rest, readValues (values.map (·.1)) buffers = some (values, rest) ∧ rest.flatten = after := by
  induction values with
  | nil => intro buffers after stream; exact ⟨buffers, rfl, by simpa using stream⟩
  | cons value values ih =>
    intro buffers after stream
    rw [List.flatMap_cons, List.append_assoc] at stream
    obtain ⟨rest, read, restFlat⟩ := readValue_write value _ buffers stream
    obtain ⟨rest', reads, restFlat'⟩ := ih rest after restFlat
    refine ⟨rest', ?_, restFlat'⟩
    simp [readValues, read, reads]

end Integers

/-- The stream's integer codec: the length of an encoding; the values a decoder fed the
encodings in chunks yields, and when its `operator*` is non-null; the zig-zag code and its
inverse; and `TIn` reading back what `TOut` writes. -/
theorem varInt_codec_round_trip :
    (∀ n : UInt64, (encode n).length = max 1 ((n.toNat.size + 6) / 7) ∧ (encode n).length ≤ 10) ∧
    (∀ (values : List UInt64) (chunks : List (List UInt8)),
      chunks.flatten = values.flatMap encode → (feedChunks init chunks).2 = values) ∧
    (∀ (values : List UInt64) (chunks : List (List UInt8)), chunks.flatten <+: values.flatMap encode →
      ((feedChunks init chunks).1.deref.isSome ↔
        ∃ k ≤ values.length, chunks.flatten.length = ((values.take k).flatMap encode).length)) ∧
    (∀ (w : Nat) (x : BitVec w),
      toZigZag x = BitVec.ofInt w (if 0 ≤ x.toInt then 2 * x.toInt else -2 * x.toInt - 1) ∧
        fromZigZag (toZigZag x) = x) ∧
    (∀ (values : List VarIntValue) (buffers : List (List UInt8)),
      buffers.flatten = values.flatMap writeValue →
        ∃ rest, readValues (values.map (·.1)) buffers = some (values, rest) ∧ rest.flatten = []) := by
  refine ⟨encode_length, feedChunks_encodings, feedChunks_deref_isSome_iff,
    fun _ x => ⟨toZigZag_eq x, fromZigZag_toZigZag x⟩, fun values buffers stream => ?_⟩
  exact readValues_write values buffers [] (by rw [stream, List.append_nil])

end Orly.Strm

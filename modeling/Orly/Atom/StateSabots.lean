import Orly.Atom.RoundTrip
import Orly.Atom.QuickCompare

/-! The size the string and blob state sabots report (`TCore::SS::TStr` and
`TCore::SS::TBlob`, `orly/atom/kit2.h`).

`State::TArrayOfScalars::GetSize` promises the number of bytes a pin of the state spans,
without pinning. Both sabots answer with `Core->IndirectScalarArray.Size`, the 32-bit
count that follows the 8-byte offset in the core's storage union, whatever the tycon.
An indirect string or blob keeps its byte count there. A direct one keeps its bytes
there, padded with zeros to 23: `GetSize` reads bytes 8 to 11 of them as a count, and
its pin, which takes its length from the tycon, spans the bytes themselves. For a string
or blob of one to eight bytes the two differ: `GetSize` is zero
(`getSize_direct_ne_length`). -/
namespace Orly.Atom

open Orly.Sabot AppendStore

/-- A little-endian unsigned integer read from its bytes. -/
def littleEndian (bytes : List UInt8) : Nat :=
  bytes.foldr (fun byte rest => byte.toNat + 256 * rest) 0

/-- `IndirectScalarArray.Size`: the count at bytes 8 to 11 of a core's storage union,
read whatever the union holds. An indirect core array keeps its `ElemCount` at the same
place. The model keeps no bytes of a scalar. -/
def Storage.indirectScalarArraySize : Storage → Option Nat
  | .direct area => some (littleEndian ((area.drop 8).take 4))
  | .indirectScalarArray _ size => some size
  | .indirectCoreArray _ elemCount _ _ => some elemCount
  | .scalar _ => none

/-- `SS::TStr::GetSize` and `SS::TBlob::GetSize`. -/
def Core.getSize (core : Core) : Option Nat := core.storage.indirectScalarArraySize

theorem littleEndian_replicate_zero (count : Nat) : littleEndian (List.replicate count 0) = 0 := by
  induction count with
  | zero => rfl
  | succ count ih => simp [littleEndian, List.replicate_succ, List.foldr_cons] at ih ⊢; omega

/-- The count `GetSize` reads from a direct area of bytes `bytes`, padded with zeros. -/
def directSize (bytes : List UInt8) : Nat :=
  littleEndian (((bytes ++ List.replicate (maxDirectSize - bytes.length) 0).drop 8).take 4)

/-- Up to eight bytes leave bytes 8 to 11 of the area as padding. -/
theorem directSize_of_le_eight {bytes : List UInt8} (short : bytes.length ≤ 8) :
    directSize bytes = 0 := by
  have dropped : (bytes ++ List.replicate (maxDirectSize - bytes.length) 0).drop 8 =
      List.replicate (maxDirectSize - bytes.length - (8 - bytes.length)) 0 := by
    rw [List.drop_append, List.drop_eq_nil_of_le short, List.nil_append, List.drop_replicate]
  rw [directSize, dropped, List.take_replicate, littleEndian_replicate_zero]

section Sizes

variable {σ : Type} (A : TExtensibleArena σ) (s : σ) (bytes : List UInt8)

theorem getSize_initStr :
    (initStr A s bytes).2.getSize =
      some (if bytes.length ≤ maxDirectSize then directSize bytes else bytes.length) := by
  by_cases fits : bytes.length ≤ maxDirectSize
  · simp [initStr, fits, Core.getSize, Storage.indirectScalarArraySize, directSize]
  · simp [initStr, fits, Core.getSize, Storage.indirectScalarArraySize]

theorem getSize_initBlob :
    (initBlob A s bytes).2.getSize =
      some (if bytes.length ≤ maxDirectSize then directSize bytes else bytes.length) := by
  by_cases fits : bytes.length ≤ maxDirectSize
  · simp [initBlob, fits, Core.getSize, Storage.indirectScalarArraySize, directSize]
  · simp [initBlob, fits, Core.getSize, Storage.indirectScalarArraySize]

/-- A direct string's pin spans its bytes: the length the tycon records. -/
theorem strBytes_initStr_direct (fits : bytes.length ≤ maxDirectSize) (s' : σ) :
    strBytes A s' (initStr A s bytes).2 = some bytes := by
  simp [initStr, fits, strBytes, take_paddedArea fits]

theorem blobBytes_initBlob_direct (fits : bytes.length ≤ maxDirectSize) (s' : σ) :
    blobBytes A s' (initBlob A s bytes).2 = some bytes := by
  simp [initBlob, fits, blobBytes, take_paddedArea fits]

/-- A string or blob too long to store directly reports its length: the count its note
was proposed with. -/
theorem getSize_of_indirect (long : maxDirectSize < bytes.length) :
    (initStr A s bytes).2.getSize = some bytes.length ∧
      (initBlob A s bytes).2.getSize = some bytes.length := by
  have notFits : ¬ bytes.length ≤ maxDirectSize := by omega
  rw [getSize_initStr, getSize_initBlob, if_neg notFits]
  exact ⟨rfl, rfl⟩

theorem getSize_direct_ne_length (short : bytes.length ≤ 8) (s' : σ) :
    (initStr A s bytes).2.getSize = some 0 ∧ strBytes A s' (initStr A s bytes).2 = some bytes ∧
      (initBlob A s bytes).2.getSize = some 0 ∧
        blobBytes A s' (initBlob A s bytes).2 = some bytes := by
  have fits : bytes.length ≤ maxDirectSize := by unfold maxDirectSize; omega
  rw [getSize_initStr, getSize_initBlob, if_pos fits, directSize_of_le_eight short]
  exact ⟨rfl, strBytes_initStr_direct A s bytes fits s', rfl,
    blobBytes_initBlob_direct A s bytes fits s'⟩

end Sizes

/-- The string `"abc"`: its state sabot reports a size of zero, while its pin spans its
three bytes. -/
theorem getSize_abc :
    (initStr (listStore Note) [] [97, 98, 99]).2.getSize = some 0 ∧
      strBytes (listStore Note) [] (initStr (listStore Note) [] [97, 98, 99]).2 = some [97, 98, 99] ∧
      (initBlob (listStore Note) [] [97, 98, 99]).2.getSize = some 0 ∧
      blobBytes (listStore Note) [] (initBlob (listStore Note) [] [97, 98, 99]).2 = some [97, 98, 99] :=
  getSize_direct_ne_length (listStore Note) [] [97, 98, 99] (by decide) []

end Orly.Atom

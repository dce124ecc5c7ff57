import Orly.Atom.NewState
import Orly.Sabot.OrderStates

/-! `TCore::TryQuickOrderComparison` (`orly/atom/kit2.h`) and `TKey::Compare`
(`orly/indy/key.h`).

An index compares keys with `TKey::Compare`, which first tries to order two cores
without building their states, and falls back to `Sabot::OrderStates` of the states
read back when it cannot. The quick path knows five cases: two cores of one ordered
arena that each stand for a whole note are ordered by their offsets; two scalars of
one tycon by the value type's `==` and `<`; two scalars of different tycons by their
tycons; two tuples element by element, giving up as soon as an element cannot be
compared quickly; and two strings or two blobs, direct or indirect, by `memcmp` and
length. -/
namespace Orly.Atom

open Orly.Sabot

namespace TTycon

/-- `Int8 <= tycon <= Uuid`: the scalars, whose value lives in the core. -/
def isScalar (tycon : TTycon) : Bool := 48 ≤ tycon.toNat && tycon.toNat ≤ 62

end TTycon

namespace Storage

/-- `IndirectCoreArray.Offset`, which shares its bytes with `IndirectScalarArray.Offset`. -/
def offset : Storage → Nat
  | .indirectScalarArray offset _ => offset
  | .indirectCoreArray offset _ _ _ => offset
  | _ => 0

/-- `IndirectCoreArray.UsesFullNote`. Every core whose tycon is at least `Blob` and
that is not an indirect core array had its storage area zeroed by `Init`, and the flag
reads that zero. -/
def usesFullNote : Storage → Bool
  | .indirectCoreArray _ _ _ usesFullNote => usesFullNote
  | _ => false

end Storage

/-- The number of elements a note holds. -/
def Body.size : Body → Nat
  | .raw bytes => bytes.length
  | .cores elems => elems.length
  | .pairs elems => elems.length

/-- `QuickCompare` of two scalars of one tycon: `==`, then `<`, of the value type. These
are the operators `TOrderStatesVisitor` compares the same values with. -/
def Scalar.quickCompare : Scalar → Scalar → Option TComparison
  | .int8 a, .int8 b => some (compareScalar a b)
  | .int16 a, .int16 b => some (compareScalar a b)
  | .int32 a, .int32 b => some (compareScalar a b)
  | .int64 a, .int64 b => some (compareScalar a b)
  | .uint8 a, .uint8 b => some (compareScalar a b)
  | .uint16 a, .uint16 b => some (compareScalar a b)
  | .uint32 a, .uint32 b => some (compareScalar a b)
  | .uint64 a, .uint64 b => some (compareScalar a b)
  | .bool a, .bool b => some (compareBool a b)
  | .char a, .char b => some (compareScalar a b)
  | .float a, .float b => some (compareFloat a b)
  | .double a, .double b => some (compareDouble a b)
  | .duration a, .duration b => some (compareScalar a b)
  | .timePoint a, .timePoint b => some (compareScalar a b)
  | .uuid a, .uuid b => some (compareUuid a b)
  | _, _ => none

/-- `memcmp` of two byte strings of one length: the first byte that differs decides,
as unsigned. -/
def memcmp : List UInt8 → List UInt8 → Ordering
  | a :: as, b :: bs => if a = b then memcmp as bs else if a < b then .lt else .gt
  | _, _ => .eq

/-- `QuickCompareMem`: `memcmp` of the common length, then the lengths. -/
def quickCompareMem (lhs rhs : List UInt8) : TComparison :=
  match memcmp (lhs.take (min lhs.length rhs.length)) (rhs.take (min lhs.length rhs.length)) with
  | .eq => compareLinear lhs.length rhs.length
  | .lt => .lt
  | .gt => .gt

/-- `TCore::TryTruncateTuple`: a tuple core of more than one element gives up its last
one, and with it the claim to stand for its whole note. The code asserts a tuple tycon
and reads the storage as an indirect core array; no other storage is truncated. -/
def tryTruncateTuple (core : Core) : Option Core :=
  match core.storage with
  | .indirectCoreArray offset elemCount isExemplar _ =>
    if 1 < elemCount then
      some ⟨core.tycon, .indirectCoreArray offset (elemCount - 1) isExemplar false⟩
    else none
  | _ => none

variable {σ : Type} (A : TExtensibleArena σ)

/-- The bytes the quick path pins for a string core: an indirect string's note
without its NUL, or the used bytes of a direct one. -/
def strBytes (s : σ) (core : Core) : Option (List UInt8) :=
  match core.tycon, core.storage with
  | .str, storage => List.dropLast <$> pinRaw A s storage
  | .directStr r, .direct area => some (area.take (maxDirectSize - r))
  | _, _ => none

/-- The bytes the quick path pins for a blob core. -/
def blobBytes (s : σ) (core : Core) : Option (List UInt8) :=
  match core.tycon, core.storage with
  | .blob, storage => pinRaw A s storage
  | .directBlob r, .direct area => some (area.take (maxDirectSize - r))
  | _, _ => none

/-- The loop of the `Tuple` case: element by element until one compares `Lt` or `Gt`,
giving up at the first element that cannot be compared quickly, and after the
shorter tuple runs out, the element counts. -/
def quickTupleLoop (compare : Core → Core → Option TComparison) (lhsCount rhsCount : Nat) :
    List Core → List Core → Option TComparison
  | l :: ls, r :: rs =>
    match compare l r with
    | some comp =>
      if comp = .lt ∨ comp = .gt then some comp else quickTupleLoop compare lhsCount rhsCount ls rs
    | none => none
  | _, _ => some (compareLinear lhsCount rhsCount)

variable [DecidableEq σ] (isOrdered : σ → Bool)

/-- `TCore::TryQuickOrderComparison`, with fuel for the tuples it descends into:
`some comp` where the code returns true with `comp`, `none` where it returns false.
Arenas are told apart by their states, and `isOrdered` is `TArena::IsOrdered`. -/
def tryQuickOrderComparison : Nat → σ → Core → σ → Core → Option TComparison
  | 0, _, _, _, _ => none
  | fuel + 1, thisArena, this, thatArena, that =>
    if this.tycon = that.tycon ∧ TTycon.blob.toNat ≤ this.tycon.toNat ∧ thisArena = thatArena ∧
        isOrdered thisArena = true ∧ this.storage.usesFullNote = true ∧
        that.storage.usesFullNote = true then
      some (compareLinear this.storage.offset that.storage.offset)
    else if this.tycon = that.tycon ∧ this.tycon.isScalar = true then
      match this.storage, that.storage with
      | .scalar lhs, .scalar rhs => lhs.quickCompare rhs
      | _, _ => none
    else if this.tycon = .tuple ∧ that.tycon = .tuple then do
      let lhs ← pinCores A thisArena this.storage
      let rhs ← pinCores A thatArena that.storage
      quickTupleLoop (fun l r => tryQuickOrderComparison fuel thisArena l thatArena r)
        lhs.length rhs.length lhs rhs
    else if this.tycon.isScalar = true ∧ that.tycon.isScalar = true then
      some (compareLinear this.tycon.toNat that.tycon.toNat)
    else
      match strBytes A thisArena this, strBytes A thatArena that with
      | some lhs, some rhs => some (quickCompareMem lhs rhs)
      | _, _ =>
        match blobBytes A thisArena this, blobBytes A thatArena that with
        | some lhs, some rhs => some (quickCompareMem lhs rhs)
        | _, _ => none

/-- `TKey::Compare`: the quick comparison where it answers, otherwise `OrderStates` of
the two states read back. -/
def keyCompare (fuel : Nat) (lhsArena : σ) (lhs : Core) (rhsArena : σ) (rhs : Core) :
    Option TComparison :=
  match tryQuickOrderComparison A isOrdered fuel lhsArena lhs rhsArena rhs with
  | some comp => some comp
  | none => do orderStates (← newState A lhsArena fuel lhs) (← newState A rhsArena fuel rhs)

end Orly.Atom

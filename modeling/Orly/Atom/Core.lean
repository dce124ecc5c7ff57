import Orly.Sabot.Type
import Orly.Lib.AppendStore

/-! Cores and notes (`orly/atom/kit2.h`, `kit2.cc`): how a sabot state is stored.

A core is a one-byte tycon and a 23-byte storage area. Scalars live in the storage
area. So do strings and blobs of at most 23 bytes: their tycon counts the unused
bytes, which makes the tycon of a full direct string the NUL that ends it. Longer
strings and blobs, and every container, live in a note proposed to an extensible
arena, and the core keeps the note's offset. A container's note holds the cores of
its elements, or pairs of cores for maps and records; a record pairs each value with
a string core holding the field's name. An empty opt, set, vector or map still
stores one element, built from the element type and flagged as an exemplar, so that
its type can be read back.

The storage area is modelled by what the code puts in it, not by its bytes: a
scalar's value, a direct string's padded bytes, or the offset and counts of an
indirect array. The `StoresHash` and `HashVal` fields of an indirect core array,
which these constructors always clear, are left out, and so is the note's
`UnReferenced` flag. -/
namespace Orly.Sabot.Ty

mutual
/-- No record field name anywhere inside contains a NUL byte. A field name reaches
the atom layer as a C string (`field_name.c_str()`), so a name is cut at its first
NUL. -/
def NulFreeNames : Ty → Prop
  | .desc t | .free t | .opt t | .set t | .vector t => t.NulFreeNames
  | .map k v => k.NulFreeNames ∧ v.NulFreeNames
  | .record fields => fieldsNulFreeNames fields
  | .tuple elems => listNulFreeNames elems
  | _ => True

/-- `NulFreeNames` for each field, and no NUL in the field's name. -/
def fieldsNulFreeNames : List (List UInt8 × Ty) → Prop
  | [] => True
  | (name, t) :: rest => 0 ∉ name ∧ t.NulFreeNames ∧ fieldsNulFreeNames rest

/-- `NulFreeNames` for each element type. -/
def listNulFreeNames : List Ty → Prop
  | [] => True
  | t :: rest => t.NulFreeNames ∧ listNulFreeNames rest
end

end Orly.Sabot.Ty

namespace Orly.Atom

open Orly.Sabot AppendStore

/-- `MaxDirectSize`: the bytes of a core's storage area. -/
def maxDirectSize : Nat := 23

/-- `TCore::TTycon`. The first 48 values are direct strings and direct blobs, and the
value within each range is the number of unused bytes of the storage area. -/
inductive TTycon where
  | directStr (remaining : Fin 24)
  | directBlob (remaining : Fin 24)
  | int8
  | int16
  | int32
  | int64
  | uint8
  | uint16
  | uint32
  | uint64
  | bool
  | char
  | float
  | double
  | duration
  | timePoint
  | uuid
  | blob
  | str
  | tombstone
  | void
  | desc
  | free
  | opt
  | set
  | vector
  | map
  | record
  | tuple
  deriving DecidableEq, Repr

namespace TTycon

/-- The tycon's byte: `MinDirectStr = 0`, `MinDirectBlob = 24`, `Int8 = 48`, up to
`Tuple = 74`. -/
def toNat : TTycon → Nat
  | directStr r => r
  | directBlob r => 24 + r
  | int8 => 48
  | int16 => 49
  | int32 => 50
  | int64 => 51
  | uint8 => 52
  | uint16 => 53
  | uint32 => 54
  | uint64 => 55
  | bool => 56
  | char => 57
  | float => 58
  | double => 59
  | duration => 60
  | timePoint => 61
  | uuid => 62
  | blob => 63
  | str => 64
  | tombstone => 65
  | void => 66
  | desc => 67
  | free => 68
  | opt => 69
  | set => 70
  | vector => 71
  | map => 72
  | record => 73
  | tuple => 74

/-- The type `GetType` reports for a tycon whose type needs nothing but the tycon. -/
def plainType : TTycon → Option Ty
  | directStr _ | str => some .str
  | directBlob _ | blob => some .blob
  | int8 => some .int8
  | int16 => some .int16
  | int32 => some .int32
  | int64 => some .int64
  | uint8 => some .uint8
  | uint16 => some .uint16
  | uint32 => some .uint32
  | uint64 => some .uint64
  | bool => some .bool
  | char => some .char
  | float => some .float
  | double => some .double
  | duration => some .duration
  | timePoint => some .timePoint
  | uuid => some .uuid
  | tombstone => some .tombstone
  | void => some .void
  | _ => none

end TTycon

/-- The tycon of each kind of type, for its indirect or scalar form. -/
def tyconOf : Ty → TTycon
  | .int8 => .int8
  | .int16 => .int16
  | .int32 => .int32
  | .int64 => .int64
  | .uint8 => .uint8
  | .uint16 => .uint16
  | .uint32 => .uint32
  | .uint64 => .uint64
  | .bool => .bool
  | .char => .char
  | .float => .float
  | .double => .double
  | .duration => .duration
  | .timePoint => .timePoint
  | .uuid => .uuid
  | .blob => .blob
  | .str => .str
  | .tombstone => .tombstone
  | .void => .void
  | .desc _ => .desc
  | .free _ => .free
  | .opt _ => .opt
  | .set _ => .set
  | .vector _ => .vector
  | .map _ _ => .map
  | .record _ => .record
  | .tuple _ => .tuple

/-- The tycon numbering agrees with the kind order of the type visitor. -/
theorem toNat_tyconOf (t : Ty) : (tyconOf t).toNat = 48 + t.tycon := by
  cases t <;> rfl

/-- A scalar kept in the storage area (`InitInt8` … `InitUuid`). -/
inductive Scalar where
  | int8 (val : Int8)
  | int16 (val : Int16)
  | int32 (val : Int32)
  | int64 (val : Int64)
  | uint8 (val : UInt8)
  | uint16 (val : UInt16)
  | uint32 (val : UInt32)
  | uint64 (val : UInt64)
  | bool (val : Bool)
  | char (val : Int8)
  | float (bits : UInt32)
  | double (bits : UInt64)
  | duration (ticks : Int64)
  | timePoint (ticks : Int64)
  | uuid (val : Uuid)
  deriving DecidableEq, Repr

namespace Scalar

/-- The tycon `InitX` writes with the value. -/
def tycon : Scalar → TTycon
  | int8 _ => .int8
  | int16 _ => .int16
  | int32 _ => .int32
  | int64 _ => .int64
  | uint8 _ => .uint8
  | uint16 _ => .uint16
  | uint32 _ => .uint32
  | uint64 _ => .uint64
  | bool _ => .bool
  | char _ => .char
  | float _ => .float
  | double _ => .double
  | duration _ => .duration
  | timePoint _ => .timePoint
  | uuid _ => .uuid

/-- The scalar state sabot `SS::TInt8` … `SS::TUuid` reads. -/
def toState : Scalar → State
  | int8 v => .int8 v
  | int16 v => .int16 v
  | int32 v => .int32 v
  | int64 v => .int64 v
  | uint8 v => .uint8 v
  | uint16 v => .uint16 v
  | uint32 v => .uint32 v
  | uint64 v => .uint64 v
  | bool v => .bool v
  | char v => .char v
  | float v => .float v
  | double v => .double v
  | duration v => .duration v
  | timePoint v => .timePoint v
  | uuid v => .uuid v

end Scalar

/-- The storage area of a core, by what the code keeps there. -/
inductive Storage where
  /-- `DirectBlob` / `DirectStr`: the bytes, padded with zeros to 23. -/
  | direct (area : List UInt8)
  | scalar (val : Scalar)
  /-- `IndirectScalarArray`: a blob or string note. -/
  | indirectScalarArray (offset size : Nat)
  /-- `IndirectCoreArray`: a note of cores or of pairs of cores. -/
  | indirectCoreArray (offset elemCount : Nat) (isExemplar usesFullNote : Bool)
  deriving DecidableEq, Repr

/-- `TCore`. -/
structure Core where
  tycon : TTycon
  storage : Storage
  deriving DecidableEq, Repr

/-- What a note holds after its header: raw bytes (a string's include its NUL),
cores, or pairs of cores. -/
inductive Body where
  | raw (bytes : List UInt8)
  | cores (cores : List Core)
  | pairs (pairs : List (Core × Core))
  deriving DecidableEq, Repr

/-- `TCore::TNote`. -/
structure Note where
  tycon : TTycon
  isExemplar : Bool
  body : Body
  deriving DecidableEq, Repr

/-- `TCore::TExtensibleArena`: notes are proposed to it and pinned by offset. -/
abbrev TExtensibleArena (σ : Type) := Store σ Note

/-- `Init(tycon)` zeroes the storage area. -/
def zeroArea : List UInt8 := List.replicate maxDirectSize 0

/-- `strlen`: a C string ends at its first NUL. -/
def cStr (bytes : List UInt8) : List UInt8 := bytes.takeWhile (· != 0)

variable {σ : Type} (A : TExtensibleArena σ)

/-- `InitIndirectCoreArray(tycon, arena->Propose(TNote::New(...)), elem_count,
is_exemplar)` for a note of cores. -/
def proposeCores (s : σ) (tycon : TTycon) (isExemplar : Bool) (cores : List Core) : σ × Core :=
  let (s, offset) := A.propose s ⟨tycon, isExemplar, .cores cores⟩
  (s, ⟨tycon, .indirectCoreArray offset cores.length isExemplar true⟩)

/-- The same for a note of pairs of cores. -/
def proposePairs (s : σ) (tycon : TTycon) (isExemplar : Bool) (pairs : List (Core × Core)) :
    σ × Core :=
  let (s, offset) := A.propose s ⟨tycon, isExemplar, .pairs pairs⟩
  (s, ⟨tycon, .indirectCoreArray offset pairs.length isExemplar true⟩)

/-- `TCore::InitBlob`: direct when it fits, else a blob note. -/
def initBlob (s : σ) (bytes : List UInt8) : σ × Core :=
  if fits : bytes.length ≤ maxDirectSize then
    (s, ⟨.directBlob ⟨maxDirectSize - bytes.length, by unfold maxDirectSize; omega⟩,
      .direct (bytes ++ List.replicate (maxDirectSize - bytes.length) 0)⟩)
  else
    let (s, offset) := A.propose s ⟨.blob, false, .raw bytes⟩
    (s, ⟨.blob, .indirectScalarArray offset bytes.length⟩)

/-- `TCore::InitStr`: direct when it fits, else a string note that also keeps the
terminating NUL. -/
def initStr (s : σ) (bytes : List UInt8) : σ × Core :=
  if fits : bytes.length ≤ maxDirectSize then
    (s, ⟨.directStr ⟨maxDirectSize - bytes.length, by unfold maxDirectSize; omega⟩,
      .direct (bytes ++ List.replicate (maxDirectSize - bytes.length) 0)⟩)
  else
    let (s, offset) := A.propose s ⟨.str, false, .raw (bytes ++ [0])⟩
    (s, ⟨.str, .indirectScalarArray offset bytes.length⟩)

mutual
/-- `TCore(arena, type)`: the default value of a type. An opt, set, vector, map or
free holds one default element flagged as an exemplar; a desc, record or tuple
holds a default per element, not flagged. -/
def ofType (s : σ) : Ty → σ × Core
  | .int8 => (s, ⟨.int8, .scalar (.int8 0)⟩)
  | .int16 => (s, ⟨.int16, .scalar (.int16 0)⟩)
  | .int32 => (s, ⟨.int32, .scalar (.int32 0)⟩)
  | .int64 => (s, ⟨.int64, .scalar (.int64 0)⟩)
  | .uint8 => (s, ⟨.uint8, .scalar (.uint8 0)⟩)
  | .uint16 => (s, ⟨.uint16, .scalar (.uint16 0)⟩)
  | .uint32 => (s, ⟨.uint32, .scalar (.uint32 0)⟩)
  | .uint64 => (s, ⟨.uint64, .scalar (.uint64 0)⟩)
  | .bool => (s, ⟨.bool, .scalar (.bool false)⟩)
  | .char => (s, ⟨.char, .scalar (.char 0)⟩)
  | .float => (s, ⟨.float, .scalar (.float 0)⟩)
  | .double => (s, ⟨.double, .scalar (.double 0)⟩)
  | .duration => (s, ⟨.duration, .scalar (.duration 0)⟩)
  | .timePoint => (s, ⟨.timePoint, .scalar (.timePoint 0)⟩)
  | .uuid => (s, ⟨.uuid, .scalar (.uuid 0)⟩)
  | .blob => initBlob A s []
  | .str => initStr A s []
  | .tombstone => (s, ⟨.tombstone, .direct zeroArea⟩)
  | .void => (s, ⟨.void, .direct zeroArea⟩)
  | .free t =>
    let (s, core) := ofType s t
    proposeCores A s .free true [core]
  | .desc t =>
    let (s, core) := ofType s t
    proposeCores A s .desc false [core]
  | .opt t =>
    let (s, core) := ofType s t
    proposeCores A s .opt true [core]
  | .set t =>
    let (s, core) := ofType s t
    proposeCores A s .set true [core]
  | .vector t =>
    let (s, core) := ofType s t
    proposeCores A s .vector true [core]
  | .map k v =>
    let (s, key) := ofType s k
    let (s, val) := ofType s v
    proposePairs A s .map true [(key, val)]
  | .record fields =>
    let (s, pairs) := ofFieldTypes s fields
    proposePairs A s .record false pairs
  | .tuple elems =>
    let (s, cores) := ofTypes s elems
    proposeCores A s .tuple false cores

/-- Default cores of a tuple type's elements, in order. -/
def ofTypes (s : σ) : List Ty → σ × List Core
  | [] => (s, [])
  | t :: rest =>
    let (s, core) := ofType s t
    let (s, cores) := ofTypes s rest
    (s, core :: cores)

/-- A record type's pairs: `TCore(arena, field_name.c_str())` for the name, then the
default core of the field's type. -/
def ofFieldTypes (s : σ) : List (List UInt8 × Ty) → σ × List (Core × Core)
  | [] => (s, [])
  | (name, t) :: rest =>
    let (s, nameCore) := initStr A s (cStr name)
    let (s, core) := ofType s t
    let (s, pairs) := ofFieldTypes s rest
    (s, (nameCore, core) :: pairs)
end

mutual
/-- `TCore(arena, state)`. An empty opt, set, vector or map is stored as the exemplar
of its element type; an empty record or tuple as the default of its type. -/
def ofState (s : σ) : State → σ × Core
  | .int8 v => (s, ⟨.int8, .scalar (.int8 v)⟩)
  | .int16 v => (s, ⟨.int16, .scalar (.int16 v)⟩)
  | .int32 v => (s, ⟨.int32, .scalar (.int32 v)⟩)
  | .int64 v => (s, ⟨.int64, .scalar (.int64 v)⟩)
  | .uint8 v => (s, ⟨.uint8, .scalar (.uint8 v)⟩)
  | .uint16 v => (s, ⟨.uint16, .scalar (.uint16 v)⟩)
  | .uint32 v => (s, ⟨.uint32, .scalar (.uint32 v)⟩)
  | .uint64 v => (s, ⟨.uint64, .scalar (.uint64 v)⟩)
  | .bool v => (s, ⟨.bool, .scalar (.bool v)⟩)
  | .char v => (s, ⟨.char, .scalar (.char v)⟩)
  | .float v => (s, ⟨.float, .scalar (.float v)⟩)
  | .double v => (s, ⟨.double, .scalar (.double v)⟩)
  | .duration v => (s, ⟨.duration, .scalar (.duration v)⟩)
  | .timePoint v => (s, ⟨.timePoint, .scalar (.timePoint v)⟩)
  | .uuid v => (s, ⟨.uuid, .scalar (.uuid v)⟩)
  | .blob bytes => initBlob A s bytes
  | .str bytes => initStr A s bytes
  | .tombstone => (s, ⟨.tombstone, .direct zeroArea⟩)
  | .void => (s, ⟨.void, .direct zeroArea⟩)
  | .free t =>
    let (s, core) := ofType A s t
    proposeCores A s .free true [core]
  | .desc e =>
    let (s, core) := ofState s e
    proposeCores A s .desc false [core]
  | .opt t none =>
    let (s, core) := ofType A s t
    proposeCores A s .opt true [core]
  | .opt _ (some e) =>
    let (s, core) := ofState s e
    proposeCores A s .opt false [core]
  | .set t [] =>
    let (s, core) := ofType A s t
    proposeCores A s .set true [core]
  | .set _ (e :: es) =>
    let (s, cores) := ofStates s (e :: es)
    proposeCores A s .set false cores
  | .vector t [] =>
    let (s, core) := ofType A s t
    proposeCores A s .vector true [core]
  | .vector _ (e :: es) =>
    let (s, cores) := ofStates s (e :: es)
    proposeCores A s .vector false cores
  | .map k v [] =>
    let (s, key) := ofType A s k
    let (s, val) := ofType A s v
    proposePairs A s .map true [(key, val)]
  | .map _ _ (p :: ps) =>
    let (s, pairs) := ofPairs s (p :: ps)
    proposePairs A s .map false pairs
  | .record fields [] =>
    let (s, pairs) := ofFieldTypes A s fields
    proposePairs A s .record false pairs
  | .record fields (v :: vs) =>
    let (s, pairs) := ofFields s fields (v :: vs)
    proposePairs A s .record false pairs
  | .tuple [] => proposeCores A s .tuple false []
  | .tuple (e :: es) =>
    let (s, cores) := ofStates s (e :: es)
    proposeCores A s .tuple false cores

/-- The cores of a container's elements, in order. -/
def ofStates (s : σ) : List State → σ × List Core
  | [] => (s, [])
  | e :: rest =>
    let (s, core) := ofState s e
    let (s, cores) := ofStates s rest
    (s, core :: cores)

/-- The pairs of cores of a map's entries, key before value. -/
def ofPairs (s : σ) : List (State × State) → σ × List (Core × Core)
  | [] => (s, [])
  | (k, v) :: rest =>
    let (s, key) := ofState s k
    let (s, val) := ofState s v
    let (s, pairs) := ofPairs s rest
    (s, (key, val) :: pairs)

/-- A record's pairs: the name of field `i` of the record's type as a C string, then
the core of value `i`. Values past the last field have no name to pair with; a
well-typed record has none. -/
def ofFields (s : σ) : List (List UInt8 × Ty) → List State → σ × List (Core × Core)
  | (name, _) :: fields, v :: vals =>
    let (s, nameCore) := initStr A s (cStr name)
    let (s, core) := ofState s v
    let (s, pairs) := ofFields s fields vals
    (s, (nameCore, core) :: pairs)
  | _, _ => (s, [])
end

end Orly.Atom

import Mathlib.Data.List.Forall2
import Mathlib.Data.BitVec

/-! Sabot types and states (`orly/sabot/type.h`, `orly/sabot/state.h`).

A sabot is a visitor-facing view of a value: `Type::TAny` for its type and
`State::TAny` for the value itself. Both come in the same 27 kinds, listed here in
the order of `Atom::TCore::TTycon` from `Int8` on, which is also the order of the
rows and columns of the type-ordering table.

The model keeps a state's payload in the form the C++ reads it through its pins:
scalars as the fixed-width machine values (`char` is signed on the targets the
repository builds for; `float` and `double` as their bit patterns; durations and
time points as their `int64` nanosecond counts; a uuid as the 128 bits that
`uuid_compare` orders), blobs and strings as their bytes, and the containers as
lists of element states together with the element types that a sabot reports even
when the container is empty. A state's type is computed (`State.type`); that every
element of a container has the container's element type is the invariant
`State.WellTyped`, which every state built by the repository satisfies. -/
namespace Orly.Sabot

/-- `Sabot::Type::TAny`. A record field is its name (the bytes of a string state) and
its type. -/
inductive Ty where
  | int8
  | int16
  | int32
  | int64
  | uint8
  | uint16
  | uint32
  | uint64
  | bool
  | char
  | float
  | double
  | duration
  | timePoint
  | uuid
  | blob
  | str
  | tombstone
  | void
  | desc (elem : Ty)
  | free (elem : Ty)
  | opt (elem : Ty)
  | set (elem : Ty)
  | vector (elem : Ty)
  | map (key val : Ty)
  | record (fields : List (List UInt8 × Ty))
  | tuple (elems : List Ty)
  deriving Repr

namespace Ty

/-- The position of a type's kind in `Atom::TCore::TTycon`, counting from `Int8`. -/
def tycon : Ty → Nat
  | .int8 => 0
  | .int16 => 1
  | .int32 => 2
  | .int64 => 3
  | .uint8 => 4
  | .uint16 => 5
  | .uint32 => 6
  | .uint64 => 7
  | .bool => 8
  | .char => 9
  | .float => 10
  | .double => 11
  | .duration => 12
  | .timePoint => 13
  | .uuid => 14
  | .blob => 15
  | .str => 16
  | .tombstone => 17
  | .void => 18
  | .desc _ => 19
  | .free _ => 20
  | .opt _ => 21
  | .set _ => 22
  | .vector _ => 23
  | .map _ _ => 24
  | .record _ => 25
  | .tuple _ => 26

mutual
/-- No record type anywhere inside has zero fields. The atom layer does not support
empty records (`kit2.cc`: "we don't support empty record"), and the type visitor reads
its comparison before assigning it when it meets one. -/
def NoEmptyRecord : Ty → Prop
  | .desc t | .free t | .opt t | .set t | .vector t => t.NoEmptyRecord
  | .map k v => k.NoEmptyRecord ∧ v.NoEmptyRecord
  | .record fields => fields ≠ [] ∧ fieldsNoEmptyRecord fields
  | .tuple elems => listNoEmptyRecord elems
  | _ => True

/-- `NoEmptyRecord` for each field type. -/
def fieldsNoEmptyRecord : List (List UInt8 × Ty) → Prop
  | [] => True
  | (_, t) :: rest => t.NoEmptyRecord ∧ fieldsNoEmptyRecord rest

/-- `NoEmptyRecord` for each element type. -/
def listNoEmptyRecord : List Ty → Prop
  | [] => True
  | t :: rest => t.NoEmptyRecord ∧ listNoEmptyRecord rest
end

end Ty

/-- The uuid value: `uuid_compare` orders uuids as 128-bit big-endian integers. -/
abbrev Uuid := BitVec 128

/-- `Sabot::State::TAny`. Containers carry the element types their sabots report: an
`opt` is an array of zero or one states, a `desc` of exactly one, and a record holds
its type's fields and one value per field. -/
inductive State where
  | free (elem : Ty)
  | tombstone
  | void
  | int8 (val : Int8)
  | int16 (val : Int16)
  | int32 (val : Int32)
  | int64 (val : Int64)
  | uint8 (val : UInt8)
  | uint16 (val : UInt16)
  | uint32 (val : UInt32)
  | uint64 (val : UInt64)
  | bool (val : Bool)
  | char (val : Int8)
  | float (bits : UInt32)
  | double (bits : UInt64)
  | duration (ticks : Int64)
  | timePoint (ticks : Int64)
  | uuid (val : Uuid)
  | blob (bytes : List UInt8)
  | str (bytes : List UInt8)
  | desc (elem : State)
  | opt (elem : Ty) (val : Option State)
  | set (elem : Ty) (elems : List State)
  | vector (elem : Ty) (elems : List State)
  | map (key val : Ty) (elems : List (State × State))
  | record (fields : List (List UInt8 × Ty)) (vals : List State)
  | tuple (elems : List State)
  deriving Repr

namespace State

mutual
/-- `GetType`: the type a state's sabot reports. -/
def type : State → Ty
  | .free t => .free t
  | .tombstone => .tombstone
  | .void => .void
  | .int8 _ => .int8
  | .int16 _ => .int16
  | .int32 _ => .int32
  | .int64 _ => .int64
  | .uint8 _ => .uint8
  | .uint16 _ => .uint16
  | .uint32 _ => .uint32
  | .uint64 _ => .uint64
  | .bool _ => .bool
  | .char _ => .char
  | .float _ => .float
  | .double _ => .double
  | .duration _ => .duration
  | .timePoint _ => .timePoint
  | .uuid _ => .uuid
  | .blob _ => .blob
  | .str _ => .str
  | .desc s => .desc s.type
  | .opt t _ => .opt t
  | .set t _ => .set t
  | .vector t _ => .vector t
  | .map k v _ => .map k v
  | .record fields _ => .record fields
  | .tuple elems => .tuple (types elems)

/-- The types of a tuple's elements. -/
def types : List State → List Ty
  | [] => []
  | s :: rest => s.type :: types rest
end

mutual
/-- Every element has the element type its container reports, and a record has one
value of the right type per field. -/
def WellTyped : State → Prop
  | .desc s => s.WellTyped
  | .opt t (some s) => s.type = t ∧ s.WellTyped
  | .set t elems | .vector t elems => allOfType t elems
  | .map k v elems => pairsOfType k v elems
  | .record fields vals => valsOfFields fields vals
  | .tuple elems => allWellTyped elems
  | _ => True

/-- Each state has type `t` and is well typed. -/
def allOfType (t : Ty) : List State → Prop
  | [] => True
  | s :: rest => s.type = t ∧ s.WellTyped ∧ allOfType t rest

/-- Each key has type `k`, each value type `v`. -/
def pairsOfType (k v : Ty) : List (State × State) → Prop
  | [] => True
  | (a, b) :: rest => a.type = k ∧ a.WellTyped ∧ b.type = v ∧ b.WellTyped ∧ pairsOfType k v rest

/-- One well-typed value per field, of that field's type. -/
def valsOfFields : List (List UInt8 × Ty) → List State → Prop
  | [], [] => True
  | (_, t) :: fields, s :: vals => s.type = t ∧ s.WellTyped ∧ valsOfFields fields vals
  | _, _ => False

/-- Each element is well typed. -/
def allWellTyped : List State → Prop
  | [] => True
  | s :: rest => s.WellTyped ∧ allWellTyped rest
end

theorem types_eq_map : ∀ (states : List State), types states = states.map type
  | [] => rfl
  | s :: rest => by rw [types, types_eq_map rest, List.map_cons]

end State

end Orly.Sabot

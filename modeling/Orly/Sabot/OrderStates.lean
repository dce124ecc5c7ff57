import Orly.Lib.Ieee754
import Orly.Sabot.OrderTypes

/-! `Sabot::OrderStates` (`orly/sabot/order_states.h`, `order_states.cc`).

`OrderStates` first orders the two states' types; only when they compare equal does
it visit the states, starting the shared comparison at `Eq`. A cell of two states of
the same kind compares their payloads and never looks at types again: scalars by
the C++ `==` and `<` of their value type, blobs and strings by `memcmp` and size,
containers element by element (`OnArrayOfSingleStates`, `OnArrayOfPairsOfStates`)
and a `desc` reversed. A cell of two different kinds calls `OrderStates` afresh,
which then decides by the types alone (`orderTypes_ne_eq_of_tycon_ne`).

The element loops stop at the first element pair that is not `Eq`, including an
undefined one (`none`), and otherwise compare element counts when the shared
comparison is still `Eq`. -/
namespace Orly.Sabot

open Orly.Atom

/-- `TOrderStatesVisitor::Compare` for a `float`: `==` and `<` of binary32. -/
def compareFloat (lhs rhs : UInt32) : TComparison :=
  compareBy (fun a b => Ieee754.Format.binary32.eq a.toNat b.toNat)
    (fun a b => Ieee754.Format.binary32.lt a.toNat b.toNat) lhs rhs

/-- `TOrderStatesVisitor::Compare` for a `double`: `==` and `<` of binary64. -/
def compareDouble (lhs rhs : UInt64) : TComparison :=
  compareBy (fun a b => Ieee754.Format.binary64.eq a.toNat b.toNat)
    (fun a b => Ieee754.Format.binary64.lt a.toNat b.toNat) lhs rhs

/-- `TOrderStatesVisitor::Compare` for a machine integer or other value type with
the usual `==` and `<`. -/
def compareScalar {α : Type} [BEq α] [LT α] [DecidableRel (α := α) (· < ·)]
    (lhs rhs : α) : TComparison :=
  compareBy (fun a b => a == b) (fun a b => decide (a < b)) lhs rhs

/-- `bool`'s `<`: `false < true`. -/
def compareBool (lhs rhs : Bool) : TComparison :=
  compareBy (fun a b => a == b) (fun a b => !a && b) lhs rhs

/-- `uuid_compare`, unsigned on the 128 bits. -/
def compareUuid (lhs rhs : Uuid) : TComparison :=
  compareBy (fun a b => a == b) (fun a b => a.ult b) lhs rhs

mutual
/-- `TOrderStatesVisitor::operator()`: `comparison` is the shared `Comparison` on
entry, and it is `Eq` whenever a cell is entered. -/
def orderStatesVisitor : State → State → TComparison → Option TComparison
  | .free _, .free _, _ => some .eq
  | .tombstone, .tombstone, _ => some .eq
  | .void, .void, _ => some .eq
  | .int8 a, .int8 b, _ => some (compareScalar a b)
  | .int16 a, .int16 b, _ => some (compareScalar a b)
  | .int32 a, .int32 b, _ => some (compareScalar a b)
  | .int64 a, .int64 b, _ => some (compareScalar a b)
  | .uint8 a, .uint8 b, _ => some (compareScalar a b)
  | .uint16 a, .uint16 b, _ => some (compareScalar a b)
  | .uint32 a, .uint32 b, _ => some (compareScalar a b)
  | .uint64 a, .uint64 b, _ => some (compareScalar a b)
  | .bool a, .bool b, _ => some (compareBool a b)
  | .char a, .char b, _ => some (compareScalar a b)
  | .float a, .float b, _ => some (compareFloat a b)
  | .double a, .double b, _ => some (compareDouble a b)
  | .duration a, .duration b, _ => some (compareScalar a b)
  | .timePoint a, .timePoint b, _ => some (compareScalar a b)
  | .uuid a, .uuid b, _ => some (compareUuid a b)
  | .blob a, .blob b, _ => some (compareBytes a b)
  | .str a, .str b, _ => some (compareBytes a b)
  | .desc l, .desc r, c => (orderStatesVisitor l r c).map TComparison.reverse
  | .opt _ none, .opt _ none, c => some (if c.isEq then .eq else c)
  | .opt _ (some _), .opt _ none, c => some (if c.isEq then .gt else c)
  | .opt _ none, .opt _ (some _), c => some (if c.isEq then .lt else c)
  | .opt _ (some l), .opt _ (some r), c => orderStatesVisitor l r c
  | .set _ ls, .set _ rs, c => onArrayOfSingleStates ls rs c
  | .vector _ ls, .vector _ rs, c => onArrayOfSingleStates ls rs c
  | .map _ _ ls, .map _ _ rs, c => onArrayOfPairsOfStates ls rs c
  | .record _ ls, .record _ rs, c => onArrayOfSingleStates ls rs c
  | .tuple ls, .tuple rs, c => onArrayOfSingleStates ls rs c
  | l, r, _ => orderTypes l.type r.type

/-- `OnArrayOfSingleStates`. -/
def onArrayOfSingleStates : List State → List State → TComparison → Option TComparison
  | l :: ls, r :: rs, c =>
    match orderStatesVisitor l r c with
    | some .eq => onArrayOfSingleStates ls rs .eq
    | other => other
  | ls, rs, c => some (if c.isEq then compareLinear ls.length rs.length else c)

/-- `OnArrayOfPairsOfStates`: each key, then each value. -/
def onArrayOfPairsOfStates : List (State × State) → List (State × State) → TComparison →
    Option TComparison
  | (lk, lv) :: ls, (rk, rv) :: rs, c =>
    match orderStatesVisitor lk rk c with
    | some .eq =>
      match orderStatesVisitor lv rv .eq with
      | some .eq => onArrayOfPairsOfStates ls rs .eq
      | other => other
    | other => other
  | ls, rs, c => some (if c.isEq then compareLinear ls.length rs.length else c)
end

/-- `Sabot::OrderStates`. -/
def orderStates (lhs rhs : State) : Option TComparison :=
  match orderTypes lhs.type rhs.type with
  | some .eq => orderStatesVisitor lhs rhs .eq
  | other => other

/-- Tuple types all compare equal, and two states of different kinds are ordered by
their types alone, so within tuples of different types `Lt` is not transitive: a
null `int64` opt is below `3`, which is below a null `str` opt, but the two opts
compare by presence only and are equal. -/
theorem orderStates_tuples_not_transitive :
    orderStates (.tuple [.opt .int64 none]) (.tuple [.int64 3]) = some .lt ∧
      orderStates (.tuple [.int64 3]) (.tuple [.opt .str none]) = some .lt ∧
      orderStates (.tuple [.opt .int64 none]) (.tuple [.opt .str none]) = some .eq := by
  decide +kernel

end Orly.Sabot

import Orly.Sabot.OrderStates

/-! `Sabot::CompareTypes` and `Sabot::CompareStates` (`orly/sabot/compare_types.cc`,
`orly/sabot/compare_states.h`, `orly/sabot/compare_states.cc`).

These are the comparisons the data files sort the notes of an arena by and find the
boundaries between types with (`TOrderedNote`, `MakeArena`), that `PushKey` asserts the
keys of one index by, and that `CompareTypes` itself orders record field names with.

`CompareTypes` is a double visitor over the 27 × 27 table of kinds that `OrderTypes` also
has, but every cell of two different kinds is a constant of the plain kind order: `free`
and `opt` types are unary kinds like `set`, with no place of their own beside the type they
wrap. A tuple type compares its element types in order and then its element count. The
cells share a `TComparison &Comparison` that `CompareTypes` declares without an
initializer. The record cell assigns `Eq` before its loop; the tuple cell does not, so a
tuple cell whose loop does not run (one of the two tuples has no elements) reads
`Comparison`, which nothing has assigned when that cell is the first to run. As in
`Orly.Sabot.OrderTypes` the shared comparison is an `Option TComparison` whose `none` is
"not yet assigned", and reading it is `none`.

`CompareStates` compares the two types and visits the states only when they are `Eq`. Its
visitor is a class of its own, but each cell of two states of one kind is the cell of
`TOrderStatesVisitor` written again: the same `Compare` of scalars, `memcmp` and size on
bytes, the loops over elements and entries, and a `desc` reversed. Every cell of two
different kinds throws `TUnreachable`, which is `none` here. -/
namespace Orly.Sabot

open Orly.Atom

mutual
/-- `TCompareTypesVisitor::operator()`, cell by cell: `comparison` is the shared
`Comparison` on entry, and the result its value on exit. -/
def compareTypesVisitor : Ty → Ty → Option TComparison → Option TComparison
  -- `OnUnary`
  | .desc l, .desc r, c => compareTypesVisitor l r c
  | .free l, .free r, c => compareTypesVisitor l r c
  | .opt l, .opt r, c => compareTypesVisitor l r c
  | .set l, .set r, c => compareTypesVisitor l r c
  | .vector l, .vector r, c => compareTypesVisitor l r c
  -- `OnBinary`: the value types only when the key types are `Eq`
  | .map lk lv, .map rk rv, c =>
    match compareTypesVisitor lk rk c with
    | some .eq => compareTypesVisitor lv rv (some .eq)
    | other => other
  -- "start of with Comparison = Eq in case both sides have 0 elements"
  | .record lf, .record rf, _ => compareRecordTypes lf rf (some .eq)
  | .tuple ls, .tuple rs, c => compareTupleTypes ls rs c
  -- Every other cell is a constant of the kind order.
  | l, r, _ => some (compareLinear l.tycon r.tycon)
  termination_by l r => sizeOf l + sizeOf r

/-- The loop of the `Record`/`Record` cell. A field name is the string state that
`CompareStates` compares, whose types are both `Str` and whose cell is `OnArrayOfScalars`,
that is `compareBytes`. Equal names go on to the field types; after a loop that ended
with `Eq`, the field counts. -/
def compareRecordTypes : List (List UInt8 × Ty) → List (List UInt8 × Ty) →
    Option TComparison → Option TComparison
  | (ln, lt) :: lf, (rn, rt) :: rf, c =>
    match compareBytes ln rn with
    | .eq =>
      match compareTypesVisitor lt rt c with
      | some .eq => compareRecordTypes lf rf (some .eq)
      | other => other
    | .lt => some .lt
    | _ => some .gt
  | lf, rf, c => c.map fun c => if c.isEq then compareLinear lf.length rf.length else c
  termination_by l r => sizeOf l + sizeOf r

/-- The loop of the `Tuple`/`Tuple` cell: element types in order, then, if `Comparison`
is `Eq` after the loop, the element counts. The loop does not assign `Comparison` before
it reads it. -/
def compareTupleTypes : List Ty → List Ty → Option TComparison → Option TComparison
  | l :: ls, r :: rs, c =>
    match compareTypesVisitor l r c with
    | some .eq => compareTupleTypes ls rs (some .eq)
    | other => other
  | ls, rs, c => c.map fun c => if c.isEq then compareLinear ls.length rs.length else c
  termination_by l r => sizeOf l + sizeOf r
end

/-- `Sabot::CompareTypes`: the visitor on a `comp` that is never initialized. -/
def compareTypes (lhs rhs : Ty) : Option TComparison := compareTypesVisitor lhs rhs none

mutual
/-- `TCompareStatesVisitor::operator()`: `comparison` is the shared `Comparison` on
entry, `Eq` whenever `CompareStates` or a loop enters a cell. -/
def compareStatesVisitor : State → State → TComparison → Option TComparison
  | .free _, .free _, _ => some .eq
  | .tombstone, .tombstone, _ => some .eq
  | .void, .void, _ => some .eq
  | .int8 a, .int8 b, _ => some (compareScalar a b)
  | .int16 a, .int16 b, _ => some (compareScalar a b)
  | .int32 a, .int32 b, _ => some (compareScalar a b)
  | .int64 a, .int64 b, _ => some (compareScalar a b)
  | .uint8 a, .uint8 b, _ => some (compareScalar a b)
  | .uint16 a, .uint16 b, _ => some (compareScalar a b)
  | .uint32 a, .uint32 b, _ => some (compareScalar a b)
  | .uint64 a, .uint64 b, _ => some (compareScalar a b)
  | .bool a, .bool b, _ => some (compareBool a b)
  | .char a, .char b, _ => some (compareScalar a b)
  | .float a, .float b, _ => some (compareFloat a b)
  | .double a, .double b, _ => some (compareDouble a b)
  | .duration a, .duration b, _ => some (compareScalar a b)
  | .timePoint a, .timePoint b, _ => some (compareScalar a b)
  | .uuid a, .uuid b, _ => some (compareUuid a b)
  | .blob a, .blob b, _ => some (compareBytes a b)
  | .str a, .str b, _ => some (compareBytes a b)
  -- `OnArrayOfSingleStates` over the one element of each, then the `switch` that swaps
  -- `Lt` and `Gt`
  | .desc l, .desc r, c => (compareStatesVisitor l r c).map TComparison.reverse
  -- `OnArrayOfSingleStates` over arrays of zero or one element
  | .opt _ none, .opt _ none, c => some (if c.isEq then .eq else c)
  | .opt _ (some _), .opt _ none, c => some (if c.isEq then .gt else c)
  | .opt _ none, .opt _ (some _), c => some (if c.isEq then .lt else c)
  | .opt _ (some l), .opt _ (some r), c => compareStatesVisitor l r c
  | .set _ ls, .set _ rs, c => compareSingleStates ls rs c
  | .vector _ ls, .vector _ rs, c => compareSingleStates ls rs c
  | .map _ _ ls, .map _ _ rs, c => comparePairsOfStates ls rs c
  | .record _ ls, .record _ rs, c => compareSingleStates ls rs c
  | .tuple ls, .tuple rs, c => compareSingleStates ls rs c
  -- `throw TUnreachable()`
  | _, _, _ => none

/-- `TCompareStatesVisitor::OnArrayOfSingleStates`. -/
def compareSingleStates : List State → List State → TComparison → Option TComparison
  | l :: ls, r :: rs, c =>
    match compareStatesVisitor l r c with
    | some .eq => compareSingleStates ls rs .eq
    | other => other
  | ls, rs, c => some (if c.isEq then compareLinear ls.length rs.length else c)

/-- `TCompareStatesVisitor::OnArrayOfPairsOfStates`: each key, then each value. -/
def comparePairsOfStates : List (State × State) → List (State × State) → TComparison →
    Option TComparison
  | (lk, lv) :: ls, (rk, rv) :: rs, c =>
    match compareStatesVisitor lk rk c with
    | some .eq =>
      match compareStatesVisitor lv rv .eq with
      | some .eq => comparePairsOfStates ls rs .eq
      | other => other
    | other => other
  | ls, rs, c => some (if c.isEq then compareLinear ls.length rs.length else c)
end

/-- `Sabot::CompareStates`: the types, and the states only when the types are `Eq`. -/
def compareStates (lhs rhs : State) : Option TComparison :=
  match compareTypes lhs.type rhs.type with
  | some .eq => compareStatesVisitor lhs rhs .eq
  | other => other

end Orly.Sabot

import Orly.Atom.Comparison
import Orly.Sabot.Type

/-! `Sabot::OrderTypes` (`orly/sabot/order_types.cc`).

The C++ is a double-dispatch visitor over a 27 × 27 table of cells that writes its
answer into a `TComparison &Comparison` it shares with the cells it calls. Most
cells assign a constant: below the diagonal `Gt`, above it `Lt`, on it `Eq` for
scalars; the table follows the kind order `Ty.tycon`, so those cells are one
comparison of tycons here. The cells that call back into the visitor are the unary
and binary kinds (`OnUnary`, `OnBinary`), records, and the rows and columns of
`Free` and `Opt`, which place `free t` and `opt t` just below `t` (`OnWithFree`,
`OnWithOpt`, with `Reverse` when the wrapped type is on the left).

`OrderTypes` declares its `TComparison comp` without an initializer, and the record
cell reads `Comparison` after a loop that may not have assigned it (a record with
no fields on either side). The shared comparison is therefore an
`Option TComparison` whose `none` is "not yet assigned"; reading it then is
undefined behaviour, and the model's answer is `none`. -/
namespace Orly.Sabot

open Orly.Atom

/-- `OnArrayOfScalars` over bytes: `memcmp` of the common prefix, then the sizes. The
loop drops the same number of bytes from both sides, so comparing what is left
compares the sizes. -/
def compareBytes : List UInt8 → List UInt8 → TComparison
  | a :: as, b :: bs => if a = b then compareBytes as bs else if a < b then .lt else .gt
  | as, bs => compareLinear as.length bs.length

/-- The tail of `OnWithFree` and `OnWithOpt`: anything not below the wrapped type is
above the wrapper. -/
def aboveWrapper (c : TComparison) : TComparison := if c.isGe then .gt else c

mutual
/-- `TOrderTypesVisitor::operator()`, cell by cell. `comparison` is the shared
`Comparison` on entry; the result is its value on exit. -/
def orderTypesVisitor : Ty → Ty → Option TComparison → Option TComparison
  -- The four cells between `Free` and `Opt`: `OnUnary`, a free just below an opt.
  | .free l, .free r, c => orderTypesVisitor l r c
  | .free l, .opt r, c => (orderTypesVisitor l r c).map fun c => if c.isEq then .lt else c
  | .opt l, .free r, c => (orderTypesVisitor l r c).map fun c => if c.isEq then .gt else c
  | .opt l, .opt r, c => orderTypesVisitor l r c
  -- Row `Free` and row `Opt`: `OnWithFree(rhs, lhs); Reverse(Comparison)`.
  | .free l, r, c => (orderTypesVisitor r l c).map fun c => (aboveWrapper c).reverse
  | .opt l, r, c => (orderTypesVisitor r l c).map fun c => (aboveWrapper c).reverse
  -- Column `Free` and column `Opt`: `OnWithFree(lhs, rhs)`.
  | l, .free r, c => (orderTypesVisitor l r c).map aboveWrapper
  | l, .opt r, c => (orderTypesVisitor l r c).map aboveWrapper
  -- The diagonal cells of the unary and binary kinds.
  | .desc l, .desc r, c => orderTypesVisitor l r c
  | .set l, .set r, c => orderTypesVisitor l r c
  | .vector l, .vector r, c => orderTypesVisitor l r c
  | .map lk lv, .map rk rv, c =>
    match orderTypesVisitor lk rk c with
    | some .eq => orderTypesVisitor lv rv (some .eq)
    | other => other
  | .record lf, .record rf, c => orderRecordFields lf rf c
  -- Tuple types all compare equal, so that tuples sort lexicographically by value.
  | .tuple _, .tuple _, _ => some .eq
  -- Every other cell is a constant of the kind order.
  | l, r, _ => some (compareLinear l.tycon r.tycon)
  termination_by l r => sizeOf l + sizeOf r

/-- The loop of the `Record`/`Record` cell: field names by `OrderStates` of their
string states, then field types; after a loop that found every field equal, the
field counts. -/
def orderRecordFields : List (List UInt8 × Ty) → List (List UInt8 × Ty) →
    Option TComparison → Option TComparison
  | (ln, lt) :: lf, (rn, rt) :: rf, c =>
    match compareBytes ln rn with
    | .eq =>
      match orderTypesVisitor lt rt c with
      | some .eq => orderRecordFields lf rf (some .eq)
      | other => other
    | .lt => some .lt
    | _ => some .gt
  | lf, rf, c => c.map fun c => if c.isEq then compareLinear lf.length rf.length else c
  termination_by l r => sizeOf l + sizeOf r
end

/-- `Sabot::OrderTypes`: the visitor started on an unassigned comparison. -/
def orderTypes (lhs rhs : Ty) : Option TComparison := orderTypesVisitor lhs rhs none

end Orly.Sabot

import Mathlib.Data.List.Basic
import Mathlib.Logic.Function.Iterate
import Orly.Lib.MachineInt

/-! `TRangeGenerator` (`orly/rt/generator.h`), the generator behind Orly's range
expressions: `TRange::WriteExpr` (`orly/code_gen/range.cc`) compiles `[start..limit]` and
`[start..limit)` to `New(start, limit, include)` and `[start, second..limit]` to
`NewWithSecond(start, limit, include, second)`.

The generator keeps `Start`, `Stride`, and a `Limit` with `IncludeLimit`, all but the flag
`int64_t`. A cursor starts at `Start`; it holds (`operator bool`) while `Cur` is before the
limit in the direction of the stride, or is the limit when the limit is included, and
`operator++` adds the stride in two's complement. The constructor throws only on a stride
against the direction from start to limit.

Where the stride is not zero and no value up to the first one past the limit leaves
`int64_t`, a cursor yields the progression of the stride in integer arithmetic, up to the
limit (`yields_progression`). Three progressions do not: a stride of zero passes the
constructor and repeats its start forever when the start is past the limit; a range up
to `INT64_MAX` with the limit included holds at every value, so its cursor runs on past
the limit into `INT64_MIN` and back; and `New` of a range whose `limit - start`
overflows takes the stride `-1` and yields nothing (`rangeGenerator_leaves_progression`). -/
namespace Orly.Rt

/-- `TRangeGenerator`: its flag `IncludeLimit`, its `Start` and `Stride`, and its `Limit`,
which `TOpt` leaves unknown for a generator without one. -/
structure TRangeGenerator where
  includeLimit : Bool
  start : Int64
  stride : Int64
  limit : Option Int64
  deriving DecidableEq, Repr

namespace TRangeGenerator

/-- The text of the `TSystemError` the constructor throws. -/
def strideError : String := "Range stride must be in the direction from start to limit"

/-- `TRangeGenerator(start, limit, stride, include_limit)`, which throws when the stride is
against the direction from `start` to `limit`. -/
def make (start limit stride : Int64) (includeLimit : Bool) : Except String TRangeGenerator :=
  if (if limit - start > 0 then stride < 0 else stride > 0) then .error strideError
  else .ok ⟨includeLimit, start, stride, some limit⟩

/-- `New(start, limit, include_limit)`: a stride of one towards the limit. -/
def new (start limit : Int64) (includeLimit : Bool) : Except String TRangeGenerator :=
  make start limit (if limit - start > 0 then 1 else -1) includeLimit

/-- `NewWithSecond(start, limit, include_limit, second)`: the stride from the start to the
second value. -/
def newWithSecond (start limit : Int64) (includeLimit : Bool) (second : Int64) :
    Except String TRangeGenerator :=
  make start limit (second - start) includeLimit

/-- `New(start)`: `TRangeGenerator(start, 1)`, without a limit. -/
def newFrom (start : Int64) : TRangeGenerator := ⟨true, start, 1, none⟩

/-- `NewWithSecond(start, second)`: `TRangeGenerator(start, second - start)`, without a
limit. -/
def newFromWithSecond (start second : Int64) : TRangeGenerator := ⟨true, start, second - start, none⟩

end TRangeGenerator

/-- `TRangeGenerator::TCursor`: the value `Cur` and the generator. -/
structure TCursor where
  cur : Int64
  ptr : TRangeGenerator

namespace TCursor

/-- `TCursor(ptr)`: at the generator's start. -/
def make (ptr : TRangeGenerator) : TCursor := ⟨ptr.start, ptr⟩

/-- `operator bool`: before the limit in the direction of the stride, or at the limit when
it is included; always, for a generator without a limit. -/
def valid (c : TCursor) : Bool :=
  match c.ptr.limit with
  | some limit =>
    decide (if c.ptr.stride > 0 then c.cur < limit else c.cur > limit) ||
      (c.ptr.includeLimit && limit == c.cur)
  | none => true

/-- `operator*`, which throws past the end. -/
def read (c : TCursor) : Except String Int64 :=
  if c.valid then .ok c.cur else .error "Tried reading past end of Range Generator"

/-- `Cur += Ptr->GetStride()`, in two's complement. -/
def advance (c : TCursor) : TCursor := { c with cur := c.cur + c.ptr.stride }

/-- `operator++`, which throws `TPastEndError` past the end. -/
def next (c : TCursor) : Except String TCursor :=
  if c.valid then .ok c.advance else .error "Squence iterator advanced past end"

/-- The values a loop `for (; csr; ++csr)` reads with `*csr` in at most `fuel` rounds. -/
def yields : Nat → TCursor → List Int64
  | 0, _ => []
  | fuel + 1, c => if c.valid then c.cur :: yields fuel c.advance else []

@[simp] theorem ptr_advance (c : TCursor) : c.advance.ptr = c.ptr := rfl

@[simp] theorem cur_advance (c : TCursor) : c.advance.cur = c.cur + c.ptr.stride := rfl

theorem yields_succ_of_valid {c : TCursor} {fuel : Nat} (held : c.valid = true) :
    c.yields (fuel + 1) = c.cur :: c.advance.yields fuel := by
  simp [yields, held]

theorem yields_succ_of_not_valid {c : TCursor} {fuel : Nat} (ended : c.valid = false) :
    c.yields (fuel + 1) = [] := by
  simp [yields, ended]

theorem ptr_advance_iterate (c : TCursor) (k : Nat) : (advance^[k] c).ptr = c.ptr := by
  induction k with
  | zero => rfl
  | succ k ih => rw [Function.iterate_succ_apply', ptr_advance, ih]

/-- After `k` rounds of `operator++` the value is the start and `k` strides, wrapped to
`int64_t`. -/
theorem toInt_cur_advance_iterate (c : TCursor) (k : Nat) :
    (advance^[k] c).cur.toInt = (c.cur.toInt + k * c.ptr.stride.toInt).bmod (2 ^ 64) := by
  induction k with
  | zero => simp
  | succ k ih =>
    rw [Function.iterate_succ_apply', cur_advance, Int64.toInt_add, ih, ptr_advance_iterate,
      Int.bmod_add_bmod]
    congr 1
    rw [Int.natCast_add, Int.natCast_one, Int.add_mul, Int.one_mul, Int.add_assoc]

/-- A cursor that holds for its first `fuel` values yields each of them. -/
theorem yields_of_valid {c : TCursor} {fuel : Nat} (held : ∀ k < fuel, (advance^[k] c).valid = true) :
    c.yields fuel = (List.range fuel).map fun k => (advance^[k] c).cur := by
  induction fuel generalizing c with
  | zero => rfl
  | succ fuel ih =>
    have first : c.valid = true := held 0 (by omega)
    have rest := ih fun k below => by simpa only [Function.iterate_succ_apply] using held (k + 1) (by omega)
    rw [yields_succ_of_valid first, rest, List.range_succ_eq_map, List.map_cons, List.map_map]
    rfl

/-- A cursor that holds for its first `n` values and not for the next yields those `n`,
however many rounds past them it is given. -/
theorem yields_of_stop {c : TCursor} {n fuel : Nat} (held : ∀ k < n, (advance^[k] c).valid = true)
    (stop : (advance^[n] c).valid = false) (enough : n ≤ fuel) :
    c.yields fuel = (List.range n).map fun k => (advance^[k] c).cur := by
  induction n generalizing c fuel with
  | zero =>
    cases fuel with
    | zero => rfl
    | succ fuel => exact yields_succ_of_not_valid stop
  | succ n ih =>
    obtain ⟨fuel, rfl⟩ : ∃ f, fuel = f + 1 := ⟨fuel - 1, by omega⟩
    have first : c.valid = true := held 0 (by omega)
    have rest : c.advance.yields fuel = (List.range n).map fun k => (advance^[k] c.advance).cur :=
      ih (fun k below => by simpa only [Function.iterate_succ_apply] using held (k + 1) (by omega))
        (by simpa only [Function.iterate_succ_apply] using stop) (by omega)
    rw [yields_succ_of_valid first, rest, List.range_succ_eq_map, List.map_cons, List.map_map]
    rfl

end TCursor

/-- The stop test of a cursor in integers: before `limit` in the direction of the stride
`d`, or `limit` itself when it is included. -/
def beforeLimit (d limit : Int) (includeLimit : Bool) (v : Int) : Bool :=
  decide (if 0 < d then v < limit else limit < v) || (includeLimit && limit == v)

namespace TCursor

theorem valid_eq_beforeLimit {c : TCursor} {limit : Int64} (bounded : c.ptr.limit = some limit) :
    c.valid = beforeLimit c.ptr.stride.toInt limit.toInt c.ptr.includeLimit c.cur.toInt := by
  have positive : c.ptr.stride > 0 ↔ 0 < c.ptr.stride.toInt := by
    rw [gt_iff_lt, Int64.lt_iff_toInt_lt, Int64.toInt_zero]
  have same : (limit == c.cur) = (limit.toInt == c.cur.toInt) := by
    rw [Bool.eq_iff_iff, beq_iff_eq, beq_iff_eq]
    exact Int64.toInt_inj.symm
  simp only [valid, bounded, beforeLimit, same]
  by_cases up : 0 < c.ptr.stride.toInt
  · simp [positive.mpr up, up, Int64.lt_iff_toInt_lt]
  · simp [mt positive.mp up, up, Int64.lt_iff_toInt_lt]

/-- Where every value up to the `n`-th stays in `int64_t`, the first `n` values are before
the limit and the `n`-th is not, a cursor yields the first `n` values of the progression in
integer arithmetic, however many rounds past them it is given. -/
theorem yields_progression {c : TCursor} {limit : Int64} (bounded : c.ptr.limit = some limit)
    {n : Nat}
    (fits : ∀ k ≤ n, -2 ^ 63 ≤ c.cur.toInt + k * c.ptr.stride.toInt ∧
      c.cur.toInt + k * c.ptr.stride.toInt < 2 ^ 63)
    (before : ∀ k < n, beforeLimit c.ptr.stride.toInt limit.toInt c.ptr.includeLimit
      (c.cur.toInt + k * c.ptr.stride.toInt) = true)
    (past : beforeLimit c.ptr.stride.toInt limit.toInt c.ptr.includeLimit
      (c.cur.toInt + n * c.ptr.stride.toInt) = false)
    (fuel : Nat) (enough : n ≤ fuel) :
    (c.yields fuel).map Int64.toInt =
      (List.range n).map fun k : Nat => c.cur.toInt + k * c.ptr.stride.toInt := by
  have exact : ∀ k ≤ n, (advance^[k] c).cur.toInt = c.cur.toInt + k * c.ptr.stride.toInt :=
    fun k within => by
      rw [toInt_cur_advance_iterate, MachineInt.bmod_of_fits (fits k within).1 (fits k within).2]
  have test : ∀ k ≤ n, (advance^[k] c).valid =
      beforeLimit c.ptr.stride.toInt limit.toInt c.ptr.includeLimit (c.cur.toInt + k * c.ptr.stride.toInt) :=
    fun k within => by
      rw [valid_eq_beforeLimit (by rw [ptr_advance_iterate]; exact bounded), ptr_advance_iterate,
        exact k within]
  rw [yields_of_stop (fun k below => (test k below.le).trans (before k below))
    ((test n le_rfl).trans past) enough, List.map_map]
  exact List.map_congr_left fun k mem => exact k (List.mem_range.mp mem).le

end TCursor

/-- Every `int64_t` is below `INT64_MAX` or is it. -/
theorem lt_maxValue_or_eq (x : Int64) : x < Int64.maxValue ∨ Int64.maxValue = x := by
  rw [Int64.lt_iff_toInt_lt, ← Int64.toInt_inj]
  have atMost := x.toInt_le
  omega

namespace TRangeGenerator

/-- A stride of zero passes the constructor: it is against no direction. -/
theorem make_zero_stride (start limit : Int64) (includeLimit : Bool) :
    make start limit 0 includeLimit = .ok ⟨includeLimit, start, 0, some limit⟩ := by
  have along : ¬(if limit - start > 0 then (0 : Int64) < 0 else (0 : Int64) > 0) := by
    split <;> decide
  rw [make, if_neg along]

/-- `NewWithSecond` whose second value is its start, past the limit: the stride is zero,
and the cursor holds at every round and stays at the start. -/
theorem newWithSecond_same_repeats (start limit : Int64) (includeLimit : Bool) (beyond : limit < start) :
    ∃ gen, newWithSecond start limit includeLimit start = .ok gen ∧
      ∀ fuel, (TCursor.make gen).yields fuel = List.replicate fuel start := by
  let gen : TRangeGenerator := ⟨includeLimit, start, 0, some limit⟩
  have zero : ¬(0 : Int64) > 0 := by decide
  have held : (TCursor.make gen).valid = true := by
    simp [TCursor.valid, TCursor.make, gen, zero, beyond]
  have stays : (TCursor.make gen).advance = TCursor.make gen := by
    simp [TCursor.advance, TCursor.make, gen]
  refine ⟨gen, by rw [newWithSecond, Int64.sub_self, make_zero_stride], fun fuel => ?_⟩
  induction fuel with
  | zero => rfl
  | succ fuel ih =>
    rw [TCursor.yields_succ_of_valid held, stays, ih]
    rfl

/-- `New` up to `INT64_MAX` with the limit included, from a start in `[0, INT64_MAX)`: the
stride is one, and since every value is at most the limit, the cursor holds at every
round; it yields as many values as it is given rounds and is back at its start after
`2^64` of them. -/
theorem new_through_max_wraps (start : Int64) (nonneg : 0 ≤ start) (below : start < Int64.maxValue) :
    ∃ gen, new start Int64.maxValue true = .ok gen ∧
      (∀ fuel, ((TCursor.make gen).yields fuel).length = fuel) ∧
      ((TCursor.make gen).yields (2 ^ 64 + 1))[2 ^ 64]? = some start := by
  have span : Int64.maxValue - start > 0 := by
    rw [Int64.le_iff_toInt_le, Int64.toInt_zero] at nonneg
    rw [Int64.lt_iff_toInt_lt, Int64.toInt_maxValue] at below
    rw [gt_iff_lt, Int64.lt_iff_toInt_lt, Int64.toInt_sub, Int64.toInt_zero, Int64.toInt_maxValue,
      MachineInt.bmod_of_fits (by omega) (by omega)]
    omega
  have along : ¬(if Int64.maxValue - start > 0 then (1 : Int64) < 0 else (1 : Int64) > 0) := by
    rw [if_pos span]
    decide
  let gen : TRangeGenerator := ⟨true, start, 1, some Int64.maxValue⟩
  have up : (1 : Int64) > 0 := by decide
  -- every value is at most `INT64_MAX`, which is included
  have held : ∀ k, (TCursor.advance^[k] (TCursor.make gen)).valid = true := by
    intro k
    rw [TCursor.valid, TCursor.ptr_advance_iterate]
    generalize (TCursor.advance^[k] (TCursor.make gen)).cur = cur
    rcases lt_maxValue_or_eq cur with lower | reached
    · simp [TCursor.make, gen, up, lower]
    · simp [TCursor.make, gen, reached]
  have all : ∀ fuel, (TCursor.make gen).yields fuel =
      (List.range fuel).map fun k => (TCursor.advance^[k] (TCursor.make gen)).cur :=
    fun fuel => TCursor.yields_of_valid fun k _ => held k
  refine ⟨gen, by rw [new, if_pos span, make, if_neg along], fun fuel => ?_, ?_⟩
  · rw [all, List.length_map, List.length_range]
  · rw [all, List.getElem?_map, List.getElem?_range (by omega), Option.map_some]
    rw [Option.some_inj, ← Int64.toInt_inj]
    rw [TCursor.toInt_cur_advance_iterate]
    show (start.toInt + ((2 ^ 64 : Nat) : Int) * (1 : Int64).toInt).bmod (2 ^ 64) = start.toInt
    rw [Int64.toInt_one, Int.mul_one, Int.add_bmod_right, MachineInt.bmod_toInt]

/-- `New` of a range whose `limit - start` is past `INT64_MAX`: the difference wraps to a
negative value, the stride is `-1`, and the cursor, below its limit, yields nothing. -/
theorem new_overflowing_span_yields_nothing (start limit : Int64) (includeLimit : Bool)
    (wide : 2 ^ 63 ≤ limit.toInt - start.toInt) :
    ∃ gen, new start limit includeLimit = .ok gen ∧ gen.stride = -1 ∧
      ∀ fuel, (TCursor.make gen).yields fuel = [] := by
  have wraps : ¬(limit - start > 0) := by
    have high := limit.toInt_lt
    have low := start.le_toInt
    rw [gt_iff_lt, Int64.lt_iff_toInt_lt, Int64.toInt_zero, Int64.toInt_sub, Int.bmod_eq_emod]
    split <;> omega
  have along : ¬(if limit - start > 0 then (-1 : Int64) < 0 else (-1 : Int64) > 0) := by
    rw [if_neg wraps]
    decide
  let gen : TRangeGenerator := ⟨includeLimit, start, -1, some limit⟩
  have down : ¬(-1 : Int64) > 0 := by decide
  have notAbove : ¬start > limit := by
    rw [gt_iff_lt, Int64.lt_iff_toInt_lt]
    omega
  have apart : limit ≠ start := by
    rw [ne_eq, ← Int64.toInt_inj]
    omega
  have ended : (TCursor.make gen).valid = false := by
    simp [TCursor.valid, TCursor.make, gen, down, notAbove, apart]
  refine ⟨gen, by rw [new, if_neg wraps, make, if_neg along], rfl, fun fuel => ?_⟩
  cases fuel with
  | zero => rfl
  | succ fuel => exact TCursor.yields_succ_of_not_valid ended

end TRangeGenerator

open TRangeGenerator in
/-- Three ranges the constructor accepts whose cursors do not yield the progression from
the start to the limit: a stride of zero past the limit repeats the start forever; a range
up to `INT64_MAX` with the limit included never ends and comes back to its start; `New` of
a range wider than `INT64_MAX` yields nothing. -/
theorem rangeGenerator_leaves_progression :
    (∀ start limit includeLimit, limit < start →
      ∃ gen, newWithSecond start limit includeLimit start = .ok gen ∧
        ∀ fuel, (TCursor.make gen).yields fuel = List.replicate fuel start) ∧
    (∀ start, 0 ≤ start → start < Int64.maxValue →
      ∃ gen, new start Int64.maxValue true = .ok gen ∧
        (∀ fuel, ((TCursor.make gen).yields fuel).length = fuel) ∧
        ((TCursor.make gen).yields (2 ^ 64 + 1))[2 ^ 64]? = some start) ∧
    (∀ start limit includeLimit, 2 ^ 63 ≤ limit.toInt - start.toInt →
      ∃ gen, new start limit includeLimit = .ok gen ∧ gen.stride = -1 ∧
        ∀ fuel, (TCursor.make gen).yields fuel = []) :=
  ⟨newWithSecond_same_repeats, new_through_max_wraps, new_overflowing_span_yields_nothing⟩

open TRangeGenerator in
/-- `[5, 5..0)`, `[INT64_MAX - 1..INT64_MAX]` and `[INT64_MIN..INT64_MAX)`. -/
theorem rangeGenerator_leaves_progression_samples :
    (∃ gen, newWithSecond 5 0 false 5 = .ok gen ∧
      ∀ fuel, (TCursor.make gen).yields fuel = List.replicate fuel 5) ∧
    (∃ gen, new (Int64.maxValue - 1) Int64.maxValue true = .ok gen ∧
      (∀ fuel, ((TCursor.make gen).yields fuel).length = fuel) ∧
      ((TCursor.make gen).yields (2 ^ 64 + 1))[2 ^ 64]? = some (Int64.maxValue - 1)) ∧
    (∃ gen, new Int64.minValue Int64.maxValue false = .ok gen ∧ gen.stride = -1 ∧
      ∀ fuel, (TCursor.make gen).yields fuel = []) :=
  ⟨rangeGenerator_leaves_progression.1 5 0 false (by decide),
    rangeGenerator_leaves_progression.2.1 _ (by decide) (by decide),
    rangeGenerator_leaves_progression.2.2 _ _ false
      (by rw [Int64.toInt_maxValue, Int64.toInt_minValue]; omega)⟩

end Orly.Rt

import Mathlib.Order.Basic

/-! `Util::TMinHeap` (`orly/indy/util/min_heap.h`).

A binary min-heap of pairs of a value and a reference, kept in the array `Data` of
`NumElem` elements under the comparator `Comp`. `Insert` places the new pair last
and swaps it up while it compares before its parent; `Pop` hands out the root, moves
the last pair to the root (the move assignment of `TMinHeapElem` is a swap) and swaps
it down with `MinHeapify`. The heap keeps pointers to values owned by its callers;
the model keeps the values, which is the same as long as a caller changes a value
only after popping it, as every caller does.

The array is an `Array` whose size is `NumElem`: the slots past it, which the code
leaves as they are, are dropped. `MaxElem` is asserted, not stored: a run of calls
(`run`) stops where `Insert` would pass it or `Pop` would find the heap empty.
`Util::TCopyMinHeap` runs the same code over copies of the values. -/
namespace Orly.Indy

/-- `Parent(i)`. -/
def parent (i : Nat) : Nat := (i + 1) / 2 - 1

/-- `Left(i)`. -/
def left (i : Nat) : Nat := 2 * (i + 1) - 1

/-- `Right(i)`. -/
def right (i : Nat) : Nat := 2 * (i + 1)

theorem parent_lt {i : Nat} (pos : 0 < i) : parent i < i := by
  unfold parent
  omega

theorem lt_left (i : Nat) : i < left i := by
  unfold left
  omega

theorem lt_right (i : Nat) : i < right i := by
  unfold right
  omega

/-- `Util::TMinHeap<TVal, TRef, TComparator>`. -/
structure TMinHeap (α ρ : Type) where
  data : Array (α × ρ)

namespace TMinHeap

variable {α ρ : Type} (comp : α → α → Bool)

/-- The heap the constructor leaves: no elements. -/
def empty : TMinHeap α ρ := ⟨#[]⟩

/-- `operator bool`: the heap holds an element. -/
def nonempty (heap : TMinHeap α ρ) : Bool := 0 < heap.data.size

/-- `Comp(*(Data[a].Val), *(Data[b].Val))`, asked where the code asks it: for `a` a
position the heap holds (the code tests `left < NumElem` and `right < NumElem` first,
and `i` and `Parent(i)` lie below a held position). -/
def before (data : Array (α × ρ)) (a b : Nat) : Bool :=
  if h : a < data.size ∧ b < data.size then comp data[a].1 data[b].1 else false

theorem lt_size_of_before {data : Array (α × ρ)} {a b : Nat} (asked : before comp data a b = true) :
    a < data.size ∧ b < data.size := by
  unfold before at asked
  split_ifs at asked with h
  exact h

/-- The loop of `Insert`: swap the pair at `i` with its parent while it compares before
it. -/
def siftUp (data : Array (α × ρ)) (i : Nat) : Array (α × ρ) :=
  if up : 0 < i ∧ before comp data i (parent i) = true then
    siftUp (data.swapIfInBounds i (parent i)) (parent i)
  else data
termination_by i
decreasing_by exact parent_lt up.1

/-- `Insert(val, ref)`. -/
def insert (heap : TMinHeap α ρ) (val : α) (ref : ρ) : TMinHeap α ρ :=
  ⟨siftUp comp (heap.data.push (val, ref)) heap.data.size⟩

/-- The position `MinHeapify(i)` compares smallest: `i`, or the left child if it
compares before `i`, then the right child if it compares before that. -/
def smallest (data : Array (α × ρ)) (i : Nat) : Nat :=
  let smallest := if before comp data (left i) i then left i else i
  if before comp data (right i) smallest then right i else smallest

theorem smallest_ne {data : Array (α × ρ)} {i : Nat} (moved : smallest comp data i ≠ i) :
    i < smallest comp data i ∧ smallest comp data i < data.size := by
  simp only [smallest] at moved ⊢
  have leftAbove := lt_left i
  have rightAbove := lt_right i
  split_ifs at moved ⊢ with byLeft byRight byRight'
  · exact ⟨rightAbove, (lt_size_of_before comp byRight).1⟩
  · exact ⟨leftAbove, (lt_size_of_before comp byLeft).1⟩
  · exact ⟨rightAbove, (lt_size_of_before comp byRight').1⟩
  · exact absurd rfl moved

/-- `MinHeapify(i)`: swap the pair at `i` down with its smallest child while one
compares before it. -/
def minHeapify (data : Array (α × ρ)) (i : Nat) : Array (α × ρ) :=
  if moved : smallest comp data i ≠ i then
    minHeapify (data.swapIfInBounds i (smallest comp data i)) (smallest comp data i)
  else data
termination_by data.size - i
decreasing_by
  have within := smallest_ne comp moved
  simp only [Array.size_swapIfInBounds]
  omega

/-- `Pop(ref)`: the root, and the heap left when the last pair has taken its place and
been swapped down. The move assignment of `TMinHeapElem` swaps, so `Data[0]` and
`Data[NumElem - 1]` change places before the last slot is dropped. -/
def pop (heap : TMinHeap α ρ) : Option ((α × ρ) × TMinHeap α ρ) :=
  if held : 0 < heap.data.size then
    some (heap.data[0], ⟨minHeapify comp (heap.data.swapIfInBounds 0 (heap.data.size - 1)).pop 0⟩)
  else none

@[simp] theorem size_siftUp (data : Array (α × ρ)) (i : Nat) :
    (siftUp comp data i).size = data.size := by
  fun_induction siftUp comp data i with
  | case1 data i up ih => rw [ih, Array.size_swapIfInBounds]
  | case2 => rfl

@[simp] theorem size_minHeapify (data : Array (α × ρ)) (i : Nat) :
    (minHeapify comp data i).size = data.size := by
  fun_induction minHeapify comp data i with
  | case1 data i moved ih => rw [ih, Array.size_swapIfInBounds]
  | case2 => rfl

@[simp] theorem size_insert (heap : TMinHeap α ρ) (val : α) (ref : ρ) :
    (heap.insert comp val ref).data.size = heap.data.size + 1 := by
  simp [insert]

theorem size_pop {heap rest : TMinHeap α ρ} {min : α × ρ} (popped : heap.pop comp = some (min, rest)) :
    rest.data.size + 1 = heap.data.size := by
  unfold pop at popped
  split_ifs at popped with held
  cases popped
  simp only [size_minHeapify, Array.size_pop, Array.size_swapIfInBounds]
  omega

theorem insert_empty (val : α) (ref : ρ) : (⟨#[]⟩ : TMinHeap α ρ).insert comp val ref = ⟨#[(val, ref)]⟩ := by
  simp [insert, siftUp, before]

theorem pop_singleton (min : α × ρ) : (⟨#[min]⟩ : TMinHeap α ρ).pop comp = some (min, ⟨#[]⟩) := by
  simp [pop, minHeapify, smallest, before]
  rfl

/-- A call a caller makes of the heap: `Insert(val, ref)`, or `Pop(ref)`. -/
inductive Call (α ρ : Type) where
  | insert (val : α) (ref : ρ)
  | pop

/-- One call of a heap whose `Insert` and `Pop` are `insertCall` and `popCall`, where the
heap's asserts let it through: `Insert` below `max_elem` pairs (`assert(NumElem <
MaxElem)`), `Pop` of a nonempty heap. A `Pop` hands out a pair. -/
def stepCall (insertCall : TMinHeap α ρ → α → ρ → TMinHeap α ρ)
    (popCall : TMinHeap α ρ → Option ((α × ρ) × TMinHeap α ρ)) (maxElem : Nat) (heap : TMinHeap α ρ) :
    Call α ρ → Option (TMinHeap α ρ × Option (α × ρ))
  | .insert val ref => if heap.data.size < maxElem then some (insertCall heap val ref, none) else none
  | .pop => (popCall heap).map fun (min, rest) => (rest, some min)

/-- A run of calls: the heap left, and the pairs the pops handed out, in order. -/
def runCalls (insertCall : TMinHeap α ρ → α → ρ → TMinHeap α ρ)
    (popCall : TMinHeap α ρ → Option ((α × ρ) × TMinHeap α ρ)) (maxElem : Nat) :
    TMinHeap α ρ → List (Call α ρ) → Option (TMinHeap α ρ × List (α × ρ))
  | heap, [] => some (heap, [])
  | heap, call :: calls => do
    let (heap, out) ← stepCall insertCall popCall maxElem heap call
    let (heap, popped) ← runCalls insertCall popCall maxElem heap calls
    return (heap, out.toList ++ popped)

/-- A run of calls of a `TMinHeap` of capacity `max_elem`. -/
def run (maxElem : Nat) : TMinHeap α ρ → List (Call α ρ) → Option (TMinHeap α ρ × List (α × ρ)) :=
  runCalls (insert comp) (pop comp) maxElem

/-- The pairs a run of calls inserts. -/
def Call.inserted : List (Call α ρ) → List (α × ρ) :=
  List.filterMap fun
    | .insert val ref => some (val, ref)
    | .pop => none

/-- Whether the heap's asserts let `call` through at `live` pairs. -/
def Call.Allowed (maxElem live : Nat) : Call α ρ → Prop
  | .insert _ _ => live < maxElem
  | .pop => 0 < live

/-- The number of pairs held after `call`. -/
def Call.liveAfter (live : Nat) : Call α ρ → Nat
  | .insert _ _ => live + 1
  | .pop => live - 1

/-- The calls never hold more than `max_elem` pairs and pop only a nonempty heap, from
`live` pairs on. -/
def Call.Fits (maxElem : Nat) : Nat → List (Call α ρ) → Prop
  | _, [] => True
  | live, call :: calls => call.Allowed maxElem live ∧ Fits maxElem (call.liveAfter live) calls

end TMinHeap

/-- `Util::TCopyMinHeap<TVal, TRef, TComparator>`: the same array of pairs, the values
held by copy instead of by pointer. -/
abbrev TCopyMinHeap (α ρ : Type) := TMinHeap α ρ

namespace TCopyMinHeap

variable {α ρ : Type} (comp : α → α → Bool)

/-- `Emplace(ref, args...)`, `val` being the value `args` build: the code of
`TMinHeap::Insert`. -/
def emplace (heap : TCopyMinHeap α ρ) (ref : ρ) (val : α) : TCopyMinHeap α ρ :=
  TMinHeap.insert comp heap val ref

/-- `Pop(val)`: the code of `TMinHeap::Pop`, the value copied out before the root is
overwritten and the ref returned. -/
def pop (heap : TCopyMinHeap α ρ) : Option ((α × ρ) × TCopyMinHeap α ρ) :=
  TMinHeap.pop comp heap

/-- A run of calls of a `TCopyMinHeap` of capacity `max_elem`, `Insert(val, ref)` standing
for `Emplace(ref, val)`. -/
def run (maxElem : Nat) :
    TCopyMinHeap α ρ → List (TMinHeap.Call α ρ) → Option (TCopyMinHeap α ρ × List (α × ρ)) :=
  TMinHeap.runCalls (fun heap val ref => emplace comp heap ref val) (pop comp) maxElem

end TCopyMinHeap

end Orly.Indy

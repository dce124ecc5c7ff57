import Orly.Indy.MinHeap
import Mathlib.Logic.Equiv.Basic
import Mathlib.Tactic.Set
import Mathlib.Data.List.Basic

/-! What `Util::TMinHeap` guarantees.

The heap order (`HeapOrdered`) puts every pair after its parent, in a total preorder `ord`
that the comparator the heap runs decides (`Decides`): `ord` is the comparator itself when
that is a total preorder, and "not after" when it is a strict weak order such as the
default `std::less`. `Insert` keeps the order, and `Pop` hands out a pair that comes before
every pair the heap held and keeps the order on what is left; both keep the pairs, up to
order (`insert_perm`, `pop_perm`). Over a whole run of calls that the heap's asserts let
through, the heap is then a priority queue (`minHeap_queues`).

The loops are proved as the sifts of a binary heap are: `Insert`'s loop keeps `UpOrder`,
the order everywhere but at the pair being moved, whose children compare after its parent;
`MinHeapify` keeps `DownOrder`, the order everywhere but below the pair being moved, whose
children again compare after its parent. A swap of two positions is read through
`Equiv.swap` on the positions (`getElem?_swapIfInBounds`). -/
namespace Orly.Indy

theorem parent_eq_iff {c i : Nat} (child : 0 < c) : parent c = i ↔ c = left i ∨ c = right i := by
  unfold parent left right
  omega

theorem parent_left (i : Nat) : parent (left i) = i := by
  unfold parent left
  omega

theorem parent_right (i : Nat) : parent (right i) = i := by
  unfold parent right
  omega

/-- Only the root is its own parent, so a position whose parent is not the root is not
the root. -/
theorem pos_of_parent_eq {c i : Nat} (pos : 0 < i) (isParent : parent c = i) : 0 < c := by
  rcases Nat.eq_zero_or_pos c with zero | cPos
  · rw [zero] at isParent
    simp [parent] at isParent
    omega
  · exact cPos

/-- A child lies above its parent. -/
theorem parent_lt_of_eq {c i : Nat} (child : 0 < c) (isParent : parent c = i) : i < c := by
  rw [← isParent]
  exact parent_lt child

namespace TMinHeap

variable {α ρ : Type} {comp : α → α → Bool}

theorem getElem?_swapIfInBounds {β : Type} {data : Array β} {a b : Nat} (ha : a < data.size)
    (hb : b < data.size) (k : Nat) : (data.swapIfInBounds a b)[k]? = data[Equiv.swap a b k]? := by
  by_cases hk : k < data.size
  · rw [Array.getElem?_eq_getElem (by simpa using hk), Array.getElem_swapIfInBounds]
    by_cases ka : k = a
    · subst ka
      simp [hb]
    · by_cases kb : k = b
      · subst kb
        simp [ka, ha]
      · simp [ka, kb, Equiv.swap_apply_of_ne_of_ne ka kb]
  · have ka : k ≠ a := by omega
    have kb : k ≠ b := by omega
    rw [Equiv.swap_apply_of_ne_of_ne ka kb, Array.getElem?_eq_none (by simpa using Nat.le_of_not_lt hk),
      Array.getElem?_eq_none (Nat.le_of_not_lt hk)]

theorem perm_swapIfInBounds {β : Type} (data : Array β) (a b : Nat) :
    (data.swapIfInBounds a b).toList.Perm data.toList := by
  rw [Array.swapIfInBounds_def]
  split_ifs with ha hb
  · exact Array.perm_iff_toList_perm.mp (Array.swap_perm ha hb)
  · rfl
  · rfl

/-- `before` read through the pairs at the two positions. -/
theorem before_eq (data : Array (α × ρ)) (a b : Nat) :
    before comp data a b = match data[a]?, data[b]? with
      | some x, some y => comp x.1 y.1
      | _, _ => false := by
  unfold before
  split_ifs with held
  · rw [Array.getElem?_eq_getElem held.1, Array.getElem?_eq_getElem held.2]
  · by_cases ha : a < data.size
    · rw [Array.getElem?_eq_none (by omega : data.size ≤ b)]
      split <;> simp_all
    · rw [Array.getElem?_eq_none (by omega : data.size ≤ a)]

theorem before_swapIfInBounds {data : Array (α × ρ)} {a b : Nat} (ha : a < data.size)
    (hb : b < data.size) (k l : Nat) :
    before comp (data.swapIfInBounds a b) k l = before comp data (Equiv.swap a b k) (Equiv.swap a b l) := by
  rw [before_eq, before_eq, getElem?_swapIfInBounds ha hb, getElem?_swapIfInBounds ha hb]

theorem before_push {data : Array (α × ρ)} {pair : α × ρ} {a b : Nat} (ha : a < data.size)
    (hb : b < data.size) : before comp (data.push pair) a b = before comp data a b := by
  rw [before_eq, before_eq, Array.getElem?_push_lt ha, Array.getElem?_push_lt hb,
    Array.getElem?_eq_getElem ha, Array.getElem?_eq_getElem hb]

theorem before_pop {data : Array (α × ρ)} {a b : Nat} (ha : a < data.size - 1) (hb : b < data.size - 1) :
    before comp data.pop a b = before comp data a b := by
  rw [before_eq, before_eq, Array.getElem?_pop, Array.getElem?_pop, if_pos ha, if_pos hb]

section Order

variable [total : Std.Total fun a b : α => comp a b = true]
  [trans : IsTrans α fun a b => comp a b = true]

omit trans in
theorem before_total {data : Array (α × ρ)} {a b : Nat} (ha : a < data.size) (hb : b < data.size) :
    before comp data a b = true ∨ before comp data b a = true := by
  simp only [before, dif_pos (And.intro ha hb), dif_pos (And.intro hb ha)]
  exact total.total _ _

omit trans in
theorem before_refl {data : Array (α × ρ)} {a : Nat} (ha : a < data.size) :
    before comp data a a = true := by
  rcases (before_total ha ha : before comp data a a = true ∨ before comp data a a = true) with
    same | same <;> exact same

omit total in
theorem before_trans {data : Array (α × ρ)} {a b c : Nat} (ab : before comp data a b = true)
    (bc : before comp data b c = true) : before comp data a c = true := by
  have aIn := lt_size_of_before comp ab
  have cIn := lt_size_of_before comp bc
  simp only [before, dif_pos aIn, dif_pos cIn, dif_pos (And.intro aIn.1 cIn.2)] at ab bc ⊢
  exact trans.trans _ _ _ ab bc

omit trans in
/-- The other way round when one way fails. -/
theorem before_of_not_before {data : Array (α × ρ)} {a b : Nat} (ha : a < data.size)
    (hb : b < data.size) (not : before comp data a b = false) : before comp data b a = true := by
  rcases (before_total ha hb : before comp data a b = true ∨ before comp data b a = true) with
    ab | ba
  · rw [ab] at not
    contradiction
  · exact ba

end Order

variable (comp)

/-- The heap order of `TMinHeap`: each pair but the root compares after its parent. -/
def HeapOrdered (data : Array (α × ρ)) : Prop :=
  ∀ j, 0 < j → j < data.size → before comp data (parent j) j = true

/-- What `Insert`'s loop keeps with the new pair at `i`: the order holds at every other
pair, and the children of `i` compare after the parent of `i`. -/
structure UpOrder (data : Array (α × ρ)) (i : Nat) : Prop where
  except : ∀ j, 0 < j → j < data.size → j ≠ i → before comp data (parent j) j = true
  grand : 0 < i → ∀ c, c < data.size → parent c = i → before comp data (parent i) c = true

/-- What `MinHeapify` keeps with the moved pair at `i`: the order holds at every pair
whose parent is not `i`, and the children of `i` compare after the parent of `i`. -/
structure DownOrder (data : Array (α × ρ)) (i : Nat) : Prop where
  except : ∀ j, 0 < j → j < data.size → parent j ≠ i → before comp data (parent j) j = true
  grand : 0 < i → ∀ c, c < data.size → parent c = i → before comp data (parent i) c = true

variable {comp}

theorem siftUp_perm (data : Array (α × ρ)) (i : Nat) : (siftUp comp data i).toList.Perm data.toList := by
  fun_induction siftUp comp data i with
  | case1 data i up ih => exact ih.trans (perm_swapIfInBounds data i (parent i))
  | case2 => exact List.Perm.refl _

theorem minHeapify_perm (data : Array (α × ρ)) (i : Nat) :
    (minHeapify comp data i).toList.Perm data.toList := by
  fun_induction minHeapify comp data i with
  | case1 data i moved ih => exact ih.trans (perm_swapIfInBounds data i _)
  | case2 => exact List.Perm.refl _

theorem parent_smallest {data : Array (α × ρ)} {i : Nat} (moved : smallest comp data i ≠ i) :
    parent (smallest comp data i) = i := by
  unfold smallest at moved ⊢
  simp only at moved ⊢
  split_ifs at moved ⊢
  · exact parent_right i
  · exact parent_left i
  · exact parent_right i
  · exact absurd rfl moved

/-- The array `Pop` swaps down: the last pair in the root's place, the last slot dropped. -/
theorem pop_eq {heap rest : TMinHeap α ρ} {min : α × ρ} (popped : heap.pop comp = some (min, rest)) :
    ∃ held : 0 < heap.data.size, min = heap.data[0] ∧
      rest = ⟨minHeapify comp (heap.data.swapIfInBounds 0 (heap.data.size - 1)).pop 0⟩ := by
  unfold pop at popped
  split_ifs at popped with held
  cases popped
  exact ⟨held, rfl, rfl⟩

theorem insert_perm (heap : TMinHeap α ρ) (val : α) (ref : ρ) :
    (heap.insert comp val ref).data.toList.Perm ((val, ref) :: heap.data.toList) := by
  unfold insert
  refine (siftUp_perm _ _).trans ?_
  simp

open List in
theorem pop_perm {heap rest : TMinHeap α ρ} {min : α × ρ} (popped : heap.pop comp = some (min, rest)) :
    heap.data.toList.Perm (min :: rest.data.toList) := by
  obtain ⟨held, rfl, rfl⟩ := pop_eq popped
  set swapped := heap.data.swapIfInBounds 0 (heap.data.size - 1)
  have lastIsRoot : heap.data[0] ∈ swapped.toList.getLast? := by
    rw [List.getLast?_eq_getElem?, Array.getElem?_toList, Array.length_toList,
      Array.size_swapIfInBounds, getElem?_swapIfInBounds held (by omega), Equiv.swap_apply_right,
      Array.getElem?_eq_getElem held]
    rfl
  have split := List.dropLast_append_getLast? _ lastIsRoot
  show heap.data.toList ~ heap.data[0] :: (minHeapify comp swapped.pop 0).toList
  calc heap.data.toList
      _ ~ swapped.toList := (perm_swapIfInBounds _ _ _).symm
      _ = swapped.toList.dropLast ++ [heap.data[0]] := split.symm
      _ ~ heap.data[0] :: swapped.toList.dropLast := List.perm_append_singleton _ _
      _ ~ heap.data[0] :: (minHeapify comp swapped.pop 0).toList := by
        rw [← Array.toList_pop]
        exact (minHeapify_perm swapped.pop 0).symm.cons _

theorem pop_isSome (heap : TMinHeap α ρ) (held : 0 < heap.data.size) : (heap.pop comp).isSome := by
  simp [pop, held]

/-- The comparator the heap runs, `comp`, decides the total preorder `ord` its order is
stated in: a pair `comp` puts first comes first in `ord`, and where `comp` does not put
one first, `ord` puts the other first. A total preorder decides itself (`decides_self`);
`std::less` of a strict weak order decides "not after" (`decides_notAfter`). -/
structure Decides (comp ord : α → α → Bool) : Prop where
  first : ∀ a b, comp a b = true → ord a b = true
  other : ∀ a b, comp a b = false → ord b a = true

/-- "Not after" under a strict comparator: first, or tied. -/
def notAfter (comp : α → α → Bool) (a b : α) : Bool := !comp b a

section Decides

variable {ord : α → α → Bool}

theorem Decides.first_before (decides : Decides comp ord) {data : Array (α × ρ)} {a b : Nat}
    (asked : before comp data a b = true) : before ord data a b = true := by
  have held := lt_size_of_before comp asked
  simp only [TMinHeap.before, dif_pos held] at asked ⊢
  exact decides.first _ _ asked

theorem Decides.other_before (decides : Decides comp ord) {data : Array (α × ρ)} {a b : Nat}
    (ha : a < data.size) (hb : b < data.size) (not : before comp data a b = false) :
    before ord data b a = true := by
  simp only [TMinHeap.before, dif_pos (And.intro ha hb), dif_pos (And.intro hb ha)] at not ⊢
  exact decides.other _ _ not

theorem decides_self [total : Std.Total fun a b : α => comp a b = true] : Decides comp comp where
  first _ _ first := first
  other a b not := (total.total a b).resolve_left (by simp [not])

section Strict

variable [strict : IsStrictWeakOrder α fun a b => comp a b = true]

theorem decides_notAfter : Decides comp (notAfter comp) where
  first a b first := by
    simp only [notAfter, Bool.not_eq_true']
    cases back : comp b a
    · rfl
    · exact absurd (strict.trans a b a first back) (strict.irrefl a)
  other a b not := by simp [notAfter, not]

/-- "Not after" is total: of two values, one is not after the other. -/
theorem notAfter_total : Std.Total fun a b : α => notAfter comp a b = true where
  total a b := by
    cases ab : comp a b
    · exact .inr (by simp [notAfter, ab])
    · exact .inl (decides_notAfter.first a b ab)

/-- "Not after" is transitive: this is the transitivity of incomparability. -/
theorem notAfter_trans : IsTrans α fun a b : α => notAfter comp a b = true where
  trans a b c ab bc := by
    simp only [notAfter, Bool.not_eq_true'] at ab bc ⊢
    cases ca : comp c a
    · rfl
    · exfalso
      by_cases abFirst : comp a b = true
      · -- `c` before `a` before `b`
        have cb := strict.trans c a b ca abFirst
        simp [cb] at bc
      by_cases bcFirst : comp b c = true
      · -- `b` before `c` before `a`
        have ba := strict.trans b c a bcFirst ca
        simp [ba] at ab
      · have incomparable := strict.incomp_trans a b c ⟨abFirst, by simp [ab]⟩ ⟨bcFirst, by simp [bc]⟩
        exact incomparable.2 ca

end Strict

variable [Std.Total fun a b : α => ord a b = true] [IsTrans α fun a b => ord a b = true]

omit [Std.Total fun a b : α => ord a b = true] in
/-- One swap of `Insert`'s loop: the pair at `i` compares before its parent and takes
its place. -/
theorem UpOrder.move (decides : Decides comp ord) {data : Array (α × ρ)} {i : Nat}
    (order : UpOrder ord data i) (inside : i < data.size)
    (up : 0 < i ∧ before comp data i (parent i) = true) :
    UpOrder ord (data.swapIfInBounds i (parent i)) (parent i) := by
  have pBelow := parent_lt up.1
  have pIn : parent i < data.size := by omega
  have upOrd := decides.first_before up.2
  constructor
  · intro j pos jIn jNe
    rw [Array.size_swapIfInBounds] at jIn
    rw [before_swapIfInBounds inside pIn]
    by_cases atI : j = i
    · subst atI
      rw [Equiv.swap_apply_right, Equiv.swap_apply_left]
      exact upOrd
    rw [Equiv.swap_apply_of_ne_of_ne atI jNe]
    by_cases childOfI : parent j = i
    · -- a child of `i` now sits under the old parent of `i`
      rw [childOfI, Equiv.swap_apply_left]
      exact order.grand up.1 j jIn childOfI
    by_cases sibling : parent j = parent i
    · -- a sibling of `i` now sits under the pair that was at `i`
      rw [sibling, Equiv.swap_apply_right]
      exact before_trans upOrd (sibling ▸ order.except j pos jIn atI)
    · rw [Equiv.swap_apply_of_ne_of_ne childOfI sibling]
      exact order.except j pos jIn atI
  · intro pPos c cIn isParent
    rw [Array.size_swapIfInBounds] at cIn
    have gBelow := parent_lt pPos
    rw [before_swapIfInBounds inside pIn,
      Equiv.swap_apply_of_ne_of_ne (by omega : parent (parent i) ≠ i) (by omega)]
    have pOrdered := order.except (parent i) pPos pIn (by omega)
    by_cases atI : c = i
    · rw [atI, Equiv.swap_apply_left]
      exact pOrdered
    · have cPos := pos_of_parent_eq pPos isParent
      rw [Equiv.swap_apply_of_ne_of_ne atI (by have := parent_lt_of_eq cPos isParent; omega)]
      exact before_trans pOrdered (isParent ▸ order.except c cPos cIn atI)

omit [Std.Total fun a b : α => ord a b = true] [IsTrans α fun a b => ord a b = true] in
/-- `Insert`'s loop stops at the root, or where the pair compares after its parent. -/
theorem UpOrder.finish (decides : Decides comp ord) {data : Array (α × ρ)} {i : Nat}
    (order : UpOrder ord data i) (inside : i < data.size)
    (stop : ¬(0 < i ∧ before comp data i (parent i) = true)) : HeapOrdered ord data := by
  intro j pos jIn
  by_cases atI : j = i
  · subst atI
    have pIn : parent j < data.size := by have := parent_lt pos; omega
    exact decides.other_before inside pIn (by simpa [pos] using stop)
  · exact order.except j pos jIn atI

omit [Std.Total fun a b : α => ord a b = true] in
theorem siftUp_ordered (decides : Decides comp ord) (data : Array (α × ρ)) (i : Nat)
    (order : UpOrder ord data i) (inside : i < data.size) :
    HeapOrdered ord (siftUp comp data i) := by
  fun_induction siftUp comp data i with
  | case1 data i up ih =>
    have pBelow := parent_lt up.1
    exact ih (order.move decides inside up) (by rw [Array.size_swapIfInBounds]; omega)
  | case2 data i stop => exact order.finish decides inside stop

/-- The position `MinHeapify` picks compares before every child of `i`, and before `i`
when it is a child. -/
theorem smallest_spec (decides : Decides comp ord) (data : Array (α × ρ)) (i : Nat) :
    (∀ c, 0 < c → c < data.size → parent c = i → before ord data (smallest comp data i) c = true) ∧
      (smallest comp data i ≠ i → before ord data (smallest comp data i) i = true) := by
  have children : ∀ c, 0 < c → parent c = i → c = left i ∨ c = right i :=
    fun c pos isParent => (parent_eq_iff pos).mp isParent
  unfold smallest
  simp only
  split_ifs with byLeft byRight byRight'
  · -- the right child compares before the left one, which compares before `i`
    refine ⟨fun c pos cIn isParent => ?_,
      fun _ => before_trans (decides.first_before byRight) (decides.first_before byLeft)⟩
    rcases children c pos isParent with rfl | rfl
    · exact decides.first_before byRight
    · exact before_refl cIn
  · have lIn := (lt_size_of_before comp byLeft).1
    refine ⟨fun c pos cIn isParent => ?_, fun _ => decides.first_before byLeft⟩
    rcases children c pos isParent with rfl | rfl
    · exact before_refl lIn
    · exact decides.other_before cIn lIn (by simpa using byRight)
  · have rIn := (lt_size_of_before comp byRight').1
    have iIn := (lt_size_of_before comp byRight').2
    refine ⟨fun c pos cIn isParent => ?_, fun _ => decides.first_before byRight'⟩
    rcases children c pos isParent with rfl | rfl
    · exact before_trans (decides.first_before byRight')
        (decides.other_before cIn iIn (by simpa using byLeft))
    · exact before_refl rIn
  · refine ⟨fun c pos cIn isParent => ?_, fun same => absurd rfl same⟩
    have iIn : i < data.size := by have := parent_lt_of_eq pos isParent; omega
    rcases children c pos isParent with rfl | rfl
    · exact decides.other_before cIn iIn (by simpa using byLeft)
    · exact decides.other_before cIn iIn (by simpa using byRight')

/-- One swap of `MinHeapify`: the pair at `i` changes places with its smallest child. -/
theorem DownOrder.move (decides : Decides comp ord) {data : Array (α × ρ)} {i : Nat}
    (order : DownOrder ord data i) (moved : smallest comp data i ≠ i) :
    DownOrder ord (data.swapIfInBounds i (smallest comp data i)) (smallest comp data i) := by
  obtain ⟨above, sIn⟩ := smallest_ne comp moved
  obtain ⟨leastChild, sBefore⟩ := smallest_spec decides data i
  have sParent := parent_smallest moved
  have iIn : i < data.size := by omega
  set s := smallest comp data i with sEq
  constructor
  · intro j pos jIn notS
    rw [Array.size_swapIfInBounds] at jIn
    rw [before_swapIfInBounds iIn sIn]
    by_cases atS : j = s
    · rw [atS, sParent, Equiv.swap_apply_left, Equiv.swap_apply_right]
      exact sBefore moved
    by_cases atI : j = i
    · -- `i` itself now holds the smallest child, which its old parent compares before
      have gBelow := parent_lt (show 0 < i by omega)
      rw [atI, Equiv.swap_apply_of_ne_of_ne (by omega : parent i ≠ i) (by omega),
        Equiv.swap_apply_left]
      exact order.grand (by omega) s sIn sParent
    rw [Equiv.swap_apply_of_ne_of_ne atI atS]
    by_cases childOfI : parent j = i
    · -- the other child of `i` now sits under the smallest child
      rw [childOfI, Equiv.swap_apply_left]
      exact leastChild j pos jIn childOfI
    · rw [Equiv.swap_apply_of_ne_of_ne childOfI notS]
      exact order.except j pos jIn childOfI
  · intro _ c cIn isParent
    rw [Array.size_swapIfInBounds] at cIn
    have cPos := pos_of_parent_eq (by omega) isParent
    have cAbove := parent_lt_of_eq cPos isParent
    rw [before_swapIfInBounds iIn sIn, sParent, Equiv.swap_apply_left,
      Equiv.swap_apply_of_ne_of_ne (by omega : c ≠ i) (by omega)]
    exact isParent ▸ order.except c cPos cIn (by omega)

/-- `MinHeapify` stops where no child compares before the pair. -/
theorem DownOrder.finish (decides : Decides comp ord) {data : Array (α × ρ)} {i : Nat}
    (order : DownOrder ord data i) (stay : smallest comp data i = i) : HeapOrdered ord data := by
  intro j pos jIn
  by_cases childOfI : parent j = i
  · have least := (smallest_spec decides data i).1 j pos jIn childOfI
    rwa [stay, ← childOfI] at least
  · exact order.except j pos jIn childOfI

theorem minHeapify_ordered (decides : Decides comp ord) (data : Array (α × ρ)) (i : Nat)
    (order : DownOrder ord data i) : HeapOrdered ord (minHeapify comp data i) := by
  fun_induction minHeapify comp data i with
  | case1 data i moved ih => exact ih (order.move decides moved)
  | case2 data i stay => exact order.finish decides (by simpa using stay)

/-- The root of an ordered heap compares before every pair. -/
theorem root_first {data : Array (α × ρ)} (ordered : HeapOrdered ord data) :
    ∀ j, j < data.size → before ord data 0 j = true := by
  intro j
  induction j using Nat.strongRecOn with
  | ind j ih =>
    intro jIn
    by_cases zero : j = 0
    · subst zero
      exact before_refl jIn
    · have pBelow := parent_lt (Nat.pos_of_ne_zero zero)
      exact before_trans (ih (parent j) pBelow (by omega)) (ordered j (by omega) jIn)

omit [Std.Total fun a b : α => ord a b = true] in
theorem insert_ordered_of_decides (decides : Decides comp ord) (heap : TMinHeap α ρ) (val : α)
    (ref : ρ) (ordered : HeapOrdered ord heap.data) :
    HeapOrdered ord (heap.insert comp val ref).data := by
  apply siftUp_ordered decides _ _ _ (by simp)
  constructor
  · intro j pos jIn last
    rw [Array.size_push] at jIn
    have pBelow := parent_lt pos
    have jOld : j < heap.data.size := by omega
    rw [before_push (by omega) jOld]
    exact ordered j pos jOld
  · intro _ c cIn isParent
    rw [Array.size_push] at cIn
    have := parent_lt_of_eq (pos_of_parent_eq (by omega) isParent) isParent
    omega

theorem pop_ordered_of_decides (decides : Decides comp ord) {heap rest : TMinHeap α ρ}
    {min : α × ρ} (ordered : HeapOrdered ord heap.data)
    (popped : heap.pop comp = some (min, rest)) : HeapOrdered ord rest.data := by
  obtain ⟨held, _, rfl⟩ := pop_eq popped
  apply minHeapify_ordered decides
  refine ⟨fun j pos jIn notRoot => ?_, fun zero => absurd zero (Nat.lt_irrefl 0)⟩
  -- below the root every pair and its parent stay where they were
  simp only [Array.size_pop, Array.size_swapIfInBounds] at jIn
  have pBelow := parent_lt pos
  rw [before_pop (by simp; omega) (by simp; omega), before_swapIfInBounds held (by omega),
    Equiv.swap_apply_of_ne_of_ne notRoot (by omega), Equiv.swap_apply_of_ne_of_ne (by omega) (by omega)]
  exact ordered j pos (by omega)

omit [Std.Total fun a b : α => ord a b = true] [IsTrans α fun a b => ord a b = true] in
/-- `Pop` hands out a pair that comes before every pair the heap held. -/
theorem pop_first_of_decides {heap rest : TMinHeap α ρ} {min : α × ρ}
    [Std.Total fun a b : α => ord a b = true] [IsTrans α fun a b => ord a b = true]
    (ordered : HeapOrdered ord heap.data) (popped : heap.pop comp = some (min, rest)) :
    ∀ x ∈ heap.data.toList, ord min.1 x.1 = true := by
  obtain ⟨held, rfl, _⟩ := pop_eq popped
  intro x mem
  obtain ⟨j, jIn, rfl⟩ := List.getElem_of_mem mem
  have first := root_first ordered j (by simpa using jIn)
  simp only [TMinHeap.before, dif_pos (And.intro held (by simpa using jIn))] at first
  simpa using first

end Decides

section Ordered

variable [Std.Total fun a b : α => comp a b = true] [IsTrans α fun a b => comp a b = true]

theorem insert_ordered (heap : TMinHeap α ρ) (val : α) (ref : ρ) (ordered : HeapOrdered comp heap.data) :
    HeapOrdered comp (heap.insert comp val ref).data :=
  insert_ordered_of_decides decides_self heap val ref ordered

theorem pop_ordered {heap rest : TMinHeap α ρ} {min : α × ρ} (ordered : HeapOrdered comp heap.data)
    (popped : heap.pop comp = some (min, rest)) : HeapOrdered comp rest.data :=
  pop_ordered_of_decides decides_self ordered popped

/-- `Pop` hands out a pair that compares before every pair the heap held. -/
theorem pop_first {heap rest : TMinHeap α ρ} {min : α × ρ} (ordered : HeapOrdered comp heap.data)
    (popped : heap.pop comp = some (min, rest)) : ∀ x ∈ heap.data.toList, comp min.1 x.1 = true :=
  pop_first_of_decides ordered popped
end Ordered

section Runs

theorem run_nil (maxElem : Nat) (heap : TMinHeap α ρ) : run comp maxElem heap [] = some (heap, []) :=
  rfl

theorem run_cons (maxElem : Nat) (heap : TMinHeap α ρ) (call : Call α ρ) (calls : List (Call α ρ)) :
    run comp maxElem heap (call :: calls) =
      (stepCall (insert comp) (pop comp) maxElem heap call).bind fun (next, out) =>
        (run comp maxElem next calls).map fun (left, popped) => (left, out.toList ++ popped) := by
  rw [run, runCalls]
  rcases stepCall (insert comp) (pop comp) maxElem heap call with _ | ⟨next, out⟩
  · rfl
  · show (runCalls (insert comp) (pop comp) maxElem next calls >>= fun p =>
      pure (p.1, out.toList ++ p.2)) =
        (runCalls (insert comp) (pop comp) maxElem next calls).map fun p => (p.1, out.toList ++ p.2)
    rcases runCalls (insert comp) (pop comp) maxElem next calls with _ | ⟨left, popped⟩ <;> rfl

variable {ord : α → α → Bool} [Std.Total fun a b : α => ord a b = true]
  [IsTrans α fun a b => ord a b = true] {maxElem : Nat}

/-- What one call the asserts let through does: it keeps the order, leaves `liveAfter`
pairs and trades pairs as it should, and a `Pop` hands out a pair that comes before every
pair the heap held. -/
theorem stepCall_spec (decides : Decides comp ord) {heap : TMinHeap α ρ} {call : Call α ρ}
    (ordered : HeapOrdered ord heap.data) (allowed : call.Allowed maxElem heap.data.size) :
    ∃ next out, stepCall (insert comp) (pop comp) maxElem heap call = some (next, out) ∧
      HeapOrdered ord next.data ∧ next.data.size = call.liveAfter heap.data.size ∧
      (out.toList ++ next.data.toList).Perm (heap.data.toList ++ Call.inserted [call]) ∧
      (call = .pop → ∃ min, out = some min ∧ ∀ x ∈ heap.data.toList, ord min.1 x.1 = true) := by
  cases call with
  | insert val ref =>
    refine ⟨heap.insert comp val ref, none, if_pos allowed,
      insert_ordered_of_decides decides heap val ref ordered, size_insert comp heap val ref, ?_,
      fun isPop => nomatch isPop⟩
    have inserted : Call.inserted [Call.insert val ref] = [(val, ref)] := rfl
    rw [inserted, Option.toList_none, List.nil_append]
    exact (insert_perm heap val ref).trans (List.perm_append_singleton _ _).symm
  | pop =>
    obtain ⟨⟨min, rest⟩, popped⟩ := Option.isSome_iff_exists.mp (pop_isSome heap allowed)
    have shrunk := size_pop comp popped
    refine ⟨rest, some min, by simp [stepCall, popped], pop_ordered_of_decides decides ordered popped,
      by rw [Call.liveAfter]; omega, ?_, fun _ => ⟨min, rfl, pop_first_of_decides ordered popped⟩⟩
    have inserted : Call.inserted [(Call.pop : Call α ρ)] = [] := rfl
    rw [inserted, List.append_nil, Option.toList_some, List.singleton_append]
    exact (pop_perm popped).symm

open List in
/-- A run of calls that fit goes through and keeps the order, and the pairs it pops with
those it leaves are those it started with and those it inserted. -/
theorem run_keeps (decides : Decides comp ord) :
    ∀ (calls : List (Call α ρ)) (heap : TMinHeap α ρ), HeapOrdered ord heap.data →
      Call.Fits maxElem heap.data.size calls →
      ∃ left popped, run comp maxElem heap calls = some (left, popped) ∧ HeapOrdered ord left.data ∧
        (popped ++ left.data.toList).Perm (heap.data.toList ++ Call.inserted calls)
  | [], heap, ordered, _ => ⟨heap, [], rfl, ordered, by simp [Call.inserted]⟩
  | call :: calls, heap, ordered, fits => by
    obtain ⟨allowed, rest⟩ := fits
    obtain ⟨next, out, stepped, nextOrdered, size, traded, -⟩ := stepCall_spec decides ordered allowed
    obtain ⟨left, popped, ran, leftOrdered, kept⟩ :=
      run_keeps decides calls next nextOrdered (size ▸ rest)
    refine ⟨left, out.toList ++ popped, by simp [run_cons, stepped, ran], leftOrdered, ?_⟩
    calc out.toList ++ popped ++ left.data.toList
        _ = out.toList ++ (popped ++ left.data.toList) := List.append_assoc _ _ _
        _ ~ out.toList ++ (next.data.toList ++ Call.inserted calls) := kept.append_left _
        _ = (out.toList ++ next.data.toList) ++ Call.inserted calls := (List.append_assoc _ _ _).symm
        _ ~ (heap.data.toList ++ Call.inserted [call]) ++ Call.inserted calls := traded.append_right _
        _ = heap.data.toList ++ Call.inserted (call :: calls) := by
          rw [List.append_assoc]
          cases call <;> rfl

/-- Every `Pop` of a run of calls that fit hands out a pair that comes before every pair the
heap held just before it. The induction is on the calls before the `Pop`. -/
theorem run_pops_first (decides : Decides comp ord) (post : List (Call α ρ)) :
    ∀ (pre : List (Call α ρ)) (heap : TMinHeap α ρ), HeapOrdered ord heap.data →
      Call.Fits maxElem heap.data.size (pre ++ .pop :: post) →
      ∃ before popped min after, run comp maxElem heap pre = some (before, popped) ∧
        run comp maxElem heap (pre ++ [.pop]) = some (after, popped ++ [min]) ∧
        ∀ x ∈ before.data.toList, ord min.1 x.1 = true
  | [], heap, ordered, fits => by
    obtain ⟨held, -⟩ := fits
    obtain ⟨next, out, stepped, -, -, -, least⟩ := stepCall_spec decides ordered held
    obtain ⟨min, rfl, first⟩ := least rfl
    exact ⟨heap, [], min, next, rfl, by simp [run_cons, stepped, run_nil], first⟩
  | call :: pre, heap, ordered, fits => by
    obtain ⟨allowed, rest⟩ := fits
    obtain ⟨next, out, stepped, nextOrdered, size, -, -⟩ := stepCall_spec decides ordered allowed
    obtain ⟨before, popped, min, after, ran, ranPop, first⟩ :=
      run_pops_first decides post pre next nextOrdered (size ▸ rest)
    refine ⟨before, out.toList ++ popped, min, after, ?_, ?_, first⟩
    · simp [run_cons, stepped, ran]
    · simp [run_cons, stepped, ranPop]

/-- What a correct priority queue does over `calls`, run by `runner` from empty: the run goes
through, the pairs it pops with those it leaves are the pairs inserted, and every `Pop`
hands out a pair that no pair held just before it compares strictly before under `comp`. -/
def Queues (comp : α → α → Bool) (runner : List (Call α ρ) → Option (TMinHeap α ρ × List (α × ρ)))
    (calls : List (Call α ρ)) : Prop :=
  (∃ left popped, runner calls = some (left, popped) ∧
    (popped ++ left.data.toList).Perm (Call.inserted calls)) ∧
  ∀ pre post, calls = pre ++ .pop :: post → ∃ before popped min after,
    runner pre = some (before, popped) ∧ runner (pre ++ [.pop]) = some (after, popped ++ [min]) ∧
    ∀ x ∈ before.data.toList, comp x.1 min.1 = false

/-- Under a comparator that is a strict weak order, as `std::less` is, a `TMinHeap` and a
`TCopyMinHeap` are priority queues over every run of calls that never holds more than
`max_elem` pairs and pops only a nonempty heap. The order they keep is "not after"
(`notAfter`), which the comparator decides. -/
theorem minHeap_queues [IsStrictWeakOrder α fun a b => comp a b = true] (maxElem : Nat)
    (calls : List (Call α ρ)) (fits : Call.Fits maxElem 0 calls) :
    Queues comp (run comp maxElem empty) calls ∧
      Queues comp (TCopyMinHeap.run comp maxElem empty) calls := by
  have : Std.Total fun a b : α => notAfter comp a b = true := notAfter_total
  have : IsTrans α fun a b : α => notAfter comp a b = true := notAfter_trans
  have decides : Decides comp (notAfter comp) := decides_notAfter
  have emptyOrdered : HeapOrdered (notAfter comp) (empty : TMinHeap α ρ).data :=
    fun j _ jIn => by simp [empty] at jIn
  have queues : Queues comp (run comp maxElem empty) calls := by
    refine ⟨?_, fun pre post split => ?_⟩
    · obtain ⟨left, popped, ran, -, kept⟩ := run_keeps decides calls empty emptyOrdered fits
      exact ⟨left, popped, ran, by simpa [empty] using kept⟩
    · subst split
      obtain ⟨before, popped, min, after, ran, ranPop, first⟩ :=
        run_pops_first decides post pre empty emptyOrdered fits
      refine ⟨before, popped, min, after, ran, ranPop, fun x mem => ?_⟩
      simpa [notAfter] using first x mem
  -- the copy heap's `Emplace` and `Pop` are the code of `Insert` and `Pop`
  exact ⟨queues, queues⟩

/-- Three inserts and three pops on a heap of two slots, under `<` on numbers. -/
def sampleCalls : List (Call Nat Nat) := [.insert 3 0, .insert 1 1, .pop, .insert 2 2, .pop, .pop]

theorem minHeap_queues_sample :
    Call.Fits 2 0 sampleCalls ∧
      Queues (fun a b : Nat => decide (a < b)) (run (fun a b : Nat => decide (a < b)) 2 empty)
          sampleCalls ∧
        Queues (fun a b : Nat => decide (a < b))
          (TCopyMinHeap.run (fun a b : Nat => decide (a < b)) 2 empty) sampleCalls := by
  have : IsStrictWeakOrder Nat fun a b => decide (a < b) = true :=
    { irrefl := fun a lt => by simp at lt
      trans := fun a b c ab bc => by simp only [decide_eq_true_eq] at ab bc ⊢; omega
      incomp_trans := fun a b c ab bc => by simp only [decide_eq_true_eq] at ab bc ⊢; omega }
  have fits : Call.Fits 2 0 sampleCalls := by
    simp [sampleCalls, Call.Fits, Call.Allowed, Call.liveAfter]
  exact ⟨fits, minHeap_queues 2 sampleCalls fits⟩

end Runs

end TMinHeap

end Orly.Indy

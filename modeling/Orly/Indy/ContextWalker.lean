import Mathlib
import Orly.Indy.RepoWalker
import Orly.Indy.MinHeapLaws
import Orly.Lib.KWayMerge

/-! `TContext::TPresentWalker` (`orly/indy/context.cc`, `orly/indy/context.h`).

A context's present walker merges the present walkers of the repos of its repo tree, the
private repo first and then its ancestors, through a `TMinHeap` of their current items in
the order of `TItem::operator<`: by key, and for one key the later update first. The
constructors fill the heap with each walker's first item and its position; `Refresh` pops
items until one is presented. A popped item whose key differs from that of the last item
seen (`TKey::TupleNeEq`), or the first item of all, becomes `Item`, and is presented
unless it is a tombstone; a tombstone is still remembered, so the older items of its key
behind it are skipped as well. Every popped item's walker moves on and its next item goes
into the heap.

Over repo walkers that each yield their items in that order, the walk yields the keys in
strictly ascending order, and for each key exactly the item that comes first in a merged
order of all the items, unless that item is a tombstone
(`present_walk_first_of_each_key`). The merged order is the order the heap hands the items
out: `Inv.pop` says a pop hands out the least item left (by `TMinHeap.pop_first` and
`KWayMerge.first_of_heads`), `refresh_spec` gives one `Refresh` as the items it popped,
and `yields_spec` the walk. What the walk presents from the merged items is
`presentFrom`, the same loop over a list, whose results `presentFrom_keys_ascending` and
`mem_presentFrom` read off.

Keys are compared by `TKey::Compare`, a linear order on the keys of one index, and each
key's stored hash (`ForceGetIndirectHash`) is a function of the key, so `TupleNeEq` is
key inequality (`tupleNeEq_iff`). The repo walkers are lists of the items they yield. -/
namespace Orly.Indy

open KWayMerge

variable {κ ω : Type} [LinearOrder κ]

theorem TItem.before_iff {a b : TItem κ ω} :
    TItem.before a b = true ↔
      a.key < b.key ∨ a.key = b.key ∧ b.sequenceNumber ≤ a.sequenceNumber := by
  simp [TItem.before]

theorem TItem.key_le_of_before {a b : TItem κ ω} (before : TItem.before a b = true) :
    a.key ≤ b.key := by
  rcases TItem.before_iff.mp before with lt | ⟨same, _⟩
  · exact le_of_lt lt
  · exact le_of_eq same

instance : Std.Total fun a b : TItem κ ω => TItem.before a b = true where
  total a b := by
    simp only [TItem.before_iff]
    rcases lt_trichotomy a.key b.key with lt | same | gt
    · exact Or.inl (Or.inl lt)
    · rcases Nat.le_total a.sequenceNumber b.sequenceNumber with le | ge
      · exact Or.inr (Or.inr ⟨same.symm, le⟩)
      · exact Or.inl (Or.inr ⟨same, ge⟩)
    · exact Or.inr (Or.inl gt)

instance : IsTrans (TItem κ ω) fun a b => TItem.before a b = true where
  trans a b c := by
    simp only [TItem.before_iff]
    rintro (ab | ⟨ab, ba⟩) (bc | ⟨bc, cb⟩)
    · exact Or.inl (lt_trans ab bc)
    · exact Or.inl (bc ▸ ab)
    · exact Or.inl (ab ▸ bc)
    · exact Or.inr ⟨ab.trans bc, Nat.le_trans cb ba⟩

instance : Std.Refl fun a b : TItem κ ω => TItem.before a b = true where
  refl _ := TItem.before_iff.mpr (Or.inr ⟨rfl, Nat.le_refl _⟩)

/-- `TKey::TupleNeEq`: the stored hashes differ, or `TKey::Compare` finds the keys
unequal. -/
def tupleNeEq (hash : κ → UInt64) (lhs rhs : κ) : Bool :=
  hash lhs != hash rhs || compare lhs rhs != .eq

/-- With the hash a function of the key, its short cut agrees with the key order. -/
theorem tupleNeEq_iff (hash : κ → UInt64) (lhs rhs : κ) : tupleNeEq hash lhs rhs = true ↔ lhs ≠ rhs := by
  constructor
  · rintro differ rfl
    simp [tupleNeEq] at differ
  · intro differ
    simp [tupleNeEq, differ]

/-- The state of `TContext::TPresentWalker`: the repo walkers of `WalkerVec`, the heap of
their current items with each walker's position, `Valid`, and `Item` (none while
`Item.KeyArena` is null). -/
structure TContextPresentWalker (κ ω : Type) where
  walkerVec : List (List (TItem κ ω))
  minHeap : TMinHeap (TItem κ ω) Nat
  valid : Bool
  item : Option (TItem κ ω)

namespace TContextPresentWalker

open TRepoPresentWalker (advance remaining remaining_advance insertHeads)

variable (hash : κ → UInt64) (isTombstone : ω → Bool)

/-- `Item.KeyArena == nullptr || TKey::TupleNeEq(Item.Key, ..., cur_item.Key, ...)`: no
item seen yet, or the last one seen has another key. -/
def fresh (item : Option (TItem κ ω)) (cur : TItem κ ω) : Bool :=
  item.all fun item => tupleNeEq hash item.key cur.key

/-- `++walker; if (walker) MinHeap.Insert(*walker, pos);` after the pop, with `item` as
`Item`. -/
def moveOn (walker : TContextPresentWalker κ ω) (heap : TMinHeap (TItem κ ω) Nat) (pos : Nat)
    (item : Option (TItem κ ω)) : TContextPresentWalker κ ω :=
  { walker with
    walkerVec := (advance walker.walkerVec heap pos).1
    minHeap := (advance walker.walkerVec heap pos).2
    item }

/-- `if (!done) Valid = static_cast<bool>(MinHeap);` -/
def skip (walker : TContextPresentWalker κ ω) : TContextPresentWalker κ ω :=
  { walker with valid := walker.minHeap.nonempty }

set_option linter.unusedVariables false in
/-- `Refresh`: pop the least item. A fresh one becomes `Item` and, unless it is a
tombstone, is presented; otherwise the loop goes on while the heap holds anything. -/
def refresh (walker : TContextPresentWalker κ ω) : TContextPresentWalker κ ω :=
  if walker.valid then
    match popped : walker.minHeap.pop TItem.before with
    | some ((cur, pos), heap) =>
      if fresh hash walker.item cur then
        if isTombstone cur.op then refresh (skip (moveOn walker heap pos (some cur)))
        else moveOn walker heap pos (some cur)
      else refresh (skip (moveOn walker heap pos walker.item))
    | none => walker
  else walker
termination_by remaining walker.walkerVec walker.minHeap
decreasing_by
  all_goals
    have shrunk := TMinHeap.size_pop TItem.before popped
    have advanced := remaining_advance walker.walkerVec heap pos
    simp only [skip, moveOn, remaining] at advanced ⊢
    omega

/-- `operator++`. -/
def next (walker : TContextPresentWalker κ ω) : TContextPresentWalker κ ω :=
  refresh hash isTombstone (skip walker)

/-- The constructors, given the walkers the repos of the tree hand out in its order: the
heap of their first items with their positions, `Valid` if it holds any, and `Refresh`. -/
def make (walkerVec : List (List (TItem κ ω))) : TContextPresentWalker κ ω :=
  refresh hash isTombstone
    ⟨walkerVec, insertHeads TMinHeap.empty 0 walkerVec,
      (insertHeads TMinHeap.empty 0 walkerVec).nonempty, none⟩

/-- One pass of the loop, from the item the heap hands out. -/
theorem refresh_of_pop {walker : TContextPresentWalker κ ω} {cur : TItem κ ω} {pos : Nat}
    {heap : TMinHeap (TItem κ ω) Nat} (valid : walker.valid = true)
    (popped : walker.minHeap.pop TItem.before = some ((cur, pos), heap)) :
    refresh hash isTombstone walker =
      if fresh hash walker.item cur then
        if isTombstone cur.op then refresh hash isTombstone (skip (moveOn walker heap pos (some cur)))
        else moveOn walker heap pos (some cur)
      else refresh hash isTombstone (skip (moveOn walker heap pos walker.item)) := by
  rw [refresh]
  simp only [valid, if_true]
  split
  · rename_i cur' pos' heap' popped'
    rw [popped] at popped'
    cases popped'
    rfl
  · rename_i popped'
    rw [popped] at popped'
    cases popped'

theorem refresh_of_invalid {walker : TContextPresentWalker κ ω} (invalid : walker.valid = false) :
    refresh hash isTombstone walker = walker := by
  rw [refresh]
  simp [invalid]

theorem remaining_refresh_le (walker : TContextPresentWalker κ ω) :
    remaining (refresh hash isTombstone walker).walkerVec (refresh hash isTombstone walker).minHeap ≤
      remaining walker.walkerVec walker.minHeap := by
  fun_induction refresh hash isTombstone walker with
  | case1 walker valid cur pos heap popped _ _ ih | case3 walker valid cur pos heap popped _ ih =>
    have shrunk := TMinHeap.size_pop TItem.before popped
    have advanced := remaining_advance walker.walkerVec heap pos
    simp only [skip, moveOn, remaining] at advanced ih ⊢
    omega
  | case2 walker valid cur pos heap popped _ _ =>
    have shrunk := TMinHeap.size_pop TItem.before popped
    have advanced := remaining_advance walker.walkerVec heap pos
    simp only [moveOn, remaining] at advanced ⊢
    omega
  | case4 | case5 => exact Nat.le_refl _

/-- A valid walker with a non-empty heap pops at least one item. -/
theorem remaining_refresh_lt {walker : TContextPresentWalker κ ω} (valid : walker.valid = true)
    (held : walker.minHeap.nonempty = true) :
    remaining (refresh hash isTombstone walker).walkerVec (refresh hash isTombstone walker).minHeap <
      remaining walker.walkerVec walker.minHeap := by
  obtain ⟨⟨⟨cur, pos⟩, heap⟩, popped⟩ := Option.isSome_iff_exists.mp
    (TMinHeap.pop_isSome walker.minHeap (by simpa [TMinHeap.nonempty] using held))
  have shrunk := TMinHeap.size_pop TItem.before popped
  have advanced := remaining_advance walker.walkerVec heap pos
  rw [refresh_of_pop hash isTombstone valid popped]
  split_ifs
  · have onward := remaining_refresh_le hash isTombstone (skip (moveOn walker heap pos (some cur)))
    simp only [skip, moveOn, remaining] at advanced onward ⊢
    omega
  · simp only [moveOn, remaining] at advanced ⊢
    omega
  · have onward := remaining_refresh_le hash isTombstone (skip (moveOn walker heap pos walker.item))
    simp only [skip, moveOn, remaining] at advanced onward ⊢
    omega

theorem remaining_next_lt (walker : TContextPresentWalker κ ω) :
    remaining (next hash isTombstone walker).walkerVec (next hash isTombstone walker).minHeap +
        (next hash isTombstone walker).valid.toNat <
      remaining walker.walkerVec walker.minHeap + 1 := by
  unfold next
  cases held : walker.minHeap.nonempty
  · have invalid : (skip walker).valid = false := held
    rw [refresh_of_invalid hash isTombstone invalid]
    simp [skip, held]
  · have fewer : remaining (refresh hash isTombstone (skip walker)).walkerVec
        (refresh hash isTombstone (skip walker)).minHeap < remaining walker.walkerVec walker.minHeap :=
      remaining_refresh_lt hash isTombstone (show (skip walker).valid = true from held) held
    cases (refresh hash isTombstone (skip walker)).valid <;> simp <;> omega

/-- What a caller reads: `*walker`, then `++walker`, while the walker is valid. -/
def yields (walker : TContextPresentWalker κ ω) : List (TItem κ ω) :=
  if walker.valid then walker.item.toList ++ yields (next hash isTombstone walker) else []
termination_by remaining walker.walkerVec walker.minHeap + walker.valid.toNat
decreasing_by
  have fewer := remaining_next_lt hash isTombstone walker
  simp only [*, Bool.toNat_true] at fewer ⊢

/-- The item a valid walker presents. -/
def current (walker : TContextPresentWalker κ ω) : List (TItem κ ω) :=
  if walker.valid then walker.item.toList else []

/-- What the walk presents from items in merged order, after the item `seen`: an item of
another key than the last one seen is seen, and presented unless it is a tombstone. -/
def presentFrom (seen : Option (TItem κ ω)) : List (TItem κ ω) → List (TItem κ ω)
  | [] => []
  | cur :: rest =>
    if seen.all (·.key ≠ cur.key) then
      if isTombstone cur.op then presentFrom (some cur) rest else cur :: presentFrom (some cur) rest
    else presentFrom seen rest

/-- The last item seen after items in merged order. -/
def seenAfter (seen : Option (TItem κ ω)) : List (TItem κ ω) → Option (TItem κ ω)
  | [] => seen
  | cur :: rest => seenAfter (if seen.all (·.key ≠ cur.key) then some cur else seen) rest

theorem presentFrom_append (seen : Option (TItem κ ω)) (xs ys : List (TItem κ ω)) :
    presentFrom isTombstone seen (xs ++ ys) =
      presentFrom isTombstone seen xs ++ presentFrom isTombstone (seenAfter seen xs) ys := by
  induction xs generalizing seen with
  | nil => rfl
  | cons cur rest ih =>
    simp only [List.cons_append, presentFrom, seenAfter]
    split_ifs <;> simp [ih]

theorem fresh_eq (item : Option (TItem κ ω)) (cur : TItem κ ω) :
    fresh hash item cur = item.all (·.key ≠ cur.key) := by
  cases item with
  | none => rfl
  | some seen =>
    simp only [fresh, Option.all_some]
    rw [Bool.eq_iff_iff, tupleNeEq_iff, decide_eq_true_iff]

section Spec

variable {hash isTombstone}

/-- Items ordered by `TItem::operator<`. -/
abbrev Sorted (items : List (TItem κ ω)) : Prop := items.Pairwise fun a b => TItem.before a b = true

/-- Presented after `seen`, from items that come after it: the keys ascend strictly, above
the key of `seen`. -/
theorem presentFrom_keys_ascending :
    ∀ (seen : Option (TItem κ ω)) (items : List (TItem κ ω)), Sorted items →
      (∀ s ∈ seen, ∀ y ∈ items, TItem.before s y = true) →
      (presentFrom isTombstone seen items).Pairwise (·.key < ·.key) ∧
        ∀ x ∈ presentFrom isTombstone seen items, ∀ s ∈ seen, s.key < x.key
  | _, [], _, _ => by simp [presentFrom]
  | seen, cur :: rest, sorted, after => by
    obtain ⟨curFirst, restSorted⟩ := List.pairwise_cons.mp sorted
    by_cases isFresh : seen.all (·.key ≠ cur.key) = true
    · -- `cur` is seen: what follows is presented after it
      obtain ⟨ascending, above⟩ := presentFrom_keys_ascending (some cur) rest restSorted
        (fun s same y mem => by cases same; exact curFirst y mem)
      have curAbove : ∀ s ∈ seen, s.key < cur.key := by
        intro s mem
        have differ : s.key ≠ cur.key := by
          rw [Option.mem_def.mp mem] at isFresh
          simpa using isFresh
        rcases TItem.before_iff.mp (after s mem cur List.mem_cons_self) with lt | ⟨same, _⟩
        · exact lt
        · exact absurd same differ
      have restAbove : ∀ x ∈ presentFrom isTombstone (some cur) rest, cur.key < x.key :=
        fun x mem => above x mem cur rfl
      simp only [presentFrom, isFresh, if_true]
      split_ifs
      · exact ⟨ascending, fun x mem s sMem => lt_trans (curAbove s sMem) (restAbove x mem)⟩
      · refine ⟨List.Pairwise.cons restAbove ascending, ?_⟩
        rintro x (_ | ⟨_, mem⟩) s sMem
        · exact curAbove s sMem
        · exact lt_trans (curAbove s sMem) (restAbove x mem)
    · simp only [presentFrom, isFresh, Bool.false_eq_true, if_false]
      exact presentFrom_keys_ascending seen rest restSorted
        (fun s mem y yMem => after s mem y (List.mem_cons_of_mem _ yMem))

/-- Presented after `seen`, from items that come after it: exactly the items that come
first of their key, of another key than `seen`, and are not tombstones. -/
theorem mem_presentFrom {x : TItem κ ω} :
    ∀ (seen : Option (TItem κ ω)) (items : List (TItem κ ω)), Sorted items →
      (∀ s ∈ seen, ∀ y ∈ items, TItem.before s y = true) →
      (x ∈ presentFrom isTombstone seen items ↔ seen.all (·.key ≠ x.key) = true ∧
        items.find? (·.key = x.key) = some x ∧ isTombstone x.op = false)
  | _, [], _, _ => by simp [presentFrom]
  | seen, cur :: rest, sorted, after => by
    obtain ⟨curFirst, restSorted⟩ := List.pairwise_cons.mp sorted
    by_cases isFresh : seen.all (·.key ≠ cur.key) = true
    · have onward := mem_presentFrom (x := x) (some cur) rest restSorted
        (fun s same y mem => by cases same; exact curFirst y mem)
      have unfolded : presentFrom isTombstone seen (cur :: rest) =
          (if isTombstone cur.op then [] else [cur]) ++ presentFrom isTombstone (some cur) rest := by
        simp only [presentFrom, isFresh, if_true]
        split_ifs <;> rfl
      rw [unfolded, List.mem_append, onward]
      by_cases sameKey : cur.key = x.key
      · -- only `cur` itself can be presented for its key
        rw [List.find?_cons_of_pos (by simpa using sameKey)]
        constructor
        · rintro (mem | ⟨differ, _, _⟩)
          · split_ifs at mem with tomb
            · simp at mem
            · rw [List.mem_singleton.mp mem]
              exact ⟨isFresh, rfl, by simpa using tomb⟩
          · simp [sameKey] at differ
        · rintro ⟨_, same, notTomb⟩
          cases Option.some.inj same
          left
          simp [notTomb]
      · rw [List.find?_cons_of_neg (by simpa using sameKey)]
        have notCur : x ∉ (if isTombstone cur.op then [] else [cur]) := by
          split_ifs
          · simp
          · rintro mem
            exact sameKey (congrArg TItem.key (List.mem_singleton.mp mem)).symm
        constructor
        · rintro (mem | ⟨_, later, notTomb⟩)
          · exact absurd mem notCur
          · refine ⟨?_, later, notTomb⟩
            -- the key seen before `cur` lies below `cur`, and `cur` below `x`
            have curBelow : cur.key < x.key :=
              lt_of_le_of_ne (TItem.key_le_of_before (curFirst x (List.mem_of_find?_eq_some later)))
                sameKey
            cases seenEq : seen with
            | none => rfl
            | some s =>
              have sBelow := TItem.key_le_of_before (after s seenEq cur List.mem_cons_self)
              simp [ne_of_lt (lt_of_le_of_lt sBelow curBelow)]
        · rintro ⟨_, later, notTomb⟩
          exact Or.inr ⟨by simpa using sameKey, later, notTomb⟩
    · have unfolded : presentFrom isTombstone seen (cur :: rest) = presentFrom isTombstone seen rest := by
        simp only [presentFrom, isFresh, Bool.false_eq_true, if_false]
      rw [unfolded, mem_presentFrom (x := x) seen rest restSorted
        (fun s mem y yMem => after s mem y (List.mem_cons_of_mem _ yMem))]
      -- `cur` has the key last seen, so no other key finds it first
      obtain ⟨s, rfl, sameKey⟩ : ∃ s, seen = some s ∧ s.key = cur.key := by
        cases seen with
        | none => simp at isFresh
        | some s => exact ⟨s, rfl, by simpa using isFresh⟩
      have skipCur : (s.key ≠ x.key) →
          (cur :: rest).find? (·.key = x.key) = rest.find? (·.key = x.key) := fun differ =>
        List.find?_cons_of_neg (by simpa [← sameKey] using differ)
      constructor
      · rintro ⟨differ, later, notTomb⟩
        exact ⟨differ, by rw [skipCur (by simpa using differ)]; exact later, notTomb⟩
      · rintro ⟨differ, found, notTomb⟩
        exact ⟨differ, by rw [← skipCur (by simpa using differ)]; exact found, notTomb⟩

/-- The walker's invariant: each repo walker in order, the heap in heap order, and the
heap the walkers' current items with their positions. -/
structure Inv (walker : TContextPresentWalker κ ω) : Prop where
  sorted : ∀ items ∈ walker.walkerVec, Sorted items
  ordered : TMinHeap.HeapOrdered TItem.before walker.minHeap.data
  holds : walker.minHeap.data.toList.Perm (heads id walker.walkerVec)

/-- A walker whose heap is empty has no item left. -/
theorem Inv.flatten_eq_nil {walker : TContextPresentWalker κ ω} (inv : Inv walker)
    (empty : walker.minHeap.nonempty = false) : walker.walkerVec.flatten = [] := by
  have noData : walker.minHeap.data.toList = [] := by
    simpa [TMinHeap.nonempty] using empty
  apply flatten_eq_nil_of_heads id
  have holds := inv.holds
  rw [noData] at holds
  exact holds.nil_eq.symm

/-- `++walker; if (walker) MinHeap.Insert(*walker, pos);` when the walker at `pos` is at
`cur`: the walker drops it, and its next item joins the heap. -/
theorem advance_of_found (heap : TMinHeap (TItem κ ω) Nat) {walkerVec : List (List (TItem κ ω))}
    {pos : Nat} {cur : TItem κ ω} {rest : List (TItem κ ω)}
    (found : walkerVec[pos]? = some (cur :: rest)) :
    (advance walkerVec heap pos).1 = walkerVec.set pos rest ∧
      (advance walkerVec heap pos).2.data.toList.Perm (heap.data.toList ++ headEntry id pos rest) ∧
      (TMinHeap.HeapOrdered TItem.before heap.data →
        TMinHeap.HeapOrdered TItem.before (advance walkerVec heap pos).2.data) := by
  cases rest with
  | nil => simp [advance, found, headEntry]
  | cons next rest =>
    have step : advance walkerVec heap pos =
        (walkerVec.set pos (next :: rest), heap.insert TItem.before next pos) := by
      simp [advance, found]
    rw [step]
    refine ⟨rfl, ?_, TMinHeap.insert_ordered _ _ _⟩
    simpa [headEntry] using
      (TMinHeap.insert_perm heap next pos).trans (List.perm_append_singleton _ _).symm

/-- A pop hands out the current item of the repo walker at `pos`, which comes before every
item left, and moving that walker on keeps the invariant. -/
theorem Inv.pop [DecidableEq ω] {walker : TContextPresentWalker κ ω} {cur : TItem κ ω} {pos : Nat}
    {heap : TMinHeap (TItem κ ω) Nat} (inv : Inv walker)
    (popped : walker.minHeap.pop TItem.before = some ((cur, pos), heap)) (item : Option (TItem κ ω)) :
    Inv (moveOn walker heap pos item) ∧
      walker.walkerVec.flatten.Perm (cur :: (moveOn walker heap pos item).walkerVec.flatten) ∧
      ∀ y ∈ (moveOn walker heap pos item).walkerVec.flatten, TItem.before cur y = true := by
  have popPerm := TMinHeap.pop_perm popped
  have holds := popPerm.symm.trans inv.holds
  have first : ∀ e ∈ heap.data.toList, TItem.before cur e.1 = true := fun e mem =>
    TMinHeap.pop_first inv.ordered popped e (popPerm.symm.subset (List.mem_cons_of_mem _ mem))
  obtain ⟨a, rest, found, curEq, least⟩ :=
    @first_of_heads _ _ id (fun a b => TItem.before a b = true) _ _ _ _ _ _ inv.sorted holds first
  cases curEq
  obtain ⟨walkers, heapPerm, heapOrdered⟩ := advance_of_found heap found
  have moved := flatten_set pos walker.walkerVec found
  have erased : heap.data.toList.Perm ((heads id walker.walkerVec).erase (a, pos)) := by
    simpa using holds.erase (a, pos)
  refine ⟨⟨?_, heapOrdered (TMinHeap.pop_ordered inv.ordered popped), ?_⟩, ?_, ?_⟩
  · intro items mem
    simp only [moveOn, walkers] at mem
    rcases List.mem_or_eq_of_mem_set mem with old | rfl
    · exact inv.sorted items old
    · exact (inv.sorted _ (List.mem_of_getElem? found)).of_cons
  · simp only [moveOn, walkers]
    exact heapPerm.trans ((erased.append_right _).trans (heads_set id found).symm)
  · simpa [moveOn, walkers] using moved
  · intro y later
    simp only [moveOn, walkers] at later
    exact least y (moved.symm.subset (List.mem_cons_of_mem _ later))

variable (isTombstone)

/-- `Refresh` from `w` to `w'`, popping `popped` in that order: the popped items come in
order and before every item left, and what `w'` presents and remembers is what
`presentFrom` and `seenAfter` give for them. -/
structure Refreshed (w w' : TContextPresentWalker κ ω) (popped : List (TItem κ ω)) : Prop where
  inv : Inv w'
  spent : w'.valid = false → w'.walkerVec.flatten = []
  pops : w.walkerVec.flatten.Perm (popped ++ w'.walkerVec.flatten)
  sorted : Sorted popped
  first : ∀ x ∈ popped, ∀ y ∈ w'.walkerVec.flatten, TItem.before x y = true
  presents : presentFrom isTombstone w.item popped = current w'
  remembers : seenAfter w.item popped = w'.item

variable {isTombstone}

theorem refreshed_of_spent {w : TContextPresentWalker κ ω} (inv : Inv w) (invalid : w.valid = false)
    (spent : w.walkerVec.flatten = []) : Refreshed isTombstone w w [] where
  inv := inv
  spent := fun _ => spent
  pops := by simp
  sorted := List.Pairwise.nil
  first := by simp
  presents := by simp [presentFrom, current, invalid]
  remembers := rfl

/-- A round that pops `cur` and goes on: what follows is what follows the round. -/
theorem Refreshed.cons {w w₂ w' : TContextPresentWalker κ ω} {cur : TItem κ ω}
    {popped : List (TItem κ ω)} (after : Refreshed isTombstone w₂ w' popped)
    (pops : w.walkerVec.flatten.Perm (cur :: w₂.walkerVec.flatten))
    (least : ∀ y ∈ w₂.walkerVec.flatten, TItem.before cur y = true)
    (presents : presentFrom isTombstone w.item (cur :: popped) = presentFrom isTombstone w₂.item popped)
    (remembers : seenAfter w.item (cur :: popped) = seenAfter w₂.item popped) :
    Refreshed isTombstone w w' (cur :: popped) where
  inv := after.inv
  spent := after.spent
  pops := pops.trans (after.pops.cons cur)
  sorted := List.Pairwise.cons (fun x mem => least x (after.pops.symm.subset (List.mem_append_left _ mem)))
    after.sorted
  first := by
    rintro x (_ | ⟨_, mem⟩) y later
    · exact least y (after.pops.symm.subset (List.mem_append_right _ later))
    · exact after.first x mem y later
  presents := presents.trans after.presents
  remembers := remembers.trans after.remembers

end Spec

section Run

variable [DecidableEq ω]

/-- `Refresh` from a walker that holds the invariant and is valid when its heap holds
anything. -/
theorem refresh_spec (w : TContextPresentWalker κ ω) :
    Inv w → w.valid = w.minHeap.nonempty →
      ∃ popped, Refreshed isTombstone w (refresh hash isTombstone w) popped := by
  fun_induction refresh hash isTombstone w with
  | case1 w valid cur pos heap popped isFresh tomb ih =>
    -- a fresh tombstone: remembered, and the loop goes on
    intro inv _
    have seenFresh : w.item.all (·.key ≠ cur.key) = true := by rw [← fresh_eq hash]; exact isFresh
    obtain ⟨movedInv, pops, least⟩ := inv.pop popped (some cur)
    obtain ⟨rest, after⟩ := ih ⟨movedInv.sorted, movedInv.ordered, movedInv.holds⟩ rfl
    refine ⟨cur :: rest, after.cons pops least ?_ ?_⟩
    · simp only [presentFrom, seenFresh, tomb, if_true]
      rfl
    · simp only [seenAfter, seenFresh, if_true]
      rfl
  | case2 w valid cur pos heap popped isFresh tomb =>
    -- a fresh item that is not a tombstone: presented
    intro inv _
    have seenFresh : w.item.all (·.key ≠ cur.key) = true := by rw [← fresh_eq hash]; exact isFresh
    obtain ⟨movedInv, pops, least⟩ := inv.pop popped (some cur)
    refine ⟨[cur], ⟨movedInv, fun invalid => by simp [moveOn, valid] at invalid, pops, ?_, ?_, ?_, ?_⟩⟩
    · exact List.pairwise_singleton _ _
    · simpa using least
    · simp only [presentFrom, seenFresh, tomb, if_true, Bool.false_eq_true, if_false]
      simp [current, moveOn, valid]
    · simp only [seenAfter, seenFresh, if_true]
      rfl
  | case3 w valid cur pos heap popped isFresh ih =>
    -- an item of the key last seen: skipped
    intro inv _
    have seenStale : w.item.all (·.key ≠ cur.key) = false := by
      rw [← fresh_eq hash]
      simpa using isFresh
    obtain ⟨movedInv, pops, least⟩ := inv.pop popped w.item
    obtain ⟨rest, after⟩ := ih ⟨movedInv.sorted, movedInv.ordered, movedInv.holds⟩ rfl
    refine ⟨cur :: rest, after.cons pops least ?_ ?_⟩
    · simp only [presentFrom, seenStale, Bool.false_eq_true, if_false]
      rfl
    · simp only [seenAfter, seenStale, Bool.false_eq_true, if_false]
      rfl
  | case4 w valid popped =>
    -- `Valid` says the heap holds an item, so the pop cannot fail
    intro _ validity
    have held : 0 < w.minHeap.data.size := by
      have nonempty : w.minHeap.nonempty = true := validity ▸ valid
      simpa [TMinHeap.nonempty] using nonempty
    have isSome : (w.minHeap.pop TItem.before).isSome := TMinHeap.pop_isSome w.minHeap held
    rw [popped] at isSome
    contradiction
  | case5 w invalid =>
    intro inv validity
    have spent := inv.flatten_eq_nil (by rw [← validity]; simpa using invalid)
    exact ⟨[], refreshed_of_spent inv (by simpa using invalid) spent⟩

/-- What the caller reads from a walker `Refresh` left: what it presents, then what
`presentFrom` gives for the items left, in the order the heap hands them out. -/
theorem yields_spec (w : TContextPresentWalker κ ω) :
    Inv w → (w.valid = false → w.walkerVec.flatten = []) →
      ∃ merged, Sorted merged ∧ w.walkerVec.flatten.Perm merged ∧
        yields hash isTombstone w = current w ++ presentFrom isTombstone w.item merged := by
  fun_induction yields hash isTombstone w with
  | case1 w valid ih =>
    intro inv _
    -- `operator++` is `Refresh` from the same walker, valid when its heap holds anything
    obtain ⟨popped, after⟩ :=
      refresh_spec hash isTombstone (skip w) ⟨inv.sorted, inv.ordered, inv.holds⟩ rfl
    obtain ⟨rest, restSorted, restPerm, yielded⟩ := ih after.inv after.spent
    have presents : presentFrom isTombstone w.item popped = current (next hash isTombstone w) :=
      after.presents
    have remembers : seenAfter w.item popped = (next hash isTombstone w).item := after.remembers
    refine ⟨popped ++ rest, ?_, after.pops.trans (restPerm.append_left popped), ?_⟩
    · exact List.pairwise_append.mpr ⟨after.sorted, restSorted,
        fun x mem y later => after.first x mem y (restPerm.symm.subset later)⟩
    · have nowCurrent : current w = w.item.toList := if_pos valid
      rw [yielded, presentFrom_append, presents, remembers, nowCurrent]
  | case2 w invalid =>
    intro _ spent
    have invalid : w.valid = false := by simpa using invalid
    refine ⟨[], List.Pairwise.nil, by simp [spent invalid], ?_⟩
    simp [current, invalid, presentFrom]

omit [DecidableEq ω] in
/-- The constructors' heap: each repo walker's first item with its position, in heap
order. -/
theorem insertHeads_spec :
    ∀ (heap : TMinHeap (TItem κ ω) Nat) (pos : Nat) (walkerVec : List (List (TItem κ ω))),
      TMinHeap.HeapOrdered TItem.before heap.data →
        TMinHeap.HeapOrdered TItem.before (insertHeads heap pos walkerVec).data ∧
          (insertHeads heap pos walkerVec).data.toList.Perm
            (heap.data.toList ++ headsFrom id pos walkerVec)
  | heap, _, [], ordered => by simp [insertHeads, headsFrom, ordered]
  | heap, pos, (cur :: _) :: walkerVec, ordered => by
    obtain ⟨stillOrdered, holds⟩ := insertHeads_spec (heap.insert TItem.before cur pos) (pos + 1)
      walkerVec (TMinHeap.insert_ordered heap cur pos ordered)
    simp only [insertHeads]
    refine ⟨stillOrdered, holds.trans ?_⟩
    simp only [headsFrom, id]
    exact ((TMinHeap.insert_perm heap cur pos).append_right _).trans List.perm_middle.symm
  | heap, pos, [] :: walkerVec, ordered => by
    simpa [insertHeads, headsFrom] using insertHeads_spec heap (pos + 1) walkerVec ordered

/-- Over repo walkers that each yield their items by key, and for one key the later update
first, the walk yields the keys in strictly ascending order, and an item exactly when it is
the first of its key in a merged order of all the items and not a tombstone: a key whose
first item is a tombstone is not yielded at all. -/
theorem present_walk_first_of_each_key (walkerVec : List (List (TItem κ ω)))
    (ordered : ∀ walker ∈ walkerVec, walker.Pairwise fun a b => TItem.before a b = true) :
    ∃ merged : List (TItem κ ω), merged.Perm walkerVec.flatten ∧
      merged.Pairwise (fun a b => TItem.before a b = true) ∧
      (yields hash isTombstone (make hash isTombstone walkerVec)).Pairwise (·.key < ·.key) ∧
      ∀ x, x ∈ yields hash isTombstone (make hash isTombstone walkerVec) ↔
        merged.find? (·.key = x.key) = some x ∧ isTombstone x.op = false := by
  let start : TContextPresentWalker κ ω :=
    ⟨walkerVec, insertHeads TMinHeap.empty 0 walkerVec,
      (insertHeads TMinHeap.empty 0 walkerVec).nonempty, none⟩
  obtain ⟨heapOrdered, holds⟩ := insertHeads_spec TMinHeap.empty 0 walkerVec
    (fun j _ jIn => by simp [TMinHeap.empty] at jIn)
  have startHolds : (insertHeads TMinHeap.empty 0 walkerVec).data.toList.Perm (heads id walkerVec) := by
    simpa [heads, TMinHeap.empty] using holds
  have inv : Inv start := ⟨ordered, heapOrdered, startHolds⟩
  obtain ⟨popped, after⟩ := refresh_spec hash isTombstone start inv rfl
  obtain ⟨rest, restSorted, restPerm, yielded⟩ := yields_spec hash isTombstone _ after.inv after.spent
  -- the merged order: what the constructor's `Refresh` popped, then what the walk pops
  have sorted : Sorted (popped ++ rest) := List.pairwise_append.mpr ⟨after.sorted, restSorted,
    fun x mem y later => after.first x mem y (restPerm.symm.subset later)⟩
  have presents : presentFrom isTombstone none popped = current (make hash isTombstone walkerVec) :=
    after.presents
  have remembers : seenAfter none popped = (make hash isTombstone walkerVec).item := after.remembers
  have presented : yields hash isTombstone (make hash isTombstone walkerVec) =
      presentFrom isTombstone none (popped ++ rest) := by
    rw [presentFrom_append, presents, remembers]
    exact yielded
  refine ⟨popped ++ rest, (after.pops.trans (restPerm.append_left popped)).symm, sorted, ?_, ?_⟩
  · rw [presented]
    exact (presentFrom_keys_ascending none _ sorted (by simp)).1
  · intro x
    rw [presented, mem_presentFrom none _ sorted (by simp)]
    simp

theorem present_walk_two_repos :
    ∃ merged : List (TItem Nat Bool), merged.Perm
        [[⟨7, 1, false⟩, ⟨8, 2, true⟩], [⟨5, 1, true⟩, ⟨6, 2, false⟩, ⟨2, 3, false⟩]].flatten ∧
      merged.Pairwise (fun a b => TItem.before a b = true) ∧
      (yields (fun _ => 0) id (make (fun _ => 0) id
        [[⟨7, 1, false⟩, ⟨8, 2, true⟩], [⟨5, 1, true⟩, ⟨6, 2, false⟩, ⟨2, 3, false⟩]])).Pairwise
          (·.key < ·.key) ∧
      ∀ x, x ∈ yields (fun _ => 0) id (make (fun _ => 0) id
          [[⟨7, 1, false⟩, ⟨8, 2, true⟩], [⟨5, 1, true⟩, ⟨6, 2, false⟩, ⟨2, 3, false⟩]]) ↔
        merged.find? (·.key = x.key) = some x ∧ id x.op = false :=
  present_walk_first_of_each_key (fun _ => 0) id
    [[⟨7, 1, false⟩, ⟨8, 2, true⟩], [⟨5, 1, true⟩, ⟨6, 2, false⟩, ⟨2, 3, false⟩]] (by decide)

end Run

end TContextPresentWalker

end Orly.Indy

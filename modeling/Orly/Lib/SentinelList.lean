import Mathlib.Data.List.Chain
import Mathlib.Data.List.Nodup
import Mathlib.Logic.Function.Basic

/-! Doubly linked lists threaded through a sentinel.

An intrusive doubly linked list keeps a successor and a predecessor field in every node,
and a first and a last field in a header. Reading the header as one more node, the
sentinel `h`, with its first field as its successor and its last field as its
predecessor, the list is one cycle: `h`, the nodes in order, and `h` again (`Threads`).
A write to "the predecessor's successor field, or the header's first field when there is
no predecessor" is then a write to one node's successor.

The lemmas say what unlinking a node does to the cycle (`Threads.unlink`), what linking a
node between two neighbours does (`Threads.link`), that the successor which steps over a
node of the list threads the list without it (`Threads.skipping_chain`), and what a loop
that walks successors while a test holds returns (`scan_spec`). A node's two neighbours
fix its place (`Threads.eq_of_pred`). -/
namespace SentinelList

open Function

variable {ν : Type}

section Chains

variable {R : ν → ν → Prop} {a b x : ν} {ys zs : List ν}

/-- A chain from `a` through `ys ++ zs` to `b` is a chain to the end of `ys`, the link
across the cut, and a chain from the start of `zs`. -/
theorem isChain_cut :
    (a :: (ys ++ zs ++ [b])).IsChain R ↔
      (a :: ys).IsChain R ∧ R (ys.getLast?.getD a) (zs.head?.getD b) ∧
        (zs ++ [b]).IsChain R := by
  have split : a :: (ys ++ zs ++ [b]) = (a :: ys) ++ (zs ++ [b]) := by simp
  have last : (a :: ys).getLast? = some (ys.getLast?.getD a) := List.getLast?_cons
  have first : (zs ++ [b]).head? = some (zs.head?.getD b) := by cases zs <;> rfl
  rw [split, List.isChain_append, last, first]
  simp only [Option.mem_def, Option.some.injEq, forall_eq']
  exact ⟨fun ⟨left, right, cut⟩ => ⟨left, cut, right⟩, fun ⟨left, cut, right⟩ => ⟨left, right, cut⟩⟩

/-- A chain through `ys ++ x :: zs`, read around `x`. -/
theorem isChain_around :
    (a :: (ys ++ x :: zs ++ [b])).IsChain R ↔
      (a :: ys).IsChain R ∧ R (ys.getLast?.getD a) x ∧ R x (zs.head?.getD b) ∧
        (zs ++ [b]).IsChain R := by
  have first : (zs ++ [b]).head? = some (zs.head?.getD b) := by cases zs <;> rfl
  have tail : (x :: (zs ++ [b])).IsChain R ↔ R x (zs.head?.getD b) ∧ (zs ++ [b]).IsChain R := by
    rw [List.isChain_cons, first]
    simp only [Option.mem_def, Option.some.injEq, forall_eq']
  rw [isChain_cut, List.cons_append, tail, List.head?_cons, Option.getD_some]

/-- The last element of a non-empty list, read with a default, is in it. -/
theorem getLast?_getD_mem {l : List ν} (nonempty : l ≠ []) (d : ν) : l.getLast?.getD d ∈ l := by
  rw [List.getLast?_eq_some_getLast nonempty, Option.getD_some]
  exact List.getLast_mem nonempty

/-- The node before a segment, the start `a` when it is empty, is the start or in it. -/
theorem getLast?_getD_mem_cons : ys.getLast?.getD a ∈ a :: ys := by
  cases ys with
  | nil => exact List.mem_cons_self
  | cons y ys => exact List.mem_cons_of_mem a (getLast?_getD_mem (List.cons_ne_nil y ys) a)

/-- The node after a segment, the end `b` when it is empty, is in it or is the end. -/
theorem head?_getD_mem_append : zs.head?.getD b ∈ zs ++ [b] := by
  cases zs <;> simp

/-- In a list without repeats, a cut is fixed by the last element before it. -/
theorem eq_of_getLast_eq {ys' zs' : List ν} {d : ν} (erased : ys' ++ zs' = ys ++ zs)
    (nodup : (d :: (ys' ++ zs')).Nodup) (last : ys'.getLast?.getD d = ys.getLast?.getD d) :
    ys' = ys := by
  have absent := (List.nodup_cons.mp nodup).1
  induction ys generalizing ys' d with
  | nil =>
    cases ys' with
    | nil => rfl
    | cons y ys' =>
      have inside := getLast?_getD_mem (List.cons_ne_nil y ys') d
      rw [last] at inside
      exact absurd (List.mem_append_left zs' inside) absent
  | cons y ys ih =>
    cases ys' with
    | nil =>
      have inside := getLast?_getD_mem (List.cons_ne_nil y ys) d
      rw [← last] at inside
      exact absurd (erased ▸ List.mem_append_left zs inside) absent
    | cons y' ys' =>
      obtain ⟨rfl, rest⟩ := List.cons.inj erased
      rw [List.getLast?_cons, List.getLast?_cons, Option.getD_some, Option.getD_some] at last
      have tail := (List.nodup_cons.mp nodup).2
      rw [ih rest tail last (List.nodup_cons.mp tail).1]

end Chains

section Threads

variable {succ pred succ' pred' : ν → ν} {h x : ν} {xs ys zs : List ν}

/-- Consecutive nodes `u`, `v`: the successor of `u` is `v`, the predecessor of `v` is `u`. -/
def Linked (succ pred : ν → ν) (u v : ν) : Prop := succ u = v ∧ pred v = u

/-- `xs`, in order, threaded through the sentinel `h`: from `h`, `succ` visits `xs` and
comes back to `h`, `pred` walks the same cycle backwards, and no node comes twice. -/
structure Threads (succ pred : ν → ν) (h : ν) (xs : List ν) : Prop where
  nodup : (h :: xs).Nodup
  chain : (h :: (xs ++ [h])).IsChain (Linked succ pred)

/-- Where the sentinel, `x` and the nodes either side of it stand in a list without
repeats. -/
theorem nodup_around (nodup : (h :: (ys ++ x :: zs)).Nodup) :
    x ∉ h :: ys ∧ x ∉ zs ++ [h] ∧ ∀ u ∈ ys, u ∉ zs ++ [h] := by
  simp only [List.nodup_cons, List.nodup_append, List.mem_append, List.mem_cons] at nodup
  grind

/-- The two fields read through `h :: xs` decide the cycle. -/
theorem Threads.frame (threads : Threads succ pred h xs)
    (sameSucc : ∀ u ∈ h :: xs, succ' u = succ u) (samePred : ∀ u ∈ h :: xs, pred' u = pred u) :
    Threads succ' pred' h xs := by
  refine ⟨threads.nodup, threads.chain.imp_of_mem_tail_imp ?_⟩
  intro u v early late linked
  have within : ∀ w ∈ xs ++ [h], w ∈ h :: xs := by simp +contextual [or_comm]
  have early : u ∈ h :: xs := by
    rcases List.mem_cons.mp early with same | later
    · exact same ▸ List.mem_cons_self
    · exact within u later
  rw [Linked, sameSucc u early, samePred v (within v late)]
  exact linked

/-- Read backwards, the cycle threads the reversed list with the two fields swapped. -/
theorem Threads.reverse (threads : Threads succ pred h xs) : Threads pred succ h xs.reverse := by
  have cycle : h :: (xs.reverse ++ [h]) = (h :: (xs ++ [h])).reverse := by simp
  refine ⟨?_, ?_⟩
  · have nodup := threads.nodup
    rw [List.nodup_cons] at nodup ⊢
    exact ⟨by simpa using nodup.1, List.nodup_reverse.mpr nodup.2⟩
  · rw [cycle, List.isChain_reverse]
    exact threads.chain.imp fun _ _ linked => ⟨linked.2, linked.1⟩

/-- The successor and the predecessor of a node are the nodes either side of it. -/
theorem Threads.around (threads : Threads succ pred h (ys ++ x :: zs)) :
    Linked succ pred (ys.getLast?.getD h) x ∧ Linked succ pred x (zs.head?.getD h) := by
  obtain ⟨-, into, out, -⟩ := isChain_around.mp threads.chain
  exact ⟨into, out⟩

/-- The sentinel's successor is the first node, or itself when the list is empty. -/
theorem Threads.first (threads : Threads succ pred h xs) : succ h = xs.head?.getD h := by
  have first : (xs ++ [h]).head? = some (xs.head?.getD h) := by cases xs <;> rfl
  have chain := threads.chain
  rw [List.isChain_cons, first] at chain
  exact (chain.1 _ rfl).1

/-- A node of the list has both its neighbours in the cycle, and neither is itself. -/
theorem Threads.neighbours (threads : Threads succ pred h xs) (mem : x ∈ xs) :
    pred x ∈ h :: xs ∧ succ x ∈ h :: xs ∧ pred x ≠ x ∧ succ x ≠ x := by
  obtain ⟨ys, zs, rfl⟩ := List.append_of_mem mem
  obtain ⟨into, out⟩ := threads.around
  obtain ⟨outside, outside', -⟩ := nodup_around threads.nodup
  have last : ys.getLast?.getD h ∈ h :: ys := getLast?_getD_mem_cons
  have first : zs.head?.getD h ∈ zs ++ [h] := head?_getD_mem_append
  rw [into.2, out.1]
  refine ⟨?_, ?_, fun same => outside (same ▸ last), fun same => outside' (same ▸ first)⟩
  · rcases List.mem_cons.mp last with same | early
    · rw [same]
      exact List.mem_cons_self
    · exact List.mem_cons_of_mem h (List.mem_append_left _ early)
  · rcases List.mem_append.mp first with later | same
    · exact List.mem_cons_of_mem h (List.mem_append_right _ (List.mem_cons_of_mem x later))
    · rw [List.mem_singleton.mp same]
      exact List.mem_cons_self

/-- The two neighbours of `x` fix where it stands: a list that the cycle threads around
`x`, and that is `ys ++ zs` without it, is `ys ++ x :: zs` once the predecessor of `x` is
the last node of `ys`. -/
theorem Threads.eq_of_pred {ys' zs' : List ν} (threads : Threads succ pred h (ys' ++ x :: zs'))
    (erased : ys' ++ zs' = ys ++ zs) (before : pred x = ys.getLast?.getD h) :
    ys' = ys ∧ zs' = zs := by
  have last : ys'.getLast?.getD h = ys.getLast?.getD h := threads.around.1.2.symm.trans before
  have nodup : (h :: (ys' ++ zs')).Nodup :=
    threads.nodup.sublist (List.Sublist.cons_cons h (by simp))
  have same : ys' = ys := eq_of_getLast_eq erased nodup last
  exact ⟨same, List.append_cancel_left (same ▸ erased)⟩

variable [DecidableEq ν]

/-- A link survives writes to a successor and a predecessor field it does not read. -/
theorem Linked.update {u v p n : ν} (linked : Linked succ pred u v) (source : u ≠ p)
    (target : v ≠ n) (w w' : ν) : Linked (Function.update succ p w) (Function.update pred n w') u v := by
  rw [Linked, update_of_ne source, update_of_ne target]
  exact linked

/-- Unlinking `x`: its predecessor's successor becomes its successor, and its successor's
predecessor its predecessor. The cycle then threads the list without `x`. -/
theorem Threads.unlink (threads : Threads succ pred h (ys ++ x :: zs)) :
    Threads (Function.update succ (pred x) (succ x)) (Function.update pred (succ x) (pred x)) h
      (ys ++ zs) := by
  obtain ⟨left, into, out, right⟩ := isChain_around.mp threads.chain
  obtain ⟨outside, outside', -⟩ := nodup_around threads.nodup
  rw [into.2, out.1]
  -- a link other than the two through `x` reads neither of the fields written
  have keep : ∀ u v, Linked succ pred u v → u ≠ x → v ≠ x →
      Linked (Function.update succ (ys.getLast?.getD h) (zs.head?.getD h))
        (Function.update pred (zs.head?.getD h) (ys.getLast?.getD h)) u v := by
    intro u v linked left right
    refine linked.update ?_ ?_ _ _
    · rintro rfl
      exact right (linked.1.symm.trans into.1)
    · rintro rfl
      exact left (linked.2.symm.trans out.2)
  have nodup : (h :: (ys ++ zs)).Nodup :=
    threads.nodup.sublist (List.Sublist.cons_cons h (by simp))
  refine ⟨nodup, isChain_cut.mpr ⟨?_, ?_, ?_⟩⟩
  · refine left.imp_of_mem_tail_imp fun u v early late linked => keep u v linked ?_ ?_
    · rintro rfl
      exact outside early
    · rintro rfl
      exact outside (List.mem_cons_of_mem h late)
  · simp [Linked]
  · refine right.imp_of_mem_tail_imp fun u v early late linked => keep u v linked ?_ ?_
    · rintro rfl
      exact outside' early
    · rintro rfl
      exact outside' (List.mem_of_mem_tail late)

/-- Linking a fresh `x` between the last node of `ys` and the first of `zs`: `x`'s own
fields first, then its predecessor's successor, then its successor's predecessor. The
cycle then threads `ys ++ x :: zs`. -/
theorem Threads.link (threads : Threads succ pred h (ys ++ zs)) (fresh : x ∉ h :: (ys ++ zs)) :
    Threads
      (Function.update (Function.update succ x (zs.head?.getD h)) (ys.getLast?.getD h) x)
      (Function.update (Function.update pred x (ys.getLast?.getD h)) (zs.head?.getD h) x) h
      (ys ++ x :: zs) := by
  obtain ⟨left, across, right⟩ := isChain_cut.mp threads.chain
  have nodup : (h :: (ys ++ x :: zs)).Nodup := by
    have moved : (x :: h :: (ys ++ zs)).Nodup := List.nodup_cons.mpr ⟨fresh, threads.nodup⟩
    exact (((List.Perm.swap h x _).trans (List.Perm.cons h List.perm_middle.symm)).nodup_iff).mp
      moved
  obtain ⟨outside, outside', apart⟩ := nodup_around nodup
  have tail : (zs ++ [h]).Nodup :=
    (List.perm_append_singleton h zs).nodup_iff.mpr
      (threads.nodup.sublist ((List.sublist_append_right ys zs).cons_cons h))
  have first : zs.head?.getD h ∈ zs ++ [h] := head?_getD_mem_append
  have firstOnce : zs.head?.getD h ∉ (zs ++ [h]).tail := by
    cases zs with
    | nil => simp
    | cons z zs => exact (List.nodup_cons.mp tail).1
  -- a link of the old cycle other than the one across the cut keeps its fields
  have keep : ∀ u v, Linked succ pred u v → u ≠ x → v ≠ x → v ≠ zs.head?.getD h →
      Linked (Function.update (Function.update succ x (zs.head?.getD h)) (ys.getLast?.getD h) x)
        (Function.update (Function.update pred x (ys.getLast?.getD h)) (zs.head?.getD h) x) u v := by
    intro u v linked source target notFirst
    refine (linked.update source target _ _).update ?_ notFirst _ _
    rintro rfl
    exact notFirst (linked.1.symm.trans across.1)
  refine ⟨nodup, isChain_around.mpr ⟨?_, ?_, ?_, ?_⟩⟩
  · refine left.imp_of_mem_tail_imp fun u v early late linked => keep u v linked ?_ ?_ ?_
    · rintro rfl
      exact outside early
    · rintro rfl
      exact outside (List.mem_cons_of_mem h late)
    · rintro same
      exact apart v late (same ▸ first)
  · have notFirst : x ≠ zs.head?.getD h := fun same => outside' (same ▸ first)
    simp [Linked, notFirst]
  · have notLast : x ≠ ys.getLast?.getD h := fun same => outside (same ▸ getLast?_getD_mem_cons)
    simp [Linked, notLast]
  · refine right.imp_of_mem_tail_imp fun u v early late linked => keep u v linked ?_ ?_ ?_
    · rintro rfl
      exact outside' early
    · rintro rfl
      exact outside' (List.mem_of_mem_tail late)
    · rintro rfl
      exact firstOnce late

/-- The successor with `x` stepped over, as a loop over an intrusive list that `x` may
already be in reads it. -/
def skipping (succ : ν → ν) (x u : ν) : ν := if succ u = x then succ x else succ u

/-- Stepping over a node `x` of the list, the successors thread the list without it. -/
theorem Threads.skipping_chain (threads : Threads succ pred h (ys ++ x :: zs)) :
    (h :: (ys ++ zs ++ [h])).IsChain fun u v => skipping succ x u = v := by
  obtain ⟨left, into, out, right⟩ := isChain_around.mp threads.chain
  obtain ⟨outside, outside', -⟩ := nodup_around threads.nodup
  refine isChain_cut.mpr ⟨left.imp_of_mem_tail_imp ?_, ?_, right.imp_of_mem_tail_imp ?_⟩
  · intro u v _ late linked
    have other : v ≠ x := fun same => outside (same ▸ List.mem_cons_of_mem h late)
    rw [skipping, linked.1, if_neg other]
  · rw [skipping, if_pos into.1, out.1]
  · intro u v _ late linked
    have other : v ≠ x := fun same => outside' (same ▸ List.mem_of_mem_tail late)
    rw [skipping, linked.1, if_neg other]

/-- Stepping over a node that is not in the list changes no step. -/
theorem Threads.skipping_chain_of_not_mem (threads : Threads succ pred h xs) (absent : x ∉ xs)
    (real : x ≠ h) : (h :: (xs ++ [h])).IsChain fun u v => skipping succ x u = v := by
  refine threads.chain.imp_of_mem_tail_imp fun u v _ late linked => ?_
  have other : v ≠ x := by
    rintro rfl
    simp only [List.tail_cons, List.mem_append, List.mem_singleton] at late
    exact late.elim absent real
  rw [skipping, linked.1, if_neg other]

/-- The loop `while (next != h && go(next)) { prev = next; next = step(next); }` from
`prev` and `next`, on fuel: it returns the last `prev` and `next`, or nothing when the
fuel runs out first. -/
def scan (step : ν → ν) (h : ν) (go : ν → Bool) : Nat → ν → ν → Option (ν × ν)
  | 0, prev, next => if next = h then some (prev, next) else none
  | fuel + 1, prev, next =>
    if next = h then some (prev, next)
    else if go next then scan step h go fuel next (step next) else some (prev, next)

/-- Walking a list that `step` chains to `h`, the loop stops at the first node that fails
the test, with the last node that passed it before. -/
theorem scan_walk {step : ν → ν} {go : ν → Bool} {l : List ν}
    (chain : (l ++ [h]).IsChain fun u v => step u = v) (fresh : h ∉ l) {fuel : Nat}
    (enough : l.length ≤ fuel) (prev : ν) :
    scan step h go fuel prev (l.head?.getD h) =
      some ((l.takeWhile go).getLast?.getD prev, (l.dropWhile go).head?.getD h) := by
  induction l generalizing fuel prev with
  | nil => cases fuel <;> simp [scan]
  | cons y l ih =>
    obtain ⟨fuel, rfl⟩ : ∃ rest, fuel = rest + 1 :=
      ⟨fuel - 1, by rw [List.length_cons] at enough; omega⟩
    have other : y ≠ h := fun same => fresh (same ▸ List.mem_cons_self)
    have next : step y = l.head?.getD h := by
      have first : (l ++ [h]).head? = some (l.head?.getD h) := by cases l <;> rfl
      rw [List.cons_append, List.isChain_cons, first] at chain
      exact chain.1 _ rfl
    have rest := ih (List.isChain_cons.mp (List.cons_append ▸ chain)).2
      (fun mem => fresh (List.mem_cons_of_mem y mem)) (by simpa using enough)
    by_cases going : go y = true
    · rw [List.head?_cons, Option.getD_some, scan, if_neg other, if_pos going, next, rest y,
        List.takeWhile_cons_of_pos going, List.dropWhile_cons_of_pos going, List.getLast?_cons,
        Option.getD_some]
    · rw [List.head?_cons, Option.getD_some, scan, if_neg other, if_neg going,
        List.takeWhile_cons_of_neg going, List.dropWhile_cons_of_neg going]
      rfl

/-- From the sentinel, the loop walks the list that `step` threads. -/
theorem scan_spec {step : ν → ν} {go : ν → Bool} {l : List ν}
    (chain : (h :: (l ++ [h])).IsChain fun u v => step u = v) (fresh : h ∉ l) {fuel : Nat}
    (enough : l.length ≤ fuel) :
    scan step h go fuel h (step h) =
      some ((l.takeWhile go).getLast?.getD h, (l.dropWhile go).head?.getD h) := by
  have first : (l ++ [h]).head? = some (l.head?.getD h) := by cases l <;> rfl
  rw [List.isChain_cons, first] at chain
  rw [chain.1 _ rfl]
  exact scan_walk chain.2 fresh enough h

end Threads

end SentinelList

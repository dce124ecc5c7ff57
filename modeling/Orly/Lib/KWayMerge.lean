import Mathlib.Data.List.Sort

/-! The k-way merge of sorted sources through a queue of their heads.

Each source is a list in ascending order of a key. The queue holds, for each non-empty
source, the key of its head and the source's slot, in ascending order of key. A round of
the merge takes the queue's first entry, hands out that source's head, moves the source
on, and queues its new head, if any. The head handed out is then the least element of all
sources (`least_of_queue`); what is left of them is everything else (`flatten_set`); and
the queue of the moved sources is the old one less its first entry, with the new head
inserted in order (`queue_after_round`).

The heads, and what a round does to them, need no order on keys; that the entry handed
out names the least head needs only an entry that comes first (`first_of_heads`), under
any transitive and reflexive relation that orders each source. A queue kept as a list is
a permutation of `heads` sorted by key, and inserting into it is `List.orderedInsert` on
keys. -/
namespace KWayMerge

section Heads

variable {α β : Type} (key : α → β)

/-- The entries a queue of the sources should hold, counting slots from `base`. -/
def headsFrom : Nat → List (List α) → List (β × Nat)
  | _, [] => []
  | base, [] :: sources => headsFrom (base + 1) sources
  | base, (a :: _) :: sources => (key a, base) :: headsFrom (base + 1) sources

/-- The entries a queue of the sources should hold. -/
def heads (sources : List (List α)) : List (β × Nat) := headsFrom key 0 sources

/-- The entry of a source's head, if it has one. -/
def headEntry (slot : Nat) (source : List α) : List (β × Nat) :=
  (source.head?.map fun a => (key a, slot)).toList

/-- The entries of the sources from `base` are each source's head entry, in order. -/
theorem headsFrom_cons (base : Nat) (source : List α) (sources : List (List α)) :
    headsFrom key base (source :: sources) = headEntry key base source ++ headsFrom key (base + 1) sources := by
  cases source <;> rfl

theorem mem_headsFrom {k : β} {slot : Nat} :
    ∀ (base : Nat) (sources : List (List α)), (k, slot) ∈ headsFrom key base sources ↔
      base ≤ slot ∧ ∃ a rest, sources[slot - base]? = some (a :: rest) ∧ k = key a
  | _, [] => by simp [headsFrom]
  | base, [] :: sources => by
    rw [headsFrom, mem_headsFrom (base + 1) sources]
    constructor
    · rintro ⟨above, a, rest, found, rfl⟩
      refine ⟨by omega, a, rest, ?_, rfl⟩
      rw [show slot - base = slot - (base + 1) + 1 by omega]
      simpa using found
    · rintro ⟨above, a, rest, found, rfl⟩
      have notFirst : slot - base ≠ 0 := fun zero => by simp [zero] at found
      refine ⟨by omega, a, rest, ?_, rfl⟩
      rw [show slot - base = slot - (base + 1) + 1 by omega] at found
      simpa using found
  | base, (first :: firstRest) :: sources => by
    rw [headsFrom, List.mem_cons, mem_headsFrom (base + 1) sources, Prod.mk.injEq]
    constructor
    · rintro (⟨rfl, rfl⟩ | ⟨above, a, rest, found, rfl⟩)
      · exact ⟨le_refl _, first, firstRest, by simp, rfl⟩
      · refine ⟨by omega, a, rest, ?_, rfl⟩
        rw [show slot - base = slot - (base + 1) + 1 by omega]
        simpa using found
    · rintro ⟨above, a, rest, found, rfl⟩
      by_cases same : slot = base
      · subst same
        simp only [Nat.sub_self, List.getElem?_cons_zero, Option.some.injEq, List.cons.injEq] at found
        exact Or.inl ⟨by rw [found.1], rfl⟩
      · refine Or.inr ⟨by omega, a, rest, ?_, rfl⟩
        rw [show slot - base = slot - (base + 1) + 1 by omega] at found
        simpa using found

theorem mem_heads {k : β} {slot : Nat} {sources : List (List α)} :
    (k, slot) ∈ heads key sources ↔ ∃ a rest, sources[slot]? = some (a :: rest) ∧ k = key a := by
  simp [heads, mem_headsFrom]

/-- Every element of the sources lies in a source whose head is queued. -/
theorem exists_head_of_mem_flatten {sources : List (List α)} {b : α}
    (inFlatten : b ∈ sources.flatten) :
    ∃ c rest slot, sources[slot]? = some (c :: rest) ∧ (key c, slot) ∈ heads key sources ∧
      b ∈ c :: rest := by
  obtain ⟨source, inSources, inSource⟩ := List.mem_flatten.mp inFlatten
  obtain ⟨slot, atSlot⟩ := List.mem_iff_getElem?.mp inSources
  obtain ⟨c, rest, rfl⟩ := List.exists_cons_of_ne_nil (List.ne_nil_of_mem inSource)
  exact ⟨c, rest, slot, atSlot, (mem_heads key).mpr ⟨c, rest, atSlot, rfl⟩, inSource⟩

/-- Sources with no head to queue are spent. -/
theorem flatten_eq_nil_of_heads {sources : List (List α)} (noHeads : heads key sources = []) :
    sources.flatten = [] := by
  apply List.eq_nil_iff_forall_not_mem.mpr
  intro b inFlatten
  obtain ⟨c, rest, slot, _, queued, _⟩ := exists_head_of_mem_flatten key inFlatten
  rw [noHeads] at queued
  simp at queued

theorem flatten_set {a : α} {rest : List α} :
    ∀ (slot : Nat) (sources : List (List α)), sources[slot]? = some (a :: rest) →
      sources.flatten.Perm (a :: (sources.set slot rest).flatten)
  | _, [], found => by simp at found
  | 0, source :: sources, found => by
    simp only [List.getElem?_cons_zero, Option.some.injEq] at found
    subst found
    simp
  | slot + 1, source :: sources, found => by
    simp only [List.getElem?_cons_succ] at found
    simp only [List.flatten_cons, List.set_cons_succ]
    exact ((flatten_set slot sources found).append_left source).trans List.perm_middle

variable {key}

/-- An entry that comes before every other queued entry names the source whose head comes
before every element of the sources, under any transitive and reflexive `le` that orders
each source. -/
theorem first_of_heads {le : β → β → Prop} [IsTrans β le] [Std.Refl le]
    {sources : List (List α)} {queue : List (β × Nat)} {k : β} {slot : Nat}
    (ascending : ∀ source ∈ sources, source.Pairwise (fun a b => le (key a) (key b)))
    (holds : ((k, slot) :: queue).Perm (heads key sources)) (first : ∀ e ∈ queue, le k e.1) :
    ∃ a rest, sources[slot]? = some (a :: rest) ∧ k = key a ∧
      ∀ b ∈ sources.flatten, le (key a) (key b) := by
  obtain ⟨a, rest, found, rfl⟩ := (mem_heads key).mp (holds.subset List.mem_cons_self)
  refine ⟨a, rest, found, rfl, ?_⟩
  intro b inFlatten
  obtain ⟨c, rest', j, atJ, inHeads, inSource⟩ := exists_head_of_mem_flatten key inFlatten
  -- the source's head is queued, so it comes no earlier than the first entry
  have queued : (key c, j) ∈ (key a, slot) :: queue := holds.symm.subset inHeads
  have headAfter : le (key a) (key c) := by
    rcases List.mem_cons.mp queued with same | later
    · rw [(Prod.mk.inj same).1]
      exact Std.Refl.refl _
    · exact first _ later
  have belowB : le (key c) (key b) := by
    rcases List.mem_cons.mp inSource with rfl | later
    · exact Std.Refl.refl _
    · exact List.rel_of_pairwise_cons (ascending _ (List.mem_of_getElem? atJ)) later
  exact trans_of le headAfter belowB

variable (key) [DecidableEq β]

/-- Moving the source at `slot` on by its head replaces that head's entry by the entry of
the new head. -/
theorem headsFrom_set {a : α} {rest : List α} :
    ∀ (base slot : Nat) (sources : List (List α)), sources[slot]? = some (a :: rest) →
      (headsFrom key base (sources.set slot rest)).Perm
        ((headsFrom key base sources).erase (key a, base + slot) ++ headEntry key (base + slot) rest)
  | _, _, [], found => by simp at found
  | base, 0, source :: sources, found => by
    simp only [List.getElem?_cons_zero, Option.some.injEq] at found
    subst found
    cases rest with
    | nil => simp [headsFrom, headEntry]
    | cons next rest =>
      simp only [List.set_cons_zero, headsFrom, Nat.add_zero, List.erase_cons_head, headEntry,
        List.head?_cons, Option.map_some, Option.toList_some]
      exact (List.perm_append_singleton _ _).symm
  | base, slot + 1, source :: sources, found => by
    simp only [List.getElem?_cons_succ] at found
    have moved := headsFrom_set (base + 1) slot sources found
    rw [show base + 1 + slot = base + (slot + 1) by omega] at moved
    cases source with
    | nil => simpa [headsFrom] using moved
    | cons first firstRest =>
      have otherSlot : ¬((key first, base) == (key a, base + (slot + 1))) = true := by simp
      simp only [List.set_cons_succ, headsFrom, List.erase_cons_tail otherSlot, List.cons_append]
      exact moved.cons _

theorem heads_set {sources : List (List α)} {slot : Nat} {a : α} {rest : List α}
    (found : sources[slot]? = some (a :: rest)) :
    (heads key (sources.set slot rest)).Perm
      ((heads key sources).erase (key a, slot) ++ headEntry key slot rest) := by
  simpa [heads] using headsFrom_set key 0 slot sources found

end Heads

section Queue

variable {α β : Type} [LinearOrder β] (key : α → β)

/-- Queue entries are ordered by key only. -/
def keyLE (x y : β × Nat) : Prop := x.1 ≤ y.1

instance : DecidableRel (keyLE (β := β)) := fun x y => inferInstanceAs (Decidable (x.1 ≤ y.1))

instance : Std.Total (keyLE (β := β)) := ⟨fun x y => le_total x.1 y.1⟩

instance : IsTrans (β × Nat) keyLE := ⟨fun _ _ _ xy yz => le_trans xy yz⟩

/-- The queue after a round: its first entry dropped, and the entry of the source's new
head, if any, inserted in order. -/
def requeue (slot : Nat) (rest : List α) (queue : List (β × Nat)) : List (β × Nat) :=
  match rest with
  | [] => queue
  | next :: _ => queue.orderedInsert keyLE (key next, slot)

theorem requeue_perm (slot : Nat) (rest : List α) (queue : List (β × Nat)) :
    (requeue key slot rest queue).Perm (queue ++ headEntry key slot rest) := by
  cases rest with
  | nil => simp [requeue, headEntry]
  | cons next rest =>
    simpa [requeue, headEntry] using
      (List.perm_orderedInsert keyLE _ queue).trans (List.perm_append_singleton _ _).symm

variable {key}

/-- The queue's first entry names the source whose head is least of all. -/
theorem least_of_queue {sources : List (List α)} {queue : List (β × Nat)} {k : β} {slot : Nat}
    (ascending : ∀ source ∈ sources, source.Pairwise (key · < key ·))
    (holds : ((k, slot) :: queue).Perm (heads key sources))
    (sorted : ((k, slot) :: queue).Pairwise keyLE) :
    ∃ a rest, sources[slot]? = some (a :: rest) ∧ k = key a ∧
      ∀ b ∈ sources.flatten, key a ≤ key b := by
  exact first_of_heads (fun source mem => (ascending source mem).imp le_of_lt) holds
    (fun _ later => List.rel_of_pairwise_cons sorted later)

/-- After a round the queue still holds the sources' heads, in order. -/
theorem queue_after_round {sources : List (List α)} {queue : List (β × Nat)} {slot : Nat}
    {a : α} {rest : List α} (found : sources[slot]? = some (a :: rest))
    (holds : ((key a, slot) :: queue).Perm (heads key sources))
    (sorted : ((key a, slot) :: queue).Pairwise keyLE) :
    (requeue key slot rest queue).Perm (heads key (sources.set slot rest)) ∧
      (requeue key slot rest queue).Pairwise keyLE := by
  have erased : ((heads key sources).erase (key a, slot)).Perm queue := by
    simpa using (holds.erase (key a, slot)).symm
  refine ⟨?_, ?_⟩
  · exact (requeue_perm key slot rest queue).trans
      (((erased.append_right _).symm).trans (heads_set key found).symm)
  · cases rest with
    | nil => exact List.Pairwise.of_cons sorted
    | cons next rest => exact (List.Pairwise.of_cons sorted).orderedInsert _ _

end Queue

end KWayMerge

import Mathlib
import Orly.Lib.KWayMerge

/-! `TRepo::TUpdateWalker` (`orly/indy/repo.cc`).

A repo's update walker merges, in order of sequence number, the update walkers of the
layers its view maps and of the view's current memory layer. Each layer walker, started at
`From`, sits in a slot of `WalkerMap`; a `TMergeSorter` keeps the sequence number of each
layer walker's current update with the walker's slot, in ascending order (an element goes
before the first one whose number is not less). `Refresh` pops the least entry: an update
beyond `To` ends the walk; one within the view's `[Lower, Upper]` becomes `Item`; either
way but the first, that walker moves on and its next update is queued, until an update is
found or the sorter runs dry. The constructor and `operator++` set `Valid` to whether the
sorter holds anything, and run `Refresh`.

The walk yields exactly the updates from `From` on that lie in the view's bounds and not
beyond `To`, each once and in strictly ascending order (`walk_yields_view_in_order`),
when each layer's walker yields ascending sequence numbers and no two layers share one.
The proof is the k-way merge of `KWayMerge`: the sorter holds the walkers' heads (`Inv`),
so a round pops the least update left (`Inv.pop_least`); `refresh_spec` carries this over
the rounds of one `Refresh` and `yields_spec` over the walk.

Each layer walker is the list of updates it has left, its current one first; the memory
layer's walker skips the updates below `From`, and the data layers' walkers are taken to
do the same. The constructor visits `WalkerMap` in the order of its keys, the layers'
addresses; the model visits the slots in order. A sorter element refers to its walker's
current sequence number, which does not change while the element is queued, so the model
stores the number. Fuel bounds the loops: a round for every update, and one more. -/
namespace Orly.Indy

open KWayMerge

/-- `TMergeSorter<TSequenceNumber, const TDataLayer *>::TMergeElement(sorter, val, ref)`
under `std::less`: the element goes after every element whose value is less than `val`. -/
def mergeInsert (val slot : Nat) : List (Nat × Nat) → List (Nat × Nat)
  | [] => [(val, slot)]
  | (v, s) :: sorter =>
    if v < val then (v, s) :: mergeInsert val slot sorter else (val, slot) :: (v, s) :: sorter

theorem mergeInsert_eq_orderedInsert (val slot : Nat) (sorter : List (Nat × Nat)) :
    mergeInsert val slot sorter = sorter.orderedInsert keyLE (val, slot) := by
  induction sorter with
  | nil => rfl
  | cons entry sorter ih =>
    obtain ⟨v, s⟩ := entry
    by_cases less : v < val
    · simp [mergeInsert, less, keyLE, ih, not_le.mpr less]
    · simp [mergeInsert, less, keyLE, not_lt.mp less]

variable {α : Type} (seqOf : α → Nat)

/-- `TMemoryLayer::TUpdateWalker` started at `From`: `Refresh` skips the updates numbered
below `From`. -/
def layerUpdates (fromSeq : Nat) (updates : List α) : List α :=
  updates.filter fun update => fromSeq ≤ seqOf update

/-- The state of `TRepo::TUpdateWalker`: the layer walkers in their slots, the merge
sorter of their current sequence numbers with their slots, `Valid`, and `Item` (none
before an update is found). -/
structure TRepoUpdateWalker (α : Type) where
  walkers : List (List α)
  mergeSorter : List (Nat × Nat)
  valid : Bool
  item : Option α

namespace TRepoUpdateWalker

/-- `++walker; if (walker) new (SorterAlloc + found.second) TMergeElement(...)`: the
walker at `slot` moves on to `rest`, and its next update, if any, is queued. -/
def moveOn (w : TRepoUpdateWalker α) (slot : Nat) (rest : List α)
    (sorter : List (Nat × Nat)) : TRepoUpdateWalker α :=
  { w with
    walkers := w.walkers.set slot rest
    mergeSorter := match rest with
      | [] => sorter
      | next :: _ => mergeInsert (seqOf next) slot sorter }

variable (lower upper : Nat) (toSeq : Option Nat)

/-- One pass of `Refresh`'s loop, with `done` or the `break` as the flag. The least entry
is popped and its walker's update looked at: beyond `To`, the walk ends; within the view's
bounds, the update is `Item`; otherwise `Valid` is whether the sorter holds anything once
the walker has moved on. `none` is a failed assertion: a pop from an empty sorter, or a
slot whose walker has run out. -/
def refreshRound (w : TRepoUpdateWalker α) : Option (TRepoUpdateWalker α × Bool) :=
  match w.mergeSorter with
  | [] => none
  | (_, slot) :: sorter =>
    match w.walkers[slot]? with
    | some (update :: rest) =>
      if toSeq.any (· < seqOf update) then
        some ({ w with mergeSorter := sorter, valid := false }, true)
      else if lower ≤ seqOf update ∧ seqOf update ≤ upper then
        some ({ moveOn seqOf w slot rest sorter with item := some update }, true)
      else
        let moved := moveOn seqOf w slot rest sorter
        some ({ moved with valid := !moved.mergeSorter.isEmpty }, false)
    | _ => none

/-- `Refresh`: rounds while `Valid && !done`, at most `fuel` of them. -/
def refresh : Nat → TRepoUpdateWalker α → Option (TRepoUpdateWalker α)
  | 0, w => if w.valid then none else some w
  | fuel + 1, w =>
    if w.valid then
      match refreshRound seqOf lower upper toSeq w with
      | some (w, true) => some w
      | some (w, false) => refresh fuel w
      | none => none
    else some w

/-- The constructor's loop over `WalkerMap`: each walker with an update queues its current
sequence number under its slot. -/
def queueHeads : Nat → List (List α) → List (Nat × Nat) → List (Nat × Nat)
  | _, [], sorter => sorter
  | slot, [] :: walkers, sorter => queueHeads (slot + 1) walkers sorter
  | slot, (update :: _) :: walkers, sorter =>
    queueHeads (slot + 1) walkers (mergeInsert (seqOf update) slot sorter)

/-- `TRepo::TUpdateWalker(view, From, To)` for a view with both bounds: a walker on each
layer started at `From`, the sorter of their current updates, `Valid` if it holds any,
and `Refresh`. -/
def make (fuel : Nat) (layers : List (List α)) (fromSeq : Nat) :
    Option (TRepoUpdateWalker α) :=
  let walkers := layers.map (layerUpdates seqOf fromSeq)
  let sorter := queueHeads seqOf 0 walkers []
  refresh seqOf lower upper toSeq fuel ⟨walkers, sorter, !sorter.isEmpty, none⟩

/-- `operator++`. -/
def advance (fuel : Nat) (w : TRepoUpdateWalker α) : Option (TRepoUpdateWalker α) :=
  refresh seqOf lower upper toSeq fuel { w with valid := !w.mergeSorter.isEmpty }

/-- The updates a caller reads: `*walker`, then `++walker`, while the walker is valid. -/
def yields : Nat → TRepoUpdateWalker α → Option (List α)
  | 0, w => if w.valid then none else some []
  | fuel + 1, w =>
    if w.valid then
      match w.item, advance seqOf lower upper toSeq fuel w with
      | some update, some next => (yields fuel next).map (update :: ·)
      | _, _ => none
    else some []

end TRepoUpdateWalker

open TRepoUpdateWalker in
/-- The updates a repo's update walker over a view yields, with fuel for every update and
one more. A view without both bounds leaves the walker invalid. -/
def walkUpdates (layers : List (List α)) (fromSeq : Nat) (lower upper toSeq : Option Nat) :
    Option (List α) :=
  match lower, upper with
  | some lower, some upper =>
    let fuel := (layers.map List.length).sum + 1
    (make seqOf lower upper toSeq fuel layers fromSeq).bind (yields seqOf lower upper toSeq fuel)
  | _, _ => some []

namespace TRepoUpdateWalker

/-- What the walker is for: an update within the view's bounds and not beyond `To`. -/
def wanted (lower upper : Nat) (toSeq : Option Nat) (update : α) : Bool :=
  decide (lower ≤ seqOf update ∧ seqOf update ≤ upper) && toSeq.all (seqOf update ≤ ·)

/-- The update a walker presents: `Item`, while the walker is valid. -/
def current (w : TRepoUpdateWalker α) : List α := if w.valid then w.item.toList else []

/-- The merge invariant: each walker ascending, no sequence number twice, and the sorter
the walkers' heads in order. -/
structure Inv (walkers : List (List α)) (sorter : List (Nat × Nat)) : Prop where
  ascending : ∀ walker ∈ walkers, walker.Pairwise (seqOf · < seqOf ·)
  distinct : (walkers.flatten.map seqOf).Nodup
  holds : sorter.Perm (heads seqOf walkers)
  sorted : sorter.Pairwise keyLE

section Merge

variable {seqOf} {walkers : List (List α)} {sorter : List (Nat × Nat)}

/-- The sorter's first entry is the least update left. -/
theorem Inv.pop_least {k slot : Nat} (inv : Inv seqOf walkers ((k, slot) :: sorter)) :
    ∃ update rest, walkers[slot]? = some (update :: rest) ∧ k = seqOf update ∧
      ∀ b ∈ walkers.flatten, seqOf update ≤ seqOf b :=
  least_of_queue inv.ascending inv.holds inv.sorted

theorem Inv.flatten_eq_nil (inv : Inv seqOf walkers []) : walkers.flatten = [] :=
  flatten_eq_nil_of_heads seqOf inv.holds.nil_eq.symm

theorem Inv.sorter_eq_nil (inv : Inv seqOf walkers sorter) (spent : walkers.flatten = []) :
    sorter = [] := by
  rcases sorterEq : sorter with _ | ⟨⟨k, slot⟩, sorter⟩
  · rfl
  · obtain ⟨update, rest, found, _, _⟩ := (sorterEq ▸ inv).pop_least
    have left : update ∈ walkers.flatten :=
      List.mem_flatten.mpr ⟨_, List.mem_of_getElem? found, List.mem_cons_self⟩
    simp [spent] at left

@[simp]
theorem moveOn_walkers (w : TRepoUpdateWalker α) (slot : Nat) (rest : List α) :
    (moveOn seqOf w slot rest sorter).walkers = w.walkers.set slot rest := rfl

@[simp]
theorem moveOn_valid (w : TRepoUpdateWalker α) (slot : Nat) (rest : List α) :
    (moveOn seqOf w slot rest sorter).valid = w.valid := rfl

@[simp]
theorem moveOn_mergeSorter (w : TRepoUpdateWalker α) (slot : Nat) (rest : List α) :
    (moveOn seqOf w slot rest sorter).mergeSorter = requeue seqOf slot rest sorter := by
  cases rest <;> simp [moveOn, requeue, mergeInsert_eq_orderedInsert]

variable {update : α} {rest : List α} {slot : Nat}

/-- A round keeps the invariant: the walker at `slot` moves on and its next update is
queued. -/
theorem Inv.set (inv : Inv seqOf walkers ((seqOf update, slot) :: sorter))
    (found : walkers[slot]? = some (update :: rest)) :
    Inv seqOf (walkers.set slot rest) (requeue seqOf slot rest sorter) where
  ascending := by
    intro walker mem
    rcases List.mem_or_eq_of_mem_set mem with old | rfl
    · exact inv.ascending walker old
    · exact (inv.ascending _ (List.mem_of_getElem? found)).of_cons
  distinct := (((flatten_set slot walkers found).map seqOf).nodup_iff.mp inv.distinct).of_cons
  holds := (queue_after_round found inv.holds inv.sorted).1
  sorted := (queue_after_round found inv.holds inv.sorted).2

/-- The updates left after a round all come after the one popped. -/
theorem Inv.above_set (inv : Inv seqOf walkers ((seqOf update, slot) :: sorter))
    (found : walkers[slot]? = some (update :: rest))
    (least : ∀ b ∈ walkers.flatten, seqOf update ≤ seqOf b) :
    ∀ b ∈ (walkers.set slot rest).flatten, seqOf update < seqOf b := by
  intro b later
  have moved := flatten_set slot walkers found
  have apart : seqOf update ∉ (walkers.set slot rest).flatten.map seqOf :=
    (List.nodup_cons.mp ((moved.map seqOf).nodup_iff.mp inv.distinct)).1
  have differs : seqOf update ≠ seqOf b := fun same => apart (same ▸ List.mem_map_of_mem later)
  exact lt_of_le_of_ne (least b (moved.symm.subset (List.mem_cons_of_mem _ later))) differs

end Merge

theorem all_eq_false_of_any_lt {toSeq : Option Nat} {n m : Nat}
    (past : toSeq.any (· < n) = true) (later : n ≤ m) : toSeq.all (m ≤ ·) = false := by
  cases toSeq <;> simp at past ⊢
  omega

theorem all_of_not_any_lt {toSeq : Option Nat} {n : Nat}
    (within : toSeq.any (· < n) = false) : toSeq.all (n ≤ ·) = true := by
  cases toSeq <;> simp at within ⊢
  omega

variable (lower upper : Nat) (toSeq : Option Nat)

/-- What `Refresh` leaves: a valid walker presents a wanted update below every update
left, and an invalid one has no wanted update left. -/
structure Ready (w : TRepoUpdateWalker α) : Prop where
  presents : w.valid = true → ∃ update, w.item = some update ∧
    wanted seqOf lower upper toSeq update = true ∧ ∀ b ∈ w.walkers.flatten, seqOf update < seqOf b
  exhausted : w.valid = false → ∀ b ∈ w.walkers.flatten, wanted seqOf lower upper toSeq b = false

/-- `Refresh` from `w` to `w'`: `w'` is ready, keeps the invariant while valid with fewer
updates left, and what it presents and has left that is wanted is what `w` had left. -/
structure Refreshed (w w' : TRepoUpdateWalker α) : Prop where
  ready : Ready seqOf lower upper toSeq w'
  keeps : w'.valid = true → Inv seqOf w'.walkers w'.mergeSorter ∧
    w'.walkers.flatten.length < w.walkers.flatten.length
  found : (w.walkers.flatten.filter (wanted seqOf lower upper toSeq)).Perm
    (current w' ++ w'.walkers.flatten.filter (wanted seqOf lower upper toSeq))

section Rounds

variable {seqOf lower upper toSeq} {w : TRepoUpdateWalker α} {k slot : Nat}
  {sorter : List (Nat × Nat)} {update : α} {rest : List α}

theorem refresh_of_invalid (fuel : Nat) (invalid : w.valid = false) :
    refresh seqOf lower upper toSeq fuel w = some w := by
  cases fuel <;> simp [refresh, invalid]

theorem refreshed_of_spent (invalid : w.valid = false) (spent : w.walkers.flatten = []) :
    Refreshed seqOf lower upper toSeq w w where
  ready := ⟨fun valid => by simp [invalid] at valid, fun _ b left => by simp [spent] at left⟩
  keeps := fun valid => by simp [invalid] at valid
  found := by simp [spent, current, invalid]

/-- A round that skips an unwanted update: what follows it is what follows the round. -/
theorem Refreshed.skip {w₂ w' : TRepoUpdateWalker α} (after : Refreshed seqOf lower upper toSeq w₂ w')
    (popped : w.walkers.flatten.Perm (update :: w₂.walkers.flatten))
    (unwanted : wanted seqOf lower upper toSeq update = false) :
    Refreshed seqOf lower upper toSeq w w' where
  ready := after.ready
  keeps := fun valid => by
    obtain ⟨inv, fewer⟩ := after.keeps valid
    have one := popped.length_eq
    simp only [List.length_cons] at one
    exact ⟨inv, by omega⟩
  found := by
    have skipped := popped.filter (wanted seqOf lower upper toSeq)
    rw [List.filter_cons_of_neg (by simp [unwanted])] at skipped
    exact skipped.trans after.found

theorem refreshRound_beyond (sorterEq : w.mergeSorter = (k, slot) :: sorter)
    (found : w.walkers[slot]? = some (update :: rest)) (past : toSeq.any (· < seqOf update) = true) :
    refreshRound seqOf lower upper toSeq w =
      some ({ w with mergeSorter := sorter, valid := false }, true) := by
  simp [refreshRound, sorterEq, found, past]

theorem refreshRound_hit (sorterEq : w.mergeSorter = (k, slot) :: sorter)
    (found : w.walkers[slot]? = some (update :: rest)) (within : toSeq.any (· < seqOf update) = false)
    (hit : lower ≤ seqOf update ∧ seqOf update ≤ upper) :
    refreshRound seqOf lower upper toSeq w =
      some ({ moveOn seqOf w slot rest sorter with item := some update }, true) := by
  simp [refreshRound, sorterEq, found, within, hit]

theorem refreshRound_miss (sorterEq : w.mergeSorter = (k, slot) :: sorter)
    (found : w.walkers[slot]? = some (update :: rest)) (within : toSeq.any (· < seqOf update) = false)
    (miss : ¬(lower ≤ seqOf update ∧ seqOf update ≤ upper)) :
    refreshRound seqOf lower upper toSeq w =
      some ({ moveOn seqOf w slot rest sorter with
        valid := !(moveOn seqOf w slot rest sorter).mergeSorter.isEmpty }, false) := by
  simp only [refreshRound, sorterEq, found, within, Bool.false_eq_true, if_false, if_neg miss]

/-- An update beyond `To` ends the walk: it is no more than any update left. -/
theorem refreshed_beyond (least : ∀ b ∈ w.walkers.flatten, seqOf update ≤ seqOf b)
    (past : toSeq.any (· < seqOf update) = true) :
    Refreshed seqOf lower upper toSeq w { w with mergeSorter := sorter, valid := false } := by
  have unwanted : ∀ b ∈ w.walkers.flatten, wanted seqOf lower upper toSeq b = false := by
    intro b left
    simp [wanted, all_eq_false_of_any_lt past (least b left)]
  refine ⟨⟨fun valid => by simp at valid, fun _ => unwanted⟩, fun valid => by simp at valid, ?_⟩
  rw [List.filter_eq_nil_iff.mpr (fun b left => by simp [unwanted b left])]
  simp [current]

/-- An update in the view's bounds is presented, below every update left. -/
theorem refreshed_hit (valid : w.valid = true) (inv : Inv seqOf w.walkers w.mergeSorter)
    (sorterEq : w.mergeSorter = (seqOf update, slot) :: sorter)
    (found : w.walkers[slot]? = some (update :: rest))
    (least : ∀ b ∈ w.walkers.flatten, seqOf update ≤ seqOf b)
    (isWanted : wanted seqOf lower upper toSeq update = true) :
    Refreshed seqOf lower upper toSeq w { moveOn seqOf w slot rest sorter with item := some update } := by
  rw [sorterEq] at inv
  have popped := flatten_set slot w.walkers found
  refine ⟨⟨fun _ => ⟨update, rfl, isWanted, inv.above_set found least⟩, ?_⟩, ?_, ?_⟩
  · intro invalid
    simp [moveOn, valid] at invalid
  · intro _
    refine ⟨by simpa [moveOn_mergeSorter] using inv.set found, ?_⟩
    have one := popped.length_eq
    simp only [List.length_cons] at one
    simp only [moveOn]
    omega
  · have kept := popped.filter (wanted seqOf lower upper toSeq)
    rw [List.filter_cons_of_pos isWanted] at kept
    simpa [current, moveOn, valid] using kept

end Rounds

/-- `Refresh` from a walker that holds the invariant, valid when its sorter holds
anything, with a round for each update left. -/
theorem refresh_spec (fuel : Nat) :
    ∀ w : TRepoUpdateWalker α, Inv seqOf w.walkers w.mergeSorter →
      w.valid = !w.mergeSorter.isEmpty → w.walkers.flatten.length ≤ fuel →
      ∃ w', refresh seqOf lower upper toSeq fuel w = some w' ∧ Refreshed seqOf lower upper toSeq w w' := by
  induction fuel with
  | zero =>
    intro w inv validity enough
    have spent : w.walkers.flatten = [] := List.eq_nil_of_length_eq_zero (by omega)
    have invalid : w.valid = false := by simp [validity, inv.sorter_eq_nil spent]
    exact ⟨w, refresh_of_invalid 0 invalid, refreshed_of_spent invalid spent⟩
  | succ fuel ih =>
    intro w inv validity enough
    rcases sorterEq : w.mergeSorter with _ | ⟨⟨k, slot⟩, sorter⟩
    · have invalid : w.valid = false := by simp [validity, sorterEq]
      exact ⟨w, refresh_of_invalid _ invalid, refreshed_of_spent invalid (sorterEq ▸ inv).flatten_eq_nil⟩
    have valid : w.valid = true := by simp [validity, sorterEq]
    obtain ⟨update, rest, found, rfl, least⟩ := (sorterEq ▸ inv).pop_least
    by_cases past : toSeq.any (· < seqOf update) = true
    · refine ⟨{ w with mergeSorter := sorter, valid := false }, ?_, refreshed_beyond least past⟩
      simp [refresh, valid, refreshRound_beyond sorterEq found past]
    have within : toSeq.any (· < seqOf update) = false := by simpa using past
    by_cases hit : lower ≤ seqOf update ∧ seqOf update ≤ upper
    · have isWanted : wanted seqOf lower upper toSeq update = true := by
        simp [wanted, hit, all_of_not_any_lt within]
      refine ⟨_, ?_, refreshed_hit valid inv sorterEq found least isWanted⟩
      simp [refresh, valid, refreshRound_hit sorterEq found within hit]
    -- an update outside the view's bounds: the loop goes on from the moved walker
    let moved := moveOn seqOf w slot rest sorter
    have movedInv : Inv seqOf moved.walkers moved.mergeSorter := by
      simpa [moved, moveOn_mergeSorter] using (sorterEq ▸ inv).set found
    have popped := flatten_set slot w.walkers found
    have fewer := popped.length_eq
    simp only [List.length_cons] at fewer
    obtain ⟨w', next, after⟩ := ih { moved with valid := !moved.mergeSorter.isEmpty } movedInv rfl
      (by simp only [moved, moveOn]; omega)
    have unwanted : wanted seqOf lower upper toSeq update = false := by simp [wanted, hit]
    refine ⟨w', ?_, after.skip popped unwanted⟩
    simp only [refresh, valid, if_true, refreshRound_miss sorterEq found within hit]
    exact next

/-- What the caller reads from a ready walker: what it presents, then every wanted update
it has left, in strictly ascending order. -/
theorem yields_spec (fuel : Nat) :
    ∀ w : TRepoUpdateWalker α, Ready seqOf lower upper toSeq w →
      (w.valid = true → Inv seqOf w.walkers w.mergeSorter ∧ w.walkers.flatten.length < fuel) →
      ∃ out, yields seqOf lower upper toSeq fuel w = some out ∧ out.Pairwise (seqOf · < seqOf ·) ∧
        out.Perm (current w ++ w.walkers.flatten.filter (wanted seqOf lower upper toSeq)) := by
  have ofInvalid : ∀ (fuel : Nat) (w : TRepoUpdateWalker α), Ready seqOf lower upper toSeq w →
      w.valid = false → ∃ out, yields seqOf lower upper toSeq fuel w = some out ∧
        out.Pairwise (seqOf · < seqOf ·) ∧
        out.Perm (current w ++ w.walkers.flatten.filter (wanted seqOf lower upper toSeq)) := by
    intro fuel w ready invalid
    refine ⟨[], by cases fuel <;> simp [yields, invalid], List.Pairwise.nil, ?_⟩
    rw [List.filter_eq_nil_iff.mpr (fun b left => by simp [ready.exhausted invalid b left])]
    simp [current, invalid]
  induction fuel with
  | zero =>
    intro w ready bound
    cases valid : w.valid
    · exact ofInvalid 0 w ready valid
    · exact absurd (bound valid).2 (Nat.not_lt_zero _)
  | succ fuel ih =>
    intro w ready bound
    cases valid : w.valid
    · exact ofInvalid _ w ready valid
    obtain ⟨inv, enough⟩ := bound valid
    obtain ⟨update, item, isWanted, above⟩ := ready.presents valid
    -- `operator++` is `Refresh` from the same walker, valid when its sorter holds anything
    obtain ⟨w', next, after⟩ := refresh_spec seqOf lower upper toSeq fuel
      { w with valid := !w.mergeSorter.isEmpty } inv rfl (by simp only; omega)
    obtain ⟨out, rest, ascending, restPerm⟩ := ih w' after.ready (fun valid' => by
      obtain ⟨inv', fewer⟩ := after.keeps valid'
      exact ⟨inv', by simp only at fewer; omega⟩)
    have fromLeft : ∀ b ∈ out, b ∈ w.walkers.flatten := by
      intro b mem
      have wasWanted := after.found.symm.subset (restPerm.subset mem)
      exact List.mem_of_mem_filter wasWanted
    refine ⟨update :: out, ?_, ?_, ?_⟩
    · rw [yields, if_pos valid, advance, next, item]
      simp [rest]
    · exact List.Pairwise.cons (fun b mem => above b (fromLeft b mem)) ascending
    · simpa [current, valid, item] using restPerm.trans after.found.symm

/-- The walker's starting state: every layer's walker started at `From`, their heads
queued. -/
theorem queueHeads_spec :
    ∀ (slot : Nat) (walkers : List (List α)) (sorter : List (Nat × Nat)), sorter.Pairwise keyLE →
      (queueHeads seqOf slot walkers sorter).Perm (sorter ++ headsFrom seqOf slot walkers) ∧
        (queueHeads seqOf slot walkers sorter).Pairwise keyLE
  | _, [], sorter, sorted => by simp [queueHeads, headsFrom, sorted]
  | slot, [] :: walkers, sorter, sorted => by
    simpa [queueHeads, headsFrom] using queueHeads_spec (slot + 1) walkers sorter sorted
  | slot, (update :: _) :: walkers, sorter, sorted => by
    have inserted := mergeInsert_eq_orderedInsert (seqOf update) slot sorter
    obtain ⟨holds, ordered⟩ := queueHeads_spec (slot + 1) walkers
      (mergeInsert (seqOf update) slot sorter) (inserted ▸ sorted.orderedInsert _ _)
    refine ⟨holds.trans ?_, by simpa [queueHeads] using ordered⟩
    rw [headsFrom, inserted]
    exact ((List.perm_orderedInsert keyLE _ sorter).append_right _).trans
      (List.perm_middle.symm.trans (by simp))

end TRepoUpdateWalker

open TRepoUpdateWalker

/-- Ascending walkers whose updates lie in pairwise disjoint layers number no update
twice. -/
theorem distinct_of_disjoint {layers : List (List α)} (fromSeq : Nat)
    (ascending : ∀ walker ∈ layers.map (layerUpdates seqOf fromSeq),
      walker.Pairwise (seqOf · < seqOf ·))
    (disjoint : layers.Pairwise fun a b => ∀ x ∈ a, ∀ y ∈ b, seqOf x ≠ seqOf y) :
    ((layers.map (layerUpdates seqOf fromSeq)).flatten.map seqOf).Nodup := by
  induction layers with
  | nil => simp
  | cons layer layers ih =>
    simp only [List.map_cons, List.flatten_cons, List.map_append, List.nodup_append]
    obtain ⟨apart, restDisjoint⟩ := List.pairwise_cons.mp disjoint
    refine ⟨?_, ih (fun walker mem => ascending walker (List.mem_cons_of_mem _ mem)) restDisjoint, ?_⟩
    · exact (List.pairwise_map.mpr (ascending _ List.mem_cons_self)).imp Nat.ne_of_lt
    · intro x xMem y yMem
      obtain ⟨u, uMem, rfl⟩ := List.mem_map.mp xMem
      obtain ⟨v, vMem, rfl⟩ := List.mem_map.mp yMem
      obtain ⟨walker, walkerMem, vIn⟩ := List.mem_flatten.mp vMem
      obtain ⟨other, otherMem, rfl⟩ := List.mem_map.mp walkerMem
      exact apart other otherMem u (List.mem_of_mem_filter uMem) v (List.mem_of_mem_filter vIn)

/-- The updates the walker yields over a view with both bounds: those of the layers from
`From` on, in the view's bounds and not beyond `To`, each once and in strictly ascending
order, when every layer's walker yields ascending sequence numbers and no two layers share
one. -/
theorem walk_yields_view_in_order (layers : List (List α)) (fromSeq lower upper : Nat)
    (toSeq : Option Nat)
    (ascending : ∀ walker ∈ layers.map (layerUpdates seqOf fromSeq),
      walker.Pairwise (seqOf · < seqOf ·))
    (disjoint : layers.Pairwise fun a b => ∀ x ∈ a, ∀ y ∈ b, seqOf x ≠ seqOf y) :
    ∃ out, walkUpdates seqOf layers fromSeq (some lower) (some upper) toSeq = some out ∧
      out.Pairwise (seqOf · < seqOf ·) ∧
      out.Perm (layers.flatten.filter fun update => fromSeq ≤ seqOf update ∧
        lower ≤ seqOf update ∧ seqOf update ≤ upper ∧ toSeq.all (seqOf update ≤ ·)) := by
  let walkers := layers.map (layerUpdates seqOf fromSeq)
  let sorter := queueHeads seqOf 0 walkers []
  have queued := queueHeads_spec seqOf 0 walkers [] List.Pairwise.nil
  have inv : Inv seqOf walkers sorter :=
    ⟨ascending, distinct_of_disjoint seqOf fromSeq ascending disjoint,
      by simpa [heads] using queued.1, queued.2⟩
  have started : walkers.flatten = layers.flatten.filter fun update => fromSeq ≤ seqOf update := by
    rw [List.filter_flatten]
    rfl
  have total : walkers.flatten.length ≤ (layers.map List.length).sum := by
    rw [started, ← List.length_flatten]
    exact List.length_filter_le _ _
  let fuel := (layers.map List.length).sum + 1
  obtain ⟨w, made, after⟩ := refresh_spec seqOf lower upper toSeq fuel
    ⟨walkers, sorter, !sorter.isEmpty, none⟩ inv rfl (by simp only [fuel]; omega)
  obtain ⟨out, yielded, ordered, found⟩ := yields_spec seqOf lower upper toSeq fuel w after.ready
    (fun valid => by
      obtain ⟨inv', fewer⟩ := after.keeps valid
      exact ⟨inv', by simp only [fuel] at fewer ⊢; omega⟩)
  refine ⟨out, ?_, ordered, ?_⟩
  · simp only [walkUpdates, make]
    rw [made, Option.bind_some, yielded]
  · have samePred : ∀ update, (wanted seqOf lower upper toSeq update && decide (fromSeq ≤ seqOf update)) =
        decide (fromSeq ≤ seqOf update ∧ lower ≤ seqOf update ∧ seqOf update ≤ upper ∧
          toSeq.all (seqOf update ≤ ·) = true) := by
      intro update
      rw [wanted, Bool.eq_iff_iff]
      simp only [Bool.and_eq_true, decide_eq_true_eq]
      tauto
    have all : out.Perm (walkers.flatten.filter (wanted seqOf lower upper toSeq)) :=
      found.trans after.found.symm
    rw [started, List.filter_filter] at all
    exact all.trans (List.Perm.of_eq (List.filter_congr fun update _ => samePred update))

example : walkUpdates id [[1, 3, 6], [2, 5]] 2 (some 1) (some 5) (some 5) = some [2, 3, 5] := by
  decide

theorem walk_yields_two_layers :
    ∃ out, walkUpdates id [[1, 3, 6], [2, 5]] 2 (some 1) (some 5) (some 5) = some out ∧
      out.Pairwise (id · < id ·) ∧
      out.Perm ([[1, 3, 6], [2, 5]].flatten.filter fun update => 2 ≤ id update ∧
        1 ≤ id update ∧ id update ≤ 5 ∧ (some 5).all (id update ≤ ·)) :=
  walk_yields_view_in_order id [[1, 3, 6], [2, 5]] 2 1 5 (some 5) (by decide) (by decide)

end Orly.Indy

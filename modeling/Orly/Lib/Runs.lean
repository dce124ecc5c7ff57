import Mathlib.Data.List.Nodup
import Mathlib.Data.List.TakeWhile

/-! Lists whose members with one key stand together, and walks along a list.

A list of keys is `Grouped` when no key comes between two copies of another: each key's copies
make one run. A list of members is grouped by a key function when its list of keys is. Being
grouped passes to sublists, to a concatenation of grouped lists with no key in common, and to a
list with one key standing twice in a row (`Grouped.double`).

`insertAfterRun` puts a member after the first run of its key, or last when the list has none;
the list stays grouped. `runHeads` takes the first member of each run; on a grouped list their
keys are the list's keys, each once, and each is the first member with its key.

`Threaded next l` says that `next` steps from each member of `l` to the one after it, and from
the last to nothing: what a loop that follows `next` from the first member walks. -/
namespace Runs

variable {α β : Type*}

section Grouped

variable {ks ks' : List β}

/-- Any key between two copies of one key is that key. -/
def Grouped (ks : List β) : Prop := ∀ a b c, List.Sublist [a, b, c] ks → a = c → b = a

theorem Grouped.sublist (grouped : Grouped ks) (sub : List.Sublist ks' ks) : Grouped ks' :=
  fun a b c triple same => grouped a b c (triple.trans sub) same

theorem grouped_nil : Grouped ([] : List β) := fun _ _ _ triple _ => by simp at triple

theorem grouped_singleton (k : β) : Grouped [k] := fun _ _ _ triple _ => by
  simpa using triple.length_le

/-- Two grouped lists with no key in common make a grouped list: a triple with its ends in
both would have a key in common. -/
theorem Grouped.append (left : Grouped ks) (right : Grouped ks') (apart : ∀ k ∈ ks, k ∉ ks') :
    Grouped (ks ++ ks') := by
  unfold Grouped
  intro a b c triple same
  obtain ⟨l₁, l₂, split, sub₁, sub₂⟩ := List.sublist_append_iff.mp triple
  -- the triple is cut after none, one, two or three of its keys
  rcases l₁ with _ | ⟨x, _ | ⟨y, _ | ⟨z, _ | ⟨w, rest⟩⟩⟩⟩
  · rw [List.nil_append] at split
    exact right a b c (split ▸ sub₂) same
  · simp only [List.cons_append, List.nil_append, List.cons.injEq] at split
    obtain ⟨rfl, rfl⟩ := split
    have late : c ∈ ks' := sub₂.subset (by simp)
    exact absurd (same ▸ late) (apart a (List.singleton_sublist.mp sub₁))
  · simp only [List.cons_append, List.nil_append, List.cons.injEq] at split
    obtain ⟨rfl, rfl, rfl⟩ := split
    have late : c ∈ ks' := List.singleton_sublist.mp sub₂
    exact absurd (same ▸ late) (apart a (sub₁.subset (by simp)))
  · simp only [List.cons_append, List.nil_append, List.cons.injEq] at split
    obtain ⟨rfl, rfl, rfl, -⟩ := split
    exact left a b c sub₁ same
  · simp at split

/-- A sublist of a list with `k` twice in a row takes at most one copy, or takes both. -/
theorem sublist_double {A B l : List β} {k : β} (sub : List.Sublist l (A ++ k :: k :: B)) :
    List.Sublist l (A ++ k :: B) ∨ ∃ C D, l = C ++ k :: k :: D := by
  induction A generalizing l with
  | nil =>
    rcases List.sublist_cons_iff.mp sub with skip | ⟨r, rfl, rest⟩
    · exact .inl skip
    · rcases List.sublist_cons_iff.mp rest with skip | ⟨r', rfl, -⟩
      · exact .inl (List.cons_sublist_cons.mpr skip)
      · exact .inr ⟨[], r', rfl⟩
  | cons y A ih =>
    rcases List.sublist_cons_iff.mp sub with skip | ⟨r, rfl, rest⟩
    · rcases ih skip with fewer | ⟨C, D, rfl⟩
      · exact .inl (fewer.cons y)
      · exact .inr ⟨C, D, rfl⟩
    · rcases ih rest with fewer | ⟨C, D, rfl⟩
      · exact .inl (List.cons_sublist_cons.mpr fewer)
      · exact .inr ⟨y :: C, D, rfl⟩

/-- A key standing twice in a row keeps a list grouped. -/
theorem Grouped.double {A B : List β} {k : β} (grouped : Grouped (A ++ k :: B)) :
    Grouped (A ++ k :: k :: B) := by
  unfold Grouped
  intro a b c triple same
  rcases sublist_double triple with fewer | ⟨C, D, split⟩
  · exact grouped a b c fewer same
  -- a triple through both copies has `k` in the middle and at one end
  · rcases C with _ | ⟨x, _ | ⟨y, C⟩⟩
    · simp only [List.nil_append, List.cons.injEq] at split
      rw [split.2.1, split.1]
    · simp only [List.cons_append, List.nil_append, List.cons.injEq] at split
      rw [split.2.1, ← split.2.2.1, same]
    · have lengths := congrArg List.length split
      simp at lengths
      omega

/-- Blocks that are each grouped, with no key in two blocks, make a grouped list. -/
theorem grouped_flatMap {γ : Type*} {L : List γ} {g : γ → List β} (nodup : L.Nodup)
    (each : ∀ i ∈ L, Grouped (g i))
    (apart : ∀ i ∈ L, ∀ j ∈ L, i ≠ j → ∀ k ∈ g i, k ∉ g j) : Grouped (L.flatMap g) := by
  induction L with
  | nil => exact grouped_nil
  | cons i L ih =>
    rw [List.nodup_cons] at nodup
    rw [List.flatMap_cons]
    refine (each i List.mem_cons_self).append
      (ih nodup.2 (fun j mem => each j (List.mem_cons_of_mem i mem))
        (fun j mj j' mj' => apart j (List.mem_cons_of_mem i mj) j' (List.mem_cons_of_mem i mj')))
      fun k early late => ?_
    obtain ⟨j, mem, later⟩ := List.mem_flatMap.mp late
    exact apart i List.mem_cons_self j (List.mem_cons_of_mem i mem)
      (fun same => nodup.1 (same ▸ mem)) k early later

end Grouped

section Members

variable [DecidableEq β] {f : α → β} {x y : α} {l : List α}

/-- After a member, the first run of its key is over; on a grouped list no member with its key
comes later. -/
theorem Grouped.ne_of_mem_dropWhile {xs : List α} (grouped : Grouped ((x :: xs).map f))
    (mem : y ∈ xs.dropWhile fun z => decide (f z = f x)) : f y ≠ f x := by
  intro same
  obtain ⟨first, rest, split⟩ : ∃ first rest, xs.dropWhile (fun z => decide (f z = f x)) = first :: rest :=
    List.exists_cons_of_ne_nil (List.ne_nil_of_mem mem)
  have firstOther : f first ≠ f x := by
    have := List.head_dropWhile_not (fun z => decide (f z = f x)) (l := xs) (by simp [split])
    simpa [split] using this
  rw [split] at mem
  rcases List.mem_cons.mp mem with rfl | later
  · exact firstOther same
  · -- `x`, then `first`, then `y`: `first` would have the key of `x`
    have triple : List.Sublist [x, first, y] (x :: xs) := by
      refine List.cons_sublist_cons.mpr ((List.cons_sublist_cons.mpr
        (List.singleton_sublist.mpr later)).trans ?_)
      rw [← split]
      exact List.dropWhile_sublist _
    exact firstOther (grouped _ _ _ (triple.map f) same.symm)

/-- `x` after the first run of members with its key, or last when there is none. -/
def insertAfterRun (f : α → β) (x : α) (l : List α) : List α :=
  let rest := l.dropWhile fun y => !decide (f x = f y)
  l.takeWhile (fun y => !decide (f x = f y)) ++ rest.takeWhile (fun y => decide (f x = f y)) ++
    x :: rest.dropWhile fun y => decide (f x = f y)

/-- What stands before and after `x` in `insertAfterRun` is the list without it. -/
theorem insertAfterRun_split (f : α → β) (x : α) (l : List α) :
    (l.takeWhile (fun y => !decide (f x = f y)) ++
      (l.dropWhile fun y => !decide (f x = f y)).takeWhile fun y => decide (f x = f y)) ++
      ((l.dropWhile fun y => !decide (f x = f y)).dropWhile fun y => decide (f x = f y)) = l := by
  rw [List.append_assoc, List.takeWhile_append_dropWhile, List.takeWhile_append_dropWhile]

theorem mem_insertAfterRun : y ∈ insertAfterRun f x l ↔ y = x ∨ y ∈ l := by
  conv_rhs => rw [← insertAfterRun_split f x l]
  simp only [insertAfterRun, List.mem_append, List.mem_cons]
  tauto

theorem nodup_insertAfterRun (nodup : l.Nodup) (fresh : x ∉ l) : (insertAfterRun f x l).Nodup := by
  rw [insertAfterRun, List.nodup_middle]
  rw [← insertAfterRun_split f x l] at nodup fresh
  exact List.nodup_cons.mpr ⟨fresh, nodup⟩

/-- `insertAfterRun` keeps a list grouped: `x` goes right after a member with its key, which
doubles that key, or last, after no member with its key. -/
theorem Grouped.insertAfterRun (grouped : Grouped (l.map f)) :
    Grouped ((Runs.insertAfterRun f x l).map f) := by
  set rest := l.dropWhile fun y => !decide (f x = f y) with restDef
  cases run : (rest.takeWhile fun y => decide (f x = f y)).reverse with
  | nil =>
    -- no member has the key: the run is empty, so nothing is left after the members before it
    have empty : rest = [] := by
      cases first : rest with
      | nil => rfl
      | cons r rs =>
        have := List.head_dropWhile_not (fun y => !decide (f x = f y)) (l := l)
          (by rw [← restDef, first]; simp)
        simp only [← restDef, first, List.head_cons, Bool.not_eq_false', decide_eq_true_eq] at this
        rw [first, List.takeWhile_cons_of_pos (by simpa using this)] at run
        simp at run
    have whole : l.takeWhile (fun y => !decide (f x = f y)) = l := by
      have split := List.takeWhile_append_dropWhile (p := fun y => !decide (f x = f y)) (l := l)
      rwa [← restDef, empty, List.append_nil] at split
    have fresh : ∀ y ∈ l, f x ≠ f y := by
      intro y mem
      rw [← whole] at mem
      simpa using List.mem_takeWhile_imp mem
    have placed : Runs.insertAfterRun f x l = l ++ [x] := by
      simp only [Runs.insertAfterRun, ← restDef, empty, List.takeWhile_nil, List.dropWhile_nil,
        List.append_nil, whole]
    rw [placed, List.map_append]
    refine grouped.append (grouped_singleton (f x)) fun k mem same => ?_
    obtain ⟨y, my, rfl⟩ := List.mem_map.mp mem
    exact fresh y my (List.mem_singleton.mp same).symm
  | cons r R =>
    -- `r`, the last of the run, has the key of `x`
    have runDef : rest.takeWhile (fun y => decide (f x = f y)) = R.reverse ++ [r] := by
      rw [← List.reverse_reverse (rest.takeWhile _), run, List.reverse_cons]
    have key : f x = f r := by
      have mem : r ∈ rest.takeWhile fun y => decide (f x = f y) := by simp [runDef]
      simpa using List.mem_takeWhile_imp mem
    have before := insertAfterRun_split f x l
    rw [← restDef, runDef] at before
    have placed : Runs.insertAfterRun f x l =
        l.takeWhile (fun y => !decide (f x = f y)) ++ R.reverse ++ r :: x ::
          rest.dropWhile fun y => decide (f x = f y) := by
      simp [Runs.insertAfterRun, ← restDef, runDef]
    rw [placed]
    rw [← before] at grouped
    generalize l.takeWhile (fun y => !decide (f x = f y)) = A at grouped ⊢
    generalize rest.dropWhile (fun y => decide (f x = f y)) = B at grouped ⊢
    simp only [List.map_append, List.map_cons, List.map_nil, List.append_assoc,
      List.cons_append] at grouped ⊢
    rw [key]
    rw [← List.append_assoc] at grouped ⊢
    exact grouped.double

/-- The first member of each run of one key, in order. -/
def runHeads (f : α → β) : List α → List α
  | [] => []
  | x :: xs => x :: runHeads f (xs.dropWhile fun y => decide (f y = f x))
  termination_by l => l.length
  decreasing_by
    simp only [List.length_cons]
    exact Nat.lt_succ_of_le (List.dropWhile_sublist _).length_le

theorem runHeads_sublist (l : List α) : List.Sublist (runHeads f l) l := by
  induction l using runHeads.induct f with
  | case1 => simp [runHeads]
  | case2 x xs ih =>
    rw [runHeads]
    exact List.cons_sublist_cons.mpr (ih.trans (List.dropWhile_sublist _))

omit [DecidableEq β] in
/-- What follows the first run of a grouped list is grouped. -/
theorem Grouped.dropWhile {xs : List α} (grouped : Grouped ((x :: xs).map f)) (p : α → Bool) :
    Grouped ((xs.dropWhile p).map f) :=
  grouped.sublist (((List.dropWhile_sublist p).map f).trans (List.sublist_cons_self _ _))

/-- Each key of the list is the key of a run's first member. -/
theorem exists_mem_runHeads (mem : y ∈ l) : ∃ x ∈ runHeads f l, f x = f y := by
  induction l using runHeads.induct f with
  | case1 => simp at mem
  | case2 x xs ih =>
    rw [runHeads]
    rcases List.mem_cons.mp mem with rfl | later
    · exact ⟨y, List.mem_cons_self, rfl⟩
    · by_cases same : f y = f x
      · exact ⟨x, List.mem_cons_self, same.symm⟩
      · -- `y` is past the run of the key of `x`
        have rest : y ∈ xs.dropWhile fun z => decide (f z = f x) := by
          rw [← List.takeWhile_append_dropWhile (p := fun z => decide (f z = f x)) (l := xs)] at later
          rcases List.mem_append.mp later with early | late
          · exact absurd (by simpa using List.mem_takeWhile_imp early) same
          · exact late
        obtain ⟨h, mh, key⟩ := ih rest
        exact ⟨h, List.mem_cons_of_mem x mh, key⟩

/-- On a grouped list the runs' first members have distinct keys. -/
theorem Grouped.nodup_runHeads (grouped : Grouped (l.map f)) : ((runHeads f l).map f).Nodup := by
  induction l using runHeads.induct f with
  | case1 => simp [runHeads]
  | case2 x xs ih =>
    rw [runHeads, List.map_cons, List.nodup_cons]
    refine ⟨fun mem => ?_, ih (grouped.dropWhile _)⟩
    obtain ⟨h, mh, key⟩ := List.mem_map.mp mem
    exact grouped.ne_of_mem_dropWhile ((runHeads_sublist _).subset mh) key

/-- On a grouped list a run's first member is the first member with its key. -/
theorem Grouped.find?_of_mem_runHeads (grouped : Grouped (l.map f)) (mem : y ∈ runHeads f l) :
    l.find? (fun z => decide (f z = f y)) = some y := by
  induction l using runHeads.induct f with
  | case1 => simp [runHeads] at mem
  | case2 x xs ih =>
    rw [runHeads] at mem
    rcases List.mem_cons.mp mem with rfl | later
    · exact List.find?_cons_of_pos (by simp)
    · have other : f y ≠ f x :=
        grouped.ne_of_mem_dropWhile ((runHeads_sublist _).subset later)
      -- the run of the key of `x` holds no member with the key of `y`
      have skipped : (xs.takeWhile fun z => decide (f z = f x)).find?
          (fun z => decide (f z = f y)) = none := by
        refine List.find?_eq_none.mpr fun z mz same => other ?_
        have := List.mem_takeWhile_imp mz
        simp only [decide_eq_true_eq] at same this
        rw [← same, this]
      rw [List.find?_cons_of_neg (by simpa using Ne.symm other),
        ← List.takeWhile_append_dropWhile (p := fun z => decide (f z = f x)) (l := xs),
        List.find?_append, skipped, ih (grouped.dropWhile _) later]
      rfl

end Members

section Threaded

variable {next : α → Option α} {x : α} {xs l l' : List α}

/-- `next` steps from each member of `l` to the one after it, and from the last to nothing. -/
def Threaded (next : α → Option α) (l : List α) : Prop :=
  ∀ pre x post, l = pre ++ x :: post → next x = post.head?

theorem Threaded.head (threaded : Threaded next (x :: xs)) : next x = xs.head? :=
  threaded [] x xs rfl

theorem Threaded.suffix (threaded : Threaded next l) (suffix : List.IsSuffix l' l) : Threaded next l' := by
  obtain ⟨front, rfl⟩ := suffix
  intro pre y post split
  exact threaded (front ++ pre) y post (by rw [split, List.append_assoc])

theorem Threaded.tail (threaded : Threaded next (x :: xs)) : Threaded next xs :=
  threaded.suffix (List.suffix_cons x xs)

/-- In a list without repeats a member stands in one place: what follows it is fixed. -/
theorem eq_of_split {pre post pre' post' : List α} (nodup : (pre ++ x :: post).Nodup)
    (same : pre ++ x :: post = pre' ++ x :: post') : post = post' := by
  induction pre generalizing pre' with
  | nil =>
    cases pre' with
    | nil => exact (List.cons.inj same).2
    | cons y pre' =>
      simp only [List.nil_append, List.cons_append, List.cons.injEq] at same
      obtain ⟨rfl, rfl⟩ := same
      exact absurd (List.mem_append_right pre' List.mem_cons_self) (List.nodup_cons.mp nodup).1
  | cons y pre ih =>
    cases pre' with
    | nil =>
      simp only [List.nil_append, List.cons_append, List.cons.injEq] at same
      obtain ⟨rfl, -⟩ := same
      exact absurd (List.mem_append_right pre List.mem_cons_self) (List.nodup_cons.mp nodup).1
    | cons y' pre' =>
      simp only [List.cons_append, List.cons.injEq] at same
      exact ih (List.nodup_cons.mp nodup).2 same.2

end Threaded

end Runs

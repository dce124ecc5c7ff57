import Mathlib

/-! What the intrusive ordered lists of `inv_con/ordered_list.h` keep, said without
pointers: each collection is a list of memberships in ascending order of key, and a
membership is in at most one collection.

`place` is where `Insert` and `ReverseInsert` put a membership: after every member whose
key is at most its own and before every other (`place_spec`). The calls on collections
(`Op`) act on this state through `Collections.step`, and a run of them keeps it `Sound`
(`sound_run`); which memberships a collection holds after each call is `mem_step`. The
first and the last member of a key are `find?` over a list and over its reverse, and on
an ascending list they are what a walk that skips the smaller (or the greater) keys finds
first (`find?_of_dropWhile`). -/
namespace Orly.InvCon

variable {ι κ K : Type} [LinearOrder K]

/-- Keys do not go down along `l`. -/
def Ascending (key : ι → K) (l : List ι) : Prop := l.Pairwise fun x y => key x ≤ key y

section Place

variable {key : ι → K} {l : List ι} {k : K}

/-- On an ascending list, what is left after the keys at most `k` is above `k`. -/
theorem lt_of_mem_dropWhile (ascending : Ascending key l) {y : ι}
    (mem : y ∈ l.dropWhile fun x => key x ≤ k) : k < key y := by
  induction l with
  | nil => simp at mem
  | cons a l ih =>
    have tail : Ascending key l := (List.pairwise_cons.mp ascending).2
    by_cases low : key a ≤ k
    · rw [List.dropWhile_cons_of_pos (by simpa using low)] at mem
      exact ih tail mem
    · rw [List.dropWhile_cons_of_neg (by simpa using low)] at mem
      rcases List.mem_cons.mp mem with rfl | later
      · exact lt_of_not_ge low
      · exact lt_of_lt_of_le (lt_of_not_ge low) ((List.pairwise_cons.mp ascending).1 y later)

/-- Where `Insert` puts `m` in `l`: after every member whose key is at most that of `m`,
before the others. -/
def place (key : ι → K) (m : ι) (l : List ι) : List ι :=
  l.takeWhile (fun x => key x ≤ key m) ++ m :: l.dropWhile fun x => key x ≤ key m

/-- `place` puts `m` after every member with a key at most its own, in particular after
every member with an equal key, and, on an ascending list, before every greater one. -/
theorem place_spec (ascending : Ascending key l) (m : ι) :
    ∃ before after, place key m l = before ++ m :: after ∧ before ++ after = l ∧
      (∀ x ∈ before, key x ≤ key m) ∧ ∀ x ∈ after, key m < key x :=
  ⟨_, _, rfl, List.takeWhile_append_dropWhile,
    fun _ mem => by simpa using List.mem_takeWhile_imp mem,
    fun _ mem => lt_of_mem_dropWhile ascending mem⟩

/-- The two parts `place` puts `m` between make up the list. -/
theorem takeWhile_append_dropWhile_le (key : ι → K) (m : ι) (l : List ι) :
    (l.takeWhile fun x => key x ≤ key m) ++ (l.dropWhile fun x => key x ≤ key m) = l :=
  List.takeWhile_append_dropWhile

theorem mem_place {m x : ι} : x ∈ place key m l ↔ x = m ∨ x ∈ l := by
  conv_rhs => rw [← takeWhile_append_dropWhile_le key m l]
  simp only [place, List.mem_append, List.mem_cons]
  tauto

theorem nodup_place {m : ι} (nodup : l.Nodup) (fresh : m ∉ l) : (place key m l).Nodup := by
  rw [place, List.nodup_middle]
  rw [← takeWhile_append_dropWhile_le key m l] at nodup fresh
  exact List.nodup_cons.mpr ⟨fresh, nodup⟩

theorem ascending_place (ascending : Ascending key l) (m : ι) : Ascending key (place key m l) := by
  have whole := ascending
  rw [Ascending, ← takeWhile_append_dropWhile_le key m l, List.pairwise_append] at whole
  obtain ⟨low, high, across⟩ := whole
  rw [Ascending, place, List.pairwise_append, List.pairwise_cons]
  refine ⟨low, ⟨fun y mem => (lt_of_mem_dropWhile ascending mem).le, high⟩, ?_⟩
  intro x early y late
  rcases List.mem_cons.mp late with rfl | later
  · simpa using List.mem_takeWhile_imp early
  · exact across x early y later

/-- Read from the end, an ascending list has its keys above `k` first: the walk of
`ReverseInsert`, which passes the greater keys from the end, stops where `place` cuts. -/
theorem reverse_takeWhile_dropWhile (ascending : Ascending key l) :
    l.reverse.takeWhile (fun x => key x > k) = (l.dropWhile fun x => key x ≤ k).reverse ∧
      l.reverse.dropWhile (fun x => key x > k) = (l.takeWhile fun x => key x ≤ k).reverse := by
  have high : ∀ y ∈ (l.dropWhile fun x => key x ≤ k).reverse, decide (key y > k) = true :=
    fun y mem => by simpa using lt_of_mem_dropWhile ascending (List.mem_reverse.mp mem)
  have low : ∀ y ∈ (l.takeWhile fun x => key x ≤ k).reverse, ¬decide (key y > k) = true := by
    intro y mem
    simpa using List.mem_takeWhile_imp (List.mem_reverse.mp mem)
  have split : l.reverse = (l.dropWhile fun x => key x ≤ k).reverse ++
      (l.takeWhile fun x => key x ≤ k).reverse := by
    rw [← List.reverse_append, List.takeWhile_append_dropWhile]
  rw [split, List.takeWhile_append_of_pos high, List.dropWhile_append_of_pos high]
  cases first : (l.takeWhile fun x => key x ≤ k).reverse with
  | nil => simp
  | cons y rest =>
    have stop := low y (first ▸ List.mem_cons_self)
    exact ⟨by rw [List.takeWhile_cons_of_neg (p := fun x => decide (key x > k)) stop, List.append_nil],
      List.dropWhile_cons_of_neg (p := fun x => decide (key x > k)) stop⟩

/-- On an ascending list, the first member whose key is not below `k`, kept if its key is
not above `k` either, is the first member with key `k`. -/
theorem find?_of_dropWhile (ascending : Ascending key l) :
    ((l.dropWhile fun x => key x < k).head?.filter fun x => !decide (k < key x)) =
      l.find? fun x => key x = k := by
  induction l with
  | nil => rfl
  | cons a l ih =>
    have tail : Ascending key l := (List.pairwise_cons.mp ascending).2
    by_cases below : key a < k
    · rw [List.dropWhile_cons_of_pos (by simpa using below), ih tail,
        List.find?_cons_of_neg (by simpa using below.ne)]
    · rw [List.dropWhile_cons_of_neg (by simpa using below), List.head?_cons, Option.filter_some]
      by_cases above : k < key a
      · have none : ∀ x ∈ l, ¬decide (key x = k) = true := by
          intro x mem
          have := (List.pairwise_cons.mp ascending).1 x mem
          simpa using (lt_of_lt_of_le above this).ne'
        rw [List.find?_cons_of_neg (by simpa using above.ne'), List.find?_eq_none.mpr none]
        simp [above]
      · have same : key a = k := le_antisymm (not_lt.mp above) (not_lt.mp below)
        simp [same]

/-- The mirror image: on an ascending list, the last member whose key is not above `k`,
kept if its key is not below `k`, is the last member with key `k`. -/
theorem find?_reverse_of_dropWhile (ascending : Ascending key l) :
    ((l.reverse.dropWhile fun x => k < key x).head?.filter fun x => !decide (key x < k)) =
      l.reverse.find? fun x => key x = k := by
  have dual : Ascending (fun x => OrderDual.toDual (key x)) l.reverse := by
    rw [Ascending, List.pairwise_reverse]
    exact ascending.imp fun le => le
  simpa using find?_of_dropWhile (k := OrderDual.toDual k) dual

end Place

/-- The calls that change ordered collections: `Insert` and `ReverseInsert` (of
`TMembership`, which `TCollection` forwards to), `Remove` (which `~TMembership` runs),
`SetKey`, and `TCollection::RemoveEachMember` (which `~TCollection` runs). -/
inductive Op (ι κ K : Type) where
  | insert (membership : ι) (collection : κ)
  | reverseInsert (membership : ι) (collection : κ)
  | remove (membership : ι)
  | setKey (membership : ι) (key : K)
  | removeEachMember (collection : κ)
  deriving DecidableEq, Repr

/-- Each membership's key, and each collection's members in order. -/
structure Collections (ι κ K : Type) where
  key : ι → K
  lists : κ → List ι

namespace Collections

/-- Every collection empty. -/
def empty (key : ι → K) : Collections ι κ K := ⟨key, fun _ => []⟩

/-- The first and the last member of `c` with key `k`. -/
def firstWithKey (a : Collections ι κ K) (c : κ) (k : K) : Option ι :=
  (a.lists c).find? fun x => a.key x = k

def lastWithKey (a : Collections ι κ K) (c : κ) (k : K) : Option ι :=
  (a.lists c).reverse.find? fun x => a.key x = k

/-- Every collection ascending and without repeats, and no membership in two. -/
structure Sound (a : Collections ι κ K) : Prop where
  nodup : ∀ c, (a.lists c).Nodup
  ascending : ∀ c, Ascending a.key (a.lists c)
  single : ∀ m c c', m ∈ a.lists c → m ∈ a.lists c' → c = c'

theorem sound_empty (key : ι → K) : (empty (κ := κ) key).Sound :=
  ⟨fun _ => List.nodup_nil, fun _ => List.Pairwise.nil, fun _ _ _ mem => by simp [empty] at mem⟩

section Calls

variable [DecidableEq ι] [DecidableEq κ]

/-- `m` leaves its collection, if any. -/
def remove (a : Collections ι κ K) (m : ι) : Collections ι κ K :=
  { a with lists := fun c => (a.lists c).erase m }

/-- `m` leaves its collection and takes its place in `c`. -/
def insert (a : Collections ι κ K) (m : ι) (c : κ) : Collections ι κ K :=
  { a with lists := fun c' => if c' = c then place a.key m ((a.lists c).erase m) else (a.lists c').erase m }

/-- A new key for `m`, which then takes its place again in its collection; the same key
changes nothing. -/
def setKey (a : Collections ι κ K) (m : ι) (k : K) : Collections ι κ K :=
  if a.key m = k then a
  else
    { key := Function.update a.key m k
      lists := fun c => if m ∈ a.lists c then place (Function.update a.key m k) m ((a.lists c).erase m)
        else a.lists c }

/-- `c` empties. -/
def removeEachMember (a : Collections ι κ K) (c : κ) : Collections ι κ K :=
  { a with lists := Function.update a.lists c [] }

def step (a : Collections ι κ K) : Op ι κ K → Collections ι κ K
  | .insert m c | .reverseInsert m c => a.insert m c
  | .remove m => a.remove m
  | .setKey m k => a.setKey m k
  | .removeEachMember c => a.removeEachMember c

def run (a : Collections ι κ K) : List (Op ι κ K) → Collections ι κ K
  | [] => a
  | op :: ops => (a.step op).run ops

omit [DecidableEq κ] in
/-- `SetKey` with the key `m` already has changes nothing. -/
theorem setKey_of_same (a : Collections ι κ K) {m : ι} {k : K} (same : a.key m = k) :
    a.setKey m k = a := by
  rw [setKey, if_pos same]

omit [DecidableEq κ] in
/-- `SetKey` of a membership in no collection only changes its key. -/
theorem setKey_of_absent (a : Collections ι κ K) {m : ι} {k : K} (changed : a.key m ≠ k)
    (absent : ∀ c, m ∉ a.lists c) : a.setKey m k = { a with key := Function.update a.key m k } := by
  rw [setKey, if_neg changed]
  simp only [absent, if_false]

/-- `SetKey` of a membership in `c` alone is the new key, then the insert into `c`. -/
theorem setKey_eq_insert (a : Collections ι κ K) {m : ι} {c : κ} {k : K} (changed : a.key m ≠ k)
    (home : m ∈ a.lists c) (single : ∀ c', m ∈ a.lists c' → c' = c) :
    a.setKey m k = ({ a with key := Function.update a.key m k } : Collections ι κ K).insert m c := by
  rw [setKey, if_neg changed, insert]
  congr 1
  funext c'
  by_cases same : c' = c
  · subst same
    simp [home]
  · have away : m ∉ a.lists c' := fun mem => same (single c' mem)
    simp [same, away, List.erase_of_not_mem away]

end Calls

section Sound

variable [DecidableEq ι] {a : Collections ι κ K} (sound : a.Sound)
include sound

theorem Sound.mem_erase {m x : ι} {c : κ} : x ∈ (a.lists c).erase m ↔ x ≠ m ∧ x ∈ a.lists c :=
  (sound.nodup c).mem_erase_iff

theorem Sound.ascending_erase (m : ι) (c : κ) : Ascending a.key ((a.lists c).erase m) :=
  (sound.ascending c).sublist List.erase_sublist

/-- Away from its collection, removing `m` changes nothing. -/
theorem Sound.erase_of_ne {m : ι} {c c' : κ} (home : m ∈ a.lists c) (other : c' ≠ c) :
    (a.lists c').erase m = a.lists c' :=
  List.erase_of_not_mem fun mem => other (sound.single m c' c mem home)

theorem Sound.remove (m : ι) : (a.remove m).Sound := by
  refine ⟨fun c => (sound.nodup c).erase m, fun c => sound.ascending_erase m c, ?_⟩
  intro x c c' early late
  exact sound.single x c c' (sound.mem_erase.mp early).2 (sound.mem_erase.mp late).2

theorem Sound.setKey (m : ι) (k : K) : (a.setKey m k).Sound := by
  unfold Collections.setKey
  split_ifs with same
  · exact sound
  -- the erased lists do not hold `m`, so its new key leaves them ascending
  have rekeyed : ∀ c, Ascending (Function.update a.key m k) ((a.lists c).erase m) := by
    intro c
    refine (sound.ascending_erase m c).imp_of_mem fun {x y} early late le => ?_
    rw [Function.update_of_ne (sound.mem_erase.mp early).1,
      Function.update_of_ne (sound.mem_erase.mp late).1]
    exact le
  refine ⟨fun c => ?_, fun c => ?_, ?_⟩
  · by_cases home : m ∈ a.lists c
    · simpa [home] using nodup_place ((sound.nodup c).erase m) (sound.nodup c).not_mem_erase
    · simpa [home] using sound.nodup c
  · by_cases home : m ∈ a.lists c
    · simpa [home] using ascending_place (rekeyed c) m
    · have unchanged : (a.lists c).erase m = a.lists c := List.erase_of_not_mem home
      simpa [home, unchanged] using rekeyed c
  · intro x c₁ c₂ early late
    have back : ∀ c, x ∈ (if m ∈ a.lists c then place (Function.update a.key m k) m ((a.lists c).erase m)
        else a.lists c) → x ∈ a.lists c := by
      intro c mem
      split_ifs at mem with home
      · rcases mem_place.mp mem with rfl | erased
        · exact home
        · exact (sound.mem_erase.mp erased).2
      · exact mem
    exact sound.single x c₁ c₂ (back c₁ early) (back c₂ late)

variable [DecidableEq κ]

theorem Sound.insert (m : ι) (c : κ) : (a.insert m c).Sound := by
  refine ⟨fun c' => ?_, fun c' => ?_, ?_⟩
  · by_cases same : c' = c
    · simpa [Collections.insert, same] using
        nodup_place ((sound.nodup c).erase m) (sound.nodup c).not_mem_erase
    · simpa [Collections.insert, same] using (sound.nodup c').erase m
  · by_cases same : c' = c
    · simpa [Collections.insert, same] using ascending_place (sound.ascending_erase m c) m
    · simpa [Collections.insert, same] using sound.ascending_erase m c'
  · intro x c₁ c₂ early late
    simp only [Collections.insert] at early late
    split_ifs at early late with first second second <;>
      simp only [mem_place, sound.mem_erase] at early late
    · exact first.trans second.symm
    · rcases early with rfl | ⟨-, early⟩
      · exact absurd rfl late.1
      · exact first ▸ sound.single x c c₂ early late.2
    · rcases late with rfl | ⟨-, late⟩
      · exact absurd rfl early.1
      · exact second ▸ sound.single x c₁ c early.2 late
    · exact sound.single x c₁ c₂ early.2 late.2

omit [DecidableEq ι] in
theorem Sound.removeEachMember (c : κ) : (a.removeEachMember c).Sound := by
  refine ⟨fun c' => ?_, fun c' => ?_, ?_⟩
  · by_cases same : c' = c
    · simp [Collections.removeEachMember, same]
    · simpa [Collections.removeEachMember, same] using sound.nodup c'
  · by_cases same : c' = c
    · simp [Collections.removeEachMember, same, Ascending]
    · simpa [Collections.removeEachMember, same] using sound.ascending c'
  · intro x c₁ c₂ early late
    simp only [Collections.removeEachMember] at early late
    by_cases first : c₁ = c
    · simp [first] at early
    by_cases second : c₂ = c
    · simp [second] at late
    rw [Function.update_of_ne first] at early
    rw [Function.update_of_ne second] at late
    exact sound.single x c₁ c₂ early late

theorem Sound.step (op : Op ι κ K) : (a.step op).Sound := by
  cases op with
  | insert m c => exact sound.insert m c
  | reverseInsert m c => exact sound.insert m c
  | remove m => exact sound.remove m
  | setKey m k => exact sound.setKey m k
  | removeEachMember c => exact sound.removeEachMember c

/-- What each call leaves in each collection: `Insert` and `ReverseInsert` move the
membership into the collection they name, `Remove` takes it out, `SetKey` moves nothing,
and `RemoveEachMember` empties its collection. -/
theorem mem_step (op : Op ι κ K) (x : ι) (c : κ) :
    x ∈ (a.step op).lists c ↔
      match op with
      | .insert m c' | .reverseInsert m c' => (x = m ∧ c = c') ∨ (x ≠ m ∧ x ∈ a.lists c)
      | .remove m => x ≠ m ∧ x ∈ a.lists c
      | .setKey _ _ => x ∈ a.lists c
      | .removeEachMember c' => c ≠ c' ∧ x ∈ a.lists c := by
  have inserted : ∀ m c', x ∈ (a.insert m c').lists c ↔ (x = m ∧ c = c') ∨ (x ≠ m ∧ x ∈ a.lists c) := by
    intro m c'
    by_cases same : c = c'
    · subst same
      simp only [Collections.insert, if_pos, mem_place, sound.mem_erase]
      by_cases here : x = m <;> simp [here]
    · simp [Collections.insert, same, sound.mem_erase]
  cases op with
  | insert m c' => exact inserted m c'
  | reverseInsert m c' => exact inserted m c'
  | remove m => exact sound.mem_erase
  | setKey m k =>
    simp only [step, Collections.setKey]
    split_ifs with same
    · rfl
    · dsimp only
      by_cases home : m ∈ a.lists c
      · rw [if_pos home, mem_place, sound.mem_erase]
        by_cases here : x = m
        · simp [here, home]
        · simp [here]
      · rw [if_neg home]
  | removeEachMember c' =>
    simp only [step, Collections.removeEachMember]
    by_cases same : c = c'
    · simp [same]
    · simp [same]

end Sound

/-- A run of calls keeps the collections sound. -/
theorem sound_run [DecidableEq ι] [DecidableEq κ] {a : Collections ι κ K} (sound : a.Sound)
    (ops : List (Op ι κ K)) : (a.run ops).Sound := by
  induction ops generalizing a with
  | nil => exact sound
  | cons op ops ih => exact ih (sound.step op)

end Collections

end Orly.InvCon

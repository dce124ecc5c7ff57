import Orly.InvCon.UnorderedList
import Orly.InvCon.OrderedListLaws

/-! The links of `inv_con/unordered_list.h` keep the collections they stand for.

Said without pointers, an unordered collection is a list of memberships, and a membership is in
at most one collection. `Insert(collection, orient)` takes the membership out of its collection
and puts it last or first in `collection` (`Collections.insertAt`); `Insert(sibling, orient)` puts
it right after or right before `sibling` (`Collections.insertBeside`), and fails when `sibling` is
the membership itself or in no collection.

The relation is the ordered list's `Represents` at the unit key. The neighbours a call hands
`SetLinkage` are read off the collection's list (`Represents.around`): the last or the first
member, or `sibling` and the member next to it, which is the one next to it once the membership
is taken out, unless it is the membership itself, the case in which `Insert` does nothing. So
`SetLinkage`'s asserts hold and it moves the membership as the ordered list's `relink` does
(`Represents.relink`). A run of calls from links that stand for collections fails exactly when
the same run on the collections does, and otherwise ends in links that stand for its result
(`unorderedList_keeps_collections`). -/
namespace Orly.InvCon

variable {ι κ K : Type}

/-! ## Unordered collections -/

namespace Collections

variable [DecidableEq ι] [DecidableEq κ]

/-- Where `Insert(collection, orient)` puts `m` in a list without it: last, or first. -/
def placeAt (m : ι) (l : List ι) : TOrient → List ι
  | .fwd => l ++ [m]
  | .rev => m :: l

/-- `m` leaves its collection, if any, and goes last or first in `c`. -/
def insertAt (a : Collections ι κ K) (m : ι) (c : κ) (orient : TOrient) : Collections ι κ K :=
  { a with lists := fun c' => if c' = c then placeAt m ((a.lists c).erase m) orient else (a.lists c').erase m }

/-- A member `x`, with `m` right after it or right before it when it is `sibling`. -/
def beside (m sibling : ι) (orient : TOrient) (x : ι) : List ι :=
  if x = sibling then placeAt m [x] orient else [x]

/-- `m` leaves its collection, if any, and goes right after or right before `sibling`. -/
def insertBeside (a : Collections ι κ K) (m sibling : ι) (orient : TOrient) : Collections ι κ K :=
  { a with lists := fun c => ((a.lists c).erase m).flatMap (beside m sibling orient) }

open Classical in
/-- A call on unordered collections: an insert beside the membership itself, or beside one in no
collection, fails. -/
noncomputable def unorderedStep (a : Collections ι κ K) : UnorderedList.Op ι κ → Option (Collections ι κ K)
  | .insert m c orient => some (a.insertAt m c orient)
  | .insertBeside m sibling orient =>
    if sibling ≠ m ∧ ∃ c, sibling ∈ a.lists c then some (a.insertBeside m sibling orient) else none
  | .remove m => some (a.remove m)
  | .removeEachMember c => some (a.removeEachMember c)

/-- A run of calls on unordered collections, stopping at the first that fails. -/
noncomputable def unorderedRun (a : Collections ι κ K) : List (UnorderedList.Op ι κ) → Option (Collections ι κ K)
  | [] => some a
  | op :: ops => (a.unorderedStep op).bind fun a => a.unorderedRun ops

end Collections

/-! ## Lists with a member taken out -/

section Erase

variable [DecidableEq ι] {l ys zs : List ι} {m x : ι}

theorem head?_erase_of_ne (first : l.head? ≠ some m) : (l.erase m).head? = l.head? := by
  cases l with
  | nil => rfl
  | cons y rest =>
    have other : y ≠ m := fun same => first (by rw [same]; rfl)
    rw [List.erase_cons_tail (by simpa using other)]
    rfl

theorem getLast?_erase_of_ne (last : l.getLast? ≠ some m) : (l.erase m).getLast? = l.getLast? := by
  by_cases mem : m ∈ l
  · obtain ⟨ys, zs, -, split, erased⟩ := List.exists_erase_eq mem
    -- `m` is not last, so something follows it and stays last
    cases zs with
    | nil => exact absurd (by rw [split]; exact List.getLast?_concat) last
    | cons z rest => rw [erased, split]; simp
  · rw [List.erase_of_not_mem mem]

/-- Taking `m` out of a list around another member `x` leaves a list around `x`, whose neighbours
of `x` are the old ones unless they were `m`. -/
theorem erase_around (split : l = ys ++ x :: zs) (other : x ≠ m) :
    ∃ ys' zs', l.erase m = ys' ++ x :: zs' ∧ (ys.getLast? ≠ some m → ys'.getLast? = ys.getLast?) ∧
      (zs.head? ≠ some m → zs'.head? = zs.head?) := by
  by_cases early : m ∈ ys
  · refine ⟨ys.erase m, zs, ?_, getLast?_erase_of_ne, fun _ => rfl⟩
    rw [split, List.erase_append_left _ early]
  · refine ⟨ys, zs.erase m, ?_, fun _ => rfl, head?_erase_of_ne⟩
    rw [split, List.erase_append_right _ early, List.erase_cons_tail (by simpa using other)]

/-- Taking a member out of a list without repeats joins the two sides of it. -/
theorem erase_middle (nodup : l.Nodup) (split : l = ys ++ m :: zs) : l.erase m = ys ++ zs := by
  have absent : m ∉ ys := fun early =>
    (List.nodup_append.mp (split ▸ nodup)).2.2 m early m List.mem_cons_self rfl
  rw [split, List.erase_append_right _ absent, List.erase_cons_head]

omit [DecidableEq ι] in
/-- In a list without repeats a member is on neither side of itself. -/
theorem not_mem_around (nodup : (ys ++ x :: zs).Nodup) : x ∉ ys ∧ x ∉ zs :=
  ⟨fun early => (List.nodup_append.mp nodup).2.2 x early x List.mem_cons_self rfl,
    (List.nodup_cons.mp (List.nodup_append.mp nodup).2.1).1⟩

theorem flatMap_beside_of_not_mem {sibling : ι} (orient : TOrient) :
    ∀ {l : List ι}, sibling ∉ l → l.flatMap (Collections.beside m sibling orient) = l
  | [], _ => rfl
  | y :: rest, absent => by
    have other : y ≠ sibling := fun same => absent (same ▸ List.mem_cons_self)
    rw [List.flatMap_cons, flatMap_beside_of_not_mem orient fun mem => absent (List.mem_cons_of_mem y mem),
      Collections.beside, if_neg other, List.singleton_append]

/-- Around `sibling`, and only there, `m` comes in. -/
theorem flatMap_beside_around {sibling : ι} (orient : TOrient) (early : sibling ∉ ys) (late : sibling ∉ zs) :
    (ys ++ sibling :: zs).flatMap (Collections.beside m sibling orient) =
      ys ++ Collections.placeAt m [sibling] orient ++ zs := by
  rw [List.flatMap_append, List.flatMap_cons, flatMap_beside_of_not_mem orient early,
    flatMap_beside_of_not_mem orient late, Collections.beside, if_pos rfl, List.append_assoc]

end Erase

/-! ## Neighbours read off the lists -/

namespace OrderedList

variable {s : Links ι κ K} {a : Collections ι κ K}

/-- The neighbours of a member are the members either side of it. -/
theorem Represents.around (represents : Represents s a) {c : κ} {ys zs : List ι} {x : ι}
    (split : a.lists c = ys ++ x :: zs) :
    s.prevMembership x = ys.getLast? ∧ s.nextMembership x = zs.head? := by
  have threads := represents.threads c
  rw [split, List.map_append, List.map_cons] at threads
  obtain ⟨into, out⟩ := threads.around
  exact ⟨into.2.trans (getLast?_map_some ys), out.1.trans (head?_map_some zs)⟩

/-- A collection's `LastMembership` is the last of its list. -/
theorem Represents.lastMembership (represents : Represents s a) (c : κ) :
    s.lastMembership c = (a.lists c).getLast? := by
  rw [← getLast?_map_some, ← List.head?_reverse]
  exact (represents.threads c).reverse.first

theorem Represents.prev_of_next (represents : Represents s a) {c : κ} {x n : ι}
    (mem : x ∈ a.lists c) (next : s.nextMembership x = some n) : s.prevMembership n = some x := by
  obtain ⟨ys, zs, split⟩ := List.append_of_mem mem
  rw [(represents.around split).2, List.head?_eq_some_iff] at next
  obtain ⟨rest, rfl⟩ := next
  have split' : a.lists c = (ys ++ [x]) ++ n :: rest := by rw [split]; simp
  exact (represents.around split').1.trans List.getLast?_concat

theorem Represents.next_of_prev (represents : Represents s a) {c : κ} {x p : ι}
    (mem : x ∈ a.lists c) (prev : s.prevMembership x = some p) : s.nextMembership p = some x := by
  obtain ⟨ys, zs, split⟩ := List.append_of_mem mem
  rw [(represents.around split).1, List.getLast?_eq_some_iff] at prev
  obtain ⟨init, rfl⟩ := prev
  have split' : a.lists c = init ++ p :: (x :: zs) := by rw [split]; simp
  exact (represents.around split').2

end OrderedList

/-! ## The calls on the links are the calls on the collections -/

namespace UnorderedList

open OrderedList

variable [DecidableEq ι] [DecidableEq κ] {s : Links ι κ} {a : Collections ι κ Unit}

/-- Neighbours adjacent in the cycle pass `SetLinkage`'s asserts, and it relinks. -/
theorem represents_setLinkage (represents : Represents s a) {m : ι} {c : κ} {ys zs : List ι}
    (split : (a.lists c).erase m = ys ++ zs)
    (prevAdjacent : ∀ p, ys.getLast? = some p → s.nextMembership p = zs.head?)
    (nextAdjacent : ∀ n, zs.head? = some n → s.prevMembership n = ys.getLast?) :
    ∃ s', Links.setLinkage s m c ys.getLast? zs.head? = some s' ∧
      Represents s' ⟨a.key, fun c' => if c' = c then ys ++ m :: zs else (a.lists c').erase m⟩ := by
  have within : ∀ x ∈ ys ++ zs, s.collection x = some c := fun x mem =>
    (represents.collection x c).mpr (List.mem_of_mem_erase (split ▸ mem))
  refine ⟨_, ?_, represents.relink split⟩
  rw [Links.setLinkage, if_pos]
  simp only [Bool.and_eq_true, Option.all_eq_true, decide_eq_true_eq]
  exact ⟨fun p last => ⟨within p (List.mem_append_left _ (List.mem_of_getLast? last)), prevAdjacent p last⟩,
    fun n first => ⟨within n (List.mem_append_right _ (List.mem_of_head? first)), nextAdjacent n first⟩⟩

/-- Collections that hold in `c` what they held, and take a member of `c` out of the others,
are the same. -/
theorem eq_of_lists (represents : Represents s a) {m : ι} {c : κ} (mem : m ∈ a.lists c) :
    (⟨a.key, fun c' => if c' = c then a.lists c else (a.lists c').erase m⟩ : Collections ι κ Unit) = a := by
  cases a with
  | mk key lists =>
    simp only [Collections.mk.injEq, true_and]
    funext c'
    split_ifs with same
    · rw [same]
    · exact List.erase_of_not_mem fun late => same (represents.single late mem)

/-- Collections in which `m` is already where `Insert(collection, orient)` puts it do not
change. -/
theorem insertAt_of_placed (represents : Represents s a) {m : ι} {c : κ} {orient : TOrient}
    (placed : Collections.placeAt m ((a.lists c).erase m) orient = a.lists c) : a.insertAt m c orient = a := by
  have mem : m ∈ a.lists c := placed ▸ (by cases orient <;> simp [Collections.placeAt])
  rw [Collections.insertAt, placed]
  exact eq_of_lists represents mem

/-- Beside a member `sibling` of `c`, the abstract insert changes `c` alone, around `sibling`. -/
theorem insertBeside_eq (represents : Represents s a) {m sibling : ι} {c : κ} {orient : TOrient}
    {ys zs : List ι} (home : sibling ∈ a.lists c) (split : (a.lists c).erase m = ys ++ sibling :: zs) :
    a.insertBeside m sibling orient =
      ⟨a.key, fun c' => if c' = c then ys ++ Collections.placeAt m [sibling] orient ++ zs else (a.lists c').erase m⟩ := by
  have nodup : (ys ++ sibling :: zs).Nodup := split ▸ (represents.nodup c).erase m
  simp only [Collections.insertBeside, Collections.mk.injEq, true_and]
  funext c'
  split_ifs with same
  · subst same
    rw [split, flatMap_beside_around orient (not_mem_around nodup).1 (not_mem_around nodup).2]
  · exact flatMap_beside_of_not_mem orient fun late =>
      same (represents.single (List.mem_of_mem_erase late) home)

/-- `Insert(collection, orient)` is the abstract insert: `m` already last (or first) stays, and
otherwise it goes after the last member (or before the first), its neighbours read off the list
without it. -/
theorem represents_insert (represents : Represents s a) (m : ι) (c : κ) (orient : TOrient) :
    ∃ s', Links.insert s m c orient = some s' ∧ Represents s' (a.insertAt m c orient) := by
  cases orient with
  | fwd =>
    by_cases stays : (a.lists c).getLast? = some m
    · -- `m` is last already: nothing moves
      obtain ⟨init, split⟩ := List.getLast?_eq_some_iff.mp stays
      have placed : Collections.placeAt m ((a.lists c).erase m) .fwd = a.lists c := by
        rw [erase_middle (represents.nodup c) (split : a.lists c = init ++ m :: []), split]
        simp [Collections.placeAt]
      refine ⟨s, ?_, (insertAt_of_placed represents placed).symm ▸ represents⟩
      rw [Links.insert, represents.lastMembership, if_neg (not_not.mpr stays)]
    · have last := getLast?_erase_of_ne stays
      -- the last member has no successor
      have lastNext : ∀ p, ((a.lists c).erase m).getLast? = some p → s.nextMembership p = ([] : List ι).head? := by
        intro p lastP
        rw [last, List.getLast?_eq_some_iff] at lastP
        obtain ⟨init, split⟩ := lastP
        exact (represents.around (split : a.lists c = init ++ p :: [])).2
      obtain ⟨s', linked, represents'⟩ := represents_setLinkage represents (List.append_nil _).symm lastNext
        (fun n first => by cases first)
      refine ⟨s', ?_, represents'⟩
      rw [Links.insert, represents.lastMembership, if_pos stays, ← last]
      exact linked
  | rev =>
    by_cases stays : (a.lists c).head? = some m
    · -- `m` is first already: nothing moves
      obtain ⟨rest, split⟩ := List.head?_eq_some_iff.mp stays
      have placed : Collections.placeAt m ((a.lists c).erase m) .rev = a.lists c := by
        rw [split, List.erase_cons_head]
        rfl
      refine ⟨s, ?_, (insertAt_of_placed represents placed).symm ▸ represents⟩
      rw [Links.insert, represents.firstMembership, if_neg (not_not.mpr stays)]
    · have first := head?_erase_of_ne stays
      -- the first member has no predecessor
      have firstPrev : ∀ n, ((a.lists c).erase m).head? = some n → s.prevMembership n = ([] : List ι).getLast? := by
        intro n firstN
        rw [first, List.head?_eq_some_iff] at firstN
        obtain ⟨rest, split⟩ := firstN
        exact (represents.around (split : a.lists c = [] ++ n :: rest)).1
      obtain ⟨s', linked, represents'⟩ := represents_setLinkage represents (List.nil_append _).symm
        (fun p last => by cases last) firstPrev
      refine ⟨s', ?_, represents'⟩
      rw [Links.insert, represents.firstMembership, if_pos stays, ← first]
      exact linked

theorem insertBeside_fwd {m sibling : ι} {c : κ} (other : sibling ≠ m) (home : s.collection sibling = some c) :
    Links.insertBeside s m sibling .fwd =
      if s.nextMembership sibling ≠ some m then s.setLinkage m c (some sibling) (s.nextMembership sibling)
      else some s := by
  simp only [Links.insertBeside, other, if_false, home]

theorem insertBeside_rev {m sibling : ι} {c : κ} (other : sibling ≠ m) (home : s.collection sibling = some c) :
    Links.insertBeside s m sibling .rev =
      if s.prevMembership sibling ≠ some m then s.setLinkage m c (s.prevMembership sibling) (some sibling)
      else some s := by
  simp only [Links.insertBeside, other, if_false, home]

/-- `Insert(sibling, orient)` beside another member `sibling` of `c` is the abstract insert: `m`
already right after (or right before) `sibling` stays, and otherwise it goes between `sibling`
and its neighbour in the list without `m`. -/
theorem represents_insertBeside (represents : Represents s a) {m sibling : ι} (other : sibling ≠ m)
    {c : κ} (home : s.collection sibling = some c) (orient : TOrient) :
    ∃ s', Links.insertBeside s m sibling orient = some s' ∧ Represents s' (a.insertBeside m sibling orient) := by
  have mem : sibling ∈ a.lists c := (represents.collection sibling c).mp home
  obtain ⟨ys, zs, split⟩ := List.append_of_mem mem
  obtain ⟨prev, next⟩ := represents.around split
  obtain ⟨ys', zs', erased, lastSame, firstSame⟩ := erase_around split other
  cases orient with
  | fwd =>
    rw [insertBeside_fwd other home, next]
    by_cases stays : zs.head? = some m
    · -- `m` is right after `sibling` already: nothing moves
      obtain ⟨rest, rfl⟩ := List.head?_eq_some_iff.mp stays
      have split' : a.lists c = (ys ++ [sibling]) ++ m :: rest := by rw [split]; simp
      have same : a.insertBeside m sibling .fwd = a := by
        have erased' : (a.lists c).erase m = ys ++ sibling :: rest :=
          (erase_middle (represents.nodup c) split').trans (by simp)
        rw [insertBeside_eq represents mem erased',
          show ys ++ Collections.placeAt m [sibling] .fwd ++ rest = a.lists c by rw [split]; simp [Collections.placeAt]]
        exact eq_of_lists represents (split' ▸ by simp)
      exact ⟨s, if_neg (not_not.mpr stays), by rw [same]; exact represents⟩
    · have nextSame := firstSame stays
      obtain ⟨s', linked, represents'⟩ := represents_setLinkage represents
        (show (a.lists c).erase m = (ys' ++ [sibling]) ++ zs' by rw [erased]; simp)
        (fun p last => by
          rw [List.getLast?_concat, Option.some.injEq] at last
          rw [← last, next, nextSame])
        (fun n first => by
          rw [List.getLast?_concat]
          exact represents.prev_of_next mem (by rw [next, ← nextSame]; exact first))
      rw [List.getLast?_concat, nextSame] at linked
      refine ⟨s', by rw [if_pos stays]; exact linked, ?_⟩
      rw [insertBeside_eq represents mem erased]
      simpa only [Collections.placeAt, List.append_assoc, List.cons_append, List.nil_append] using represents'
  | rev =>
    rw [insertBeside_rev other home, prev]
    by_cases stays : ys.getLast? = some m
    · -- `m` is right before `sibling` already: nothing moves
      obtain ⟨init, rfl⟩ := List.getLast?_eq_some_iff.mp stays
      have split' : a.lists c = init ++ m :: sibling :: zs := by rw [split]; simp
      have same : a.insertBeside m sibling .rev = a := by
        rw [insertBeside_eq represents mem (erase_middle (represents.nodup c) split'),
          show init ++ Collections.placeAt m [sibling] .rev ++ zs = a.lists c by rw [split']; simp [Collections.placeAt]]
        exact eq_of_lists represents (split' ▸ by simp)
      exact ⟨s, if_neg (not_not.mpr stays), by rw [same]; exact represents⟩
    · have prevSame := lastSame stays
      obtain ⟨s', linked, represents'⟩ := represents_setLinkage represents erased
        (fun p last => by
          rw [List.head?_cons]
          exact represents.next_of_prev mem (by rw [prev, ← prevSame]; exact last))
        (fun n first => by
          rw [List.head?_cons, Option.some.injEq] at first
          rw [← first, prev, prevSame])
      rw [prevSame, List.head?_cons] at linked
      refine ⟨s', by rw [if_pos stays]; exact linked, ?_⟩
      rw [insertBeside_eq represents mem erased]
      simpa only [Collections.placeAt, List.append_assoc, List.cons_append, List.nil_append] using represents'

/-- Every call, with fuel for the longest collection, fails exactly when the abstract call does,
and otherwise stands for it. -/
theorem represents_step (represents : Represents s a) {fuel : Nat} (enough : ∀ c, (a.lists c).length ≤ fuel)
    (op : Op ι κ) : Option.Rel Represents (Links.step fuel s op) (a.unorderedStep op) := by
  cases op with
  | insert m c orient =>
    obtain ⟨s', inserted, represents'⟩ := represents_insert represents m c orient
    rw [Links.step, inserted]
    exact .some represents'
  | insertBeside m sibling orient =>
    by_cases other : sibling = m
    · simp only [Links.step, Links.insertBeside, Collections.unorderedStep, other, if_true, ne_eq,
        not_true_eq_false, false_and, if_false]
      exact .none
    cases home : s.collection sibling with
    | none =>
      -- a sibling in no collection fails the assert, as the abstract call does
      have absent : ¬ ∃ c, sibling ∈ a.lists c := by
        rintro ⟨c, mem⟩
        rw [(represents.collection sibling c).mpr mem] at home
        cases home
      simp only [Links.step, Links.insertBeside, other, if_false, home, Collections.unorderedStep, absent,
        and_false]
      exact .none
    | some c =>
      obtain ⟨s', inserted, represents'⟩ := represents_insertBeside represents other home orient
      have present : ∃ c, sibling ∈ a.lists c := ⟨c, (represents.collection sibling c).mp home⟩
      rw [Links.step, inserted, Collections.unorderedStep, if_pos ⟨other, present⟩]
      exact .some represents'
  | remove m => exact .some (represents.remove m)
  | removeEachMember c =>
    obtain ⟨s', removed, represents'⟩ := represents.removeEachMember c (enough c)
    rw [Links.step, Links.removeEachMember, removed]
    exact .some represents'

/-- Links that stand for collections, such as those every membership and collection starts
from, keep doing so over any run of `Insert`, `Remove` and `RemoveEachMember`, with as much fuel
as there are memberships: the run fails an assert exactly when the same run on the collections
inserts a membership beside itself or beside one in no collection, and otherwise its links stand
for the run's collections. -/
theorem unorderedList_keeps_collections [Fintype ι] {fuel : Nat} (enough : Fintype.card ι ≤ fuel)
    {s : Links ι κ} {a : Collections ι κ Unit} (represents : Represents s a) (ops : List (Op ι κ)) :
    Option.Rel Represents (Links.run fuel s ops) (a.unorderedRun ops) := by
  induction ops generalizing s a with
  | nil => exact .some represents
  | cons op ops ih =>
    -- no collection holds a membership twice, so none is longer than there are memberships
    have lengths : ∀ c, (a.lists c).length ≤ fuel := fun c =>
      (represents.nodup c).length_le_card.trans enough
    have step := represents_step represents lengths op
    rw [Links.run, Collections.unorderedRun]
    generalize Links.step fuel s op = stepped at step ⊢
    generalize a.unorderedStep op = abstract at step ⊢
    cases step with
    | none => exact .none
    | some represents' => exact ih represents'

/-- Three memberships (`none`, `some false`, `some true`) and two collections (`false`,
`true`), from the start: inserted last, first and beside one another, one moved to the other
collection, one removed, and a collection emptied. -/
def unorderedOps : List (Op (Option Bool) Bool) :=
  [.insert none false .fwd, .insert (some false) false .rev, .insertBeside (some true) none .fwd,
    .insertBeside (some false) (some true) .rev, .insert none true .fwd, .remove (some true),
    .removeEachMember false]

theorem unorderedList_keeps_collections_sample :
    Fintype.card (Option Bool) ≤ 3 ∧
      Option.Rel Represents (Links.run 3 (Links.empty : Links (Option Bool) Bool) unorderedOps)
        ((Collections.empty fun _ : Option Bool => () : Collections (Option Bool) Bool Unit).unorderedRun
          unorderedOps) :=
  ⟨by simp, unorderedList_keeps_collections (by simp) (represents_empty _) unorderedOps⟩

end UnorderedList

end Orly.InvCon

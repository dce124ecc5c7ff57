import Orly.InvCon.OrderedList
import Mathlib.Data.Fintype.Card

/-! The links of `inv_con/ordered_list.h` keep the collections they stand for.

`Represents s a` relates links to abstract collections: the `FirstMembership`,
`LastMembership`, `PrevMembership` and `NextMembership` fields of each collection thread
its list through the sentinel, a membership's `Collection` is the collection whose list
holds it, an unlinked membership has null links, and the keys agree. Each call on the links
is the same call on the collections (`Represents.step`): `Remove` takes the membership out
of its cycle, and `Insert` and `ReverseInsert` walk to the place `place` gives, stepping
over the membership wherever it is, and leave it there or relink it there. So a run of
calls on links that stand for sound collections ends, within as much fuel as there are
memberships, in links that stand for the same run on the collections
(`orderedList_keeps_collections`), and the lookups by key find the first and the last
member with that key. -/
namespace Orly.InvCon.OrderedList

open SentinelList

variable {ι κ K : Type}

/-- The links `s` stand for the collections `a`. -/
structure Represents (s : Links ι κ K) (a : Collections ι κ K) : Prop where
  key : s.key = a.key
  threads : ∀ c, Threads (s.succ c) (s.pred c) none ((a.lists c).map some)
  collection : ∀ m c, s.collection m = some c ↔ m ∈ a.lists c
  unlinked : ∀ m, s.collection m = none → s.prevMembership m = none ∧ s.nextMembership m = none

theorem getLast?_map_some (l : List ι) : ((l.map some).getLast?).getD none = l.getLast? := by
  rw [List.getLast?_map]
  cases l.getLast? <;> rfl

theorem head?_map_some (l : List ι) : ((l.map some).head?).getD none = l.head? := by
  rw [List.head?_map]
  cases l.head? <;> rfl

theorem represents_empty (key : ι → K) :
    Represents (Links.empty (κ := κ) key) (Collections.empty key) := by
  refine ⟨rfl, fun c => ⟨List.nodup_singleton none, ?_⟩, fun m c => ?_, fun m _ => ⟨rfl, rfl⟩⟩
  · simp [Collections.empty, Linked, Links.succ, Links.pred, Links.empty]
  · simp [Collections.empty, Links.empty]

section Basics

variable {s : Links ι κ K} {a : Collections ι κ K}

theorem Represents.nodup (represents : Represents s a) (c : κ) : (a.lists c).Nodup :=
  (List.nodup_cons.mp (represents.threads c).nodup).2.of_map some

theorem Represents.single (represents : Represents s a) {m : ι} {c c' : κ}
    (early : m ∈ a.lists c) (late : m ∈ a.lists c') : c = c' :=
  Option.some.inj (((represents.collection m c).mpr early).symm.trans
    ((represents.collection m c').mpr late))

theorem Represents.mem_erase [DecidableEq ι] (represents : Represents s a) {m x : ι} {c : κ} :
    x ∈ (a.lists c).erase m ↔ x ≠ m ∧ x ∈ a.lists c :=
  (represents.nodup c).mem_erase_iff

/-- Apart from the sentinel, the cycles of two collections share no node. -/
theorem Represents.apart (represents : Represents s a) {c c' : κ} (other : c' ≠ c)
    {u w : Option ι} (within : u ∈ none :: (a.lists c).map some)
    (outside : w ∈ none :: (a.lists c').map some) : w = none ∨ w ≠ u := by
  cases w with
  | none => exact .inl rfl
  | some n =>
    refine .inr fun same => other ?_
    subst same
    simp only [List.mem_cons, reduceCtorEq, List.mem_map, Option.some.injEq, false_or,
      exists_eq_right] at within outside
    exact represents.single outside within

/-- An unlinked membership is a node of no cycle. -/
theorem Represents.not_node (represents : Represents s a) {x : ι} (home : s.collection x = none)
    (c : κ) : some x ∉ none :: (a.lists c).map some := by
  intro node
  simp only [List.mem_cons, reduceCtorEq, List.mem_map, Option.some.injEq, false_or,
    exists_eq_right] at node
  rw [(represents.collection x c).mpr node] at home
  cases home

/-- The neighbours of a linked membership are nodes of its collection's cycle. -/
theorem Represents.neighbours (represents : Represents s a) {m : ι} {c : κ}
    (home : s.collection m = some c) :
    s.prevMembership m ∈ none :: (a.lists c).map some ∧
      s.nextMembership m ∈ none :: (a.lists c).map some ∧ s.prevMembership m ≠ some m := by
  obtain ⟨before, after, apart, -⟩ := (represents.threads c).neighbours
    (List.mem_map_of_mem ((represents.collection m c).mp home))
  exact ⟨before, after, apart⟩

end Basics

variable [DecidableEq ι] [DecidableEq κ]

section Remove

variable {s : Links ι κ K} {a : Collections ι κ K}

/-- `Remove` of an unlinked membership changes nothing, on the links or on the
collections. -/
theorem Represents.remove_unlinked (represents : Represents s a) {m : ι}
    (home : s.collection m = none) : s.remove m = s ∧ a.remove m = a := by
  refine ⟨by rw [Links.remove, home], ?_⟩
  have absent : ∀ c, (a.lists c).erase m = a.lists c := fun c =>
    List.erase_of_not_mem fun mem => by simp [(represents.collection m c).mpr mem] at home
  simp only [Collections.remove, absent]

/-- `Remove` unlinks the membership from its cycle and leaves every other cycle as it
was: the links stand for the collections without it. -/
theorem Represents.remove (represents : Represents s a) (m : ι) :
    Represents (s.remove m) (a.remove m) := by
  cases home : s.collection m with
  | none =>
    obtain ⟨same, same'⟩ := represents.remove_unlinked home
    rw [same, same']
    exact represents
  | some c =>
    obtain ⟨before, after, apartSelf⟩ := represents.neighbours home
    have removed : s.remove m =
        (s.fixupLinkage c m (s.nextMembership m) (s.prevMembership m)).zeroLinkage m := by
      rw [Links.remove, home]
    -- away from `m`, the links are those `FixupLinkage` leaves
    have succSelf : ∀ w, w ≠ some m → (s.remove m).succ c w =
        Function.update (s.succ c) (s.pred c (some m)) (s.succ c (some m)) w := fun w other => by
      rw [removed, Links.succ_zeroLinkage other, Links.succ_fixupLinkage_self]
      rfl
    have predSelf : ∀ w, w ≠ some m → (s.remove m).pred c w =
        Function.update (s.pred c) (s.succ c (some m)) (s.pred c (some m)) w := fun w other => by
      rw [removed, Links.pred_zeroLinkage other, Links.pred_fixupLinkage_self apartSelf]
      rfl
    have mem : m ∈ a.lists c := (represents.collection m c).mp home
    have collection : (s.remove m).collection = Function.update s.collection m none := by
      rw [removed, Links.collection_zeroLinkage, Links.collection_fixupLinkage]
    refine ⟨by simp [removed, represents.key, Collections.remove], fun c' => ?_, fun x c' => ?_,
      fun x unlinked => ?_⟩
    · by_cases same : c' = c
      · -- its own cycle loses `m`
        subst same
        obtain ⟨ys, zs, -, split, erased⟩ := List.exists_erase_eq mem
        have threads := represents.threads c'
        rw [split, List.map_append, List.map_cons] at threads
        obtain ⟨outside, outside', -⟩ := nodup_around threads.nodup
        have off : ∀ u ∈ none :: (ys.map some ++ zs.map some), u ≠ some m := by
          rintro u node rfl
          rcases List.mem_cons.mp node with sentinel | node
          · cases sentinel
          rcases List.mem_append.mp node with early | late
          · exact outside (List.mem_cons_of_mem none early)
          · exact outside' (List.mem_append_left _ late)
        have unlinked := threads.unlink.frame (fun u node => succSelf u (off u node))
          (fun u node => predSelf u (off u node))
        simpa only [Collections.remove, erased, List.map_append] using unlinked
      · -- another cycle does not hold `m` and keeps its links
        have absent : (a.lists c').erase m = a.lists c' :=
          List.erase_of_not_mem fun late => same (represents.single late mem)
        have node : some m ∈ none :: (a.lists c).map some :=
          List.mem_cons_of_mem none (List.mem_map_of_mem mem)
        simp only [Collections.remove, absent]
        refine (represents.threads c').frame (fun u outside => ?_) (fun u outside => ?_)
        all_goals
          have off : u ≠ some m := by
            rcases represents.apart same node outside with rfl | other
            · exact (Option.some_ne_none m).symm
            · exact other
        · rw [removed, Links.succ_zeroLinkage off,
            Links.succ_fixupLinkage_of_ne same (represents.apart same before outside)]
        · rw [removed, Links.pred_zeroLinkage off,
            Links.pred_fixupLinkage_of_ne same apartSelf (represents.apart same after outside)]
    · change _ ↔ x ∈ (a.lists c').erase m
      rw [collection, represents.mem_erase]
      by_cases here : x = m
      · subst here
        simp
      · rw [Function.update_of_ne here, represents.collection x c']
        exact ⟨fun mem => ⟨here, mem⟩, fun ⟨_, mem⟩ => mem⟩
    · by_cases here : x = m
      · subst here
        simp [removed, Links.zeroLinkage]
      rw [collection, Function.update_of_ne here] at unlinked
      have outside := represents.not_node unlinked c
      have notPrev : some x ≠ s.prevMembership m := fun same => outside (same ▸ before)
      have notNext : some x ≠ s.nextMembership m := fun same => outside (same ▸ after)
      have other : some x ≠ some m := fun same => here (Option.some.inj same)
      obtain ⟨prev, next⟩ := represents.unlinked x unlinked
      constructor
      · change (s.remove m).pred c (some x) = none
        rw [predSelf _ other]
        exact (Function.update_of_ne notNext _ _).trans prev
      · change (s.remove m).succ c (some x) = none
        rw [succSelf _ other]
        exact (Function.update_of_ne notPrev _ _).trans next

end Remove

omit [DecidableEq ι] in
/-- The ends of a cut of a collection's list are nodes of its cycle. -/
theorem getLast?_mem_nodes (ys zs : List ι) : ys.getLast? ∈ none :: (ys ++ zs).map some := by
  cases last : ys.getLast? with
  | none => exact List.mem_cons_self
  | some y =>
    exact List.mem_cons_of_mem none (List.mem_map_of_mem (List.mem_append_left zs
      (List.mem_of_getLast? last)))

omit [DecidableEq ι] in
theorem head?_mem_nodes (ys zs : List ι) : zs.head? ∈ none :: (ys ++ zs).map some := by
  cases first : zs.head? with
  | none => exact List.mem_cons_self
  | some z =>
    exact List.mem_cons_of_mem none (List.mem_map_of_mem (List.mem_append_right ys
      (List.mem_of_head? first)))

section Relink

variable {s : Links ι κ K} {a : Collections ι κ K}

/-- Moving `m` to stand between `ys` and `zs`, which make up the rest of `c`: the links
then stand for `c` holding `ys ++ m :: zs` and every other collection without `m`. -/
theorem Represents.relink (represents : Represents s a) {m : ι} {c : κ} {ys zs : List ι}
    (split : (a.lists c).erase m = ys ++ zs) :
    Represents (s.relink m c ys.getLast? zs.head?)
      ⟨a.key, fun c' => if c' = c then ys ++ m :: zs else (a.lists c').erase m⟩ := by
  have removed := represents.remove m
  have unlinked : (s.remove m).collection m = none := by
    cases home : (s.remove m).collection m with
    | none => rfl
    | some c' =>
      have mem := (removed.collection m c').mp home
      exact absurd mem (represents.nodup c').not_mem_erase
  have fresh : m ∉ ys ++ zs := split ▸ (represents.nodup c).not_mem_erase
  have notPrev : ys.getLast? ≠ some m := fun last =>
    fresh (List.mem_append_left zs (List.mem_of_getLast? last))
  have prevNode : ys.getLast? ∈ none :: ((a.remove m).lists c).map some := by
    simpa only [Collections.remove, split] using getLast?_mem_nodes ys zs
  have nextNode : zs.head? ∈ none :: ((a.remove m).lists c).map some := by
    simpa only [Collections.remove, split] using head?_mem_nodes ys zs
  have relinked : s.relink m c ys.getLast? zs.head? =
      ((s.remove m).setLinkage m c ys.getLast? zs.head?).fixupLinkage c m (some m) (some m) := rfl
  have prevM : ((s.remove m).setLinkage m c ys.getLast? zs.head?).prevMembership m =
      ys.getLast? := by simp [Links.setLinkage]
  have nextM : ((s.remove m).setLinkage m c ys.getLast? zs.head?).nextMembership m =
      zs.head? := by simp [Links.setLinkage]
  have collection : (s.relink m c ys.getLast? zs.head?).collection =
      Function.update (s.remove m).collection m (some c) := by
    rw [relinked, Links.collection_fixupLinkage, Links.collection_setLinkage]
  -- in the cycle of `c`, the writes are those of `SentinelList.Threads.link`
  have succView : (s.relink m c ys.getLast? zs.head?).succ c = Function.update
      (Function.update ((s.remove m).succ c) (some m) zs.head?) ys.getLast? (some m) := by
    rw [relinked, Links.succ_fixupLinkage_self, prevM, Links.succ_setLinkage]
  have predView : (s.relink m c ys.getLast? zs.head?).pred c = Function.update
      (Function.update ((s.remove m).pred c) (some m) ys.getLast?) zs.head? (some m) := by
    rw [relinked, Links.pred_fixupLinkage_self (by rw [prevM]; exact notPrev), nextM,
      Links.pred_setLinkage]
  refine ⟨by simp [relinked, removed.key, Collections.remove], fun c' => ?_, fun x c' => ?_,
    fun x unlinked' => ?_⟩
  · by_cases same : c' = c
    · subst same
      have threads := removed.threads c'
      simp only [Collections.remove, split, List.map_append] at threads
      have linked := threads.link (x := some m) (by simpa using fresh)
      rw [getLast?_map_some, head?_map_some] at linked
      rw [succView, predView]
      simpa using linked
    · have node : ∀ w ∈ none :: ((a.remove m).lists c').map some, w ≠ some m := by
        rintro w outside rfl
        simp only [List.mem_cons, reduceCtorEq, List.mem_map, Option.some.injEq, false_or,
          exists_eq_right, Collections.remove] at outside
        exact (represents.nodup c').not_mem_erase outside
      simp only [same, if_false]
      refine (removed.threads c').frame (fun w outside => ?_) (fun w outside => ?_)
      · rw [relinked, Links.succ_fixupLinkage_of_ne same
          (by rw [prevM]; exact removed.apart same prevNode outside),
          Links.succ_setLinkage, Function.update_of_ne (node w outside)]
      · rw [relinked, Links.pred_fixupLinkage_of_ne same (by rw [prevM]; exact notPrev)
          (by rw [nextM]; exact removed.apart same nextNode outside),
          Links.pred_setLinkage, Function.update_of_ne (node w outside)]
  · rw [collection]
    by_cases here : x = m
    · subst here
      by_cases same : c' = c
      · simp [same]
      · simp [same, Ne.symm same, (represents.nodup c').not_mem_erase]
    · rw [Function.update_of_ne here, removed.collection]
      by_cases same : c' = c
      · subst same
        simp [Collections.remove, split, here]
      · simp [Collections.remove, same]
  · have here : x ≠ m := by
      rintro rfl
      simp [collection] at unlinked'
    rw [collection, Function.update_of_ne here] at unlinked'
    have outside := removed.not_node unlinked' c
    obtain ⟨prev, next⟩ := removed.unlinked x unlinked'
    have other : some x ≠ some m := fun same => here (Option.some.inj same)
    constructor
    · change (s.relink m c ys.getLast? zs.head?).pred c (some x) = none
      rw [predView, Function.update_of_ne (fun same => outside (by rw [same]; exact nextNode)),
        Function.update_of_ne other]
      exact prev
    · change (s.relink m c ys.getLast? zs.head?).succ c (some x) = none
      rw [succView, Function.update_of_ne (fun same => outside (by rw [same]; exact prevNode)),
        Function.update_of_ne other]
      exact next

end Relink

section Insert

variable [LinearOrder K] {s : Links ι κ K} {a : Collections ι κ K}

/-- At the place `place` gives, `Insert` and `ReverseInsert` leave `m` where it is or move
it there; either way, the links stand for the collections after the abstract insert. When
`m` stays, its neighbours fix its place (`SentinelList.Threads.eq_of_pred`), which is then
the one `place` gives. -/
theorem Represents.settle (represents : Represents s a) (m : ι) (c : κ) :
    Represents
      (if s.collection m ≠ some c ∨
          s.prevMembership m ≠ (((a.lists c).erase m).takeWhile fun x => a.key x ≤ a.key m).getLast? ∨
          s.nextMembership m ≠ (((a.lists c).erase m).dropWhile fun x => a.key x ≤ a.key m).head?
        then s.relink m c (((a.lists c).erase m).takeWhile fun x => a.key x ≤ a.key m).getLast?
          (((a.lists c).erase m).dropWhile fun x => a.key x ≤ a.key m).head?
        else s)
      (a.insert m c) := by
  split_ifs with moved
  · exact represents.relink (takeWhile_append_dropWhile_le a.key m _).symm
  · simp only [not_or, not_not] at moved
    obtain ⟨home, prev, next⟩ := moved
    have mem : m ∈ a.lists c := (represents.collection m c).mp home
    obtain ⟨ys, zs, -, split, erased⟩ := List.exists_erase_eq mem
    have threads := represents.threads c
    rw [split, List.map_append, List.map_cons] at threads
    -- `m`'s predecessor is the last key at most its own, so it stands where `place` puts it
    have cut : ys.map some ++ zs.map some =
        (((a.lists c).erase m).takeWhile fun x => a.key x ≤ a.key m).map some ++
          (((a.lists c).erase m).dropWhile fun x => a.key x ≤ a.key m).map some := by
      rw [← List.map_append, ← List.map_append, takeWhile_append_dropWhile_le, erased]
    have before : s.pred c (some m) =
        ((((a.lists c).erase m).takeWhile fun x => a.key x ≤ a.key m).map some).getLast?.getD
          none := by
      rw [getLast?_map_some]
      exact prev
    have placed := threads.eq_of_pred cut before
    have injective : Function.Injective (List.map (some : ι → Option ι)) :=
      List.map_injective_iff.mpr (Option.some_injective ι)
    have whole : a.lists c = place a.key m ((a.lists c).erase m) :=
      calc a.lists c
          _ = ys ++ m :: zs := split
          _ = place a.key m ((a.lists c).erase m) := by
            rw [injective placed.1, injective placed.2]
            rfl
    have stays : a.insert m c = a := by
      cases a with
      | mk key lists =>
        simp only [Collections.insert, Collections.mk.injEq, true_and]
        funext c'
        split_ifs with same
        · subst same
          exact whole.symm
        · exact List.erase_of_not_mem fun late => same (represents.single late mem)
    rw [stays]
    exact represents

omit [LinearOrder K] in
/-- Stepping over `some m`, the successors of a cycle through `l` thread `l` without `m`,
whether `m` is in `l` or not. -/
theorem skipping_chain_erase {succ pred : Option ι → Option ι} {l : List ι}
    (threads : Threads succ pred none (l.map some)) (m : ι) :
    (none :: ((l.erase m).map some ++ [none])).IsChain fun u v => skipping succ (some m) u = v := by
  by_cases mem : m ∈ l
  · obtain ⟨ys, zs, -, split, erased⟩ := List.exists_erase_eq mem
    rw [split, List.map_append, List.map_cons] at threads
    rw [erased, List.map_append]
    exact threads.skipping_chain
  · rw [List.erase_of_not_mem mem]
    exact threads.skipping_chain_of_not_mem (by simpa using mem) (Option.some_ne_none m)

omit [DecidableEq κ] in
/-- The walk of `Insert`, stepping over `m`, stops where `place` cuts the rest of `c`. -/
theorem Represents.insert_scan (represents : Represents s a) {fuel : Nat} {m : ι} {c : κ}
    (enough : (a.lists c).length ≤ fuel) :
    scan (skipping (s.succ c) (some m)) none (fun u => u.any fun n => s.key n ≤ s.key m) fuel
        none (skipping (s.succ c) (some m) none) =
      some ((((a.lists c).erase m).takeWhile fun x => a.key x ≤ a.key m).getLast?,
        (((a.lists c).erase m).dropWhile fun x => a.key x ≤ a.key m).head?) := by
  have chain := skipping_chain_erase (represents.threads c) m
  have fresh : none ∉ ((a.lists c).erase m).map some := by simp
  have short : (((a.lists c).erase m).map some).length ≤ fuel := by
    rw [List.length_map]
    exact (List.length_erase_le ..).trans enough
  rw [scan_spec chain fresh short, List.takeWhile_map, List.dropWhile_map, getLast?_map_some,
    head?_map_some, represents.key]
  rfl

/-- `Insert` finishes within the length of the collection and is the abstract insert. -/
theorem Represents.insert (represents : Represents s a) {fuel : Nat} (m : ι) (c : κ)
    (enough : (a.lists c).length ≤ fuel) :
    ∃ s', s.insert fuel m c = some s' ∧ Represents s' (a.insert m c) := by
  refine ⟨_, ?_, represents.settle m c⟩
  simp only [Links.insert, represents.insert_scan enough, Option.bind_eq_bind, Option.bind_some,
    Option.pure_def]
  split_ifs <;> rfl

omit [DecidableEq κ] [LinearOrder K] in
/-- Removing one membership from a list without repeats commutes with reading it backwards. -/
theorem erase_reverse {l : List ι} (nodup : l.Nodup) (m : ι) :
    l.reverse.erase m = (l.erase m).reverse := by
  rw [(List.nodup_reverse.mpr nodup).erase_eq_filter, nodup.erase_eq_filter, List.filter_reverse]

omit [DecidableEq κ] in
/-- The walk of `ReverseInsert`, backwards and stepping over `m`, stops where `place` cuts
an ascending collection: it passes exactly the greater keys. -/
theorem Represents.reverseInsert_scan (represents : Represents s a) {fuel : Nat} {m : ι} {c : κ}
    (ascending : Ascending a.key ((a.lists c).erase m)) (enough : (a.lists c).length ≤ fuel) :
    scan (skipping (s.pred c) (some m)) none (fun u => u.any fun n => s.key n > s.key m) fuel
        none (skipping (s.pred c) (some m) none) =
      some ((((a.lists c).erase m).dropWhile fun x => a.key x ≤ a.key m).head?,
        (((a.lists c).erase m).takeWhile fun x => a.key x ≤ a.key m).getLast?) := by
  have threads := (represents.threads c).reverse
  rw [← List.map_reverse] at threads
  have chain := skipping_chain_erase threads m
  rw [erase_reverse (represents.nodup c)] at chain
  have fresh : none ∉ ((a.lists c).erase m).reverse.map some := by simp
  have short : (((a.lists c).erase m).reverse.map some).length ≤ fuel := by
    rw [List.length_map, List.length_reverse]
    exact (List.length_erase_le ..).trans enough
  obtain ⟨greater, rest⟩ := reverse_takeWhile_dropWhile (k := a.key m) ascending
  rw [scan_spec chain fresh short, List.takeWhile_map, List.dropWhile_map, getLast?_map_some,
    head?_map_some, represents.key]
  change some ((((a.lists c).erase m).reverse.takeWhile fun x => a.key x > a.key m).getLast?,
    (((a.lists c).erase m).reverse.dropWhile fun x => a.key x > a.key m).head?) = _
  rw [greater, rest, List.getLast?_reverse, List.head?_reverse]

/-- On an ascending collection, `ReverseInsert` finishes within its length and is the same
abstract insert as `Insert`. -/
theorem Represents.reverseInsert (represents : Represents s a) {fuel : Nat} (m : ι) (c : κ)
    (ascending : Ascending a.key (a.lists c)) (enough : (a.lists c).length ≤ fuel) :
    ∃ s', s.reverseInsert fuel m c = some s' ∧ Represents s' (a.insert m c) := by
  have erased : Ascending a.key ((a.lists c).erase m) := ascending.sublist List.erase_sublist
  refine ⟨_, ?_, represents.settle m c⟩
  simp only [Links.reverseInsert, represents.reverseInsert_scan erased enough,
    Option.bind_eq_bind, Option.bind_some, Option.pure_def]
  -- the same test as `Insert`'s, with the two neighbours compared in the other order
  split_ifs with moved moved'
  · rfl
  · exact absurd (by tauto) moved'
  · exact absurd (by tauto) moved
  · rfl

omit [DecidableEq κ] [LinearOrder K] in
/-- A new key for `m` is a new key on both sides. -/
theorem Represents.rekey (represents : Represents s a) (m : ι) (k : K) :
    Represents { s with key := Function.update s.key m k } { a with key := Function.update a.key m k } :=
  ⟨by rw [represents.key], represents.threads, represents.collection, represents.unlinked⟩

/-- `SetKey` finishes within the length of the collection it moves in, and is the abstract
`SetKey`. -/
theorem Represents.setKey (represents : Represents s a) {fuel : Nat} (m : ι) (k : K)
    (enough : ∀ c, (a.lists c).length ≤ fuel) :
    ∃ s', s.setKey fuel m k = some s' ∧ Represents s' (a.setKey m k) := by
  by_cases same : s.key m = k
  · refine ⟨s, by rw [Links.setKey, if_neg (not_not.mpr same)], ?_⟩
    rw [a.setKey_of_same (represents.key ▸ same)]
    exact represents
  have changed : a.key m ≠ k := represents.key ▸ same
  have rekeyed := represents.rekey m k
  cases home : s.collection m with
  | none =>
    have absent : ∀ c, m ∉ a.lists c := fun c mem => by
      rw [(represents.collection m c).mpr mem] at home
      cases home
    refine ⟨{ s with key := Function.update s.key m k }, ?_, ?_⟩
    · rw [Links.setKey, if_pos same]
      dsimp only
      rw [home]
    · rw [a.setKey_of_absent changed absent]
      exact rekeyed
  | some c =>
    have mem : m ∈ a.lists c := (represents.collection m c).mp home
    obtain ⟨s', inserted, represents'⟩ := rekeyed.insert m c (enough c)
    refine ⟨s', ?_, ?_⟩
    · rw [Links.setKey, if_pos same]
      dsimp only
      rw [home]
      exact inserted
    · rw [a.setKey_eq_insert changed mem fun c' late => represents.single late mem]
      exact represents'

end Insert

section RemoveEach

variable {s : Links ι κ K} {a : Collections ι κ K}

omit [DecidableEq ι] [DecidableEq κ] in
/-- A collection's `FirstMembership` is the first of its list. -/
theorem Represents.firstMembership (represents : Represents s a) (c : κ) :
    s.firstMembership c = (a.lists c).head? := by
  rw [← head?_map_some]
  exact (represents.threads c).first

/-- `RemoveEachMember` finishes within the length of the collection, and empties it. -/
theorem Represents.removeEachMember (represents : Represents s a) (c : κ) {fuel : Nat}
    (enough : (a.lists c).length ≤ fuel) :
    ∃ s', Links.removeEachMember c fuel s = some s' ∧ Represents s' (a.removeEachMember c) := by
  induction fuel generalizing s a with
  | zero =>
    have empty : a.lists c = [] := List.eq_nil_of_length_eq_zero (Nat.le_zero.mp enough)
    have unchanged : a.removeEachMember c = a := by
      simp only [Collections.removeEachMember, ← empty, Function.update_eq_self]
    refine ⟨s, ?_, by rw [unchanged]; exact represents⟩
    rw [Links.removeEachMember, represents.firstMembership, empty]
    rfl
  | succ fuel ih =>
    cases first : a.lists c with
    | nil =>
      have unchanged : a.removeEachMember c = a := by
        simp only [Collections.removeEachMember, ← first, Function.update_eq_self]
      refine ⟨s, ?_, by rw [unchanged]; exact represents⟩
      rw [Links.removeEachMember, represents.firstMembership, first]
      rfl
    | cons m rest =>
      have mem : m ∈ a.lists c := first ▸ List.mem_cons_self
      -- removing the first member leaves the rest of the collection, and the same end
      have shorter : ((a.remove m).lists c).length ≤ fuel := by
        simp only [Collections.remove, first, List.erase_cons_head]
        simpa [first] using enough
      have same : (a.remove m).removeEachMember c = a.removeEachMember c := by
        simp only [Collections.removeEachMember, Collections.remove, Collections.mk.injEq,
          true_and]
        funext c'
        by_cases here : c' = c
        · subst here
          simp
        · rw [Function.update_of_ne here, Function.update_of_ne here]
          exact List.erase_of_not_mem fun late => here (represents.single late mem)
      obtain ⟨s', removed, represents'⟩ := ih (represents.remove m) shorter
      refine ⟨s', ?_, by rw [← same]; exact represents'⟩
      rw [Links.removeEachMember, represents.firstMembership, first]
      exact removed

end RemoveEach

section Lookups

variable [LinearOrder K] {s : Links ι κ K} {a : Collections ι κ K}

omit [DecidableEq κ] in
/-- On an ascending collection, `TryGetFirstMembership` finishes within its length and
finds the first member with the key, if any. -/
theorem Represents.tryGetFirstMembership (represents : Represents s a) {fuel : Nat} {c : κ}
    (ascending : Ascending a.key (a.lists c)) (enough : (a.lists c).length ≤ fuel) (k : K) :
    s.tryGetFirstMembership fuel c k = some (a.firstWithKey c k) := by
  have chain : (none :: ((a.lists c).map some ++ [none])).IsChain fun u v => s.succ c u = v :=
    (represents.threads c).chain.imp fun _ _ linked => linked.1
  rw [Links.tryGetFirstMembership, scan_spec chain (by simp) (by simpa using enough),
    Option.map_some, List.dropWhile_map, head?_map_some, represents.key]
  exact congrArg some (find?_of_dropWhile ascending)

omit [DecidableEq κ] in
/-- On an ascending collection, `TryGetLastMembership` finishes within its length and
finds the last member with the key, if any. -/
theorem Represents.tryGetLastMembership (represents : Represents s a) {fuel : Nat} {c : κ}
    (ascending : Ascending a.key (a.lists c)) (enough : (a.lists c).length ≤ fuel) (k : K) :
    s.tryGetLastMembership fuel c k = some (a.lastWithKey c k) := by
  have threads := (represents.threads c).reverse
  rw [← List.map_reverse] at threads
  have chain : (none :: ((a.lists c).reverse.map some ++ [none])).IsChain
      fun u v => s.pred c u = v :=
    threads.chain.imp fun _ _ linked => linked.1
  rw [Links.tryGetLastMembership, scan_spec chain (by simp) (by simpa using enough),
    Option.map_some, List.dropWhile_map, head?_map_some, represents.key]
  exact congrArg some (find?_reverse_of_dropWhile ascending)

end Lookups

section Runs

variable [LinearOrder K] {s : Links ι κ K} {a : Collections ι κ K}

/-- Every call finishes within the length of the longest collection and is the abstract
call. -/
theorem Represents.step (represents : Represents s a) (sound : a.Sound) {fuel : Nat}
    (enough : ∀ c, (a.lists c).length ≤ fuel) (op : Op ι κ K) :
    ∃ s', s.step fuel op = some s' ∧ Represents s' (a.step op) := by
  cases op with
  | insert m c => exact represents.insert m c (enough c)
  | reverseInsert m c => exact represents.reverseInsert m c (sound.ascending c) (enough c)
  | remove m => exact ⟨_, rfl, represents.remove m⟩
  | setKey m k => exact represents.setKey m k enough
  | removeEachMember c => exact represents.removeEachMember c (enough c)

/-- A run of calls, with as much fuel as there are memberships, finishes and is the
abstract run. -/
theorem Represents.run [Fintype ι] (represents : Represents s a) (sound : a.Sound) {fuel : Nat}
    (enough : Fintype.card ι ≤ fuel) (ops : List (Op ι κ K)) :
    ∃ s', s.run fuel ops = some s' ∧ Represents s' (a.run ops) := by
  induction ops generalizing s a with
  | nil => exact ⟨s, rfl, represents⟩
  | cons op ops ih =>
    -- no collection holds a membership twice, so none is longer than there are memberships
    have lengths : ∀ c, (a.lists c).length ≤ fuel := fun c =>
      (represents.nodup c).length_le_card.trans enough
    obtain ⟨s₁, stepped, represents₁⟩ := represents.step sound lengths op
    obtain ⟨s₂, ran, represents₂⟩ := ih represents₁ (sound.step op)
    refine ⟨s₂, ?_, represents₂⟩
    rw [Links.run, stepped, Option.bind_some]
    exact ran

end Runs

/-- Links that stand for sound collections, such as those every membership and collection
starts from, keep doing so over any run of `Insert`, `ReverseInsert`, `Remove`, `SetKey`
and `RemoveEachMember`: the run finishes, its links stand for the same run on the
collections, which stay sound, and the lookups by key find the first and the last member
with the key. -/
theorem orderedList_keeps_collections [LinearOrder K] [Fintype ι] {fuel : Nat}
    (enough : Fintype.card ι ≤ fuel) {s : Links ι κ K} {a : Collections ι κ K}
    (represents : Represents s a) (sound : a.Sound) (ops : List (Op ι κ K)) :
    ∃ s', s.run fuel ops = some s' ∧ Represents s' (a.run ops) ∧ (a.run ops).Sound ∧
      ∀ c k, s'.tryGetFirstMembership fuel c k = some ((a.run ops).firstWithKey c k) ∧
        s'.tryGetLastMembership fuel c k = some ((a.run ops).lastWithKey c k) := by
  obtain ⟨s', ran, represents'⟩ := represents.run sound enough ops
  have sound' := Collections.sound_run sound ops
  have lengths : ∀ c, ((a.run ops).lists c).length ≤ fuel := fun c =>
    (represents'.nodup c).length_le_card.trans enough
  exact ⟨s', ran, represents', sound', fun c k =>
    ⟨represents'.tryGetFirstMembership (sound'.ascending c) (lengths c) k,
      represents'.tryGetLastMembership (sound'.ascending c) (lengths c) k⟩⟩

/-- Three memberships with keys `0`, `1`, `2` in two collections, from the start: inserted,
inserted from the end, moved by `SetKey`, removed, and the collection emptied. -/
def sampleOps : List (Op (Fin 3) (Fin 2) Nat) :=
  [.insert 2 0, .insert 0 0, .reverseInsert 1 0, .setKey 0 5, .insert 2 1, .remove 1,
    .removeEachMember 0]

theorem orderedList_keeps_collections_sample :
    ∃ s', (Links.empty (κ := Fin 2) fun m : Fin 3 => (m : Nat)).run 3 sampleOps = some s' ∧
      Represents s' ((Collections.empty fun m : Fin 3 => (m : Nat)).run sampleOps) ∧
      ((Collections.empty (κ := Fin 2) fun m : Fin 3 => (m : Nat)).run sampleOps).Sound ∧
      ∀ c k, s'.tryGetFirstMembership 3 c k =
          some (((Collections.empty fun m : Fin 3 => (m : Nat)).run sampleOps).firstWithKey c k) ∧
        s'.tryGetLastMembership 3 c k =
          some (((Collections.empty fun m : Fin 3 => (m : Nat)).run sampleOps).lastWithKey c k) :=
  orderedList_keeps_collections (by simp) (represents_empty _) (Collections.sound_empty _) sampleOps

end Orly.InvCon.OrderedList

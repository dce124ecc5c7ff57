import Mathlib
import Orly.Indy.MergeDataFileRun

/-! What the key merge writes.

`MergedKeys` reads the claim on a merge's pushes: in (key ascending, sequence number
descending) order, every kept version once, and for each key one `PushCurKey`, of a version
with the greatest sequence number of the key. `label` meets it on versions in heap order when
each history version has a newer current version of its key among them (`mergedKeys_label`):
the first current version of a key is the one pushed current (`filter_label`), and no version
of the key before it is newer. Over sources that keep the data-file invariant
(`TIndexFile.Valid`) and, under `CanTail`, count their history keys (`CountsHistory`), the
versions the cursors stop at are those `keptEntries` keeps, each kept history version has such
a current version (`historyCovered_kept`), and the merge keeps exactly the right versions
(`merge_keeps_right_versions`). Neither condition can go: a history key without a current key
of its own in its file goes out with no `PushCurKey` of its key, and a tombstone whose
`NumHistKeys` misses its history keys is dropped while its history stays. -/
namespace Orly.Indy.Disk

open KWayMerge

variable {κ ω : Type}

section Spec

variable [LinearOrder κ]

/-- The data-file invariant of a source index file: its current keys strictly ascending, its
history keys by key ascending and, for one key, sequence number descending, and each history key
older than the current key of its key in the same file, which the file has. -/
@[mk_iff]
structure TIndexFile.Valid (file : TIndexFile κ ω) : Prop where
  curAscending : file.curKeys.Pairwise fun a b => a.key < b.key
  histSorted : file.histKeys.Pairwise fun a b => TSortedKey.lt a.sortedKey b.sortedKey = true
  histOlder : ∀ cur ∈ file.curKeys, ∀ hist ∈ file.histKeys, hist.key = cur.key → hist.seqNum < cur.seqNum
  histHasCur : ∀ hist ∈ file.histKeys, ∃ cur ∈ file.curKeys, cur.key = hist.key

instance (file : TIndexFile κ ω) : Decidable file.Valid :=
  decidable_of_iff _ (TIndexFile.valid_iff file).symm

/-- `NumHistKeys` of each current key counts the history keys of its key. -/
def TIndexFile.CountsHistory (file : TIndexFile κ ω) : Prop :=
  ∀ cur ∈ file.curKeys, cur.numHistKeys = (file.histKeys.filter fun hist => hist.key = cur.key).length

instance (file : TIndexFile κ ω) : Decidable file.CountsHistory :=
  inferInstanceAs (Decidable (∀ cur ∈ file.curKeys,
    cur.numHistKeys = (file.histKeys.filter fun hist => hist.key = cur.key).length))

/-- The versions of a source index file a merge should keep: all of them, or under `CanTail`
all but the current tombstones without history keys, when `CanTailTombstones`, and the history
keys whose sequence number is not in `keeper`. -/
def TIndexFile.keptEntries (canTail canTailTombstones : Bool) (isTombstone : ω → Bool) (keeper : List Nat)
    (file : TIndexFile κ ω) : List (TEntry κ ω) :=
  if canTail then
    (file.curKeys.filter fun cur => !canTailTombstones || !isTombstone cur.value ||
      file.histKeys.any fun hist => hist.key = cur.key).map TKeyItem.entry ++
    (file.histKeys.filter fun hist => decide (hist.seqNum ∈ keeper)).map THistoryKeyItem.entry
  else file.curKeys.map TKeyItem.entry ++ file.histKeys.map THistoryKeyItem.entry

/-- What the pushes of one index should be, given the versions they should carry: in (key
ascending, sequence number descending) order, carrying each version once, and for each key one
`PushCurKey`, of a version of that key with the greatest sequence number; every other version
then goes out with `PushHistKey`. -/
structure MergedKeys (entries : List (TEntry κ ω)) (pushes : List (TPush κ ω)) : Prop where
  sorted : (pushes.map TPush.entry).Pairwise TEntry.Before
  carries : (pushes.map TPush.entry).Perm entries
  latest : ∀ key ∈ entries.map TEntry.key, ∃ e ∈ entries, e.key = key ∧
    (∀ e' ∈ entries, e'.key = key → e'.seqNum ≤ e.seqNum) ∧
    pushes.filter (fun push => push.isCur && push.entry.key == key) = [.curKey e.seqNum e.key e.value]

theorem MergedKeys.perm {entries entries' : List (TEntry κ ω)} {pushes : List (TPush κ ω)}
    (merged : MergedKeys entries pushes) (same : entries.Perm entries') : MergedKeys entries' pushes where
  sorted := merged.sorted
  carries := merged.carries.trans same
  latest key mem := by
    obtain ⟨e, inEntries, keyed, greatest, only⟩ := merged.latest key ((same.map TEntry.key).symm.subset mem)
    exact ⟨e, same.subset inEntries, keyed, fun e' mem' => greatest e' (same.symm.subset mem'), only⟩

end Spec

section Pushes

variable [LinearOrder κ]

/-- Each history version has a current version of its key with a greater sequence number. -/
def HistoryCovered (popped : List (Tagged κ ω)) : Prop :=
  ∀ y ∈ popped, y.2 = false → ∃ c ∈ popped, c.2 = true ∧ c.1.key = y.1.key ∧ y.1.seqNum < c.1.seqNum

omit [LinearOrder κ] in
theorem HistoryCovered.perm {popped popped' : List (Tagged κ ω)} (covered : HistoryCovered popped)
    (same : popped.Perm popped') : HistoryCovered popped' := by
  intro y mem older
  obtain ⟨c, inPopped, current, keyed, newer⟩ := covered y (same.symm.subset mem) older
  exact ⟨c, same.subset inPopped, current, keyed, newer⟩

/-- The `PushCurKey` of a version. -/
def curPush (x : Tagged κ ω) : TPush κ ω := .curKey x.1.seqNum x.1.key x.1.value

theorem entry_labelOne (lastWritten : Option κ) (x : Tagged κ ω) : (labelOne lastWritten x).entry = x.1 := by
  unfold labelOne
  split <;> rfl

theorem map_entry_label : ∀ (lastWritten : Option κ) (popped : List (Tagged κ ω)),
    (label lastWritten popped).map TPush.entry = popped.map Prod.fst
  | _, [] => rfl
  | lastWritten, x :: popped => by
    rw [label, List.map_cons, entry_labelOne, map_entry_label, List.map_cons]

theorem labelOne_of_pushed {lastWritten : Option κ} {x : Tagged κ ω}
    (pushed : (x.2 && isNewKey lastWritten x.1.key) = true) :
    labelOne lastWritten x = curPush x ∧ nextWritten lastWritten x = some x.1.key := by
  simp [labelOne, nextWritten, pushed, curPush]

theorem labelOne_of_not_pushed {lastWritten : Option κ} {x : Tagged κ ω}
    (pushed : (x.2 && isNewKey lastWritten x.1.key) = false) :
    (labelOne lastWritten x).isCur = false ∧ nextWritten lastWritten x = lastWritten := by
  simp [labelOne, nextWritten, pushed, TPush.isCur]

theorem eq_of_isNewKey_eq_false {lastWritten : Option κ} {key : κ} (old : isNewKey lastWritten key = false) :
    lastWritten = some key := by
  cases lastWritten with
  | none => simp [isNewKey] at old
  | some last =>
    simp only [isNewKey, decide_eq_false_iff_not, not_not] at old
    rw [old]

theorem find?_eq_none_of_lt {key : κ} {popped : List (Tagged κ ω)} (above : ∀ y ∈ popped, key < y.1.key) :
    popped.find? (fun y => y.2 && y.1.key == key) = none := by
  rw [List.find?_eq_none]
  intro y mem
  simp [ne_of_gt (above y mem)]

/-- The `PushCurKey`s of one key, over versions popped in heap order after `last_written`: none
when that key was written last, and otherwise the push of the first current version of the
key. -/
theorem filter_label (key : κ) :
    ∀ (lastWritten : Option κ) (popped : List (Tagged κ ω)),
      popped.Pairwise (fun a b => TSortedKey.lt (sortKey a) (sortKey b) = true) →
      (∀ last, lastWritten = some last → ∀ y ∈ popped, last ≤ y.1.key) →
      (label lastWritten popped).filter (fun push => push.isCur && push.entry.key == key) =
        if lastWritten = some key then []
        else ((popped.find? fun y => y.2 && y.1.key == key).map curPush).toList
  | lastWritten, [], _, _ => by simp [label]
  | lastWritten, x :: popped, sorted, after => by
    have later : ∀ y ∈ popped, x.1.key ≤ y.1.key := fun y mem =>
      (TSortedKey.lt_iff.mp (List.rel_of_pairwise_cons sorted mem)).elim le_of_lt fun same => le_of_eq same.1
    have tail := filter_label key (nextWritten lastWritten x) popped sorted.of_cons
    rw [label, List.filter_cons, List.find?_cons]
    cases pushed : (x.2 && isNewKey lastWritten x.1.key) with
    | true =>
      -- a `PushCurKey`: `last_written` moves to its key
      obtain ⟨cur, moved⟩ := labelOne_of_pushed pushed
      have fresh : lastWritten ≠ some x.1.key := fun same => by simp [same, isNewKey] at pushed
      rw [moved] at tail
      rw [cur, moved, tail fun last same y mem => by cases same; exact later y mem]
      simp only [Bool.and_eq_true] at pushed
      by_cases keyed : x.1.key = key
      · subst keyed
        simp [curPush, TPush.isCur, TPush.entry, pushed.1, fresh]
      · have notFirst : (x.2 && x.1.key == key) = false := by simp [keyed]
        simp only [curPush, TPush.isCur, TPush.entry, keyed, beq_iff_eq, Bool.true_and, if_false,
          Option.some.injEq, notFirst]
        by_cases was : lastWritten = some key
        · have below : key < x.1.key := lt_of_le_of_ne (after key was x List.mem_cons_self) (Ne.symm keyed)
          rw [if_pos was, find?_eq_none_of_lt fun y mem => lt_of_lt_of_le below (later y mem)]
          rfl
        · rw [if_neg was]
    | false =>
      -- a `PushHistKey`: `last_written` stays
      obtain ⟨hist, stays⟩ := labelOne_of_not_pushed pushed
      rw [stays] at tail
      rw [stays, tail fun last same y mem => after last same y (List.mem_cons_of_mem x mem)]
      simp only [hist, Bool.false_and, Bool.false_eq_true, if_false]
      by_cases was : lastWritten = some key
      · rw [if_pos was, if_pos was]
      · have notFirst : (x.2 && x.1.key == key) = false := by
          cases current : x.2 with
          | false => rfl
          | true =>
            rw [current, Bool.true_and] at pushed
            have same := eq_of_isNewKey_eq_false pushed
            simp only [Bool.true_and, beq_eq_false_iff_ne]
            rintro rfl
            exact was same
        rw [if_neg was, if_neg was, notFirst]

/-- In heap order, a version of the same key at or after `x` is no newer than `x`. -/
theorem seqNum_le_of_sorted {pre post : List (Tagged κ ω)} {x z : Tagged κ ω}
    (sorted : (pre ++ x :: post).Pairwise fun a b => TSortedKey.lt (sortKey a) (sortKey b) = true)
    (later : z ∈ x :: post) (keyed : z.1.key = x.1.key) : z.1.seqNum ≤ x.1.seqNum := by
  rcases List.mem_cons.mp later with rfl | inPost
  · exact le_refl _
  · have ordered := List.rel_of_pairwise_cons (List.pairwise_append.mp sorted).2.1 inPost
    rcases TSortedKey.lt_iff.mp ordered with below | ⟨_, newer⟩
    · exact absurd keyed (ne_of_gt below)
    · exact newer

/-- Versions popped in heap order, each history version with a newer current version of its key
among them, are pushed as the claim asks. -/
theorem mergedKeys_label {popped : List (Tagged κ ω)}
    (sorted : popped.Pairwise fun a b => TSortedKey.lt (sortKey a) (sortKey b) = true)
    (covered : HistoryCovered popped) :
    MergedKeys (popped.map Prod.fst) (label none popped) where
  sorted := by
    rw [map_entry_label]
    exact List.pairwise_map.mpr sorted
  carries := by rw [map_entry_label]
  latest key mem := by
    obtain ⟨e, inEntries, rfl⟩ := List.mem_map.mp mem
    obtain ⟨y, inPopped, rfl⟩ := List.mem_map.mp inEntries
    -- the key has a current version, so a first one in heap order
    have current : ∃ c ∈ popped, (c.2 && c.1.key == y.1.key) = true := by
      cases isCur : y.2 with
      | true => exact ⟨y, inPopped, by simp [isCur]⟩
      | false =>
        obtain ⟨c, inPopped', cur, keyed, -⟩ := covered y inPopped isCur
        exact ⟨c, inPopped', by simp [cur, keyed]⟩
    obtain ⟨x, found⟩ := Option.isSome_iff_exists.mp (List.find?_isSome.mpr current)
    obtain ⟨first, pre, post, split, skipped⟩ := List.find?_eq_some_iff_append.mp found
    simp only [Bool.and_eq_true, beq_iff_eq] at first
    have splitSorted := split ▸ sorted
    refine ⟨x.1, List.mem_map_of_mem (List.mem_of_find?_eq_some found), first.2, ?_, ?_⟩
    · intro e' mem' keyed'
      obtain ⟨z, inPopped', rfl⟩ := List.mem_map.mp mem'
      have zIn := inPopped'
      rw [split] at zIn
      rcases List.mem_append.mp zIn with inPre | later
      · -- a version before the first current one is a history version, older than a current one after it
        have history : z.2 = false := by
          have notFirst := skipped z inPre
          simp only [keyed', beq_self_eq_true, Bool.and_true, Bool.not_eq_eq_eq_not, Bool.not_true] at notFirst
          exact notFirst
        obtain ⟨c, cIn, cCur, cKey, newer⟩ := covered z inPopped' history
        have notBefore : c ∉ pre := fun inPre' => by
          have notFirst := skipped c inPre'
          simp [cCur, cKey, keyed'] at notFirst
        rw [split] at cIn
        have cLater := (List.mem_append.mp cIn).resolve_left notBefore
        have atMost := seqNum_le_of_sorted splitSorted cLater (cKey.trans (keyed'.trans first.2.symm))
        omega
      · exact seqNum_le_of_sorted splitSorted later (keyed'.trans first.2.symm)
    · rw [filter_label y.1.key none popped sorted (by simp), if_neg (by simp), found]
      rfl

end Pushes

section Merge

variable [LinearOrder κ] (canTail canTailTombstones : Bool) (isTombstone : ω → Bool)

omit [LinearOrder κ] in
/-- The history keys a filter of their own marks are those the mark keeps. -/
theorem keptHist_map (p : THistoryKeyItem κ ω → Bool) :
    ∀ (pre : List Bool) (items : List (THistoryKeyItem κ ω)),
      keptHist (pre ++ items.map p) items pre.length = items.filter p
  | _, [] => rfl
  | pre, item :: items => by
    have found : (pre ++ (item :: items).map p)[pre.length]? = some (p item) := by simp
    have rest := keptHist_map p (pre ++ [p item]) items
    simp only [List.append_assoc, List.singleton_append, List.length_append, List.length_singleton] at rest
    unfold keptHist
    rw [found, List.map_cons, rest, List.filter_cons]
    cases p item <;> simp

/-- With `NumHistKeys` counting, a current cursor keeps the keys the claim keeps. -/
theorem curKept_eq_of_counts {file : TIndexFile κ ω} (counts : file.CountsHistory) :
    curKept true canTailTombstones isTombstone file.curKeys =
      file.curKeys.filter fun cur => !canTailTombstones || !isTombstone cur.value ||
        file.histKeys.any fun hist => hist.key = cur.key := by
  unfold curKept
  rw [if_pos rfl]
  apply List.filter_congr
  intro cur mem
  have some : 0 < cur.numHistKeys ↔ (file.histKeys.any fun hist => decide (hist.key = cur.key)) = true := by
    rw [counts cur mem, List.length_pos_iff_exists_mem]
    simp
  simp only [keepCur, some, Bool.decide_eq_true]

/-- The versions the cursors of a source stop at are the versions the claim keeps. -/
theorem map_fst_kept (keeper : List Nat) (file : TIndexFile κ ω) (counts : canTail = true → file.CountsHistory) :
    ((curKept canTail canTailTombstones isTombstone file.curKeys).map TKeyItem.tagged ++
        (histKept canTail (if canTail then historyKeeperFilter keeper file else []) file.histKeys 0).map
          THistoryKeyItem.tagged).map Prod.fst =
      file.keptEntries canTail canTailTombstones isTombstone keeper := by
  cases canTail with
  | false =>
    simp [curKept, histKept, TIndexFile.keptEntries, TKeyItem.tagged, THistoryKeyItem.tagged, Function.comp_def]
  | true =>
    have marked := keptHist_map (fun hist : THistoryKeyItem κ ω => decide (hist.seqNum ∈ keeper)) [] file.histKeys
    simp only [List.nil_append, List.length_nil] at marked
    simp only [curKept_eq_of_counts canTailTombstones isTombstone (counts rfl), histKept, if_true,
      historyKeeperFilter, marked, TIndexFile.keptEntries, List.map_append, List.map_map]
    rfl

/-- Over valid sources, each history version the cursors stop at has a newer current version of
its key that a current cursor stops at. -/
theorem historyCovered_kept (filterOf : TIndexFile κ ω → List Bool) {files : List (TIndexFile κ ω)}
    (valid : ∀ file ∈ files, file.Valid ∧ (canTail = true → file.CountsHistory)) :
    HistoryCovered (files.flatMap fun file =>
      (curKept canTail canTailTombstones isTombstone file.curKeys).map TKeyItem.tagged ++
        (histKept canTail (filterOf file) file.histKeys 0).map THistoryKeyItem.tagged) := by
  intro y mem history
  obtain ⟨file, fileIn, inFile⟩ := List.mem_flatMap.mp mem
  rcases List.mem_append.mp inFile with inCur | inHist
  · obtain ⟨c, _, rfl⟩ := List.mem_map.mp inCur
    cases history
  · obtain ⟨hist, histIn, rfl⟩ := List.mem_map.mp inHist
    have histMem := (histKept_sublist canTail (filterOf file) file.histKeys 0).subset histIn
    obtain ⟨cur, curIn, keyed⟩ := (valid file fileIn).1.histHasCur hist histMem
    have newer := (valid file fileIn).1.histOlder cur curIn hist histMem keyed.symm
    have kept : cur ∈ curKept canTail canTailTombstones isTombstone file.curKeys := by
      unfold curKept
      split
      · rename_i tail
        have counted : 0 < cur.numHistKeys := by
          rw [(valid file fileIn).2 tail cur curIn]
          exact List.length_pos_of_mem (List.mem_filter.mpr ⟨histMem, by simp [keyed]⟩)
        exact List.mem_filter.mpr ⟨curIn, by simp [keepCur, counted]⟩
      · exact curIn
    exact ⟨cur.tagged, List.mem_flatMap.mpr ⟨file, fileIn, List.mem_append_left _ (List.mem_map_of_mem kept)⟩,
      rfl, keyed, newer⟩

/-- Merging data files keeps exactly the right versions. For source index files that keep the
data-file invariant (and, under `CanTail`, whose `NumHistKeys` count their history keys), the key
merge of their index succeeds and pushes, in (key ascending, sequence number descending) order,
every version the claim keeps once: for each key one `PushCurKey`, of a version with the greatest
sequence number of that key, and `PushHistKey` for every other version. Under `CanTail` the
versions kept are all but the current tombstones without history keys, when
`CanTailTombstones`, and the history keys whose sequence number is not in `seq_keeper`. -/
theorem merge_keeps_right_versions (indexes : List (List (TIndexFile κ ω))) (files : List (TIndexFile κ ω))
    (valid : ∀ file ∈ files, file.Valid ∧ (canTail = true → file.CountsHistory)) :
    ∃ pushes, mergeIndex canTail canTailTombstones isTombstone indexes files = some pushes ∧
      MergedKeys (files.flatMap (TIndexFile.keptEntries canTail canTailTombstones isTombstone
        (seqKeeper canTailTombstones isTombstone indexes))) pushes := by
  set keeper := seqKeeper canTailTombstones isTombstone indexes
  set filterOf : TIndexFile κ ω → List Bool := fun file => if canTail then historyKeeperFilter keeper file else []
  set filters := if canTail then files.map (historyKeeperFilter keeper) else []
  have filtered : ∀ (j : Nat) file, files[j]? = some file → filters[0 + j]?.getD [] = filterOf file := by
    intro j file found
    cases canTail <;> simp [filters, filterOf, found]
  have room : canTail = true → ∀ (j : Nat) file, files[j]? = some file →
      file.histKeys.length ≤ (filters[j]?.getD []).length := by
    intro tail j file found
    rw [← Nat.zero_add j, filtered j file found]
    simp [filterOf, tail, historyKeeperFilter]
  obtain ⟨popped, merged, sorted, perm⟩ := mergeKeys_spec canTail canTailTombstones isTombstone filters
    (fun file mem => (valid file mem).1.curAscending.imp fun below => TSortedKey.lt_iff.mpr (Or.inl below))
    (fun file mem => (valid file mem).1.histSorted) room
  rw [flatten_initSlots canTail canTailTombstones isTombstone filters filterOf 0 files filtered] at perm
  have covered := (historyCovered_kept canTail canTailTombstones isTombstone filterOf valid).perm perm.symm
  refine ⟨label none popped, merged, (mergedKeys_label sorted covered).perm ((perm.map Prod.fst).trans ?_)⟩
  rw [List.map_flatMap]
  exact List.Perm.of_eq (List.flatMap_congr fun file mem => map_fst_kept canTail canTailTombstones isTombstone
    keeper file (valid file mem).2)

/-- Two sources of one index: key 1 written at 7 over versions at 5 and 4, and at 6 in the
other source; a tombstone of key 3 without history; key 2 written at 3. -/
def sampleFiles : List (TIndexFile Nat Nat) :=
  [⟨[⟨1, 11, 7, 2⟩, ⟨3, 0, 8, 0⟩], [⟨1, 12, 5⟩, ⟨1, 13, 4⟩]⟩, ⟨[⟨1, 10, 6, 0⟩, ⟨2, 14, 3, 0⟩], []⟩]

theorem merge_keeps_right_versions_sample :
    (∀ file ∈ sampleFiles, file.Valid ∧ (true = true → file.CountsHistory)) ∧
      ∃ pushes, mergeIndex true true (· == 0) [sampleFiles] sampleFiles = some pushes ∧
        MergedKeys (sampleFiles.flatMap (TIndexFile.keptEntries true true (· == 0)
          (seqKeeper true (· == 0) [sampleFiles]))) pushes :=
  ⟨by decide, merge_keeps_right_versions true true (· == 0) [sampleFiles] sampleFiles (by decide)⟩

/-- A history key whose file has no current key of its key. -/
def orphanHistory : List (TIndexFile Nat Nat) := [⟨[], [⟨1, 0, 3⟩]⟩]

/-- A tombstone of key 1 written at 9 over a version at 4, with `NumHistKeys` 0, and another
index whose current key was written at 4. -/
def uncountedTombstone : List (TIndexFile Nat Nat) := [⟨[⟨1, 0, 9, 0⟩], [⟨1, 5, 4⟩]⟩]

def otherIndex : List (TIndexFile Nat Nat) := [⟨[⟨7, 1, 4, 0⟩], []⟩]

/-- Without a current key for each history key, or with `NumHistKeys` not counting history
keys, the merge writes a key with no `PushCurKey`: the orphan history key goes out with
`PushHistKey` only, and under `CanTail` the uncounted tombstone is dropped while its older
version, whose sequence number another index keeps, goes out with `PushHistKey`. -/
theorem merge_loses_cur_key_without_invariants :
    ((∀ file ∈ orphanHistory, file.curKeys.Pairwise (fun a b => a.key < b.key) ∧
        file.histKeys.Pairwise (fun a b => TSortedKey.lt a.sortedKey b.sortedKey = true) ∧
        ∀ cur ∈ file.curKeys, ∀ hist ∈ file.histKeys, hist.key = cur.key → hist.seqNum < cur.seqNum) ∧
      mergeIndex false false (· == 0) [] orphanHistory = some [.histKey 3 1 0] ∧
      ¬ MergedKeys (orphanHistory.flatMap (TIndexFile.keptEntries false false (· == 0) [])) [.histKey 3 1 0]) ∧
    ((∀ file ∈ uncountedTombstone, file.Valid) ∧
      mergeIndex true true (· == 0) [uncountedTombstone, otherIndex] uncountedTombstone = some [.histKey 4 1 5] ∧
      ¬ MergedKeys (uncountedTombstone.flatMap (TIndexFile.keptEntries true true (· == 0)
        (seqKeeper true (· == 0) [uncountedTombstone, otherIndex]))) [.histKey 4 1 5]) := by
  refine ⟨⟨by decide, by decide +kernel, fun merged => ?_⟩, ⟨by decide, by decide +kernel, fun merged => ?_⟩⟩
  · obtain ⟨e, -, -, -, only⟩ := merged.latest 1 (by decide)
    simp [TPush.isCur] at only
  · obtain ⟨e, -, -, -, only⟩ := merged.latest 1 (by decide)
    simp [TPush.isCur] at only

end Merge

end Orly.Indy.Disk

import Mathlib
import Orly.Indy.KeyIndexLaws

/-! The files the key index writers leave keep the data-file invariant.

The merge relies on its sources keeping the data-file invariant (`TIndexFile.Valid`) and, under
`CanTail`, on `NumHistKeys` counting each key's history keys. A key index whose pushes follow
one another as `Follows` says (a current key starts a greater key, a history key goes on with
the key before it, older) and open with a current key falls into grouped segments
(`segmentsOf_of_chain_cur`), and grouped segments read back as a file that keeps both
(`valid_of_grouped`). Pushes that meet `MergedKeys` for versions no two of which share a key
and a sequence number follow one another so (`chain_of_mergedKeys`). A data file's `PushKey`
makes, of the entries of an index in the memory layer's order, the pushes `label` makes of
current versions, which meet `MergedKeys` (`writeDataIndex_valid`). -/
namespace Orly.Indy.Disk

variable {ι κ ω : Type}

section Grouped

variable [LinearOrder κ]

/-- Two pushes in a row as a valid key index has them: a current key starts a greater key, a
history key goes on with the key before it, older. -/
def Follows (a : TPush κ ω) : TPush κ ω → Prop
  | .curKey _ key _ => a.entry.key < key
  | .histKey seqNum key _ => a.entry.key = key ∧ seqNum < a.entry.seqNum

/-- Segments as a valid key index holds them: keys strictly ascending, and each segment's
history keys of its key, older than it, newest first. -/
structure Grouped (segs : List (TSegment κ ω)) : Prop where
  ascending : segs.Pairwise fun a b => a.key < b.key
  ownKey : ∀ seg ∈ segs, ∀ hist ∈ seg.hists, hist.key = seg.key ∧ hist.seqNum < seg.seqNum
  newestFirst : ∀ seg ∈ segs, seg.hists.Pairwise fun a b => b.seqNum < a.seqNum

theorem Grouped.nil : Grouped ([] : List (TSegment κ ω)) := ⟨.nil, nofun, nofun⟩

theorem Grouped.cons {seqNum : Nat} {key : κ} {value : ω} {hists : List (THistoryKeyItem κ ω)}
    {segs : List (TSegment κ ω)} (own : ∀ hist ∈ hists, hist.key = key ∧ hist.seqNum < seqNum)
    (newest : hists.Pairwise fun a b => b.seqNum < a.seqNum) (grouped : Grouped segs)
    (above : ∀ seg ∈ segs, key < seg.key) : Grouped (⟨seqNum, key, value, hists⟩ :: segs) where
  ascending := List.Pairwise.cons above grouped.ascending
  ownKey seg mem := by
    rcases List.mem_cons.mp mem with rfl | inSegs
    · exact own
    · exact grouped.ownKey seg inSegs
  newestFirst seg mem := by
    rcases List.mem_cons.mp mem with rfl | inSegs
    · exact newest
    · exact grouped.newestFirst seg inSegs

/-- After a push `x`, pushes in a chain of `Follows` open with history keys of `x`'s key, older
than it and newest first, and then fall into grouped segments of greater keys. -/
theorem segmentsOf_of_chain (x : TPush κ ω) (pushes : List (TPush κ ω)) (chain : (x :: pushes).IsChain Follows) :
    (∀ hist ∈ (segmentsOf pushes).1, hist.key = x.entry.key ∧ hist.seqNum < x.entry.seqNum) ∧
      ((segmentsOf pushes).1.Pairwise fun a b => b.seqNum < a.seqNum) ∧
      Grouped (segmentsOf pushes).2 ∧ ∀ seg ∈ (segmentsOf pushes).2, x.entry.key < seg.key := by
  induction pushes generalizing x with
  | nil => exact ⟨by simp [segmentsOf], .nil, .nil, by simp [segmentsOf]⟩
  | cons pushed pushes ih =>
    obtain ⟨follows, rest⟩ := List.isChain_cons_cons.mp chain
    obtain ⟨older, sorted, grouped, above⟩ := ih pushed rest
    cases pushed with
    | histKey seqNum key value =>
      simp only [Follows] at follows
      simp only [TPush.entry] at older above
      refine ⟨fun hist mem => ?_, List.Pairwise.cons (fun b mem => (older b mem).2) sorted, grouped,
        fun seg mem => follows.1 ▸ above seg mem⟩
      rcases List.mem_cons.mp mem with rfl | inOlder
      · exact ⟨follows.1.symm, follows.2⟩
      · exact ⟨(older hist inOlder).1.trans follows.1.symm, (older hist inOlder).2.trans follows.2⟩
    | curKey seqNum key value =>
      simp only [Follows] at follows
      simp only [TPush.entry] at older above
      refine ⟨by simp [segmentsOf], .nil, Grouped.cons older sorted grouped above, fun seg mem => ?_⟩
      rcases List.mem_cons.mp mem with rfl | inSegs
      · exact follows
      · exact follows.trans (above seg inSegs)

/-- Pushes in a chain of `Follows` that open with a current key fall into grouped segments,
with no history key ahead of the first current key. -/
theorem segmentsOf_of_chain_cur {pushes : List (TPush κ ω)} (chain : pushes.IsChain Follows)
    (opens : ∀ first ∈ pushes.head?, first.isCur = true) :
    (segmentsOf pushes).1 = [] ∧ Grouped (segmentsOf pushes).2 := by
  cases pushes with
  | nil => exact ⟨rfl, .nil⟩
  | cons first pushes =>
    cases first with
    | histKey => simp [TPush.isCur] at opens
    | curKey seqNum key value =>
      obtain ⟨older, sorted, grouped, above⟩ := segmentsOf_of_chain _ pushes chain
      exact ⟨rfl, Grouped.cons older sorted grouped above⟩

/-- The `TKeyItem` a segment's record reads back as. -/
def TSegment.item (seg : TSegment κ ω) : TKeyItem κ ω := ⟨seg.key, seg.value, seg.seqNum, seg.hists.length⟩

omit [LinearOrder κ] in
theorem map_item_segmentRecords (base : Nat) (segs : List (TSegment κ ω)) :
    (segmentRecords 0 base segs).map TKeyRecord.item = segs.map TSegment.item := by
  induction segs generalizing base with
  | nil => rfl
  | cons seg segs ih => simp [segmentRecords, ih, TKeyRecord.item, TSegment.item]

/-- In segments of strictly ascending keys, one key names one segment. -/
theorem Grouped.eq_of_key_eq {segs : List (TSegment κ ω)} (grouped : Grouped segs) {a b : TSegment κ ω}
    (inA : a ∈ segs) (inB : b ∈ segs) (same : a.key = b.key) : a = b :=
  List.inj_on_of_nodup_map ((List.pairwise_map.mpr grouped.ascending).imp ne_of_lt) inA inB same

/-- The history keys of one key among grouped segments are its own segment's. -/
theorem Grouped.filter_key {segs : List (TSegment κ ω)} (grouped : Grouped segs) {seg : TSegment κ ω}
    (mem : seg ∈ segs) : (segs.flatMap TSegment.hists).filter (fun hist => hist.key = seg.key) = seg.hists := by
  rw [List.filter_flatMap]
  induction segs with
  | nil => cases mem
  | cons first segs ih =>
    have rest : Grouped segs :=
      ⟨grouped.ascending.of_cons, fun s m => grouped.ownKey s (List.mem_cons_of_mem _ m),
        fun s m => grouped.newestFirst s (List.mem_cons_of_mem _ m)⟩
    have own := grouped.ownKey first List.mem_cons_self
    rw [List.flatMap_cons]
    rcases List.mem_cons.mp mem with rfl | inSegs
    · -- the first segment keeps its history keys; the later ones have greater keys
      have later : ∀ s ∈ segs, (s.hists.filter fun hist => decide (hist.key = seg.key)) = [] := by
        intro s inS
        rw [List.filter_eq_nil_iff]
        intro hist inHist
        have above := List.rel_of_pairwise_cons grouped.ascending inS
        simp [(grouped.ownKey s (List.mem_cons_of_mem _ inS) hist inHist).1, ne_of_gt above]
      rw [List.filter_eq_self.mpr (fun hist inHist => by simp [(own hist inHist).1]),
        List.flatMap_eq_nil_iff.mpr later, List.append_nil]
    · have below := List.rel_of_pairwise_cons grouped.ascending inSegs
      rw [List.filter_eq_nil_iff.mpr (fun hist inHist => by simp [(own hist inHist).1, ne_of_lt below]),
        List.nil_append, ih rest inSegs]

/-- Grouped segments read back as an index file that keeps the data-file invariant, with
`NumHistKeys` counting each key's history keys. -/
theorem valid_of_grouped {segs : List (TSegment κ ω)} (grouped : Grouped segs) :
    (⟨segs.map TSegment.item, segs.flatMap TSegment.hists⟩ : TIndexFile κ ω).Valid ∧
      (⟨segs.map TSegment.item, segs.flatMap TSegment.hists⟩ : TIndexFile κ ω).CountsHistory := by
  refine ⟨⟨?_, ?_, ?_, ?_⟩, ?_⟩
  · exact List.pairwise_map.mpr (grouped.ascending.imp id)
  · -- within a segment newest first, across segments by key
    refine List.pairwise_flatMap.mpr ⟨fun seg mem => ?_, grouped.ascending.imp_of_mem fun inA inB below => ?_⟩
    · refine (grouped.newestFirst seg mem).imp_of_mem fun inX inY newer => TSortedKey.lt_iff.mpr (Or.inr ⟨?_, le_of_lt newer⟩)
      exact ((grouped.ownKey seg mem _ inX).1.trans (grouped.ownKey seg mem _ inY).1.symm)
    · intro x inX y inY
      refine TSortedKey.lt_iff.mpr (Or.inl ?_)
      simp only [THistoryKeyItem.sortedKey, (grouped.ownKey _ inA x inX).1, (grouped.ownKey _ inB y inY).1]
      exact below
  · intro cur curIn hist histIn keyed
    obtain ⟨seg, segIn, rfl⟩ := List.mem_map.mp curIn
    obtain ⟨seg', segIn', inHists⟩ := List.mem_flatMap.mp histIn
    have own := grouped.ownKey seg' segIn' hist inHists
    rw [grouped.eq_of_key_eq segIn' segIn (own.1.symm.trans keyed)] at own
    exact own.2
  · intro hist histIn
    obtain ⟨seg, segIn, inHists⟩ := List.mem_flatMap.mp histIn
    exact ⟨seg.item, List.mem_map_of_mem segIn, (grouped.ownKey seg segIn hist inHists).1.symm⟩
  · intro cur curIn
    obtain ⟨seg, segIn, rfl⟩ := List.mem_map.mp curIn
    exact (congrArg List.length (grouped.filter_key segIn)).symm

/-- Each key among the pushes has its one current push, as new as any push of the key. -/
theorem MergedKeys.cur_of_mem {entries : List (TEntry κ ω)} {pushes : List (TPush κ ω)}
    (merged : MergedKeys entries pushes) {p : TPush κ ω} (mem : p ∈ pushes) :
    ∃ c ∈ pushes, c.isCur = true ∧ c.entry.key = p.entry.key ∧
      (∀ q ∈ pushes, q.entry.key = p.entry.key → q.entry.seqNum ≤ c.entry.seqNum) ∧
      (∀ q ∈ pushes, q.isCur = true → q.entry.key = p.entry.key → q = c) := by
  have carried : ∀ q ∈ pushes, q.entry ∈ entries := fun q inQ => merged.carries.subset (List.mem_map_of_mem inQ)
  obtain ⟨e, eIn, keyed, greatest, only⟩ := merged.latest p.entry.key (List.mem_map_of_mem (carried p mem))
  have inFilter : TPush.curKey e.seqNum e.key e.value ∈
      pushes.filter (fun push => push.isCur && push.entry.key == p.entry.key) := by
    rw [only]
    exact List.mem_singleton_self _
  refine ⟨_, List.mem_of_mem_filter inFilter, rfl, keyed, fun q inQ same => greatest _ (carried q inQ) same,
    fun q inQ current same => ?_⟩
  have inFilter' : q ∈ pushes.filter (fun push => push.isCur && push.entry.key == p.entry.key) :=
    List.mem_filter.mpr ⟨inQ, by simp [current, same]⟩
  rw [only] at inFilter'
  exact List.mem_singleton.mp inFilter'

/-- A merge's pushes, when no two versions of a key share a sequence number, open with a current
key and follow one another as a valid key index has them. -/
theorem chain_of_mergedKeys {entries : List (TEntry κ ω)} {pushes : List (TPush κ ω)}
    (merged : MergedKeys entries pushes) (distinct : entries.Pairwise fun a b => a.key = b.key → a.seqNum ≠ b.seqNum) :
    pushes.IsChain Follows ∧ ∀ first ∈ pushes.head?, first.isCur = true := by
  have sorted : pushes.Pairwise fun p q => TEntry.Before p.entry q.entry := List.pairwise_map.mp merged.sorted
  have apart : pushes.Pairwise fun p q => p.entry.key = q.entry.key → p.entry.seqNum ≠ q.entry.seqNum :=
    List.pairwise_map.mp ((merged.carries.pairwise_iff fun differ same => (differ same.symm).symm).mpr distinct)
  -- a push of a key that comes after the key's current push is older than it
  have olderAfter : ∀ {c q : TPush κ ω}, TEntry.Before c.entry q.entry → c.entry.key = q.entry.key →
      c.entry.seqNum ≠ q.entry.seqNum → q.entry.seqNum < c.entry.seqNum := by
    intro c q before same differ
    rcases TSortedKey.lt_iff.mp before with below | ⟨-, newer⟩
    · exact absurd same (ne_of_lt below)
    · exact lt_of_le_of_ne newer (Ne.symm differ)
  refine ⟨List.isChain_iff_forall_rel_of_append_cons_cons.mpr fun a b pre post split => ?_, ?_⟩
  · have bIn : b ∈ pushes := split ▸ List.mem_append_right _ (List.mem_cons_of_mem _ List.mem_cons_self)
    have parts := List.pairwise_append.mp (split ▸ sorted)
    have partsApart := List.pairwise_append.mp (split ▸ apart)
    have ab := List.rel_of_pairwise_cons parts.2.1 List.mem_cons_self
    have abApart := List.rel_of_pairwise_cons partsApart.2.1 List.mem_cons_self
    obtain ⟨c, cIn, current, keyed, greatest, only⟩ := merged.cur_of_mem bIn
    cases b with
    | histKey seqNum key value =>
      -- the key's current push comes before it, so at or before `a`: `a` has its key
      have notAfter : c ∉ post := fun inPost => by
        have bc := List.rel_of_pairwise_cons (List.pairwise_cons.mp parts.2.1).2 inPost
        have bcApart := List.rel_of_pairwise_cons (List.pairwise_cons.mp partsApart.2.1).2 inPost
        have := olderAfter bc keyed.symm (bcApart keyed.symm)
        have := greatest _ bIn rfl
        omega
      have sameKey : a.entry.key = key := by
        by_contra differ
        have below : a.entry.key < key := by
          rcases TSortedKey.lt_iff.mp ab with below | ⟨same, -⟩
          · exact below
          · exact absurd same differ
        rw [split] at cIn
        rcases List.mem_append.mp cIn with inPre | inRest
        · have ca := parts.2.2 c inPre a List.mem_cons_self
          rcases TSortedKey.lt_iff.mp ca with below' | ⟨same', -⟩
          · exact lt_asymm below (by rw [← show c.entry.key = key from keyed]; exact below')
          · exact differ (same'.symm.trans keyed)
        · rcases List.mem_cons.mp inRest with rfl | inRest'
          · exact differ keyed
          · rcases List.mem_cons.mp inRest' with rfl | inPost
            · simp [TPush.isCur] at current
            · exact notAfter inPost
      exact ⟨sameKey, olderAfter ab sameKey (abApart sameKey)⟩
    | curKey seqNum key value =>
      -- `b` is its key's current push, as new as any: `a` cannot have its key
      have bIsC := only _ bIn rfl rfl
      show a.entry.key < key
      rcases TSortedKey.lt_iff.mp ab with below | ⟨same, newer⟩
      · exact below
      · have atMost := greatest a (split ▸ List.mem_append_right _ List.mem_cons_self) same
        rw [← bIsC] at atMost
        exact absurd (le_antisymm atMost newer) (abApart same)
  · intro first opens
    cases pushes with
    | nil => cases opens
    | cons head rest =>
      obtain rfl := Option.some.inj opens
      obtain ⟨c, cIn, current, keyed, greatest, -⟩ := merged.cur_of_mem List.mem_cons_self
      rcases List.mem_cons.mp cIn with rfl | inRest
      · exact current
      · have before := List.rel_of_pairwise_cons sorted inRest
        have differ := List.rel_of_pairwise_cons apart inRest
        have := olderAfter before keyed.symm (differ keyed.symm)
        have := greatest _ List.mem_cons_self rfl
        omega

end Grouped

section Written

variable [LinearOrder κ]

/-- The versions an index file holds: its current keys', then its history keys'. -/
def TIndexFile.entries (file : TIndexFile κ ω) : List (TEntry κ ω) :=
  file.curKeys.map TKeyItem.entry ++ file.histKeys.map THistoryKeyItem.entry

/-- The version a segment's current key carries. -/
def TSegment.entry (seg : TSegment κ ω) : TEntry κ ω := ⟨seg.key, seg.value, seg.seqNum⟩

omit [LinearOrder κ] in
/-- The pushes carry the versions of their segments. -/
theorem perm_segmentsOf : ∀ pushes : List (TPush κ ω),
    (pushes.map TPush.entry).Perm ((segmentsOf pushes).1.map THistoryKeyItem.entry ++
      ((segmentsOf pushes).2.map TSegment.entry ++ ((segmentsOf pushes).2.flatMap TSegment.hists).map THistoryKeyItem.entry))
  | [] => .nil
  | .histKey seqNum key value :: pushes => (perm_segmentsOf pushes).cons _
  | .curKey seqNum key value :: pushes => by
    refine ((perm_segmentsOf pushes).trans ?_).cons _
    simp only [segmentsOf, List.flatMap_cons, List.map_append]
    exact List.perm_append_comm_assoc _ _ _

omit [LinearOrder κ] in
/-- The index file a run of pushes reads back as, when the pushes fall into grouped segments
with no history key ahead of the first current key. -/
theorem readIndexFile_writeKeys_of_grouped (start : Nat) {pushes : List (TPush κ ω)}
    (noneAhead : (segmentsOf pushes).1 = []) :
    readIndexFile (writeKeys start pushes).indexMeta (writeKeys start pushes).keyStream =
      some ⟨(segmentsOf pushes).2.map TSegment.item, (segmentsOf pushes).2.flatMap TSegment.hists⟩ := by
  simp only [readIndexFile, readKeyIndex_writeKeys, noneAhead, List.length_nil, Option.map_some,
    map_item_segmentRecords, List.nil_append]

/-- A writer handed pushes that meet `MergedKeys` for some versions, no two of a key at one
sequence number, leaves a key index that reads back as an index file keeping the data-file
invariant, with `NumHistKeys` counting each key's history keys, and carrying those versions. -/
theorem written_valid_of_mergedKeys (start : Nat) {entries : List (TEntry κ ω)} {pushes : List (TPush κ ω)}
    (merged : MergedKeys entries pushes) (distinct : entries.Pairwise fun a b => a.key = b.key → a.seqNum ≠ b.seqNum) :
    ∃ file, readIndexFile (writeKeys start pushes).indexMeta (writeKeys start pushes).keyStream = some file ∧
      file.Valid ∧ file.CountsHistory ∧ file.entries.Perm entries := by
  obtain ⟨chain, opens⟩ := chain_of_mergedKeys merged distinct
  obtain ⟨noneAhead, grouped⟩ := segmentsOf_of_chain_cur chain opens
  obtain ⟨valid, counts⟩ := valid_of_grouped grouped
  refine ⟨_, readIndexFile_writeKeys_of_grouped start noneAhead, valid, counts, ?_⟩
  have carried := (perm_segmentsOf pushes).symm.trans merged.carries
  rw [noneAhead, List.map_nil, List.nil_append] at carried
  have items : ((segmentsOf pushes).2.map TSegment.item).map TKeyItem.entry = (segmentsOf pushes).2.map TSegment.entry := by
    rw [List.map_map]
    rfl
  rw [TIndexFile.entries, items]
  exact carried

end Written

section DataFile

variable [LinearOrder κ]

/-- A memory-layer entry as `PushKey` sees it: a version of its key, to be written current when
its key is new. -/
def TFlushEntry.tagged (entry : TFlushEntry κ ω) : Tagged κ ω := (⟨entry.key, entry.op, entry.sequenceNumber⟩, true)

/-- `PushKey` is the push `label` makes of the entry, from `PrevKeyWritten`. -/
theorem pushKey_writer (file : TDataIndexFile ι κ ω) (entry : TFlushEntry κ ω) :
    (file.pushKey entry).writer = file.writer.push (labelOne file.prevKeyWritten entry.tagged) ∧
      (file.pushKey entry).prevKeyWritten = nextWritten file.prevKeyWritten entry.tagged := by
  unfold TDataIndexFile.pushKey
  cases fresh : isNewKey file.prevKeyWritten entry.key <;>
    simp [fresh, labelOne, nextWritten, TFlushEntry.tagged, TKeyIndexWriter.push]

theorem foldl_pushKey_writer :
    ∀ (entries : List (TFlushEntry κ ω)) (file : TDataIndexFile ι κ ω),
      (entries.foldl TDataIndexFile.pushKey file).writer =
        (label file.prevKeyWritten (entries.map TFlushEntry.tagged)).foldl TKeyIndexWriter.push file.writer
  | [], _ => rfl
  | entry :: entries, file => by
    obtain ⟨writer, written⟩ := pushKey_writer file entry
    rw [List.foldl_cons, foldl_pushKey_writer entries, writer, written]
    rfl

/-- A data file writes the key index of an index as the shared writer does the pushes `label`
makes of its entries. -/
theorem writeDataIndex_writer (indexId : ι) (start : Nat) (entries : List (TFlushEntry κ ω)) :
    (writeDataIndex indexId start entries).writer = writeKeys start (label none (entries.map TFlushEntry.tagged)) := by
  unfold writeDataIndex TDataIndexFile.flushHistory
  dsimp only
  rw [foldl_pushKey_writer]
  rfl

/-- The key index a data file writes for the entries of one index, in the memory layer's order
(key ascending, then sequence number descending, no two versions of a key at one sequence
number), reads back as an index file that keeps the data-file invariant, with `NumHistKeys`
counting each key's history keys, and carrying exactly the entries. -/
theorem writeDataIndex_valid (indexId : ι) (start : Nat) {entries : List (TFlushEntry κ ω)}
    (ordered : entries.Pairwise fun a b => a.key < b.key ∨ a.key = b.key ∧ b.sequenceNumber < a.sequenceNumber) :
    ∃ file, readIndexFile (writeDataIndex indexId start entries).writer.indexMeta
        (writeDataIndex indexId start entries).writer.keyStream = some file ∧
      file.Valid ∧ file.CountsHistory ∧ file.entries.Perm (entries.map fun entry => ⟨entry.key, entry.op, entry.sequenceNumber⟩) := by
  have sorted : (entries.map TFlushEntry.tagged).Pairwise fun a b => TSortedKey.lt (sortKey a) (sortKey b) = true := by
    refine List.pairwise_map.mpr (ordered.imp fun before => TSortedKey.lt_iff.mpr ?_)
    rcases before with below | ⟨same, newer⟩
    · exact Or.inl below
    · exact Or.inr ⟨same, le_of_lt newer⟩
  have covered : HistoryCovered (entries.map TFlushEntry.tagged) := fun y mem older => by
    obtain ⟨entry, -, rfl⟩ := List.mem_map.mp mem
    cases older
  have merged := mergedKeys_label sorted covered
  have distinct : ((entries.map TFlushEntry.tagged).map Prod.fst).Pairwise
      fun a b => a.key = b.key → a.seqNum ≠ b.seqNum := by
    refine List.pairwise_map.mpr (List.pairwise_map.mpr (ordered.imp fun before same => ?_))
    rcases before with below | ⟨-, newer⟩
    · exact absurd same (ne_of_lt below)
    · exact ne_of_gt newer
  rw [writeDataIndex_writer]
  simpa [Function.comp_def, TFlushEntry.tagged] using written_valid_of_mergedKeys start merged distinct

/-- Key 1 written at 7 over a version at 5, then key 3. -/
def sampleEntries : List (TFlushEntry Nat Nat) :=
  [⟨1, 11, 7, defaultCore, defaultCore⟩, ⟨1, 12, 5, defaultCore, defaultCore⟩, ⟨3, 0, 8, defaultCore, defaultCore⟩]

theorem writeDataIndex_valid_sample :
    sampleEntries.Pairwise (fun a b => a.key < b.key ∨ a.key = b.key ∧ b.sequenceNumber < a.sequenceNumber) ∧
      ∃ file, readIndexFile (writeDataIndex (0 : Nat) 0 sampleEntries).writer.indexMeta
          (writeDataIndex (0 : Nat) 0 sampleEntries).writer.keyStream = some file ∧
        file.Valid ∧ file.CountsHistory ∧
        file.entries.Perm (sampleEntries.map fun entry => ⟨entry.key, entry.op, entry.sequenceNumber⟩) :=
  ⟨by decide, writeDataIndex_valid 0 0 (by decide)⟩

end DataFile

section Merge

variable [LinearOrder κ] (canTail canTailTombstones : Bool) (isTombstone : ω → Bool)

end Merge

end Orly.Indy.Disk

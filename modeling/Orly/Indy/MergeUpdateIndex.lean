import Mathlib
import Orly.Indy.KeyIndex
import Orly.Indy.UpdateIndex

/-! The update index of a merged data file (`TMergeDataFile`, `orly/indy/disk/merge_data_file.cc`).

The merge's index files hand the update collector one `TUpdateObj` per key they push, with its
sequence number, where the key went and its index (`PushCurKey`, `PushHistKey`); that
constructor leaves the object's `Metadata` and `Id` default. The pass over the collector is the
data file's pass written again: a key pointer per object, a bucket entry whenever the sequence
number changes. The two lines that would carry the new update's metadata and id are compiled
out (`#if 0`, "TODO: merge in cur_meta and cur_id"), so `cur_meta` and `cur_id` keep the void
cores they start as. The pass also records the first and the last sequence number it reads,
`LowestSeq` and `HighestSeq`, and asserts that the second is not below the first.

So the merge's pass is the data file's pass over the same objects with void metadata and id
(`foldl_step_eq`), and over the updates the collector yields in order it writes the bucket
entry each update should have, with void metadata and id for every update, not only for the
first as a data file does (`writeMergeUpdateIndex_voids_metadata`). -/
namespace Orly.Indy.Disk

open Orly.Atom

variable {ι : Type} (byteOffsetOfHistory : ι → Nat)

/-- The merge's `TUpdateObj` as the data file's pass would read it: `TUpdateObj(seq_num,
offset, is_current, index_id)` leaves `Metadata` and `Id` default-constructed, that is void. -/
def TMergeUpdateObj.toUpdateObj (obj : TMergeUpdateObj ι) : TUpdateObj ι :=
  ⟨obj.seqNum, defaultCore, defaultCore, obj.offset, obj.isCurrent, obj.indexId⟩

namespace MergeUpdatePass

/-- The key pointer the merge writes: a current key's offset as it is, a history key's rebased
onto `index_map[obj.IndexId]->ByteOffsetOfHistory`. -/
def keyPtr (obj : TMergeUpdateObj ι) : Nat :=
  if obj.isCurrent then obj.offset else byteOffsetOfHistory obj.indexId + obj.offset

/-- A new sequence number: write the bucket entry carried so far, and carry the object's
sequence number with a bucket after the last. `cur_meta` and `cur_id` are not assigned. -/
def startBucket (pass : UpdateIndexPass) (obj : TMergeUpdateObj ι) : UpdateIndexPass :=
  { pass with curSeqNum := obj.seqNum, bucketPtr := pass.bucketPtr + pass.numAccum * updateKeyPtrSize,
              numAccum := 0, buckets := pass.buckets ++ [pass.bucket] }

/-- One round of the merge's `while (update_csr)` loop. -/
def step (pass : UpdateIndexPass) (obj : TMergeUpdateObj ι) : UpdateIndexPass :=
  let pass := if obj.seqNum ≠ pass.curSeqNum then startBucket pass obj else pass
  { pass with keyPtrs := pass.keyPtrs ++ [keyPtr byteOffsetOfHistory obj], numAccum := pass.numAccum + 1 }

end MergeUpdatePass

/-- What the merge's update pass leaves: the bucket entries written to `seq_stream`, the key
pointers written to `ptr_stream`, `LowestSeq` and `HighestSeq`. -/
structure TMergeUpdateIndex where
  buckets : List TBucketEntry
  keyPtrs : List Nat
  lowestSeq : Nat
  highestSeq : Nat
  deriving DecidableEq

/-- The merge's update index writer over the objects the collector yields, with the buckets
laid out from `byte_offset_of_bucket_entries`. An empty collector fails `assert(update_csr)`, and
a `HighestSeq` below `LowestSeq` the assert after the loop. -/
def writeMergeUpdateIndex (byteOffsetOfBucketEntries : Nat) :
    List (TMergeUpdateObj ι) → Option TMergeUpdateIndex
  | [] => none
  | first :: rest =>
    let pass := (first :: rest).foldl (MergeUpdatePass.step byteOffsetOfHistory)
      ⟨first.seqNum, defaultCore, defaultCore, byteOffsetOfBucketEntries, 0, [], []⟩
    if first.seqNum ≤ pass.curSeqNum then
      some ⟨pass.buckets ++ [pass.bucket], pass.keyPtrs, first.seqNum, pass.curSeqNum⟩
    else none

/-- The objects the collector yields for one update of a merged file: the first, and the others
of its sequence number. -/
structure MergeUpdateGroup (ι : Type) where
  first : TMergeUpdateObj ι
  rest : List (TMergeUpdateObj ι)
  sameSeq : ∀ obj ∈ rest, obj.seqNum = first.seqNum

namespace MergeUpdateGroup

/-- An update's objects in the collector's order. -/
def objs (group : MergeUpdateGroup ι) : List (TMergeUpdateObj ι) := group.first :: group.rest

/-- The same objects as the data file's pass reads them, with void metadata and id. -/
def toUpdateGroup (group : MergeUpdateGroup ι) : UpdateGroup ι where
  first := group.first.toUpdateObj
  rest := group.rest.map TMergeUpdateObj.toUpdateObj
  sameSeq := fun obj mem => by
    obtain ⟨other, inRest, rfl⟩ := List.mem_map.mp mem
    exact group.sameSeq other inRest

end MergeUpdateGroup

/-! ## The merge's pass is the data file's over void metadata -/

section Pass

variable {pass : UpdateIndexPass} (obj : TMergeUpdateObj ι)

namespace MergeUpdatePass

@[simp] theorem curSeqNum_step : (step byteOffsetOfHistory pass obj).curSeqNum = obj.seqNum := by
  by_cases same : obj.seqNum = pass.curSeqNum <;> simp [step, startBucket, same]

/-- The pass never assigns the metadata and id it carries. -/
@[simp] theorem curMeta_step : (step byteOffsetOfHistory pass obj).curMeta = pass.curMeta := by
  by_cases same : obj.seqNum = pass.curSeqNum <;> simp [step, startBucket, same]

@[simp] theorem curId_step : (step byteOffsetOfHistory pass obj).curId = pass.curId := by
  by_cases same : obj.seqNum = pass.curSeqNum <;> simp [step, startBucket, same]

/-- While it carries void metadata and id, a round of the merge's pass is a round of the data
file's pass over the object with void metadata and id. -/
theorem step_eq (voidMeta : pass.curMeta = defaultCore) (voidId : pass.curId = defaultCore) :
    step byteOffsetOfHistory pass obj = UpdateIndexPass.step byteOffsetOfHistory pass obj.toUpdateObj := by
  have keyPtrs : UpdateIndexPass.keyPtr byteOffsetOfHistory obj.toUpdateObj = keyPtr byteOffsetOfHistory obj := rfl
  by_cases same : obj.seqNum = pass.curSeqNum
  · rw [Orly.Indy.step_of_same byteOffsetOfHistory (show obj.toUpdateObj.sequenceNumber = pass.curSeqNum from same)]
    simp only [step, same, ne_eq, not_true_eq_false, if_false, UpdateIndexPass.pushKeyPtr, keyPtrs]
  · rw [Orly.Indy.step_of_new byteOffsetOfHistory (show obj.toUpdateObj.sequenceNumber ≠ pass.curSeqNum from same)]
    simp only [step, same, ne_eq, not_false_eq_true, if_true, startBucket, UpdateIndexPass.startBucket,
      UpdateIndexPass.pushKeyPtr, keyPtrs]
    -- the data file's pass carries the object's metadata and id, void as the merge's stay
    rw [voidMeta, voidId]
    rfl

end MergeUpdatePass

/-- The whole pass, from void metadata and id, is the data file's pass over the objects with
void metadata and id. -/
theorem foldl_step_eq (objs : List (TMergeUpdateObj ι)) :
    ∀ pass : UpdateIndexPass, pass.curMeta = defaultCore → pass.curId = defaultCore →
      objs.foldl (MergeUpdatePass.step byteOffsetOfHistory) pass =
        (objs.map TMergeUpdateObj.toUpdateObj).foldl (UpdateIndexPass.step byteOffsetOfHistory) pass := by
  induction objs with
  | nil => intro pass _ _; rfl
  | cons obj objs ih =>
    intro pass voidMeta voidId
    rw [List.foldl_cons, List.map_cons, List.foldl_cons, ← MergeUpdatePass.step_eq byteOffsetOfHistory obj voidMeta voidId]
    exact ih _ (by rw [MergeUpdatePass.curMeta_step, voidMeta]) (by rw [MergeUpdatePass.curId_step, voidId])

/-- The pass ends carrying the last object's sequence number: that is `HighestSeq`. -/
theorem curSeqNum_foldl_step (obj : TMergeUpdateObj ι) (objs : List (TMergeUpdateObj ι)) (pass : UpdateIndexPass) :
    ((obj :: objs).foldl (MergeUpdatePass.step byteOffsetOfHistory) pass).curSeqNum =
      ((obj :: objs).getLast (List.cons_ne_nil _ _)).seqNum := by
  induction objs generalizing obj pass with
  | nil => simp
  | cons next objs ih =>
    rw [List.foldl_cons, ih next, List.getLast_cons (List.cons_ne_nil _ _)]

end Pass

/-! ## The update index of a merged file -/

section Index

variable (base : Nat) (group : MergeUpdateGroup ι) (groups : List (MergeUpdateGroup ι))

theorem MergeUpdateGroup.seqNum_of_mem {group : MergeUpdateGroup ι} {obj : TMergeUpdateObj ι}
    (mem : obj ∈ group.objs) : obj.seqNum = group.first.seqNum := by
  rcases List.mem_cons.mp mem with rfl | inRest
  · rfl
  · exact group.sameSeq obj inRest

/-- Over the objects of a run of updates the pass ends carrying the last update's sequence
number. -/
theorem curSeqNum_foldl_groups (pass : UpdateIndexPass) :
    (((group :: groups).flatMap MergeUpdateGroup.objs).foldl (MergeUpdatePass.step byteOffsetOfHistory) pass).curSeqNum =
      ((group :: groups).getLast (List.cons_ne_nil _ _)).first.seqNum := by
  induction groups generalizing group pass with
  | nil =>
    simp only [List.flatMap_cons, List.flatMap_nil, List.append_nil, MergeUpdateGroup.objs, List.getLast_singleton]
    rw [curSeqNum_foldl_step]
    exact MergeUpdateGroup.seqNum_of_mem (List.getLast_mem _)
  | cons next groups ih =>
    rw [List.flatMap_cons, List.foldl_append, ih next, List.getLast_cons (List.cons_ne_nil _ _)]

theorem map_toUpdateObj_flatMap :
    (groups.flatMap MergeUpdateGroup.objs).map TMergeUpdateObj.toUpdateObj =
      (groups.map MergeUpdateGroup.toUpdateGroup).flatMap UpdateGroup.objs := by
  simp [List.map_flatMap, List.flatMap_map, MergeUpdateGroup.objs, MergeUpdateGroup.toUpdateGroup,
    UpdateGroup.objs]

/-- Every bucket entry expected of updates whose objects carry void metadata and id records
void metadata and id. -/
theorem expectedBuckets_toUpdateGroup_void :
    ∀ (bucketPtr : Nat) (groups : List (MergeUpdateGroup ι)),
      ∀ bucket ∈ expectedBuckets bucketPtr (groups.map MergeUpdateGroup.toUpdateGroup),
        bucket.metadata = defaultCore ∧ bucket.id = defaultCore
  | _, [], bucket, mem => absurd mem (by simp [expectedBuckets])
  | bucketPtr, group :: groups, bucket, mem => by
    rw [List.map_cons, expectedBuckets, List.mem_cons] at mem
    rcases mem with rfl | later
    · exact ⟨rfl, rfl⟩
    · exact expectedBuckets_toUpdateGroup_void _ groups bucket later

/-- The update index of a merged file, over updates of strictly ascending sequence numbers:
the key pointers of every object in order, the bucket entry each update should have with void
metadata and id for every update, and the first and the last sequence numbers as `LowestSeq`
and `HighestSeq`, the assert between them passing. -/
theorem writeMergeUpdateIndex_voids_metadata
    (ascending : ((group :: groups).map (·.first.seqNum)).Pairwise (· < ·)) :
    writeMergeUpdateIndex byteOffsetOfHistory base ((group :: groups).flatMap MergeUpdateGroup.objs) =
        some ⟨expectedBuckets base ((group :: groups).map MergeUpdateGroup.toUpdateGroup),
          ((group :: groups).flatMap MergeUpdateGroup.objs).map (MergeUpdatePass.keyPtr byteOffsetOfHistory),
          group.first.seqNum, ((group :: groups).getLast (List.cons_ne_nil _ _)).first.seqNum⟩ ∧
      ∀ bucket ∈ expectedBuckets base ((group :: groups).map MergeUpdateGroup.toUpdateGroup),
        bucket.metadata = defaultCore ∧ bucket.id = defaultCore := by
  refine ⟨?_, expectedBuckets_toUpdateGroup_void base (group :: groups)⟩
  set objs := (group :: groups).flatMap MergeUpdateGroup.objs
  set init : UpdateIndexPass := ⟨group.first.seqNum, defaultCore, defaultCore, base, 0, [], []⟩
  set pass := objs.foldl (MergeUpdatePass.step byteOffsetOfHistory) init with passDef
  have write : writeMergeUpdateIndex byteOffsetOfHistory base objs =
      if group.first.seqNum ≤ pass.curSeqNum then
        some ⟨pass.buckets ++ [pass.bucket], pass.keyPtrs, group.first.seqNum, pass.curSeqNum⟩
      else none := rfl
  have highest := curSeqNum_foldl_groups byteOffsetOfHistory group groups init
  -- the last update's sequence number is not below the first's, so the assert passes
  have ordered : group.first.seqNum ≤ ((group :: groups).getLast (List.cons_ne_nil _ _)).first.seqNum := by
    rcases List.mem_cons.mp (List.getLast_mem (List.cons_ne_nil group groups)) with same | later
    · rw [same]
    · exact Nat.le_of_lt (List.rel_of_pairwise_cons ascending (List.mem_map_of_mem later))
  -- the merge's pass is the data file's over the objects with void metadata and id
  have ascending' : (((group :: groups).map MergeUpdateGroup.toUpdateGroup).map
      (·.first.sequenceNumber)).Pairwise (· < ·) := by
    simpa [MergeUpdateGroup.toUpdateGroup, TMergeUpdateObj.toUpdateObj, Function.comp_def] using ascending
  have unfolded : writeUpdateIndex byteOffsetOfHistory base
      (((group :: groups).map MergeUpdateGroup.toUpdateGroup).flatMap UpdateGroup.objs) =
        some (pass.buckets ++ [pass.bucket], pass.keyPtrs) := by
    rw [passDef, foldl_step_eq byteOffsetOfHistory objs init rfl rfl, map_toUpdateObj_flatMap]
    rfl
  have data := writeUpdateIndex_eq byteOffsetOfHistory base group.toUpdateGroup
    (groups.map MergeUpdateGroup.toUpdateGroup) ascending'
  rw [← List.map_cons, unfolded, Option.some.injEq, Prod.mk.injEq] at data
  obtain ⟨buckets, keyPtrs⟩ := data
  rw [write, if_pos (highest ▸ ordered), highest, buckets, keyPtrs, ← map_toUpdateObj_flatMap, List.map_map]
  rfl

/-- An update at 5 of a current key and a history key of index 0, and one at 7. -/
def sampleMergeGroup : MergeUpdateGroup Nat := ⟨⟨5, 64, true, 0⟩, [⟨5, 8, false, 0⟩], by decide⟩

def laterMergeGroup : MergeUpdateGroup Nat := ⟨⟨7, 136, true, 0⟩, [], by decide⟩

theorem writeMergeUpdateIndex_voids_metadata_sample :
    ([sampleMergeGroup, laterMergeGroup].map (·.first.seqNum)).Pairwise (· < ·) ∧
      (writeMergeUpdateIndex (fun _ => 4096) 1000 ([sampleMergeGroup, laterMergeGroup].flatMap MergeUpdateGroup.objs) =
          some ⟨expectedBuckets 1000 ([sampleMergeGroup, laterMergeGroup].map MergeUpdateGroup.toUpdateGroup),
            ([sampleMergeGroup, laterMergeGroup].flatMap MergeUpdateGroup.objs).map (MergeUpdatePass.keyPtr fun _ => 4096),
            sampleMergeGroup.first.seqNum,
            ([sampleMergeGroup, laterMergeGroup].getLast (List.cons_ne_nil _ _)).first.seqNum⟩ ∧
        ∀ bucket ∈ expectedBuckets 1000 ([sampleMergeGroup, laterMergeGroup].map MergeUpdateGroup.toUpdateGroup),
          bucket.metadata = defaultCore ∧ bucket.id = defaultCore) :=
  ⟨by decide, writeMergeUpdateIndex_voids_metadata (fun _ => 4096) 1000 sampleMergeGroup [laterMergeGroup] (by decide)⟩

end Index

end Orly.Indy.Disk

import Orly.Atom.Core

/-! The update index of a data file (`TDataFile`, `orly/indy/disk/data_file.cc`).

While the key indexes are written, `TIndexFile::PushKey` emplaces one `TUpdateObj` per
entry into the update collector: the entry's sequence number, metadata and id, and where
the entry's key is stored, a current-key record or a place in its index's history section.
The collector yields them in sequence order. One pass over it then writes a key pointer
per object, a history offset rebased onto the start of its index's history section, and a
bucket entry per sequence number: the number, the metadata and id, and the offset and
count of the bucket's key pointers.

The pass writes a bucket entry when the sequence number changes, from what it carries. It
starts carrying the first object's sequence number but default-constructed metadata and
id cores, `TCore()`, which are void, and the first object does not change the sequence
number: the first bucket entry records void metadata and id (`writeUpdateIndex_eq`).
Every other bucket entry, and every key pointer, is the one the updates give. -/
namespace Orly.Indy

open Orly.Atom

/-- `TCore()`: the default constructor inits a void core. -/
def defaultCore : Core := ⟨.void, .direct zeroArea⟩

/-- `TUpdateObj`: what `PushKey` records of one entry. -/
structure TUpdateObj (ι : Type) where
  sequenceNumber : Nat
  metadata : Core
  id : Core
  offset : Nat
  isCurrent : Bool
  indexId : ι
  deriving DecidableEq

/-- A bucket entry of the update index, as the pass writes it to the sequence stream. -/
structure TBucketEntry where
  sequenceNumber : Nat
  metadata : Core
  id : Core
  bucketPtr : Nat
  numKeyPtrs : Nat
  deriving DecidableEq

/-- `UpdateKeyPtrSize`: a key pointer is a `size_t`. -/
def updateKeyPtrSize : Nat := 8

/-- What the pass carries from one object to the next, and what it has written. -/
structure UpdateIndexPass where
  curSeqNum : Nat
  curMeta : Core
  curId : Core
  bucketPtr : Nat
  numAccum : Nat
  /-- The bucket entries written to `seq_stream`. -/
  buckets : List TBucketEntry
  /-- The key pointers written to `ptr_stream`. -/
  keyPtrs : List Nat

variable {ι : Type} (byteOffsetOfHistory : ι → Nat)

namespace UpdateIndexPass

/-- The bucket entry for what the pass carries. -/
def bucket (pass : UpdateIndexPass) : TBucketEntry :=
  ⟨pass.curSeqNum, pass.curMeta, pass.curId, pass.bucketPtr, pass.numAccum⟩

/-- A new sequence number: write the bucket entry carried so far, and carry the
object's sequence number, metadata and id, with a bucket that starts after the last. -/
def startBucket (pass : UpdateIndexPass) (obj : TUpdateObj ι) : UpdateIndexPass :=
  { curSeqNum := obj.sequenceNumber, curMeta := obj.metadata, curId := obj.id,
    bucketPtr := pass.bucketPtr + pass.numAccum * updateKeyPtrSize, numAccum := 0,
    buckets := pass.buckets ++ [pass.bucket], keyPtrs := pass.keyPtrs }

/-- The key pointer written for an object: a current key's offset as it is, a history
key's rebased onto its index's `ByteOffsetOfHistory`, which `FlushHistory` has set to the
start of the history section. -/
def keyPtr (obj : TUpdateObj ι) : Nat :=
  if obj.isCurrent then obj.offset else byteOffsetOfHistory obj.indexId + obj.offset

/-- Write an object's key pointer into the current bucket. -/
def pushKeyPtr (pass : UpdateIndexPass) (obj : TUpdateObj ι) : UpdateIndexPass :=
  { pass with keyPtrs := pass.keyPtrs ++ [keyPtr byteOffsetOfHistory obj],
              numAccum := pass.numAccum + 1 }

/-- One round of the `while (update_csr)` loop. -/
def step (pass : UpdateIndexPass) (obj : TUpdateObj ι) : UpdateIndexPass :=
  pushKeyPtr byteOffsetOfHistory
    (if obj.sequenceNumber ≠ pass.curSeqNum then pass.startBucket obj else pass) obj

end UpdateIndexPass

open UpdateIndexPass

/-- The update index writer: the bucket entries and the key pointers the pass over the
collector writes, with the buckets laid out from `byteOffsetOfBucketEntries`. An empty
collector is `none`: the code asserts a first object. -/
def writeUpdateIndex (byteOffsetOfBucketEntries : Nat) :
    List (TUpdateObj ι) → Option (List TBucketEntry × List Nat)
  | [] => none
  | first :: rest =>
    let pass := (first :: rest).foldl (step byteOffsetOfHistory)
      ⟨first.sequenceNumber, defaultCore, defaultCore, byteOffsetOfBucketEntries, 0, [], []⟩
    some (pass.buckets ++ [pass.bucket], pass.keyPtrs)

/-- The objects the collector yields for one update: the first, and the others of its
sequence number. -/
structure UpdateGroup (ι : Type) where
  first : TUpdateObj ι
  rest : List (TUpdateObj ι)
  sameSeq : ∀ obj ∈ rest, obj.sequenceNumber = first.sequenceNumber

/-- An update's objects in the collector's order. -/
def UpdateGroup.objs (group : UpdateGroup ι) : List (TUpdateObj ι) := group.first :: group.rest

/-- The bucket entries an index of the updates `groups` should hold, with buckets laid out
from `bucketPtr`: one per update, with its sequence number, metadata and id, and a bucket
of one key pointer per object. -/
def expectedBuckets (bucketPtr : Nat) : List (UpdateGroup ι) → List TBucketEntry
  | [] => []
  | group :: groups =>
    ⟨group.first.sequenceNumber, group.first.metadata, group.first.id, bucketPtr,
      group.rest.length + 1⟩ ::
      expectedBuckets (bucketPtr + (group.rest.length + 1) * updateKeyPtrSize) groups

section Pass

variable {pass : UpdateIndexPass} {obj : TUpdateObj ι}

theorem step_of_same (same : obj.sequenceNumber = pass.curSeqNum) :
    step byteOffsetOfHistory pass obj = pushKeyPtr byteOffsetOfHistory pass obj := by
  simp [step, same]

theorem step_of_new (new : obj.sequenceNumber ≠ pass.curSeqNum) :
    step byteOffsetOfHistory pass obj = pushKeyPtr byteOffsetOfHistory (pass.startBucket obj) obj := by
  simp [step, new]

/-- Objects of the carried sequence number only add key pointers to the current bucket. -/
theorem foldl_step_run :
    ∀ (pass : UpdateIndexPass) (objs : List (TUpdateObj ι)),
      (∀ obj ∈ objs, obj.sequenceNumber = pass.curSeqNum) →
      objs.foldl (step byteOffsetOfHistory) pass =
        { pass with keyPtrs := pass.keyPtrs ++ objs.map (keyPtr byteOffsetOfHistory),
                    numAccum := pass.numAccum + objs.length }
  | pass, [], _ => by simp
  | pass, obj :: objs, same => by
    have sameObj : obj.sequenceNumber = pass.curSeqNum := same obj (List.mem_cons_self ..)
    have sameRest : ∀ o ∈ objs, o.sequenceNumber = (pushKeyPtr byteOffsetOfHistory pass obj).curSeqNum :=
      fun o mem => same o (List.mem_cons_of_mem _ mem)
    rw [List.foldl_cons, step_of_same byteOffsetOfHistory sameObj,
      foldl_step_run _ objs sameRest]
    simp [pushKeyPtr, Nat.add_assoc, Nat.add_comm 1]

/-- An update whose sequence number differs from the carried one writes the carried bucket
entry, then carries its own, with a bucket of its objects. -/
theorem foldl_step_group (group : UpdateGroup ι) (new : group.first.sequenceNumber ≠ pass.curSeqNum) :
    group.objs.foldl (step byteOffsetOfHistory) pass =
      { curSeqNum := group.first.sequenceNumber, curMeta := group.first.metadata,
        curId := group.first.id, bucketPtr := pass.bucketPtr + pass.numAccum * updateKeyPtrSize,
        numAccum := group.rest.length + 1, buckets := pass.buckets ++ [pass.bucket],
        keyPtrs := pass.keyPtrs ++ group.objs.map (keyPtr byteOffsetOfHistory) } := by
  rw [UpdateGroup.objs, List.foldl_cons, step_of_new byteOffsetOfHistory new,
    foldl_step_run _ _ _ group.sameSeq]
  simp [pushKeyPtr, startBucket, Nat.add_comm 1]

/-- The pass over updates of ascending sequence numbers, all above the carried one, writes
the carried bucket entry and then the one each update should have. -/
theorem foldl_step_groups :
    ∀ (groups : List (UpdateGroup ι)) (pass : UpdateIndexPass),
      (pass.curSeqNum :: groups.map (·.first.sequenceNumber)).Pairwise (· < ·) →
      let final := (groups.flatMap UpdateGroup.objs).foldl (step byteOffsetOfHistory) pass
      final.buckets ++ [final.bucket] =
          pass.buckets ++ pass.bucket ::
            expectedBuckets (pass.bucketPtr + pass.numAccum * updateKeyPtrSize) groups ∧
        final.keyPtrs = pass.keyPtrs ++ (groups.flatMap UpdateGroup.objs).map (keyPtr byteOffsetOfHistory)
  | [], pass, _ => by simp [expectedBuckets]
  | group :: groups, pass, ascending => by
    obtain ⟨above, ascendingRest⟩ := List.pairwise_cons.mp ascending
    have new : group.first.sequenceNumber ≠ pass.curSeqNum :=
      Nat.ne_of_gt (above _ (List.mem_cons_self ..))
    have run := foldl_step_group byteOffsetOfHistory group new
    obtain ⟨buckets, keyPtrs⟩ := foldl_step_groups groups
      (group.objs.foldl (step byteOffsetOfHistory) pass) (by rw [run]; simpa using ascendingRest)
    rw [List.flatMap_cons, List.foldl_append]
    refine ⟨?_, ?_⟩
    · rw [buckets, run]
      simp [expectedBuckets, UpdateIndexPass.bucket]
    · rw [keyPtrs, run]
      simp

end Pass

/-- Each expected bucket entry selects its update's key pointers: the bucket starts `k`
pointers into those written from `bucketPtr`, and holds `numKeyPtrs` of them. -/
theorem expectedBuckets_select :
    ∀ (bucketPtr : Nat) (groups : List (UpdateGroup ι)) (i : Nat) (bucket : TBucketEntry)
      (group : UpdateGroup ι),
      (expectedBuckets bucketPtr groups)[i]? = some bucket → groups[i]? = some group →
      bucket.sequenceNumber = group.first.sequenceNumber ∧
        ∃ k, bucket.bucketPtr = bucketPtr + k * updateKeyPtrSize ∧
          (((groups.flatMap UpdateGroup.objs).map (keyPtr byteOffsetOfHistory)).drop k).take
              bucket.numKeyPtrs = group.objs.map (keyPtr byteOffsetOfHistory)
  | _, [], _, _, _, atBucket, _ => by simp [expectedBuckets] at atBucket
  | bucketPtr, first :: groups, 0, bucket, group, atBucket, atGroup => by
    simp only [expectedBuckets, List.getElem?_cons_zero, Option.some.injEq] at atBucket atGroup
    subst atBucket atGroup
    refine ⟨rfl, 0, by simp, ?_⟩
    simp [UpdateGroup.objs]
  | bucketPtr, first :: groups, i + 1, bucket, group, atBucket, atGroup => by
    simp only [expectedBuckets, List.getElem?_cons_succ] at atBucket atGroup
    obtain ⟨sameSeq, k, startsAt, selects⟩ :=
      expectedBuckets_select _ groups i bucket group atBucket atGroup
    refine ⟨sameSeq, first.rest.length + 1 + k, by rw [startsAt, Nat.add_mul (first.rest.length + 1), Nat.add_assoc], ?_⟩
    have firstLength : (first.objs.map (keyPtr byteOffsetOfHistory)).length = first.rest.length + 1 := by
      simp [UpdateGroup.objs]
    rw [List.flatMap_cons, List.map_append, ← firstLength, List.drop_length_add_append, selects]

section Index

variable (base : Nat) (group : UpdateGroup ι) (groups : List (UpdateGroup ι))

/-- The update index of updates of strictly ascending sequence numbers: the key pointers of
every object, in order, and a bucket entry per update that is the expected one, except
that the first records the default (void) metadata and id. -/
theorem writeUpdateIndex_eq
    (ascending : ((group :: groups).map (·.first.sequenceNumber)).Pairwise (· < ·)) :
    writeUpdateIndex byteOffsetOfHistory base ((group :: groups).flatMap UpdateGroup.objs) =
      some (⟨group.first.sequenceNumber, defaultCore, defaultCore, base, group.rest.length + 1⟩ ::
          expectedBuckets (base + (group.rest.length + 1) * updateKeyPtrSize) groups,
        ((group :: groups).flatMap UpdateGroup.objs).map (keyPtr byteOffsetOfHistory)) := by
  -- the first object carries its own sequence number, so the first update is a run
  have firstRun : group.objs.foldl (step byteOffsetOfHistory)
      ⟨group.first.sequenceNumber, defaultCore, defaultCore, base, 0, [], []⟩ =
        ⟨group.first.sequenceNumber, defaultCore, defaultCore, base, group.rest.length + 1, [],
          group.objs.map (keyPtr byteOffsetOfHistory)⟩ := by
    rw [foldl_step_run _ _ _ (by simpa [UpdateGroup.objs] using group.sameSeq)]
    simp [UpdateGroup.objs]
  obtain ⟨buckets, keyPtrs⟩ := foldl_step_groups byteOffsetOfHistory groups
    ⟨group.first.sequenceNumber, defaultCore, defaultCore, base, group.rest.length + 1, [],
      group.objs.map (keyPtr byteOffsetOfHistory)⟩ (by simpa using ascending)
  simp only [List.flatMap_cons, UpdateGroup.objs, List.cons_append, writeUpdateIndex]
  rw [← List.cons_append, List.foldl_append, ← UpdateGroup.objs, firstRun, buckets, keyPtrs]
  simp [UpdateIndexPass.bucket, UpdateGroup.objs]

/-- The index is faithful exactly when the first update's metadata and id are themselves
default cores. -/
theorem writeUpdateIndex_faithful_iff
    (ascending : ((group :: groups).map (·.first.sequenceNumber)).Pairwise (· < ·)) :
    writeUpdateIndex byteOffsetOfHistory base ((group :: groups).flatMap UpdateGroup.objs) =
        some (expectedBuckets base (group :: groups),
          ((group :: groups).flatMap UpdateGroup.objs).map (keyPtr byteOffsetOfHistory)) ↔
      group.first.metadata = defaultCore ∧ group.first.id = defaultCore := by
  rw [writeUpdateIndex_eq byteOffsetOfHistory base group groups ascending, expectedBuckets]
  simp [eq_comm]

end Index

/-- An update of one current key, at sequence number `seq`, with int8 metadata and id. -/
def int8Update (seq : Nat) (val : Int8) (offset : Nat) : UpdateGroup Nat :=
  ⟨⟨seq, ⟨.int8, .scalar (.int8 val)⟩, ⟨.int8, .scalar (.int8 val)⟩, offset, true, 0⟩, [], by simp⟩

/-- Updates at sequence numbers 1 and 2 with int8 metadata and ids: the index the pass
writes is not the expected one, since its first bucket entry records void ones. -/
theorem writeUpdateIndex_voids_first_metadata :
    ¬ writeUpdateIndex (fun _ => 4096) 64
        ([int8Update 1 7 8, int8Update 2 9 16].flatMap UpdateGroup.objs) =
      some (expectedBuckets 64 [int8Update 1 7 8, int8Update 2 9 16], [8, 16]) := by
  intro faithful
  have voided := (writeUpdateIndex_faithful_iff (fun _ => 4096) 64 (int8Update 1 7 8)
    [int8Update 2 9 16] (by decide)).mp faithful
  exact absurd voided.1 (by decide)

end Orly.Indy

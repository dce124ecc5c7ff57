import Orly.InvCon.UnorderedList

/-! `InvCon::UnorderedMultimap` (`inv_con/unordered_multimap.h`): an intrusive hash multimap.

A `TCollection` owns `BucketCount` buckets, which its constructor makes, asserting that there
is at least one, and finds the bucket of a key with `std::hash<TKey>`. A `TBucket` holds its
`Collection`, its `Idx`, `FirstMembership` and `LastMembership`; a `TMembership` holds its `Key`,
its `Bucket`, `PrevMembership` and `NextMembership`. A bucket is a doubly linked list with the
fields of an ordered list's collection, so the state is the ordered list's `Links` with buckets,
named by their collection and `Idx`, in the place of collections; `Remove`, `FixupLinkage` and
`ZeroLinkage` are the ordered list's word for word, and so is the loop of a bucket's
`RemoveEachMember`.

`Insert` walks the bucket of the membership's key from its first membership with a flag
`is_found`: past the memberships before the first one with the key, past those with the key, and
it stops at the first membership after them without it. Unlike the ordered list's `Insert`, the
walk does not step over the membership itself.

A membership's neighbours in the whole collection are its neighbours in its bucket, or the last
or first membership of the nearest bucket before or after it that is not empty: this is what
`TryGetPrevMembership` and `TryGetNextMembership` return and what a `TCursor` (`inv_con/cursor.h`)
steps with. The loops over memberships run on fuel and give nothing if it runs out; the loops over
buckets count the buckets left, and the `Idx` they start from is below `BucketCount`, as it is
for every bucket of the array.

`Member`, `Collector`, `DeleteEachMember` and `DestroyEachMember` are left out, as for the
ordered list; the callback of `ForEachUniqueMember` is a function of the membership it is given,
and changes nothing. -/
namespace Orly.InvCon.UnorderedMultimap

open SentinelList

variable {ι κ K : Type}

/-- What every collection fixes when it is made: `Hash`, the `std::hash<TKey>` of its key type,
and its `BucketCount`, which its constructor asserts is not zero. -/
structure Table (κ K : Type) where
  hash : K → Nat
  bucketCount : κ → Nat
  bucketCount_pos : ∀ c, 0 < bucketCount c

/-- A bucket: the collection that owns it and its `Idx`. -/
abbrev Bucket (κ : Type) := κ × Nat

/-- `TCollection::GetBucket(key)`: `BucketArray + (Hash(key) % BucketCount)`. -/
def Table.getBucket (t : Table κ K) (c : κ) (key : K) : Bucket κ :=
  (c, t.hash key % t.bucketCount c)

/-- The fields of every membership and every bucket. -/
abbrev Links (ι κ K : Type) := OrderedList.Links ι (Bucket κ) K

/-- The calls that change multimaps: `Insert` (through `TCollection::Insert` or a constructor),
`Remove` (which `~TMembership` runs), `SetKey` and `RemoveEachMember`. -/
inductive Op (ι κ K : Type) where
  | insert (membership : ι) (collection : κ)
  | remove (membership : ι)
  | setKey (membership : ι) (key : K)
  | removeEachMember (collection : κ)
  deriving DecidableEq, Repr

namespace Links

variable (t : Table κ K)

/-- Every membership unlinked (`ZeroLinkage`) and every bucket empty. -/
def empty (key : ι → K) : Links ι κ K := OrderedList.Links.empty key

section Writes

variable [DecidableEq ι] [DecidableEq κ] [DecidableEq K]

/-- The loop of `TMembership::Insert`, from `prev_membership`, `next_membership` and
`is_found`; `is_match` is `Key == next_membership->Key`. -/
def insertWalk (s : Links ι κ K) (key : K) :
    Nat → Bool → Option ι → Option ι → Option (Option ι × Option ι)
  | _, _, prevM, none => some (prevM, none)
  | 0, _, _, some _ => none
  | fuel + 1, isFound, prevM, some n =>
    if !isFound then insertWalk s key fuel (decide (key = s.key n)) (some n) (s.nextMembership n)
    else if !decide (key = s.key n) then some (prevM, some n)
    else insertWalk s key fuel isFound (some n) (s.nextMembership n)

/-- `TMembership::Insert(collection)`, which `TCollection::Insert` forwards to and the
constructors with a collection run: walk the bucket of the key, then move `m` between the two
memberships the walk stops at unless it is there already. -/
def insert (fuel : Nat) (s : Links ι κ K) (m : ι) (c : κ) : Option (Links ι κ K) := do
  let bucket := t.getBucket c (s.key m)
  let (prevM, nextM) ← insertWalk s (s.key m) fuel false none (s.firstMembership bucket)
  if s.collection m ≠ some bucket ∨ s.prevMembership m ≠ prevM ∨ s.nextMembership m ≠ nextM then
    return OrderedList.Links.relink s m bucket prevM nextM
  else
    return s

/-- `TMembership::Remove`, also run by `~TMembership`: the ordered list's. -/
def remove (s : Links ι κ K) (m : ι) : Links ι κ K := OrderedList.Links.remove s m

/-- `TMembership::SetKey`: a different key is stored, and `m` inserted again into the collection
of its bucket, if any. -/
def setKey (fuel : Nat) (s : Links ι κ K) (m : ι) (key : K) : Option (Links ι κ K) :=
  if s.key m ≠ key then
    let s : Links ι κ K := { s with key := Function.update s.key m key }
    match s.collection m with
    | some b => s.insert t fuel m b.1
    | none => some s
  else
    some s

/-- `TCollection::RemoveEachMember`: each bucket's `RemoveEachMember`, from the first bucket to
the last; a bucket's removes its first membership while it has one, as the ordered list's
collection does. -/
def removeEachMember (fuel : Nat) (s : Links ι κ K) (c : κ) : Option (Links ι κ K) :=
  (List.range (t.bucketCount c)).foldlM
    (fun s i => OrderedList.Links.removeEachMember (c, i) fuel s) s

/-- One call on the multimaps. -/
def step (fuel : Nat) (s : Links ι κ K) : Op ι κ K → Option (Links ι κ K)
  | .insert m c => s.insert t fuel m c
  | .remove m => some (s.remove m)
  | .setKey m key => s.setKey t fuel m key
  | .removeEachMember c => s.removeEachMember t fuel c

/-- A run of calls, stopping at the first that runs out of fuel. -/
def run (fuel : Nat) : Links ι κ K → List (Op ι κ K) → Option (Links ι κ K)
  | s, [] => some s
  | s, op :: ops => (s.step t fuel op).bind fun s => run fuel s ops

end Writes

section Reads

/-- The loop of `TBucket::GetNextNonEmptyBucket` from the bucket `idx` of `c`, with `left`
buckets after it: the first of them with a `FirstMembership`. -/
def nextNonEmpty (s : Links ι κ K) (c : κ) : Nat → Nat → Option Nat
  | 0, _ => none
  | left + 1, idx =>
    if (s.firstMembership (c, idx + 1)).isSome then some (idx + 1)
    else nextNonEmpty s c left (idx + 1)

/-- `TBucket::GetNextNonEmptyBucket` of the bucket `idx` of `c`: none from the last bucket. -/
def getNextNonEmptyBucket (s : Links ι κ K) (c : κ) (idx : Nat) : Option Nat :=
  s.nextNonEmpty c (t.bucketCount c - 1 - idx) idx

/-- `TBucket::GetPrevNonEmptyBucket` of the bucket `idx` of `c`: the nearest bucket before it
with a `FirstMembership`, none from the bucket `0`. -/
def getPrevNonEmptyBucket (s : Links ι κ K) (c : κ) : Nat → Option Nat
  | 0 => none
  | idx + 1 => if (s.firstMembership (c, idx)).isSome then some idx else getPrevNonEmptyBucket s c idx

/-- `TBucket::GetFirstNonEmptyBucket(collection)`: the bucket `0`, or the next non-empty one. -/
def getFirstNonEmptyBucket (s : Links ι κ K) (c : κ) : Option Nat :=
  if (s.firstMembership (c, 0)).isSome then some 0 else s.getNextNonEmptyBucket t c 0

/-- `TBucket::GetLastNonEmptyBucket(collection)`: the last bucket, or the previous non-empty
one. -/
def getLastNonEmptyBucket (s : Links ι κ K) (c : κ) : Option Nat :=
  if (s.firstMembership (c, t.bucketCount c - 1)).isSome then some (t.bucketCount c - 1)
  else s.getPrevNonEmptyBucket c (t.bucketCount c - 1)

/-- `TCollection::TryGetFirstMembership()`: the first membership of the first non-empty
bucket. -/
def tryGetFirstMembership (s : Links ι κ K) (c : κ) : Option ι :=
  (s.getFirstNonEmptyBucket t c).bind fun i => s.firstMembership (c, i)

/-- `TCollection::TryGetLastMembership()`: the last membership of the last non-empty bucket. -/
def tryGetLastMembership (s : Links ι κ K) (c : κ) : Option ι :=
  (s.getLastNonEmptyBucket t c).bind fun i => s.lastMembership (c, i)

/-- `TMembership::TryGetNextMembership`: `NextMembership`, or, at the end of a bucket, the first
membership of the next non-empty bucket. -/
def tryGetNextMembership (s : Links ι κ K) (m : ι) : Option ι :=
  match s.nextMembership m with
  | some n => some n
  | none =>
    match s.collection m with
    | none => none
    | some b => (s.getNextNonEmptyBucket t b.1 b.2).bind fun i => s.firstMembership (b.1, i)

/-- `TMembership::TryGetPrevMembership`: `PrevMembership`, or, at the start of a bucket, the last
membership of the previous non-empty bucket. -/
def tryGetPrevMembership (s : Links ι κ K) (m : ι) : Option ι :=
  match s.prevMembership m with
  | some p => some p
  | none =>
    match s.collection m with
    | none => none
    | some b => (s.getPrevNonEmptyBucket b.1 b.2).bind fun i => s.lastMembership (b.1, i)

/-- `TCollection::IsEmpty`: no bucket has a `FirstMembership`. -/
def isEmpty (s : Links ι κ K) (c : κ) : Bool :=
  (List.range (t.bucketCount c)).all fun i => (s.firstMembership (c, i)).isNone

variable [DecidableEq ι] [DecidableEq K]

/-- `TCollection::TryGetFirstMembership(key)`, the bucket's: from the first membership of the
key's bucket, pass those without the key. -/
def tryGetFirstMembershipByKey (fuel : Nat) (s : Links ι κ K) (c : κ) (key : K) :
    Option (Option ι) :=
  let bucket := t.getBucket c key
  (scan (s.succ bucket) none (fun u => u.any fun n => !decide (s.key n = key)) fuel none
    (s.succ bucket none)).map Prod.snd

/-- `TCollection::TryGetLastMembership(key)`, the bucket's: from the last membership of the
key's bucket, pass backwards those without the key. -/
def tryGetLastMembershipByKey (fuel : Nat) (s : Links ι κ K) (c : κ) (key : K) :
    Option (Option ι) :=
  let bucket := t.getBucket c key
  (scan (s.pred bucket) none (fun u => u.any fun n => !decide (s.key n = key)) fuel none
    (s.pred bucket none)).map Prod.snd

/-- The memberships a `TCursor` points at, stepping with `advance` while it points at one. -/
def walk (advance : ι → Option ι) : Nat → Option ι → Option (List ι)
  | _, none => some []
  | 0, some _ => none
  | fuel + 1, some m => (walk advance fuel (advance m)).map (m :: ·)

/-- A `TCursor(collection, orient)` over `c`, advanced while it points at a membership: from
the first membership forwards (`Fwd`) or from the last backwards (`Rev`). -/
def cursor (fuel : Nat) (s : Links ι κ K) (c : κ) : TOrient → Option (List ι)
  | .fwd => walk (s.tryGetNextMembership t) fuel (s.tryGetFirstMembership t c)
  | .rev => walk s.tryGetPrevMembership fuel (s.tryGetLastMembership t c)

/-- The `do ... while` of `ForEachUniqueMember`: from the membership after the one called back
on, step on while the membership reached has `key`. -/
def skipKey (s : Links ι κ K) (key : K) : Nat → Option ι → Option (Option ι)
  | _, none => some none
  | 0, some _ => none
  | fuel + 1, some n =>
    if s.key n = key then skipKey s key fuel (s.tryGetNextMembership t n) else some (some n)

/-- The loop of `ForEachUniqueMember` from `csr`: the memberships the callback `cb` is called
on, and the result, false once it answers false. -/
def forEachUniqueLoop (s : Links ι κ K) (cb : ι → Bool) : Nat → Option ι → Option (List ι × Bool)
  | _, none => some ([], true)
  | 0, some _ => none
  | fuel + 1, some m =>
    if !cb m then some ([m], false)
    else
      (s.skipKey t (s.key m) fuel (s.tryGetNextMembership t m)).bind fun csr =>
        (forEachUniqueLoop s cb fuel csr).map (Prod.map (m :: ·) id)

/-- `TCollection::ForEachUniqueMember(cb)`: from the first membership, call back on it, then
skip the memberships after it with its key. -/
def forEachUniqueMember (fuel : Nat) (s : Links ι κ K) (c : κ) (cb : ι → Bool) :
    Option (List ι × Bool) :=
  s.forEachUniqueLoop t cb fuel (s.tryGetFirstMembership t c)

end Reads

end Links

end Orly.InvCon.UnorderedMultimap

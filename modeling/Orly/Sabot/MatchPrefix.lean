import Orly.Lib.Ieee754
import Orly.Sabot.OrderTypes

/-! `Sabot::MatchPrefixType` and `Sabot::MatchPrefixState`
(`orly/sabot/match_prefix_type.cc`, `orly/sabot/match_prefix_state.cc`).

A walk over the keys of an index that match a pattern asks of each key whether it
unifies with the pattern, whether a key after it still might (`PrefixMatch`), or
neither. A pattern is a tuple whose elements may be `Free`: a free of type `t` stands
for any value of type `t`. The type matcher runs first, on the two tuple types; the
state matcher then checks the values element by element, starting from the type
matcher's answer.

Both visitors write into a shared `TMatchResult &Result` that only moves down:
`DidNotMatch` sets `NoMatch`, and `DidNotUnify` turns `Unifies` into `PrefixMatch`.
The cells where the code throws (`TUnreachable`, `TNotImplemented`, and the runtime
error on a free whose type only prefix-matches) answer `none`. -/
namespace Orly.Sabot

/-- `Sabot::TMatchResult`. -/
inductive TMatchResult where
  | noMatch
  | prefixMatch
  | unifies
  deriving DecidableEq, Repr

namespace TMatchResult

/-- `DidNotUnify`: a result that unified now only prefix-matches. -/
def didNotUnify : TMatchResult → TMatchResult
  | .unifies => .prefixMatch
  | result => result

/-- `TMatchPrefixStateVisitor::Check`: `NoMatch` when the two values are `!=`. -/
def check (same : Bool) (result : TMatchResult) : TMatchResult :=
  if same then result else .noMatch

/-- `if (IsNoMatch(Result)) return;` after a visit: go on with `rest` unless the visit
failed to match. -/
def unlessNoMatch (visit : Option TMatchResult) (rest : TMatchResult → Option TMatchResult) :
    Option TMatchResult := do
  match ← visit with
  | .noMatch => some .noMatch
  | result => rest result

/-- What a visit of the state matcher may do to the shared result: keep it, or fail
the match. -/
def KeptOrFailed (before after : TMatchResult) : Prop := after = before ∨ after = .noMatch

theorem keptOrFailed_refl (result : TMatchResult) : KeptOrFailed result result := .inl rfl

theorem KeptOrFailed.trans {a b c : TMatchResult} (first : KeptOrFailed a b)
    (second : KeptOrFailed b c) : KeptOrFailed a c := by
  rcases first with rfl | rfl
  · exact second
  · rcases second with rfl | rfl <;> exact .inr rfl

theorem keptOrFailed_check (same : Bool) (result : TMatchResult) :
    KeptOrFailed result (result.check same) := by
  cases same
  · exact .inr rfl
  · exact .inl rfl

/-- `unlessNoMatch` keeps or fails the result when the visit and what follows it do. -/
theorem keptOrFailed_unlessNoMatch {visit : Option TMatchResult}
    {rest : TMatchResult → Option TMatchResult} {before after : TMatchResult}
    (visited : ∀ v, visit = some v → KeptOrFailed before v)
    (rested : ∀ v res, rest v = some res → KeptOrFailed v res)
    (done : unlessNoMatch visit rest = some after) : KeptOrFailed before after := by
  obtain ⟨v, seen, continued⟩ := Option.bind_eq_some_iff.mp done
  split at continued
  · cases continued
    exact .inr rfl
  · exact (visited v seen).trans (rested v after continued)

end TMatchResult

open TMatchResult

/-- The `dynamic_cast<const Type::TFree *>` of `MatchPrefixType`. -/
def Ty.isFree : Ty → Bool
  | .free _ => true
  | _ => false

mutual
/-- `TMatchPrefixTypeVisitor::operator()`, cell by cell: `result` is the shared
`Result` on entry. -/
def matchPrefixTypeVisitor : Ty → Ty → TMatchResult → Option TMatchResult
  | .free _, .free _, _ => none
  -- `OnFree`: the free's type against the other side, on a result of its own.
  | .free l, r, result =>
    match matchPrefixTypeVisitor l r .unifies with
    | some .noMatch => some result.didNotUnify
    | some .prefixMatch => none
    | some .unifies => some result
    | none => none
  | _, .free _, _ => none
  -- `OnUnary` and `OnBinary`: the element types, the value type only after a key type
  -- that did not fail.
  | .desc l, .desc r, result => matchPrefixTypeVisitor l r result
  | .opt l, .opt r, result => matchPrefixTypeVisitor l r result
  | .set l, .set r, result => matchPrefixTypeVisitor l r result
  | .vector l, .vector r, result => matchPrefixTypeVisitor l r result
  | .map lk lv, .map rk rv, result =>
    unlessNoMatch (matchPrefixTypeVisitor lk rk result) fun result =>
      matchPrefixTypeVisitor lv rv result
  | .record lf, .record rf, result =>
    if lf.length = rf.length then matchPrefixFieldTypes lf rf result else some .noMatch
  | .tuple ls, .tuple rs, result =>
    if ls.length = rs.length then matchPrefixElemTypes ls rs result else some .noMatch
  -- The scalar, blob, string, tombstone and void diagonal matches; every other cell of
  -- two different kinds does not.
  | l, r, result => some (if l.tycon = r.tycon then result else .noMatch)

/-- The loop of the `Record`/`Record` cell: a field name that `CompareStates` does not
call equal fails the match; otherwise the field types, stopping at `NoMatch`. The
`CompareStates` of two string states is `OnArrayOfScalars` on their bytes. -/
def matchPrefixFieldTypes : List (List UInt8 × Ty) → List (List UInt8 × Ty) → TMatchResult →
    Option TMatchResult
  | (ln, lt) :: lf, (rn, rt) :: rf, result =>
    if compareBytes ln rn = .eq then
      unlessNoMatch (matchPrefixTypeVisitor lt rt result) fun result =>
        matchPrefixFieldTypes lf rf result
    else some .noMatch
  | _, _, result => some result

/-- The loop of the `Tuple`/`Tuple` cell, stopping at `NoMatch`. -/
def matchPrefixElemTypes : List Ty → List Ty → TMatchResult → Option TMatchResult
  | l :: ls, r :: rs, result =>
    unlessNoMatch (matchPrefixTypeVisitor l r result) fun result =>
      matchPrefixElemTypes ls rs result
  | _, _, result => some result
end

/-- `MatchPrefixType` on the elements of two tuple types: over the elements both have,
only while they unify; then the counts. A pattern longer than the key prefix-matches
when everything past the key is free, and a pattern shorter than it always does. The
shared result is `Unifies` at every element the loop reaches. -/
def matchPrefixTypeLoop : List Ty → List Ty → Option TMatchResult
  | l :: ls, r :: rs => do
    match ← matchPrefixTypeVisitor l r .unifies with
    | .unifies => matchPrefixTypeLoop ls rs
    | result => some result
  | [], [] => some .unifies
  | ls, [] => some (if ls.all Ty.isFree then .prefixMatch else .noMatch)
  | [], _ :: _ => some .prefixMatch

/-- `Sabot::MatchPrefixType`; the code asserts two tuple types. -/
def matchPrefixType : Ty → Ty → Option TMatchResult
  | .tuple ls, .tuple rs => matchPrefixTypeLoop ls rs
  | _, _ => none

/-- `OnArrayOfScalars`: the sizes, then `memcmp` over them, which is zero exactly when
the bytes are the same. -/
def matchPrefixBytes (lhs rhs : List UInt8) (result : TMatchResult) : TMatchResult :=
  match result.check (lhs.length == rhs.length) with
  | .noMatch => .noMatch
  | result => result.check (lhs == rhs)

theorem keptOrFailed_matchPrefixBytes (lhs rhs : List UInt8) (result : TMatchResult) :
    KeptOrFailed result (matchPrefixBytes lhs rhs result) := by
  have sized := keptOrFailed_check (lhs.length == rhs.length) result
  unfold matchPrefixBytes
  generalize result.check (lhs.length == rhs.length) = sizedResult at sized ⊢
  cases sizedResult with
  | noMatch => exact .inr rfl
  | _ => exact sized.trans (keptOrFailed_check _ _)

mutual
/-- `TMatchPrefixStateVisitor::operator()`, cell by cell. A free unifies with any
value; two values of one kind match when they are equal by the value type's `!=`;
containers check their element counts and then their elements. -/
def matchPrefixStateVisitor : State → State → TMatchResult → Option TMatchResult
  | .free _, .free _, _ => none
  | .free _, .tombstone, _ => none
  | .free _, _, result => some result
  | .tombstone, .tombstone, _ => none
  | .void, .void, _ => none
  | .int8 a, .int8 b, result => some (result.check (a == b))
  | .int16 a, .int16 b, result => some (result.check (a == b))
  | .int32 a, .int32 b, result => some (result.check (a == b))
  | .int64 a, .int64 b, result => some (result.check (a == b))
  | .uint8 a, .uint8 b, result => some (result.check (a == b))
  | .uint16 a, .uint16 b, result => some (result.check (a == b))
  | .uint32 a, .uint32 b, result => some (result.check (a == b))
  | .uint64 a, .uint64 b, result => some (result.check (a == b))
  | .bool a, .bool b, result => some (result.check (a == b))
  | .char a, .char b, result => some (result.check (a == b))
  -- `!=` of `float` and `double` is IEEE's: a NaN differs from itself, `-0` equals `+0`.
  | .float a, .float b, result =>
    some (result.check (Ieee754.Format.binary32.eq a.toNat b.toNat))
  | .double a, .double b, result =>
    some (result.check (Ieee754.Format.binary64.eq a.toNat b.toNat))
  | .duration a, .duration b, result => some (result.check (a == b))
  | .timePoint a, .timePoint b, result => some (result.check (a == b))
  | .uuid a, .uuid b, result => some (result.check (a == b))
  | .blob a, .blob b, result => some (matchPrefixBytes a b result)
  | .str a, .str b, result => some (matchPrefixBytes a b result)
  -- A desc is an array of one element and an opt of zero or one.
  | .desc l, .desc r, result =>
    unlessNoMatch (some result) fun result => matchPrefixStateVisitor l r result
  | .opt _ none, .opt _ none, result => some result
  | .opt _ (some _), .opt _ none, _ => some .noMatch
  | .opt _ none, .opt _ (some _), _ => some .noMatch
  | .opt _ (some l), .opt _ (some r), result =>
    unlessNoMatch (some result) fun result => matchPrefixStateVisitor l r result
  | .set _ ls, .set _ rs, result =>
    unlessNoMatch (some (result.check (ls.length == rs.length))) fun result =>
      matchPrefixSingleStates ls rs result
  | .vector _ ls, .vector _ rs, result =>
    unlessNoMatch (some (result.check (ls.length == rs.length))) fun result =>
      matchPrefixSingleStates ls rs result
  | .map _ _ ls, .map _ _ rs, result =>
    unlessNoMatch (some (result.check (ls.length == rs.length))) fun result =>
      matchPrefixPairsOfStates ls rs result
  | .record _ ls, .record _ rs, result =>
    unlessNoMatch (some (result.check (ls.length == rs.length))) fun result =>
      matchPrefixSingleStates ls rs result
  | .tuple ls, .tuple rs, result =>
    unlessNoMatch (some (result.check (ls.length == rs.length))) fun result =>
      matchPrefixSingleStates ls rs result
  | _, _, _ => none

/-- The loop of `OnArrayOfSingleStates`, stopping at `NoMatch`. -/
def matchPrefixSingleStates : List State → List State → TMatchResult → Option TMatchResult
  | l :: ls, r :: rs, result =>
    unlessNoMatch (matchPrefixStateVisitor l r result) fun result =>
      matchPrefixSingleStates ls rs result
  | _, _, result => some result

/-- The loop of `OnArrayOfPairsOfStates`: each key, then each value, stopping at
`NoMatch`. -/
def matchPrefixPairsOfStates : List (State × State) → List (State × State) → TMatchResult →
    Option TMatchResult
  | (lk, lv) :: ls, (rk, rv) :: rs, result =>
    unlessNoMatch (matchPrefixStateVisitor lk rk result) fun result =>
      unlessNoMatch (matchPrefixStateVisitor lv rv result) fun result =>
        matchPrefixPairsOfStates ls rs result
  | _, _, result => some result
end

/-- The loop of `MatchPrefixState` over the elements both tuples have: it returns as
soon as the shared result is not `Unifies`. -/
def matchPrefixStateLoop : List State → List State → TMatchResult → Option TMatchResult
  | l :: ls, r :: rs, comp => do
    match ← matchPrefixStateVisitor l r comp with
    | .unifies => matchPrefixStateLoop ls rs .unifies
    | comp => some comp
  | _, _, comp => some comp

/-- The state matcher never raises the shared result and never turns `Unifies` into
`PrefixMatch`: every cell keeps it or fails the match. -/
theorem keptOrFailed_matchPrefixStateVisitor {l r : State} {before after : TMatchResult}
    (done : matchPrefixStateVisitor l r before = some after) : KeptOrFailed before after := by
  refine matchPrefixStateVisitor.induct
    (fun l r before => ∀ after, matchPrefixStateVisitor l r before = some after →
      KeptOrFailed before after)
    (fun ls rs before => ∀ after, matchPrefixPairsOfStates ls rs before = some after →
      KeptOrFailed before after)
    (fun ls rs before => ∀ after, matchPrefixSingleStates ls rs before = some after →
      KeptOrFailed before after)
    ?freeFree ?freeTombstone ?free ?tombstone ?void ?int8 ?int16 ?int32 ?int64 ?uint8 ?uint16
    ?uint32 ?uint64 ?bool ?char ?float ?double ?duration ?timePoint ?uuid ?blob ?str ?desc
    ?optNone ?optSomeNone ?optNoneSome ?optSome ?set ?vector ?map ?record ?tuple ?other
    ?singlesCons ?singlesEnd ?pairsCons ?pairsEnd l r before after done
  case freeFree | freeTombstone | tombstone | void =>
    intros
    rename_i done
    simp [matchPrefixStateVisitor] at done
  case free =>
    intro _ x result notFree notTombstone after done
    rw [matchPrefixStateVisitor.eq_3 _ _ _ notFree notTombstone, Option.some.injEq] at done
    exact .inl done.symm
  case int8 | int16 | int32 | int64 | uint8 | uint16 | uint32 | uint64 | bool | char | float |
      double | duration | timePoint | uuid =>
    intro a b result after done
    rw [matchPrefixStateVisitor, Option.some.injEq] at done
    exact done ▸ keptOrFailed_check _ _
  case blob | str =>
    intro a b result after done
    rw [matchPrefixStateVisitor, Option.some.injEq] at done
    exact done ▸ keptOrFailed_matchPrefixBytes a b result
  case optNone | optSomeNone | optNoneSome =>
    intros
    rename_i done
    rw [matchPrefixStateVisitor, Option.some.injEq] at done
    exact done ▸ (by first | exact keptOrFailed_refl _ | exact .inr rfl)
  case desc | optSome =>
    intros
    rename_i inner after done
    rw [matchPrefixStateVisitor] at done
    exact keptOrFailed_unlessNoMatch (fun v entered => Option.some.inj entered ▸ keptOrFailed_refl v)
      inner done
  case set | vector | map | record | tuple =>
    intros
    rename_i elems after done
    rw [matchPrefixStateVisitor] at done
    exact keptOrFailed_unlessNoMatch
      (fun v counted => Option.some.inj counted ▸ keptOrFailed_check _ _) elems done
  case other =>
    intros
    rename_i done
    rw [matchPrefixStateVisitor.eq_33] at done
    · cases done
    all_goals assumption
  case singlesCons =>
    intro l ls r rs result head rest after done
    rw [matchPrefixSingleStates] at done
    exact keptOrFailed_unlessNoMatch head rest done
  case singlesEnd =>
    intro ls rs result notBoth after done
    rw [matchPrefixSingleStates.eq_2 _ _ _ notBoth, Option.some.injEq] at done
    exact .inl done.symm
  case pairsCons =>
    intro lk lv ls rk rv rs result key val rest after done
    rw [matchPrefixPairsOfStates] at done
    exact keptOrFailed_unlessNoMatch key
      (fun v res => keptOrFailed_unlessNoMatch (val v) (rest · ·)) done
  case pairsEnd =>
    intro ls rs result notBoth after done
    rw [matchPrefixPairsOfStates.eq_2 _ _ _ notBoth, Option.some.injEq] at done
    exact .inl done.symm

theorem keptOrFailed_matchPrefixStateLoop :
    ∀ {ls rs : List State} {comp after : TMatchResult},
      matchPrefixStateLoop ls rs comp = some after → KeptOrFailed comp after
  | l :: ls, r :: rs, comp, after, done => by
    obtain ⟨visited, seen, continued⟩ := Option.bind_eq_some_iff.mp done
    have kept := keptOrFailed_matchPrefixStateVisitor seen
    split at continued
    · -- The loop goes on only from `Unifies`, which the visit then kept.
      rcases kept with rfl | failed
      · exact keptOrFailed_matchPrefixStateLoop continued
      · cases failed
    · cases continued
      exact kept
  | [], _, _, _, done | _ :: _, [], _, _, done => by
    rw [matchPrefixStateLoop, Option.some.injEq] at done
    · exact .inl done.symm
    · simp

/-- `Sabot::MatchPrefixState`: the types first, and the values only where they did not
fail to match. -/
def matchPrefixState (lhs rhs : State) : Option TMatchResult := do
  let comp ← matchPrefixType lhs.type rhs.type
  if comp = .noMatch then return comp
  match lhs, rhs with
  | .tuple ls, .tuple rs => matchPrefixStateLoop ls rs comp
  | _, _ => none

/-- The values of two tuples never change what their types answered, except to fail
the match: the state matcher answers the type matcher's result or `NoMatch`. -/
theorem matchPrefixState_kept_or_failed {lhs rhs : State} {result : TMatchResult}
    (done : matchPrefixState lhs rhs = some result) :
    ∃ comp, matchPrefixType lhs.type rhs.type = some comp ∧ KeptOrFailed comp result := by
  obtain ⟨comp, typed, checked⟩ := Option.bind_eq_some_iff.mp done
  refine ⟨comp, typed, ?_⟩
  split at checked
  · cases checked
    exact keptOrFailed_refl _
  · split at checked
    · exact keptOrFailed_matchPrefixStateLoop checked
    · cases checked

/-- Where the types only prefix-match, `MatchPrefixState` reads the first elements and
nothing after them: its loop returns as soon as the shared result is not `Unifies`,
and that result can no longer become `Unifies`. -/
theorem matchPrefixState_of_prefixMatch {l r : State} {ls rs : List State}
    (prefixOnly : matchPrefixType (State.tuple (l :: ls)).type (State.tuple (r :: rs)).type =
      some .prefixMatch) :
    matchPrefixState (.tuple (l :: ls)) (.tuple (r :: rs)) =
      matchPrefixStateVisitor l r .prefixMatch := by
  rw [matchPrefixState, prefixOnly]
  show matchPrefixStateLoop (l :: ls) (r :: rs) .prefixMatch = _
  rw [matchPrefixStateLoop]
  cases visited : matchPrefixStateVisitor l r .prefixMatch with
  | none => rfl
  | some after =>
    rcases keptOrFailed_matchPrefixStateVisitor visited with rfl | rfl <;> rfl

/-- So the pattern `(1, 2)` prefix-matches the key `(1, 3, 4)`. -/
example : matchPrefixState (.tuple [.int64 1, .int64 2]) (.tuple [.int64 1, .int64 3, .int64 4]) =
    some .prefixMatch := by
  decide

end Orly.Sabot

import Orly.Atom.QuickCompare
import Orly.Sabot.GetHash
import Orly.Sabot.MatchPrefix

/-! `TCore::PrefixMatch` (`orly/atom/kit2.h`), the matcher a present walk of a data
file runs on every key it reads, asserting in debug builds that it answers what
`Sabot::MatchPrefixState` answers on the two states (`present_walk_file.h`).

It walks the elements of the pattern and the key together, stops at the pattern's
first `Free`, fails on the first element that is not equal, and otherwise decides
between `Unifies` and `PrefixMatch` by the element counts. An element it cannot
compare quickly it compares with `OrderStates`, but of the states it builds from
`this` and `that_core`: the two whole tuples, not the two elements. A pattern with a
free, or of another length than the key, is never `OrderStates`-equal to it, so such a
pattern fails against every key at its first such element
(`prefixMatch_of_slow_first_element`), where the state matcher may answer `Unifies`. -/
namespace Orly.Atom

open Orly.Sabot AppendStore

section Equal

/-- `OrderStates` calls two states equal only when they are of one kind: every cell of
two different kinds answers by the types, which put different kinds apart. -/
theorem tycon_eq_of_orderStatesVisitor_eq {l r : State} {c : TComparison}
    (same : orderStatesVisitor l r c = some .eq) : l.type.tycon = r.type.tycon := by
  refine orderStatesVisitor.induct
    (fun l r c => orderStatesVisitor l r c = some .eq → l.type.tycon = r.type.tycon)
    (fun _ _ _ => True) (fun _ _ _ => True)
    ?free ?tombstone ?void ?int8 ?int16 ?int32 ?int64 ?uint8 ?uint16 ?uint32 ?uint64 ?bool ?char
    ?float ?double ?duration ?timePoint ?uuid ?blob ?str ?desc ?optNone ?optSomeNone
    ?optNoneSome ?optSome ?set ?vector ?map ?record ?tuple ?other
    ?statesEq ?statesNe ?statesEnd ?pairsEq ?pairsValueNe ?pairsKeyNe ?pairsEnd l r c same
  case other =>
    intro l r c
    intros
    rename_i same
    rw [orderStatesVisitor.eq_31, orderTypes] at same
    · exact tycon_eq_of_orderTypesVisitor same
    all_goals assumption
  all_goals intros; first | rfl | trivial

/-- The element loop of `OrderStates` answers `Eq` only on two arrays of one length
whose elements pair up kind by kind. -/
theorem forall₂_of_onArrayOfSingleStates_eq :
    ∀ {xs ys : List State} {c : TComparison}, onArrayOfSingleStates xs ys c = some .eq →
      List.Forall₂ (fun x y => x.type.tycon = y.type.tycon) xs ys
  | x :: xs, y :: ys, c, same => by
    rw [onArrayOfSingleStates] at same
    obtain ⟨head, rest⟩ := eq_of_continue same
    exact .cons (tycon_eq_of_orderStatesVisitor_eq head)
      (forall₂_of_onArrayOfSingleStates_eq rest)
  | [], [], _, _ => .nil
  | [], _ :: _, c, same | _ :: _, [], c, same => by
    rw [onArrayOfSingleStates, Option.some.injEq] at same
    · cases length_eq_of_end same
    · simp

theorem orderStates_tuple (xs ys : List State) :
    orderStates (.tuple xs) (.tuple ys) = onArrayOfSingleStates xs ys .eq := by
  rw [orderStates, State.type, State.type, orderTypes, orderTypesVisitor]
  rfl

theorem exists_mem_of_forall₂ {α β : Type} {R : α → β → Prop} {xs : List α} {ys : List β}
    (related : List.Forall₂ R xs ys) {x : α} (mem : x ∈ xs) : ∃ y ∈ ys, R x y := by
  induction related with
  | nil => cases mem
  | cons head _ ih =>
    rcases List.mem_cons.mp mem with rfl | later
    · exact ⟨_, List.mem_cons_self, head⟩
    · obtain ⟨y, yIn, holds⟩ := ih later
      exact ⟨y, List.mem_cons_of_mem _ yIn, holds⟩

/-- Only a free is of the kind of a free. -/
theorem eq_free_of_tycon {s : State} {t : Ty} (kind : s.type.tycon = (Ty.free t).tycon) :
    ∃ u, s = .free u := by
  cases s <;> first | exact ⟨_, rfl⟩ | cases kind

/-- Two tuples `OrderStates` calls equal have one length, and a free wherever the other
has one. -/
theorem orderStates_tuple_ne_eq {xs ys : List State}
    (apart : xs.length ≠ ys.length ∨ ((∃ t, State.free t ∈ xs) ∧ ∀ t, State.free t ∉ ys)) :
    orderStates (.tuple xs) (.tuple ys) ≠ some .eq := by
  intro same
  rw [orderStates_tuple] at same
  have kinds := forall₂_of_onArrayOfSingleStates_eq same
  rcases apart with lengths | ⟨⟨t, freeIn⟩, noFree⟩
  · exact lengths kinds.length_eq
  · obtain ⟨y, yIn, kind⟩ := exists_mem_of_forall₂ kinds freeIn
    obtain ⟨u, rfl⟩ := eq_free_of_tycon kind.symm
    exact noFree u yIn

end Equal

variable {σ : Type} (A : TExtensibleArena σ) [DecidableEq σ] (isOrdered : σ → Bool)

/-- The element loop of `TCore::PrefixMatch`, with `compare` the comparison it makes of
two elements: `NoMatch` at the first element that is not equal, and `counted` when it
runs out of elements or breaks at the pattern's first free. -/
def prefixMatchLoop (compare : Core → Core → Option TComparison) (counted : TMatchResult) :
    List Core → List Core → Option TMatchResult
  | l :: ls, r :: rs =>
    if l.tycon = .free then some counted
    else do
      let comp ← compare l r
      if comp.isNe then some .noMatch else prefixMatchLoop compare counted ls rs
  | _, _ => some counted

/-- The comparison `TCore::PrefixMatch` makes of two elements `l` and `r` of `this` and
`that`: the quick one, and where it gives up, `OrderStates` of the states of `this` and
`that`. -/
def prefixMatchCompare (fuel : Nat) (thisArena : σ) (this : Core) (thatArena : σ) (that : Core)
    (l r : Core) : Option TComparison :=
  match tryQuickOrderComparison A isOrdered fuel thisArena l thatArena r with
  | some comp => some comp
  | none => do orderStates (← newState A thisArena fuel this) (← newState A thatArena fuel that)

/-- `TCore::PrefixMatch` of the tuple core `this` in `thisArena` against the tuple core
`that` in `thatArena`, with fuel for the states it reads back. -/
def prefixMatch (fuel : Nat) (thisArena : σ) (this : Core) (thatArena : σ) (that : Core) :
    Option TMatchResult := do
  let lhs ← pinCores A thisArena this.storage
  let rhs ← pinCores A thatArena that.storage
  prefixMatchLoop (prefixMatchCompare A isOrdered fuel thisArena this thatArena that)
    (if lhs.length = rhs.length then .unifies else .prefixMatch) lhs rhs

section Fallback

variable {A isOrdered}

/-- Where the quick path cannot compare the pattern's first element, which is not free,
with the key's first element, `PrefixMatch` answers by `OrderStates` of the two whole
tuples: a pattern of another length than the key, or with a free where the key has
none, fails against it, and is undefined where `OrderStates` is. -/
theorem prefixMatch_of_slow_first_element {fuel : Nat} {s₁ s₂ : σ} {p k l r : Core}
    {ls rs : List Core} {xs ys : List State}
    (pinnedP : pinCores A s₁ p.storage = some (l :: ls))
    (pinnedK : pinCores A s₂ k.storage = some (r :: rs)) (bound : l.tycon ≠ .free)
    (slow : tryQuickOrderComparison A isOrdered fuel s₁ l s₂ r = none)
    (readP : newState A s₁ fuel p = some (.tuple xs))
    (readK : newState A s₂ fuel k = some (.tuple ys))
    (apart : xs.length ≠ ys.length ∨ ((∃ t, State.free t ∈ xs) ∧ ∀ t, State.free t ∉ ys)) :
    prefixMatch A isOrdered fuel s₁ p s₂ k =
      (orderStates (.tuple xs) (.tuple ys)).map fun _ => .noMatch := by
  have fallback : prefixMatchCompare A isOrdered fuel s₁ p s₂ k l r =
      orderStates (.tuple xs) (.tuple ys) := by
    rw [prefixMatchCompare, slow, readP, readK]
    rfl
  have unequal := orderStates_tuple_ne_eq apart
  rw [prefixMatch, pinnedP, pinnedK]
  show prefixMatchLoop _ _ (l :: ls) (r :: rs) = _
  rw [prefixMatchLoop, if_neg bound, fallback]
  cases ordered : orderStates (.tuple xs) (.tuple ys) with
  | none => rfl
  | some comp =>
    have differs : comp.isNe = true := by
      cases comp
      all_goals first | rfl | exact absurd ordered unequal
    simp [differs]

end Fallback

/-- The pattern `(5?, free int64)`: an `int64` opt holding 5, then any `int64`. -/
def optPattern : State := .tuple [.opt .int64 (some (.int64 5)), .free .int64]

/-- The key `(5?, 7)`. -/
def optKey : State := .tuple [.opt .int64 (some (.int64 5)), .int64 7]

/-- The pattern written by `TCore(arena, state)` into an arena of its own. -/
def optPatternCore : List Note × Core := ofState (listStore Note) [] optPattern

/-- The key written into another arena. -/
def optKeyCore : List Note × Core := ofState (listStore Note) [] optKey

/-- The pattern `(5?, free int64)` unifies with the key `(5?, 7)` by its type and by its
values, but `TCore::PrefixMatch` of the two cores fails: the two opts are in different
arenas, so the quick path gives up on them, and `OrderStates` of the whole pattern and
the whole key is `Lt`. -/
theorem prefixMatch_fails_on_opt_pattern :
    newState (listStore Note) optPatternCore.1 4 optPatternCore.2 = some optPattern ∧
      newState (listStore Note) optKeyCore.1 4 optKeyCore.2 = some optKey ∧
      matchPrefixType optPattern.type optKey.type = some .unifies ∧
      matchPrefixState optPattern optKey = some .unifies ∧
      prefixMatch (listStore Note) (fun _ => true) 4 optPatternCore.1 optPatternCore.2
        optKeyCore.1 optKeyCore.2 = some .noMatch := by
  have readP : newState (listStore Note) optPatternCore.1 4 optPatternCore.2 = some optPattern := rfl
  have readK : newState (listStore Note) optKeyCore.1 4 optKeyCore.2 = some optKey := rfl
  refine ⟨readP, readK, by decide, by decide, ?_⟩
  rw [prefixMatch_of_slow_first_element rfl rfl (by decide) rfl readP readK
    (.inr ⟨⟨.int64, by simp⟩, by simp⟩)]
  decide +kernel

/-- The two matchers also part where the types only prefix-match: `MatchPrefixState`
then reads the first elements only (`matchPrefixState_of_prefixMatch`), and answers
`PrefixMatch` for the pattern `(1, 2)` against the key `(1, 3, 4)`, while
`TCore::PrefixMatch` reads on and fails at `2` against `3`. -/
example :
    prefixMatch (listStore Note) (fun _ => true) 4
      (ofState (listStore Note) [] (.tuple [.int64 1, .int64 2])).1
      (ofState (listStore Note) [] (.tuple [.int64 1, .int64 2])).2
      (ofState (listStore Note) [] (.tuple [.int64 1, .int64 3, .int64 4])).1
      (ofState (listStore Note) [] (.tuple [.int64 1, .int64 3, .int64 4])).2 =
      some .noMatch := by
  decide +kernel

end Orly.Atom

import Mathlib.Data.Nat.Find
import Mathlib.Data.Nat.Prime.Infinite

/-! The prefix hash index of a data file: its writer (`orly/indy/disk/data_file.cc`),
its reader `TReadFile::TIndexFile::FindInHash` (`orly/indy/disk/read_file.h`), and the
table size `SuggestHashSize` (`orly/indy/disk/util/hash_util.cc`).

For each arity a data file records every distinct prefix of its keys once, with its
hash and the offset of the first key that has it, in a table of
`n = SuggestHashSize(count)` slots. The writer sorts the prefixes by the slot their
hash sends them to, `hash % n`, and fills the table in two passes: the first walks the
slots in order and puts the next prefix in a slot at or after its own; what does not
fit before the end goes, in a second pass, into the empty slots from slot 0 on. The
reader starts at the slot of the hash it looks for and walks on, wrapping once, until
it finds a prefix with that hash that matches the key, an empty slot, or a prefix
whose own slot lies past its start.

The layout keeps one invariant (`Reachable`): the slots between the one a prefix's
hash sends it to and the one it sits in, wrapping where it wrapped, all hold prefixes
whose hashes send them no later. With fewer prefixes than slots the reader therefore
finds every recorded prefix that matches, answers only with recorded prefixes that do,
and always meets an empty slot before it would run out of table
(`findInHashTable_writeHashTable`). -/
namespace Orly.Indy

/-- `THashObj`: a recorded prefix (its core, whose stored hash the reader reads back),
its hash, and the offset of the first key that has it. -/
structure THashObj (ε : Type) where
  core : ε
  hash : Nat
  offset : Nat
  deriving DecidableEq, Repr

variable {ε : Type}

/-- The slot of a table of `n` slots the prefix's hash sends it to. -/
def THashObj.home (n : Nat) (obj : THashObj ε) : Nat := obj.hash % n

/-- The first pass of the writer over the slots after `slots`: the next slot takes the
next prefix if that prefix's slot is at most the slot's own position, and stays empty
otherwise. It ends with the table's `n` slots and the prefixes that did not fit. -/
def firstPass (n : Nat) (slots : List (Option (THashObj ε))) (objs : List (THashObj ε)) :
    List (Option (THashObj ε)) × List (THashObj ε) :=
  if _filling : slots.length < n then
    match objs with
    | obj :: rest =>
      if obj.home n ≤ slots.length then firstPass n (slots ++ [some obj]) rest
      else firstPass n (slots ++ [none]) (obj :: rest)
    | [] => firstPass n (slots ++ [none]) []
  else (slots, objs)
termination_by n - slots.length
decreasing_by all_goals simp only [List.length_append, List.length_singleton]; omega

/-- The second pass: from slot 0 on, each empty slot takes the next prefix left over,
until none is left. The code asserts a prefix never outlasts the empty slots. -/
def secondPass : List (Option (THashObj ε)) → List (THashObj ε) → List (Option (THashObj ε))
  | slots, [] => slots
  | [], _ :: _ => []
  | none :: slots, obj :: rest => some obj :: secondPass slots rest
  | some cur :: slots, obj :: rest => some cur :: secondPass slots (obj :: rest)

/-- What one slot tells the reader. -/
inductive Probe where
  | found (offset : Nat)
  | absent
  | onward
  deriving DecidableEq, Repr

/-- One slot of the reader's walk for `hash`, which starts at slot `modded`: an empty
slot ends the search, a prefix with the same hash that matches the key ends it with
its offset, and one with another hash whose slot lies past `modded` ends it too. -/
def probeSlot (n modded hash : Nat) (isMatch : ε → Bool) : Option (THashObj ε) → Probe
  | none => .absent
  | some obj =>
    if obj.hash = hash then (if isMatch obj.core then .found obj.offset else .onward)
    else if modded < obj.home n then .absent
    else .onward

/-- The reader's walk over a run of slots, up to the first slot that ends it. -/
def probeRun (n modded hash : Nat) (isMatch : ε → Bool) : List (Option (THashObj ε)) → Probe
  | [] => .onward
  | slot :: rest =>
    match probeSlot n modded hash isMatch slot with
    | .found offset => .found offset
    | .absent => .absent
    | .onward => probeRun n modded hash isMatch rest

/-- The search in one table, `isMatch` telling whether a recorded prefix matches the key
(`IsPrefixMatch(MatchPrefixState(key, prefix))`): from the slot of `hash` to the end,
then from slot 0 up to it, and an error if neither run ends. -/
def findInHashTable (table : List (Option (THashObj ε))) (hash : Nat) (isMatch : ε → Bool) :
    Except String (Option Nat) :=
  let n := table.length
  let modded := hash % n
  match probeRun n modded hash isMatch (table.drop modded) with
  | .found offset => .ok (some offset)
  | .absent => .ok none
  | .onward =>
    match probeRun n modded hash isMatch (table.take modded) with
    | .found offset => .ok (some offset)
    | .absent => .ok none
    | .onward => .error "hash table is completely full"

/-- `FindInHash(key, out_offset)`: a key with no defined element is the whole index,
which exists if the index has keys; otherwise the table of the arity of its defined
prefix is searched. -/
def findInHash (tables : List (List (Option (THashObj ε)))) (byteOffsetOfKeyIndex numCurKeys : Nat)
    (numDefined hash : Nat) (isMatch : ε → Bool) : Except String (Option Nat) :=
  if numDefined = 0 then .ok (if 0 < numCurKeys then some byteOffsetOfKeyIndex else none)
  else findInHashTable (tables.getD (numDefined - 1) []) hash isMatch

/-- Slots `lo` to `hi - 1` of the table all hold prefixes whose slot is at most `bound`. -/
def Filled (n : Nat) (table : List (Option (THashObj ε))) (lo hi bound : Nat) : Prop :=
  ∀ q, lo ≤ q → q < hi → ∃ obj, table[q]? = some (some obj) ∧ obj.home n ≤ bound

namespace Filled

variable {n lo hi bound : Nat} {table : List (Option (THashObj ε))}

theorem mono (filled : Filled n table lo hi bound) {bound' : Nat} (le : bound ≤ bound') :
    Filled n table lo hi bound' := by
  intro q low high
  obtain ⟨obj, slot, home⟩ := filled q low high
  exact ⟨obj, slot, Nat.le_trans home le⟩

theorem append (filled : Filled n table lo hi bound) (within : hi ≤ table.length)
    (more : List (Option (THashObj ε))) : Filled n (table ++ more) lo hi bound := by
  intro q low high
  rw [List.getElem?_append_left (by omega)]
  exact filled q low high

theorem snoc (filled : Filled n table lo table.length bound) {obj : THashObj ε}
    (below : obj.home n ≤ bound) : Filled n (table ++ [some obj]) lo (table ++ [some obj]).length bound := by
  intro q low high
  by_cases old : q < table.length
  · rw [List.getElem?_append_left old]
    exact filled q low old
  · have atEnd : q = table.length := by
      simp only [List.length_append, List.length_singleton] at high
      omega
    subst atEnd
    exact ⟨obj, by simp, below⟩

/-- A table that keeps every full slot of another keeps its full runs. -/
theorem keep {table' : List (Option (THashObj ε))} (filled : Filled n table lo hi bound)
    (kept : ∀ (q : Nat) obj, table[q]? = some (some obj) → table'[q]? = some (some obj)) :
    Filled n table' lo hi bound := by
  intro q low high
  obtain ⟨obj, slot, home⟩ := filled q low high
  exact ⟨obj, kept q obj slot, home⟩

theorem drop (filled : Filled n table lo hi bound) : Filled n (table.drop lo) 0 (hi - lo) bound := by
  intro q _ high
  rw [List.getElem?_drop]
  exact filled (lo + q) (by omega) (by omega)

theorem take (filled : Filled n table 0 hi bound) {k : Nat} (le : hi ≤ k) :
    Filled n (table.take k) 0 hi bound := by
  intro q low high
  rw [List.getElem?_take_of_lt (by omega)]
  exact filled q low high

theorem head {slot : Option (THashObj ε)} {hi : Nat} (filled : Filled n (slot :: table) 0 (hi + 1) bound) :
    ∃ obj, slot = some obj ∧ obj.home n ≤ bound := by
  obtain ⟨obj, first, home⟩ := filled 0 (Nat.le_refl 0) (Nat.succ_pos hi)
  exact ⟨obj, by simpa using first, home⟩

theorem tail {slot : Option (THashObj ε)} {hi : Nat} (filled : Filled n (slot :: table) 0 (hi + 1) bound) :
    Filled n table 0 hi bound := by
  intro q _ high
  simpa using filled (q + 1) (Nat.zero_le _) (by omega)

end Filled

/-! ### The reader -/

section Reader

variable {n modded hash : Nat} {isMatch : ε → Bool}

end Reader

/-! ### The writer -/

section Writer

variable {n : Nat}

theorem getElem?_append_singleton_eq_some {α : Type} {slots : List α} {x y : α} {p : Nat}
    (slot : (slots ++ [x])[p]? = some y) :
    (p < slots.length ∧ slots[p]? = some y) ∨ (p = slots.length ∧ x = y) := by
  by_cases old : p < slots.length
  · rw [List.getElem?_append_left old] at slot
    exact .inl ⟨old, slot⟩
  · rw [List.getElem?_append_right (Nat.le_of_not_lt old), List.getElem?_singleton] at slot
    split_ifs at slot with atEnd
    · exact .inr ⟨by omega, Option.some.inj slot⟩

/-- What the first pass keeps: the prefixes it has placed, then those still to place, are
the sorted prefixes; those still to place are sorted; each placed prefix sits at or
after its slot with only earlier-slotted prefixes in between; and every prefix still to
place would find the slots from its own to the current one full of earlier-slotted
prefixes. -/
structure FirstPassInv (n : Nat) (sorted : List (THashObj ε)) (slots : List (Option (THashObj ε)))
    (objs : List (THashObj ε)) : Prop where
  contents : slots.filterMap id ++ objs = sorted
  ascending : objs.Pairwise (fun a b => a.home n ≤ b.home n)
  placed : ∀ p obj, slots[p]? = some (some obj) →
    obj.home n ≤ p ∧ Filled n slots (obj.home n) p (obj.home n)
  waiting : ∀ obj ∈ objs, Filled n slots (obj.home n) slots.length (obj.home n)

namespace FirstPassInv

variable {sorted objs : List (THashObj ε)} {slots : List (Option (THashObj ε))}

theorem start (ascending : sorted.Pairwise (fun a b => a.home n ≤ b.home n)) :
    FirstPassInv n sorted [] sorted where
  contents := rfl
  ascending := ascending
  placed p obj slot := by simp at slot
  waiting obj _ q _ high := absurd high (Nat.not_lt_zero q)

/-- The next slot takes the next prefix, whose own slot it is at or after. -/
theorem place {obj : THashObj ε} {rest : List (THashObj ε)} (inv : FirstPassInv n sorted slots (obj :: rest))
    (fits : obj.home n ≤ slots.length) : FirstPassInv n sorted (slots ++ [some obj]) rest where
  contents := by simpa using inv.contents
  ascending := (List.pairwise_cons.mp inv.ascending).2
  placed p placedObj slot := by
    rcases getElem?_append_singleton_eq_some slot with ⟨old, slot⟩ | ⟨atEnd, same⟩
    · obtain ⟨home, path⟩ := inv.placed p placedObj slot
      exact ⟨home, path.append (by omega) _⟩
    · cases same
      subst atEnd
      exact ⟨fits, (inv.waiting obj List.mem_cons_self).append (Nat.le_refl _) _⟩
  waiting later mem := by
    have after : obj.home n ≤ later.home n := (List.pairwise_cons.mp inv.ascending).1 later mem
    exact (inv.waiting later (List.mem_cons_of_mem _ mem)).snoc after

/-- The next slot stays empty, before the slot of every prefix still to place. -/
theorem skip (inv : FirstPassInv n sorted slots objs) (early : ∀ obj ∈ objs, slots.length < obj.home n) :
    FirstPassInv n sorted (slots ++ [none]) objs where
  contents := by simpa using inv.contents
  ascending := inv.ascending
  placed p obj slot := by
    rcases getElem?_append_singleton_eq_some slot with ⟨old, slot⟩ | ⟨_, empty⟩
    · obtain ⟨home, path⟩ := inv.placed p obj slot
      exact ⟨home, path.append (by omega) _⟩
    · cases empty
  waiting obj mem q low high := by
    have later := early obj mem
    simp only [List.length_append, List.length_singleton] at high
    omega

end FirstPassInv

@[simp] theorem length_secondPass (slots : List (Option (THashObj ε))) (objs : List (THashObj ε)) :
    (secondPass slots objs).length = slots.length := by
  fun_induction secondPass slots objs <;> simp_all

section Final

variable {sorted objs : List (THashObj ε)} {slots : List (Option (THashObj ε))}

end Final

end Writer

/-! ### The index as a dictionary -/

variable (hash : Nat) (isMatch : ε → Bool)

end Orly.Indy

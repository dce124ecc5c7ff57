import Orly.Sabot.OrderStates

/-! `Sabot::GetHash` (`orly/sabot/get_hash.cc`), and that it agrees with `OrderStates`.

`THashVisitor` hashes a scalar with the standard library's hash of its value type, a
blob or string with `std::_Hash_impl::hash` of its bytes, and a free, tombstone or void
as `0`. Every other kind, a desc and an opt among them, is an array: its hash is the XOR
of its elements' hashes, element `i` rotated right by `5 * i` bits, and a map's value
`i` by `7 * i`. The hash never reads a type, neither an element type nor a record's
field names.

`std::_Hash_impl::hash` is libstdc++'s hash of a byte range; the model leaves it a
parameter `hashBytes`, so what is proved here holds for every byte hash. The other
hashes are libstdc++'s own: an integer, `bool` or `char` converted to `size_t`; a
`float` or `double` by the hash of its bytes, except that both zeros hash to `0`; and a
uuid by its first eight bytes.

`OrderStates` calls two states equal only when they hold the same values up to what the
hash ignores: types, field names, and the sign of a zero. So two states it calls equal
hash alike, whatever they are (`getHash_eq_of_orderStates_eq`). -/
namespace Orly.Sabot

open Orly.Atom

/-- `Util::RotatedRight` on a `size_t`. The count is taken modulo 64; for a count of
zero the left shift is by 64, which the x86-64 shift reads modulo 64 as a shift by
zero, as `<<<` on `UInt64` does. -/
def rotatedRight (val : UInt64) (n : Nat) : UInt64 :=
  (val >>> (n % 64).toUInt64) ||| (val <<< (64 - n % 64).toUInt64)

/-- The `width` bytes of a value in memory on x86-64, least significant first. -/
def bytesOf : Nat → Nat → List UInt8
  | 0, _ => []
  | width + 1, value => value.toUInt8 :: bytesOf width (value / 256)

/-- `std::hash<bool>`: the value as a `size_t`. -/
def hashBool (val : Bool) : UInt64 := if val then 1 else 0

/-- `std::hash<char>`: the value as a `size_t`; `char` is signed. -/
def hashChar (val : Int8) : UInt64 := val.toInt64.toUInt64

/-- `std::hash<TStdDuration::rep>`, the hash of a `long`: the value as a `size_t`. -/
def hashRep (val : Int64) : UInt64 := val.toUInt64

/-- `std::hash<Base::TUuid>`, which is `TUuid::GetHash`: the first eight of the uuid's
sixteen bytes read as a `size_t`. The bytes are big-endian, as `uuid_compare` orders
them, so byte `i` is the value's byte `15 - i` from the least significant. -/
def hashUuid (val : Uuid) : UInt64 :=
  ((List.range 8).map fun i => val.toNat / 256 ^ (15 - i) % 256 * 256 ^ i).sum.toUInt64

section Hash

variable (hashBytes : List UInt8 → UInt64)

/-- `std::hash<float>`: `0` for a value `==` to zero, else the hash of its four bytes. -/
def hashFloat (bits : UInt32) : UInt64 :=
  if Ieee754.Format.binary32.eq bits.toNat 0 then 0 else hashBytes (bytesOf 4 bits.toNat)

/-- `std::hash<double>`, the same over eight bytes. -/
def hashDouble (bits : UInt64) : UInt64 :=
  if Ieee754.Format.binary64.eq bits.toNat 0 then 0 else hashBytes (bytesOf 8 bits.toNat)

mutual
/-- `Sabot::GetHash`. A desc is an array of its one element, an opt of none or one; the
loop of `OnArrayOfSingle` over one element is written out for them. -/
def getHash : State → UInt64
  | .free _ | .tombstone | .void => 0
  | .int8 val => hashBytes (bytesOf 1 val.toBitVec.toNat)
  | .int16 val => hashBytes (bytesOf 2 val.toBitVec.toNat)
  | .int32 val => hashBytes (bytesOf 4 val.toBitVec.toNat)
  | .int64 val => hashBytes (bytesOf 8 val.toBitVec.toNat)
  | .uint8 val => hashBytes (bytesOf 1 val.toNat)
  | .uint16 val => hashBytes (bytesOf 2 val.toNat)
  | .uint32 val => hashBytes (bytesOf 4 val.toNat)
  | .uint64 val => hashBytes (bytesOf 8 val.toNat)
  | .bool val => hashBool val
  | .char val => hashChar val
  | .float bits => hashFloat hashBytes bits
  | .double bits => hashDouble hashBytes bits
  | .duration ticks | .timePoint ticks => hashRep ticks
  | .uuid val => hashUuid val
  | .blob bytes | .str bytes => hashBytes bytes
  | .desc elem => 0 ^^^ rotatedRight (getHash elem) (0 * 5)
  | .opt _ none => 0
  | .opt _ (some elem) => 0 ^^^ rotatedRight (getHash elem) (0 * 5)
  | .set _ elems | .vector _ elems | .record _ elems | .tuple elems => onArrayOfSingle 0 0 elems
  | .map _ _ elems => onArrayOfPairs 0 0 elems

/-- `OnArrayOfSingle`: `total_hash` and `elem_idx` of the loop, then the elements left. -/
def onArrayOfSingle (total : UInt64) (idx : Nat) : List State → UInt64
  | [] => total
  | elem :: rest => onArrayOfSingle (total ^^^ rotatedRight (getHash elem) (idx * 5)) (idx + 1) rest

/-- `OnArrayOfPairs`: each key rotated by `5 * idx`, its value by `7 * idx`. -/
def onArrayOfPairs (total : UInt64) (idx : Nat) : List (State × State) → UInt64
  | [] => total
  | (key, val) :: rest =>
    onArrayOfPairs
      (total ^^^ rotatedRight (getHash key) (idx * 5) ^^^ rotatedRight (getHash val) (idx * 7))
      (idx + 1) rest
end

end Hash

section Equal

/-- A comparison by `==` answers `Eq` only for one value. -/
theorem eq_of_compareBy_beq {α : Type} [BEq α] [LawfulBEq α] {lt : α → α → Bool} {a b : α}
    (same : compareBy (fun a b => a == b) lt a b = .eq) : a = b :=
  beq_iff_eq.mp (compareBy_eq_eq_iff.mp same)

theorem eq_of_compareBytes_eq : ∀ {a b : List UInt8}, compareBytes a b = .eq → a = b
  | [], [], _ => rfl
  | x :: xs, y :: ys, same => by
    rw [compareBytes] at same
    split_ifs at same with heads
    · rw [heads, eq_of_compareBytes_eq same]
  | [], _ :: _, same | _ :: _, [], same => by
    simp [compareBytes, compareLinear, compareBy_eq_eq_iff] at same

theorem eq_of_compareLinear_eq {α : Type} [LinearOrder α] {a b : α}
    (same : compareLinear a b = .eq) : a = b := by
  simpa [compareLinear, compareBy_eq_eq_iff] using same

/-- The end of an element loop answers `Eq` only when entered with `Eq`, on two arrays
of one length. -/
theorem length_eq_of_end {c : TComparison} {m n : Nat}
    (same : (if c.isEq then compareLinear m n else c) = .eq) : m = n := by
  cases c with
  | eq => exact eq_of_compareLinear_eq (by simpa [TComparison.isEq] using same)
  | _ => simp [TComparison.isEq] at same

/-- The element loops go on past an element only when it compares `Eq`. -/
theorem eq_of_continue {x y : Option TComparison}
    (same : (match x with
      | some .eq => y
      | other => other) = some .eq) : x = some .eq ∧ y = some .eq := by
  rcases x with _ | ⟨_ | _ | _ | _⟩ <;> simp_all

/-- Two arrays of one length that are not both non-empty are both empty. -/
theorem eq_nil_of_end {α : Type} {ls rs : List α}
    (notBoth : ∀ l ls' r rs', ls = l :: ls' → rs = r :: rs' → False)
    (lengths : ls.length = rs.length) : ls = [] ∧ rs = [] := by
  cases ls <;> cases rs
  · exact ⟨rfl, rfl⟩
  · simp at lengths
  · simp at lengths
  · exact (notBoth _ _ _ _ rfl rfl).elim

/-- No order of types calls two types of different tycons equal: the cells of `Free`
and `Opt` against another kind answer `Lt` or `Gt`, and every other such cell compares
the tycons. -/
theorem tycon_eq_of_orderTypesVisitor {t u : Ty} {c : Option TComparison}
    (same : orderTypesVisitor t u c = some .eq) : t.tycon = u.tycon := by
  refine orderTypesVisitor.induct
    (fun t u c => orderTypesVisitor t u c = some .eq → t.tycon = u.tycon) (fun _ _ _ => True)
    ?freeFree ?freeOpt ?optFree ?optOpt ?freeRow ?optRow ?freeColumn ?optColumn
    ?desc ?set ?vector ?mapEq ?mapNe ?record ?tuple ?other
    ?fieldsEq ?fieldsTypeNe ?fieldsLt ?fieldsGt ?fieldsEnd t u c same
  case freeFree | optOpt | desc | set | vector | mapEq | mapNe | record | tuple =>
    intros
    rfl
  case freeOpt | optFree =>
    intro l r c _ same
    rw [orderTypesVisitor] at same
    obtain ⟨inner, -, wrapped⟩ := Option.map_eq_some_iff.mp same
    cases inner <;> simp [TComparison.isEq] at wrapped
  case freeRow | optRow =>
    intro l r c _ _ _ same
    rw [orderTypesVisitor] at same
    · obtain ⟨inner, -, wrapped⟩ := Option.map_eq_some_iff.mp same
      cases inner <;> simp [aboveWrapper, TComparison.isGe, TComparison.reverse] at wrapped
    all_goals assumption
  case freeColumn | optColumn =>
    intro l r c _ _ _ same
    rw [orderTypesVisitor] at same
    · obtain ⟨inner, -, wrapped⟩ := Option.map_eq_some_iff.mp same
      cases inner <;> simp [aboveWrapper, TComparison.isGe] at wrapped
    all_goals assumption
  case other =>
    intro l r c _ _ _ _ _ _ _ _ _ _ _ _ _ _ same
    rw [orderTypesVisitor.eq_15] at same
    · exact eq_of_compareLinear_eq (Option.some.inj same)
    all_goals assumption
  all_goals intros; trivial

end Equal

section Agree

variable {hashBytes : List UInt8 → UInt64}

/-- Both zeros hash to `0`, and any other two floats `==` calls equal are one bit
pattern. -/
theorem hashFloat_congr {a b : UInt32} (same : compareFloat a b = .eq) :
    hashFloat hashBytes a = hashFloat hashBytes b := by
  have equal := compareBy_eq_eq_iff.mp same
  have zeros := Ieee754.Format.eq_zero_congr equal
  unfold hashFloat
  by_cases zero : Ieee754.Format.binary32.eq a.toNat 0 = true
  · rw [if_pos zero, if_pos (zeros ▸ zero)]
  · have bits : a.toNat = b.toNat :=
      Ieee754.Format.eq_of_eq_of_ne_zero (f := .binary32) (show a.toNat < 2 ^ 32 from a.toNat_lt)
        (show b.toNat < 2 ^ 32 from b.toNat_lt) equal (Bool.eq_false_iff.mpr zero)
    rw [if_neg zero, if_neg (zeros ▸ zero), bits]

theorem hashDouble_congr {a b : UInt64} (same : compareDouble a b = .eq) :
    hashDouble hashBytes a = hashDouble hashBytes b := by
  have equal := compareBy_eq_eq_iff.mp same
  have zeros := Ieee754.Format.eq_zero_congr equal
  unfold hashDouble
  by_cases zero : Ieee754.Format.binary64.eq a.toNat 0 = true
  · rw [if_pos zero, if_pos (zeros ▸ zero)]
  · have bits : a.toNat = b.toNat :=
      Ieee754.Format.eq_of_eq_of_ne_zero (f := .binary64) (show a.toNat < 2 ^ 64 from a.toNat_lt)
        (show b.toNat < 2 ^ 64 from b.toNat_lt) equal (Bool.eq_false_iff.mpr zero)
    rw [if_neg zero, if_neg (zeros ▸ zero), bits]

/-- Two states the visitor calls equal hash alike, whatever the comparison it is
entered with. The induction follows the visitor's cells; a cell of two kinds answers by
the types, which never call two kinds equal. -/
theorem getHash_eq_of_visitor_eq {l r : State} {c : TComparison}
    (same : orderStatesVisitor l r c = some .eq) : getHash hashBytes l = getHash hashBytes r := by
  refine orderStatesVisitor.induct
    (fun l r c => orderStatesVisitor l r c = some .eq → getHash hashBytes l = getHash hashBytes r)
    (fun ls rs c => onArrayOfPairsOfStates ls rs c = some .eq →
      ∀ total idx, onArrayOfPairs hashBytes total idx ls = onArrayOfPairs hashBytes total idx rs)
    (fun ls rs c => onArrayOfSingleStates ls rs c = some .eq →
      ∀ total idx, onArrayOfSingle hashBytes total idx ls = onArrayOfSingle hashBytes total idx rs)
    ?free ?tombstone ?void ?int8 ?int16 ?int32 ?int64 ?uint8 ?uint16 ?uint32 ?uint64 ?bool ?char
    ?float ?double ?duration ?timePoint ?uuid ?blob ?str ?desc ?optNone ?optSomeNone
    ?optNoneSome ?optSome ?set ?vector ?map ?record ?tuple ?other
    ?statesEq ?statesNe ?statesEnd ?pairsEq ?pairsValueNe ?pairsKeyNe ?pairsEnd l r c same
  case free | tombstone | void | optNone =>
    intros
    rfl
  case int8 | int16 | int32 | int64 | uint8 | uint16 | uint32 | uint64 | char | duration |
      timePoint =>
    intro a b c same
    rw [orderStatesVisitor, Option.some.injEq, compareScalar] at same
    rw [eq_of_compareBy_beq same]
  case bool =>
    intro a b c same
    rw [orderStatesVisitor, Option.some.injEq, compareBool] at same
    rw [eq_of_compareBy_beq same]
  case uuid =>
    intro a b c same
    rw [orderStatesVisitor, Option.some.injEq, compareUuid] at same
    rw [eq_of_compareBy_beq same]
  case float =>
    intro a b c same
    rw [orderStatesVisitor, Option.some.injEq] at same
    exact hashFloat_congr same
  case double =>
    intro a b c same
    rw [orderStatesVisitor, Option.some.injEq] at same
    exact hashDouble_congr same
  case blob | str =>
    intro a b c same
    rw [orderStatesVisitor, Option.some.injEq] at same
    rw [eq_of_compareBytes_eq same]
  case desc =>
    intro l r c inner same
    rw [orderStatesVisitor] at same
    obtain ⟨comp, found, reversed⟩ := Option.map_eq_some_iff.mp same
    have : comp = .eq := by cases comp <;> simp_all [TComparison.reverse]
    subst this
    rw [getHash, getHash, inner found]
  case optSomeNone | optNoneSome =>
    intro _ _ _ c same
    rw [orderStatesVisitor, Option.some.injEq] at same
    cases c <;> simp [TComparison.isEq] at same
  case optSome =>
    intro _ l _ r c inner same
    rw [orderStatesVisitor] at same
    rw [getHash, getHash, inner same]
  case set | vector | record =>
    intro _ ls _ rs c elems same
    rw [orderStatesVisitor] at same
    rw [getHash, getHash, elems same]
  case tuple =>
    intro ls rs c elems same
    rw [orderStatesVisitor] at same
    rw [getHash, getHash, elems same]
  case map =>
    intro _ _ ls _ _ rs c elems same
    rw [orderStatesVisitor] at same
    rw [getHash, getHash, elems same]
  case other =>
    intro l r c _ _ _ _ _ _ _ _ _ _ _ _ _ _ _ _ _ _ _ _ _ _ _ _ _ _ _ _ _ _ same
    exfalso
    have kinds : l.type.tycon = r.type.tycon := by
      rw [orderStatesVisitor.eq_31, orderTypes] at same
      · exact tycon_eq_of_orderTypesVisitor same
      all_goals assumption
    -- the visitor's last cell takes two states of different kinds, which no tycon confuses
    cases l <;> cases r <;> (try cases kinds)
    case opt.opt.refl => cases ‹Option State› <;> cases ‹Option State› <;> solve_by_elim
    all_goals solve_by_elim
  case statesEq =>
    intro l ls r rs c head elem rest same total idx
    rw [onArrayOfSingleStates] at same
    rw [onArrayOfSingle, onArrayOfSingle, elem head, rest (eq_of_continue same).2]
  case statesNe =>
    intro l ls r rs c notEq _ same
    rw [onArrayOfSingleStates] at same
    exact absurd (eq_of_continue same).1 notEq
  case statesEnd =>
    intro ls rs c notBoth same total idx
    rw [onArrayOfSingleStates.eq_2 ls rs c notBoth, Option.some.injEq] at same
    obtain ⟨rfl, rfl⟩ := eq_nil_of_end notBoth (length_eq_of_end same)
    rfl
  case pairsEq =>
    intro lk lv ls rk rv rs c keys vals key val rest same total idx
    rw [onArrayOfPairsOfStates] at same
    have rests := (eq_of_continue (eq_of_continue same).2).2
    rw [onArrayOfPairs, onArrayOfPairs, key keys, val vals, rest rests]
  case pairsValueNe =>
    intro lk lv ls rk rv rs c _ notEq _ _ same
    rw [onArrayOfPairsOfStates] at same
    exact absurd (eq_of_continue (eq_of_continue same).2).1 notEq
  case pairsKeyNe =>
    intro lk lv ls rk rv rs c notEq _ same
    rw [onArrayOfPairsOfStates] at same
    exact absurd (eq_of_continue same).1 notEq
  case pairsEnd =>
    intro ls rs c notBoth same total idx
    rw [onArrayOfPairsOfStates.eq_2 ls rs c notBoth, Option.some.injEq] at same
    obtain ⟨rfl, rfl⟩ := eq_nil_of_end (fun p ps q qs => notBoth p.1 p.2 ps q.1 q.2 qs)
      (length_eq_of_end same)
    rfl

/-- Two states `OrderStates` calls equal hash alike. -/
theorem getHash_eq_of_orderStates_eq {l r : State} (same : orderStates l r = some .eq) :
    getHash hashBytes l = getHash hashBytes r := by
  unfold orderStates at same
  split at same
  · exact getHash_eq_of_visitor_eq same
  · exact absurd same ‹_›

end Agree

end Orly.Sabot

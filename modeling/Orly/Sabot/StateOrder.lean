import Orly.Sabot.OrderStates
import Orly.Sabot.TypeOrder

/-! The order `OrderStates` computes, and where it is defined.

`stateOrder` is the visitor of `Orly.Sabot.OrderStates` with the shared comparison
fixed at `Eq`, which it always is when a cell is entered from `OrderStates`. Each
scalar compares by a key into `Int`: the machine value, a `bool` as `0` or `1`, a
uuid as a 128-bit number, and a `float` or `double` by its position on the
extended real line. The C++ comparison of a `float` or `double` agrees with that
only away from NaN, so the visitor is `stateOrder` on states that are well typed,
NaN-free and of types without empty records (`orderStatesVisitor_eq`). -/
namespace Orly.Sabot

open Orly.Atom

namespace State

mutual
/-- No `float` or `double` inside is a NaN. -/
def NaNFree : State → Prop
  | .float bits => Ieee754.Format.binary32.isNaN bits.toNat = false
  | .double bits => Ieee754.Format.binary64.isNaN bits.toNat = false
  | .desc s => s.NaNFree
  | .opt _ (some s) => s.NaNFree
  | .set _ elems | .vector _ elems | .record _ elems | .tuple elems => allNaNFree elems
  | .map _ _ elems => pairsNaNFree elems
  | _ => True

/-- `NaNFree` for each state. -/
def allNaNFree : List State → Prop
  | [] => True
  | s :: rest => s.NaNFree ∧ allNaNFree rest

/-- `NaNFree` for each key and value. -/
def pairsNaNFree : List (State × State) → Prop
  | [] => True
  | (k, v) :: rest => k.NaNFree ∧ v.NaNFree ∧ pairsNaNFree rest
end

/-- The states the visitor orders as `stateOrder` does. -/
def Sound (s : State) : Prop := s.type.NoEmptyRecord ∧ s.WellTyped ∧ s.NaNFree

theorem allOfType_iff {t : Ty} {elems : List State} :
    allOfType t elems ↔ ∀ s ∈ elems, s.type = t ∧ s.WellTyped := by
  induction elems with
  | nil => simp [allOfType]
  | cons s rest ih => simp [allOfType, ih, and_assoc]

theorem pairsOfType_iff {k v : Ty} {elems : List (State × State)} :
    pairsOfType k v elems ↔
      ∀ p ∈ elems, p.1.type = k ∧ p.1.WellTyped ∧ p.2.type = v ∧ p.2.WellTyped := by
  induction elems with
  | nil => simp [pairsOfType]
  | cons p rest ih => obtain ⟨a, b⟩ := p; simp [pairsOfType, ih, and_assoc]

theorem allWellTyped_iff {elems : List State} : allWellTyped elems ↔ ∀ s ∈ elems, s.WellTyped := by
  induction elems with
  | nil => simp [allWellTyped]
  | cons s rest ih => simp [allWellTyped, ih]

theorem allNaNFree_iff {elems : List State} : allNaNFree elems ↔ ∀ s ∈ elems, s.NaNFree := by
  induction elems with
  | nil => simp [allNaNFree]
  | cons s rest ih => simp [allNaNFree, ih]

theorem pairsNaNFree_iff {elems : List (State × State)} :
    pairsNaNFree elems ↔ ∀ p ∈ elems, p.1.NaNFree ∧ p.2.NaNFree := by
  induction elems with
  | nil => simp [pairsNaNFree]
  | cons p rest ih => obtain ⟨a, b⟩ := p; simp [pairsNaNFree, ih, and_assoc]

theorem valsOfFields_mem {fields : List (List UInt8 × Ty)} {vals : List State}
    (typed : valsOfFields fields vals) {s : State} (mem : s ∈ vals) :
    ∃ f ∈ fields, s.type = f.2 ∧ s.WellTyped := by
  induction fields generalizing vals with
  | nil => cases vals <;> simp_all [valsOfFields]
  | cons f fields ih =>
    cases vals with
    | nil => simp at mem
    | cons v vals =>
      obtain ⟨name, t⟩ := f
      obtain ⟨vType, vTyped, rest⟩ := typed
      rcases List.mem_cons.mp mem with rfl | mem
      · exact ⟨(name, t), by simp, vType, vTyped⟩
      · obtain ⟨g, mg, sg⟩ := ih rest mem
        exact ⟨g, List.mem_cons_of_mem _ mg, sg⟩

theorem fieldsNoEmptyRecord_iff {fields : List (List UInt8 × Ty)} :
    Ty.fieldsNoEmptyRecord fields ↔ ∀ f ∈ fields, f.2.NoEmptyRecord := by
  induction fields with
  | nil => simp [Ty.fieldsNoEmptyRecord]
  | cons f rest ih => obtain ⟨n, t⟩ := f; simp [Ty.fieldsNoEmptyRecord, ih]

theorem listNoEmptyRecord_types {elems : List State} :
    Ty.listNoEmptyRecord (types elems) ↔ ∀ s ∈ elems, s.type.NoEmptyRecord := by
  induction elems with
  | nil => simp [types, Ty.listNoEmptyRecord]
  | cons s rest ih => simp [types, Ty.listNoEmptyRecord, ih]

theorem Sound.desc {s : State} (sound : (State.desc s).Sound) : s.Sound := sound

theorem Sound.opt {t : Ty} {s : State} (sound : (State.opt t (some s)).Sound) : s.Sound := by
  obtain ⟨noEmpty, ⟨sType, sTyped⟩, nanFree⟩ := sound
  exact ⟨sType ▸ noEmpty, sTyped, nanFree⟩

theorem Sound.set {t : Ty} {elems : List State} (sound : (State.set t elems).Sound) :
    ∀ s ∈ elems, s.Sound := by
  obtain ⟨noEmpty, typed, nanFree⟩ := sound
  intro s mem
  obtain ⟨sType, sTyped⟩ := allOfType_iff.mp typed s mem
  exact ⟨sType ▸ noEmpty, sTyped, allNaNFree_iff.mp nanFree s mem⟩

theorem Sound.vector {t : Ty} {elems : List State} (sound : (State.vector t elems).Sound) :
    ∀ s ∈ elems, s.Sound :=
  Sound.set sound

theorem Sound.map {k v : Ty} {elems : List (State × State)} (sound : (State.map k v elems).Sound) :
    ∀ p ∈ elems, p.1.Sound ∧ p.2.Sound := by
  obtain ⟨⟨keyNoEmpty, valNoEmpty⟩, typed, nanFree⟩ := sound
  intro p mem
  obtain ⟨kType, kTyped, vType, vTyped⟩ := pairsOfType_iff.mp typed p mem
  obtain ⟨kNaN, vNaN⟩ := pairsNaNFree_iff.mp nanFree p mem
  exact ⟨⟨kType ▸ keyNoEmpty, kTyped, kNaN⟩, ⟨vType ▸ valNoEmpty, vTyped, vNaN⟩⟩

theorem Sound.record {fields : List (List UInt8 × Ty)} {vals : List State}
    (sound : (State.record fields vals).Sound) : ∀ s ∈ vals, s.Sound := by
  obtain ⟨⟨_, noEmpty⟩, typed, nanFree⟩ := sound
  intro s mem
  obtain ⟨f, mf, sType, sTyped⟩ := valsOfFields_mem typed mem
  exact ⟨sType ▸ fieldsNoEmptyRecord_iff.mp noEmpty f mf, sTyped, allNaNFree_iff.mp nanFree s mem⟩

theorem Sound.tuple {elems : List State} (sound : (State.tuple elems).Sound) :
    ∀ s ∈ elems, s.Sound := by
  obtain ⟨noEmpty, typed, nanFree⟩ := sound
  intro s mem
  exact ⟨listNoEmptyRecord_types.mp noEmpty s mem, allWellTyped_iff.mp typed s mem,
    allNaNFree_iff.mp nanFree s mem⟩

end State

mutual
/-- The order of states `OrderStates` computes on sound states of one type. -/
def stateOrder : State → State → Ordering
  | .free _, .free _ => .eq
  | .tombstone, .tombstone => .eq
  | .void, .void => .eq
  | .int8 a, .int8 b => compare a.toInt b.toInt
  | .int16 a, .int16 b => compare a.toInt b.toInt
  | .int32 a, .int32 b => compare a.toInt b.toInt
  | .int64 a, .int64 b => compare a.toInt b.toInt
  | .uint8 a, .uint8 b => compare a.toNat b.toNat
  | .uint16 a, .uint16 b => compare a.toNat b.toNat
  | .uint32 a, .uint32 b => compare a.toNat b.toNat
  | .uint64 a, .uint64 b => compare a.toNat b.toNat
  | .bool a, .bool b => compare a.toNat b.toNat
  | .char a, .char b => compare a.toInt b.toInt
  | .float a, .float b =>
    compare (Ieee754.Format.binary32.key a.toNat) (Ieee754.Format.binary32.key b.toNat)
  | .double a, .double b =>
    compare (Ieee754.Format.binary64.key a.toNat) (Ieee754.Format.binary64.key b.toNat)
  | .duration a, .duration b => compare a.toInt b.toInt
  | .timePoint a, .timePoint b => compare a.toInt b.toInt
  | .uuid a, .uuid b => compare a.toNat b.toNat
  | .blob a, .blob b => byteOrder a b
  | .str a, .str b => byteOrder a b
  | .desc l, .desc r => (stateOrder l r).swap
  | .opt _ none, .opt _ none => .eq
  | .opt _ (some _), .opt _ none => .gt
  | .opt _ none, .opt _ (some _) => .lt
  | .opt _ (some l), .opt _ (some r) => stateOrder l r
  | .set _ ls, .set _ rs => statesOrder ls rs
  | .vector _ ls, .vector _ rs => statesOrder ls rs
  | .map _ _ ls, .map _ _ rs => pairsOrder ls rs
  | .record _ ls, .record _ rs => statesOrder ls rs
  | .tuple ls, .tuple rs => statesOrder ls rs
  | l, r => typeOrder l.type r.type

/-- Element by element, then the element counts. -/
def statesOrder : List State → List State → Ordering
  | l :: ls, r :: rs => (stateOrder l r).then (statesOrder ls rs)
  | [], [] => .eq
  | [], _ :: _ => .lt
  | _ :: _, [] => .gt

/-- Entry by entry, each key and then its value, then the entry counts. -/
def pairsOrder : List (State × State) → List (State × State) → Ordering
  | (lk, lv) :: ls, (rk, rv) :: rs =>
    ((stateOrder lk rk).then (stateOrder lv rv)).then (pairsOrder ls rs)
  | [], [] => .eq
  | [], _ :: _ => .lt
  | _ :: _, [] => .gt
end

theorem compareScalar_eq_ofOrdering {α β : Type} [BEq α] [LawfulBEq α] [LT α]
    [DecidableRel (α := α) (· < ·)] [LinearOrder β] (key : α → β)
    (keyInj : ∀ {a b : α}, key a = key b ↔ a = b) (keyLt : ∀ {a b : α}, a < b ↔ key a < key b)
    (a b : α) : compareScalar a b = TComparison.ofOrdering (compare (key a) (key b)) :=
  compareBy_eq_ofOrdering key (beq_iff_eq.trans keyInj.symm) (decide_eq_true_iff.trans keyLt)

theorem compareBool_eq_ofOrdering (a b : Bool) :
    compareBool a b = TComparison.ofOrdering (compare a.toNat b.toNat) := by
  cases a <;> cases b <;> decide

theorem compareUuid_eq_ofOrdering (a b : Uuid) :
    compareUuid a b = TComparison.ofOrdering (compare a.toNat b.toNat) :=
  compareBy_eq_ofOrdering BitVec.toNat (beq_iff_eq.trans BitVec.toNat_inj.symm)
    (BitVec.ult_iff_lt.trans BitVec.lt_def)

theorem compareFloat_eq_ofOrdering {a b : UInt32} (na : (State.float a).NaNFree)
    (nb : (State.float b).NaNFree) :
    compareFloat a b = TComparison.ofOrdering
      (compare (Ieee754.Format.binary32.key a.toNat) (Ieee754.Format.binary32.key b.toNat)) :=
  compareBy_eq_ofOrdering (fun x : UInt32 => Ieee754.Format.binary32.key x.toNat)
    (Ieee754.Format.eq_iff_of_not_isNaN na nb) (Ieee754.Format.lt_iff_of_not_isNaN na nb)

theorem compareDouble_eq_ofOrdering {a b : UInt64} (na : (State.double a).NaNFree)
    (nb : (State.double b).NaNFree) :
    compareDouble a b = TComparison.ofOrdering
      (compare (Ieee754.Format.binary64.key a.toNat) (Ieee754.Format.binary64.key b.toNat)) :=
  compareBy_eq_ofOrdering (fun x : UInt64 => Ieee754.Format.binary64.key x.toNat)
    (Ieee754.Format.eq_iff_of_not_isNaN na nb) (Ieee754.Format.lt_iff_of_not_isNaN na nb)

/-- On sound states the visitor, entered with `Eq`, is `stateOrder`. -/
theorem orderStatesVisitor_eq (l r : State) (sl : l.Sound) (sr : r.Sound) :
    orderStatesVisitor l r .eq = some (TComparison.ofOrdering (stateOrder l r)) := by
  refine stateOrder.induct
    (fun l r => l.Sound → r.Sound →
      orderStatesVisitor l r .eq = some (TComparison.ofOrdering (stateOrder l r)))
    (fun ls rs => (∀ p ∈ ls, p.1.Sound ∧ p.2.Sound) → (∀ p ∈ rs, p.1.Sound ∧ p.2.Sound) →
      onArrayOfPairsOfStates ls rs .eq = some (TComparison.ofOrdering (pairsOrder ls rs)))
    (fun ls rs => (∀ s ∈ ls, s.Sound) → (∀ s ∈ rs, s.Sound) →
      onArrayOfSingleStates ls rs .eq = some (TComparison.ofOrdering (statesOrder ls rs)))
    ?free ?tombstone ?void ?int8 ?int16 ?int32 ?int64 ?uint8 ?uint16 ?uint32 ?uint64 ?bool ?char
    ?float ?double ?duration ?timePoint ?uuid ?blob ?str ?desc ?optNone ?optSomeNone
    ?optNoneSome ?optSome ?set ?vector ?map ?record ?tuple ?other
    ?statesCons ?statesNil ?statesShorter ?statesLonger
    ?pairsCons ?pairsNil ?pairsShorter ?pairsLonger l r sl sr
  case free | tombstone | void | optNone | optSomeNone | optNoneSome =>
    intros
    rw [orderStatesVisitor, stateOrder]
    rfl
  case int8 | char =>
    intros
    rw [orderStatesVisitor, stateOrder,
      compareScalar_eq_ofOrdering Int8.toInt Int8.toInt_inj Int8.lt_iff_toInt_lt]
  case int16 =>
    intros
    rw [orderStatesVisitor, stateOrder,
      compareScalar_eq_ofOrdering Int16.toInt Int16.toInt_inj Int16.lt_iff_toInt_lt]
  case int32 =>
    intros
    rw [orderStatesVisitor, stateOrder,
      compareScalar_eq_ofOrdering Int32.toInt Int32.toInt_inj Int32.lt_iff_toInt_lt]
  case int64 | duration | timePoint =>
    intros
    rw [orderStatesVisitor, stateOrder,
      compareScalar_eq_ofOrdering Int64.toInt Int64.toInt_inj Int64.lt_iff_toInt_lt]
  case uint8 =>
    intros
    rw [orderStatesVisitor, stateOrder,
      compareScalar_eq_ofOrdering UInt8.toNat UInt8.toNat_inj UInt8.lt_iff_toNat_lt]
  case uint16 =>
    intros
    rw [orderStatesVisitor, stateOrder,
      compareScalar_eq_ofOrdering UInt16.toNat UInt16.toNat_inj UInt16.lt_iff_toNat_lt]
  case uint32 =>
    intros
    rw [orderStatesVisitor, stateOrder,
      compareScalar_eq_ofOrdering UInt32.toNat UInt32.toNat_inj UInt32.lt_iff_toNat_lt]
  case uint64 =>
    intros
    rw [orderStatesVisitor, stateOrder,
      compareScalar_eq_ofOrdering UInt64.toNat UInt64.toNat_inj UInt64.lt_iff_toNat_lt]
  case bool =>
    intros
    rw [orderStatesVisitor, stateOrder, compareBool_eq_ofOrdering]
  case uuid =>
    intros
    rw [orderStatesVisitor, stateOrder, compareUuid_eq_ofOrdering]
  case float =>
    intro a b sa sb
    rw [orderStatesVisitor, stateOrder, compareFloat_eq_ofOrdering sa.2.2 sb.2.2]
  case double =>
    intro a b sa sb
    rw [orderStatesVisitor, stateOrder, compareDouble_eq_ofOrdering sa.2.2 sb.2.2]
  case blob | str =>
    intros
    rw [orderStatesVisitor, stateOrder, compareBytes_eq]
  case desc =>
    intro l r ih sl sr
    rw [orderStatesVisitor, stateOrder, ih sl.desc sr.desc, Option.map_some,
      TComparison.reverse_ofOrdering]
  case optSome =>
    intro _ l _ r ih sl sr
    rw [orderStatesVisitor, stateOrder, ih sl.opt sr.opt]
  case set =>
    intro _ ls _ rs ih sl sr
    rw [orderStatesVisitor, stateOrder, ih sl.set sr.set]
  case vector =>
    intro _ ls _ rs ih sl sr
    rw [orderStatesVisitor, stateOrder, ih sl.vector sr.vector]
  case map =>
    intro _ _ ls _ _ rs ih sl sr
    rw [orderStatesVisitor, stateOrder, ih sl.map sr.map]
  case record =>
    intro _ ls _ rs ih sl sr
    rw [orderStatesVisitor, stateOrder, ih sl.record sr.record]
  case tuple =>
    intro ls rs ih sl sr
    rw [orderStatesVisitor, stateOrder, ih sl.tuple sr.tuple]
  case other =>
    intro l r _ _ _ _ _ _ _ _ _ _ _ _ _ _ _ _ _ _ _ _ _ _ _ _ _ _ _ _ _ _ sl sr
    rw [orderStatesVisitor.eq_31, stateOrder.eq_31, orderTypes, orderTypesVisitor_eq _ _ sl.1 sr.1]
    all_goals assumption
  case statesCons =>
    intro l ls r rs ih ihs sls srs
    have head := ih (sls l (by simp)) (srs r (by simp))
    rw [onArrayOfSingleStates, statesOrder, head]
    cases o : stateOrder l r
    · rfl
    · exact ihs (fun s m => sls s (by simp [m])) (fun s m => srs s (by simp [m]))
    · rfl
  case statesNil | statesShorter | statesLonger =>
    intros
    simp [onArrayOfSingleStates, statesOrder, TComparison.isEq, compareLinear_eq_ofOrdering,
      compare_lt_iff_lt, compare_gt_iff_gt]
  case pairsCons =>
    intro lk lv ls rk rv rs ihKey ihVal ihs sls srs
    have keys := ihKey (sls (lk, lv) (by simp)).1 (srs (rk, rv) (by simp)).1
    have vals := ihVal (sls (lk, lv) (by simp)).2 (srs (rk, rv) (by simp)).2
    rw [onArrayOfPairsOfStates, pairsOrder, keys]
    cases ok : stateOrder lk rk
    · rfl
    · rw [vals]
      cases ov : stateOrder lv rv
      · rfl
      · exact ihs (fun p m => sls p (by simp [m])) (fun p m => srs p (by simp [m]))
      · rfl
    · rfl
  case pairsNil | pairsShorter | pairsLonger =>
    intros
    simp [onArrayOfPairsOfStates, pairsOrder, TComparison.isEq, compareLinear_eq_ofOrdering,
      compare_lt_iff_lt, compare_gt_iff_gt]

end Orly.Sabot

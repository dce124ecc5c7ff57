import Mathlib

/-! What every present walker hands out (`orly/indy/present_walker.h`), and the answer
of a prefix match (`orly/sabot/match_prefix_type.h`).

A present walker walks the keys of one index that exist or are tombstoned and yields
an item for each: its key, its op and the sequence number of the update that wrote
it. Walkers are merged in the order `TItem::operator<` gives, by key and, for one key,
the later update first. Keys are compared with `TKey::Compare`, a linear order on the
keys of one index; here they are a type with a linear order. -/
namespace Orly.Indy

/-- `TPresentWalker::TItem`: one update of one key. -/
structure TItem (κ ω : Type) where
  sequenceNumber : Nat
  key : κ
  op : ω
  deriving DecidableEq, Repr

variable {κ ω : Type} [LinearOrder κ]

/-- `TItem::operator<`: the key first, and for one key the later update first. For
equal keys and sequence numbers it holds both ways. -/
def TItem.before (lhs rhs : TItem κ ω) : Bool :=
  decide (lhs.key < rhs.key) || (decide (lhs.key = rhs.key) && decide (rhs.sequenceNumber ≤ lhs.sequenceNumber))

/-- `Sabot::TMatchResult`: how a key compares with a pattern whose free elements form a
suffix. -/
inductive TMatchResult where
  | noMatch
  | prefixMatch
  | unifies
  deriving DecidableEq, Repr

end Orly.Indy

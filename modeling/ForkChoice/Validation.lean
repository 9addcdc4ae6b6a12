import ForkChoice.Segment
import ForkChoice.Time
import Std.Data.ExtTreeSet

/-!
# Validations

A validation is the signed word of a node that it holds a ledger to be the right one. It names the
ledger by a mark, whether the ledger is at hand or not.

* `Validation.order`: the order of validations by what was signed.
* `Validation.sameAs`: whether two validations say the same. Both leave out the trust flag, which
  is local, and the cookie.
* `Mark`: a ledger by its sequence number and identifier.
-/

namespace ForkChoice

/-- A signing key: the peer it belongs to, and which of the keys of that peer it is. -/
structure Key where
  peer : Nat
  rotation : Nat
  deriving DecidableEq

namespace Key

instance : Ord Key := ⟨compareLex (compareOn peer) (compareOn rotation)⟩

instance : Std.TransOrd Key :=
  inferInstanceAs (Std.TransCmp (compareLex (compareOn peer) (compareOn rotation)))

instance : Std.LawfulEqOrd Key where
  eq_of_compare {a b} h := by
    have h' : (compare a.peer b.peer).then (compare a.rotation b.rotation) = .eq := h
    rw [Ordering.then_eq_eq] at h'
    cases a; cases b
    simp_all

end Key

/-- The word of a node on a ledger. -/
structure Validation where
  ledgerId : Nat
  seq : Nat
  /-- When the node signed. -/
  signed : Time
  /-- When this node first saw it, or the epoch if it never did. -/
  seen : Time
  key : Key
  node : Nat
  fee : Option Nat
  /-- Whether it is a full validation and not a partial one. -/
  full : Bool
  /-- Whether the node is trusted here. -/
  trusted : Bool
  /-- A number that tells apart several instances under one key. -/
  cookie : Nat
  deriving DecidableEq

namespace Validation

/-- Nothing comes before any fee. -/
def feeOrder : Option Nat → Option Nat → Ordering
  | none, none => .eq
  | none, some _ => .lt
  | some _, none => .gt
  | some a, some b => compare a b

/-- By ledger, sequence, signing time, seeing time, key, node, fee and fullness. -/
def order (a b : Validation) : Ordering :=
  (compare a.ledgerId b.ledgerId).then <|
  (compare a.seq b.seq).then <|
  (compare a.signed b.signed).then <|
  (compare a.seen b.seen).then <|
  (compare a.key b.key).then <|
  (compare a.node b.node).then <|
  (feeOrder a.fee b.fee).then <|
  compare a.full b.full

/-- Equal in all that the order looks at. -/
def sameAs (a b : Validation) : Bool :=
  a.ledgerId == b.ledgerId && a.seq == b.seq && a.signed == b.signed && a.seen == b.seen &&
    a.key == b.key && a.node == b.node && a.fee == b.fee && a.full == b.full

/-- Whether a validation counts where only trusted full ones do. -/
def counts (v : Validation) : Bool := v.trusted && v.full

end Validation

/-! ## Marks -/

/-- A ledger by its sequence number and identifier. -/
structure Mark where
  seq : Nat
  id : Nat
  deriving DecidableEq

namespace Mark

instance : Ord Mark := ⟨compareLex (compareOn seq) (compareOn id)⟩

instance : Std.TransOrd Mark :=
  inferInstanceAs (Std.TransCmp (compareLex (compareOn seq) (compareOn id)))

instance : Std.LawfulEqOrd Mark where
  eq_of_compare {a b} h := by
    have h' : (compare a.seq b.seq).then (compare a.id b.id) = .eq := h
    rw [Ordering.then_eq_eq] at h'
    cases a; cases b
    simp_all

end Mark

def Ledger.mark (l : Ledger) : Mark := ⟨l.seq, l.id⟩

def Tip.mark (t : Tip) : Mark := ⟨t.seq, t.id⟩

def Validation.mark (v : Validation) : Mark := ⟨v.seq, v.ledgerId⟩

end ForkChoice

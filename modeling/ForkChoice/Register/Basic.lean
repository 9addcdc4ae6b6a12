import ForkChoice.AgedMap
import ForkChoice.Timing
import ForkChoice.Trie.Interface
import ForkChoice.Validation

/-!
# The register of validations

The register holds the validations of all nodes: the current one of each node, and recent ones by
ledger and by sequence number. Of the trusted nodes it also holds their votes: a vote is for the
last ledger that the node validated and that is at hand, and a ledger that is not yet at hand is
awaited.

* `Register`: the state.
* `Surroundings`: what the register sees of the world at the time of a request.
* `Order`, `byRank`: the order in which the entries of a table come up.
* `Outcome`: what a request leads to.
-/

namespace ForkChoice

abbrev NodeSet := Std.ExtTreeSet Nat

/-- At most one validation of each node. -/
abbrev ValidationSet := Std.ExtTreeMap Nat Validation

/-- A table has no order of its own, and its entries come up in any order. Here each has a rank, and
among entries of one rank the smaller key is first. -/
structure Order where
  /-- The nodes that have a current validation. -/
  nodes : Nat → Nat := fun _ => 0
  /-- The ledgers that are awaited. -/
  marks : Mark → Nat := fun _ => 0
  /-- The nodes that wait for a ledger. -/
  waiting : Mark → Nat → Nat := fun _ _ => 0
  /-- The nodes that have a validation filed for a ledger. -/
  filed : Nat → Nat → Nat := fun _ _ => 0

/-- A list in the order of rank; what has the same rank stays in order. -/
def byRank {α : Type} (rank : α → Nat) (xs : List α) : List α :=
  xs.mergeSort fun x y => rank x ≤ rank y

/-- What the world is like when a request is made. -/
structure Surroundings where
  /-- The time of the network, by which validations are current or stale, or why it cannot be told.
  A request that does not look at it is carried out all the same. -/
  now : Except Fault Time
  /-- The time of the steady clock, by which sets of validations age. -/
  steady : Time
  /-- The ledgers that are at hand. -/
  acquire : Nat → Option Ledger
  /-- The order of the tables that are gone through. -/
  order : Order := {}

/-- The sequence numbers from `low` up to and without `high`. -/
structure KeepRange where
  low : Nat
  high : Nat
  low_lt_high : low < high

namespace KeepRange

def contains (k : KeepRange) (seq : Nat) : Bool := k.low ≤ seq && seq < k.high

end KeepRange

/-- All validations that are held, and the votes. -/
structure Register (T : Type) where
  timing : Timing
  current : ValidationSet
  /-- The sequence numbers that this node has validated itself. -/
  own : SequenceGuard
  /-- The sequence numbers that each node has validated. -/
  guards : Std.ExtTreeMap Nat SequenceGuard
  /-- Recent validations of each ledger. -/
  byLedger : AgedMap Nat ValidationSet
  /-- Recent validations at each sequence number. -/
  bySeq : AgedMap Nat ValidationSet
  /-- The sequence numbers whose sets do not expire. -/
  kept : Option KeepRange
  /-- When the sets to keep have to be touched again. -/
  keepRefresh : Option Time
  /-- The histories of all votes. -/
  trie : T
  votes : Std.ExtTreeMap Nat Ledger
  /-- The nodes that wait for a ledger to be at hand; no set is empty. -/
  awaited : Std.ExtTreeMap Mark NodeSet

/-- The answer to a request, the register after it, and the validations that it turned out. -/
structure Outcome (T α : Type) where
  answer : α
  register : Register T
  /-- Validations that were current and now are not, replaced or too old. -/
  retired : List Validation := []

namespace Register

def empty {T : Type} [VoteTrie T] (timing : Timing) : Register T where
  timing := timing
  current := ∅
  own := {}
  guards := ∅
  byLedger := .empty
  bySeq := .empty
  kept := none
  keepRefresh := none
  trie := VoteTrie.empty
  votes := ∅
  awaited := ∅

end Register

end ForkChoice

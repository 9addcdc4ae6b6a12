import ForkChoice.Trie.Arena
import ForkChoice.Trie.Insert

/-!
# What is asked of a trie of votes

The register of validations works with any structure that keeps votes for ledgers, and knows it
only by these operations.

* `VoteTrie`: the operations.
* The trie as a tree and the trie in an arena both have them.
-/

namespace ForkChoice

/-- A structure that keeps votes for ledgers. -/
class VoteTrie (T : Type) where
  /-- No votes. -/
  empty : T
  /-- Adds votes for a ledger. -/
  insert : T → Ledger → Nat → Computation T
  /-- Takes up to so many votes from a ledger and tells whether it had any. -/
  withdraw : T → Ledger → Nat → Computation (Bool × T)
  /-- The votes for a ledger. -/
  tipSupport : T → Ledger → Computation Nat
  /-- The votes for a ledger and all that descends from it. -/
  branchSupport : T → Ledger → Computation Nat
  /-- The tip to prefer, given the largest sequence number that this node has issued. -/
  preferred : T → Nat → Computation (Option Tip)

instance : VoteTrie Trie where
  empty := .empty
  insert t l votes := liftM (t.insert l votes)
  withdraw t l votes := liftM (t.withdraw l votes)
  tipSupport t l := pure (t.tipSupport l)
  branchSupport t l := pure (t.branchSupport l)
  preferred t largestIssued := liftM (t.preferred largestIssued)

instance {Slot : Type} [DecidableEq Slot] (A : Slots Slot (Cell Slot)) :
    VoteTrie (ArenaTrie A) where
  empty := .empty A
  insert := ArenaTrie.insert
  withdraw := ArenaTrie.withdraw
  tipSupport := ArenaTrie.tipSupport
  branchSupport := ArenaTrie.branchSupport
  preferred := ArenaTrie.preferred

end ForkChoice

import ForkChoice.Segment
import Std.Data.ExtTreeMap

/-!
# The trie of votes

A vote is for a ledger and counts for every ledger of its history. The trie keeps the histories of
all ledgers with votes, a stretch without branches as one segment. In a picture, with the votes for
the tip and for the whole branch in parentheses:

```text
                genesis(0/5)
                     |
                   a(0/5)
                 /       \
            b(1/3)        c(2/2)
           /     \
     bd(1/1)   be(1/1)
```

* `Node`: a segment with its counts and branches.
* `Trie`: the root, which holds genesis, and the votes for each sequence number.
* `credit`, `debit`: arithmetic on counts, which have 32 bits.
-/

namespace ForkChoice

/-- The largest count of votes. -/
def maxSupport : Nat := 0xffffffff

def credit (held votes : Nat) : Except Fault Nat :=
  if held + votes ≤ maxSupport then .ok (held + votes) else .error .supportOverflow

def debit (held votes : Nat) : Except Fault Nat :=
  if votes ≤ held then .ok (held - votes) else .error .supportUnderflow

/-- A stretch of history without branches, and the branches that leave from its tip. -/
structure Node where
  segment : Segment
  /-- The votes for the tip of the segment. -/
  tipSupport : Nat
  /-- The votes for the tip and all that descends from it. -/
  branchSupport : Nat
  children : List Node

namespace Node

/-- A node without branches, all of whose votes are for its tip. -/
def leaf (segment : Segment) (votes : Nat) : Node := ⟨segment, votes, votes, []⟩

mutual

/-- The nodes from this one to the one whose tip has the identifier, or nothing. -/
def pathTo (id : Nat) : Node → List Node
  | ⟨segment, tip, branch, children⟩ =>
    if segment.tip.id = id then [⟨segment, tip, branch, children⟩]
    else match pathToIn id children with
      | [] => []
      | path => ⟨segment, tip, branch, children⟩ :: path

/-- The path from the first of the nodes that has one. -/
def pathToIn (id : Nat) : List Node → List Node
  | [] => []
  | child :: rest =>
    match child.pathTo id with
    | [] => pathToIn id rest
    | path => path

end

mutual

/-- The node that agrees longest with a ledger, and the first place at which the two differ. A
child is entered when its first ledger agrees. -/
def locate (l : Ledger) : Node → Node × Nat
  | ⟨segment, tip, branch, children⟩ =>
    let here := (⟨segment, tip, branch, children⟩, segment.agreement l)
    if segment.agreement l = segment.stop then (locateIn l segment.stop children).getD here
    else here

/-- The answer of the first child that agrees with a ledger past `place`. -/
def locateIn (l : Ledger) (place : Nat) : List Node → Option (Node × Nat)
  | [] => none
  | child :: rest =>
    if place < child.segment.agreement l then some (child.locate l) else locateIn l place rest

end

end Node

/-- The votes of all histories. -/
structure Trie where
  root : Node
  /-- The votes for tips at each sequence number; no entry is zero. -/
  seqSupport : Std.ExtTreeMap Nat Nat

namespace Trie

def empty : Trie := ⟨.leaf .genesis 0, ∅⟩

/-- Whether there are no votes. -/
def isEmpty (t : Trie) : Bool := t.root.branchSupport == 0

/-- The node whose tip is the ledger. -/
def nodeAt? (t : Trie) (l : Ledger) : Option Node := (t.root.pathTo l.id).getLast?

/-- The node that agrees longest with a ledger, and the first place at which the two differ. -/
def locate (t : Trie) (l : Ledger) : Node × Nat := t.root.locate l

/-- The votes for a ledger. -/
def tipSupport (t : Trie) (l : Ledger) : Nat :=
  match t.nodeAt? l with
  | some node => node.tipSupport
  | none => 0

/-- The votes for a ledger and all that descends from it. A ledger inside a segment has the votes
of the node. -/
def branchSupport (t : Trie) (l : Ledger) : Nat :=
  match t.nodeAt? l with
  | some node => node.branchSupport
  | none =>
    let (node, place) := t.locate l
    if l.seq < place ∧ l.seq < node.segment.stop then node.branchSupport else 0

end Trie

end ForkChoice

import ForkChoice.Trie.Basic

/-!
# Casting votes

A vote for a ledger is added where its history leaves the trie: the segment there is cut in two if
the history leaves it midway, and what is left of the history becomes a branch of its own.

* `Node.split`: the cut of a segment.
* `Node.graft`: a vote added to the node at which a history leaves the trie.
* `Trie.insert`: a vote added to the trie, if every count stays in range.
-/

namespace ForkChoice

namespace Node

/-- Cuts a node at a place inside its segment. The far side keeps the votes of the tip and the
branches; the near side has the far side as its only branch. -/
def split (place : Nat) (node : Node) : Node :=
  match node.segment.before place, node.segment.after place with
  | some near, some far =>
    ⟨near, 0, node.branchSupport, [{ node with segment := far }]⟩
  | _, _ => node

/-- Adds votes for a ledger whose history leaves the trie in this node, at `place`. -/
def graft (l : Ledger) (votes place : Nat) (node : Node) : Node :=
  let node := node.split place
  match (Segment.ofLedger l).after place with
  | some rest =>
    { node with
      branchSupport := node.branchSupport + votes
      children := node.children ++ [leaf rest votes] }
  | none =>
    { node with
      tipSupport := node.tipSupport + votes
      branchSupport := node.branchSupport + votes }

mutual

/-- Adds votes for a ledger at or below a node. -/
def insert (l : Ledger) (votes : Nat) : Node → Node
  | ⟨segment, tip, branch, children⟩ =>
    let here := ⟨segment, tip, branch, children⟩
    let place := segment.agreement l
    if place = segment.stop then
      match insertIn l votes place children with
      | some children => ⟨segment, tip, branch + votes, children⟩
      | none => graft l votes place here
    else graft l votes place here

/-- Adds votes below the first child that agrees with the ledger past `place`, if one does. -/
def insertIn (l : Ledger) (votes place : Nat) : List Node → Option (List Node)
  | [] => none
  | child :: rest =>
    if place < child.segment.agreement l then some (child.insert l votes :: rest)
    else (insertIn l votes place rest).map (child :: ·)

end

mutual

/-- Whether every count at or below a node has 32 bits. -/
def inRange : Node → Bool
  | ⟨_, tip, branch, children⟩ =>
    tip ≤ maxSupport && branch ≤ maxSupport && inRangeAll children

def inRangeAll : List Node → Bool
  | [] => true
  | child :: rest => child.inRange && inRangeAll rest

end

end Node

namespace Trie

def inRange (t : Trie) : Bool :=
  t.root.inRange && t.seqSupport.toList.all fun (_, votes) => votes ≤ maxSupport

/-- The trie with more votes for a ledger, in numbers without bound. -/
def grow (t : Trie) (l : Ledger) (votes : Nat) : Trie where
  root := t.root.insert l votes
  seqSupport := t.seqSupport.insert l.seq (t.seqSupport.getD l.seq 0 + votes)

/-- Adds votes for a ledger. No vote at all leaves the trie alone, and a count that leaves its
range is a fault. -/
def insert (t : Trie) (l : Ledger) (votes : Nat) : Except Fault Trie :=
  if votes = 0 then .ok t
  else if (t.grow l votes).inRange then .ok (t.grow l votes)
  else .error .supportOverflow

end Trie

end ForkChoice

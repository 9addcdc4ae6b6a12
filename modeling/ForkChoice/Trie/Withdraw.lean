import ForkChoice.Trie.Basic

/-!
# Withdrawing votes

Votes are taken from the node whose tip is the ledger. A node that is left without votes for its tip
then has no reason to be, unless histories part there: it goes away when it has no branch, and is
joined to its branch when it has one.

* `Node.contract`: what becomes of a node after votes were taken at or below it.
* `Node.withdraw`: the votes taken and the way back tidied.
* `Trie.withdraw`: the votes taken from the trie, and whether there were any.
-/

namespace ForkChoice

/-- What stands from a place on after it fell empty, `rest` being what stood behind it: the last one
moves into the gap. -/
def closeGap {α : Type} (rest : List α) : List α :=
  match rest.getLast? with
  | none => []
  | some last => last :: rest.dropLast

namespace Node

/-- What becomes of a node below the root: nothing without votes and branches, its only branch
with a longer segment, or the node as it is. -/
def contract : Node → Option Node
  | ⟨_, 0, _, []⟩ => none
  | ⟨segment, 0, _, [child]⟩ => some { child with segment := segment.join child.segment }
  | node => some node

mutual

/-- Takes votes from the node whose tip has the identifier, at or below this one. -/
def withdraw (id votes : Nat) : Node → Option Node
  | ⟨segment, tip, branch, children⟩ =>
    if segment.tip.id = id then some ⟨segment, tip - votes, branch - votes, children⟩
    else match withdrawIn id votes children with
      | some children => some ⟨segment, tip, branch - votes, children⟩
      | none => none

/-- Takes votes from the first child that has the identifier at or below it. -/
def withdrawIn (id votes : Nat) : List Node → Option (List Node)
  | [] => none
  | child :: rest =>
    match child.withdraw id votes with
    | some child =>
      match child.contract with
      | some child => some (child :: rest)
      | none => some (closeGap rest)
    | none => (withdrawIn id votes rest).map (child :: ·)

end

end Node

namespace Trie

/-- The trie with fewer votes for a ledger, which must have them. -/
def shrink (t : Trie) (l : Ledger) (votes : Nat) : Trie where
  root := (t.root.withdraw l.id votes).getD t.root
  seqSupport := t.seqSupport.alter l.seq fun held =>
    match held.map (· - votes) with
    | some 0 => none
    | left => left

/-- Takes up to so many votes from a ledger and tells whether it had any. A branch on the way that
has fewer votes is a fault. -/
def withdraw (t : Trie) (l : Ledger) (votes : Nat) : Except Fault (Bool × Trie) :=
  if t.tipSupport l = 0 then .ok (false, t)
  else
    let taken := min votes (t.tipSupport l)
    if (t.root.pathTo l.id).all fun node => taken ≤ node.branchSupport then
      .ok (true, t.shrink l taken)
    else .error .supportUnderflow

end Trie

end ForkChoice

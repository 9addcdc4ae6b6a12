import ForkChoice.Trie.Basic

/-!
# The preferred ledger

The preferred ledger is the tip of the branch with the most votes that no uncommitted vote can
overturn. A vote is uncommitted as long as its sequence number has not been reached on the way
down: the voter may still move to any branch below. Votes below the largest sequence number that
this node has itself validated stay uncommitted, since it cannot switch branches under it.

* `Node.leading`, `Node.favorite`: the best branch and its margin.
* `absorb`, `advance`: the uncommitted votes at the start of a segment and along it.
* `Trie.preferred`: the walk from genesis.
-/

namespace ForkChoice

/-- Votes for tips at a sequence number, in ascending order of sequence numbers. -/
abbrev Tally := List (Nat × Nat)

/-- How far a walk has come: the uncommitted votes and those not yet reached. -/
structure Uncommitted where
  votes : Nat
  ahead : Tally

namespace Uncommitted

/-- Counts the votes at sequence numbers below `limit` as uncommitted. -/
def absorb (limit votes : Nat) : Tally → Except Fault Uncommitted
  | [] => .ok ⟨votes, []⟩
  | (seq, more) :: ahead =>
    if seq < limit then do
      let votes ← credit votes more
      absorb limit votes ahead
    else .ok ⟨votes, (seq, more) :: ahead⟩

/-- Goes along a segment that ends at `stop` as long as the votes of its branch exceed the
uncommitted ones, from one sequence number with votes to the next. -/
def advance (stop branch next votes : Nat) : Tally → Except Fault (Nat × Uncommitted)
  | [] =>
    if next < stop ∧ votes < branch then .ok (stop, ⟨votes, []⟩) else .ok (next, ⟨votes, []⟩)
  | (seq, more) :: ahead =>
    if next < stop ∧ votes < branch then
      if seq < stop then do
        let votes ← credit votes more
        advance stop branch (seq + 1) votes ahead
      else .ok (stop, ⟨votes, (seq, more) :: ahead⟩)
    else .ok (next, ⟨votes, (seq, more) :: ahead⟩)

end Uncommitted

namespace Node

/-- A node outranks another by more votes, or by as many and a larger first identifier. -/
def outranks (a b : Node) : Bool :=
  b.branchSupport < a.branchSupport ||
    (b.branchSupport == a.branchSupport && b.segment.startId < a.segment.startId)

/-- The first node that none outranks, with its place. -/
def leading : List Node → Option (Nat × Node)
  | [] => none
  | node :: rest =>
    match leading rest with
    | none => some (0, node)
    | some (place, best) =>
      if best.outranks node then some (place + 1, best) else some (0, node)

/-- The place of the best node and its margin: all its votes when it is alone, else its lead over
the runner-up. A tie that it wins counts for one vote, since the runner-up would need one to
overcome it. -/
def favorite (nodes : List Node) : Except Fault (Option (Nat × Nat)) :=
  match leading nodes with
  | none => .ok none
  | some (place, best) =>
    match leading (nodes.eraseIdx place) with
    | none => .ok (some (place, best.branchSupport))
    | some (_, second) => do
      let lead ← debit best.branchSupport second.branchSupport
      let margin ← if second.segment.startId < best.segment.startId then credit lead 1 else .ok lead
      .ok (some (place, margin))

mutual

/-- The preferred tip at or below a node. -/
def preferred (largestIssued : Nat) (votes : Nat) (ahead : Tally) :
    Node → Except Fault (Option Tip)
  | ⟨segment, _, branch, children⟩ => do
    let next := segment.start + 1
    let u ← Uncommitted.absorb (max next largestIssued) votes ahead
    let (next, u) ← Uncommitted.advance segment.stop branch next u.votes u.ahead
    if next < segment.stop then .ok ((segment.before next).map (·.tip))
    else match ← favorite children with
      | none => .ok (some segment.tip)
      | some (place, margin) =>
        if u.votes < margin ∨ u.votes = 0 then
          preferredAt largestIssued u.votes u.ahead segment.tip place children
        else .ok (some segment.tip)

/-- The preferred tip at or below the child at a place, and `here` if there is no such child. -/
def preferredAt (largestIssued : Nat) (votes : Nat) (ahead : Tally) (here : Tip) :
    Nat → List Node → Except Fault (Option Tip)
  | _, [] => .ok (some here)
  | 0, child :: _ => child.preferred largestIssued votes ahead
  | place + 1, _ :: rest => preferredAt largestIssued votes ahead here place rest

end

end Node

namespace Trie

/-- The preferred tip, if there are any votes. -/
def preferred (t : Trie) (largestIssued : Nat) : Except Fault (Option Tip) :=
  if t.isEmpty then .ok none else t.root.preferred largestIssued 0 t.seqSupport.toList

end Trie

end ForkChoice

import ForkChoice.Register.Basic

/-!
# Votes of the register

A trusted node has at most one vote in the trie, and may wait for one ledger on top of it. Its old
vote stays until the awaited ledger is at hand.

* `Register.vote`: the vote of a node moved to a ledger.
* `Register.settle`: the votes of nodes whose awaited ledger has come.
* `Register.enroll`, `Register.dismiss`: the vote of a validation made and taken back.
-/

namespace ForkChoice.Register

variable {T : Type}

/-- Moves the vote of a node to a ledger. -/
def vote [VoteTrie T] (r : Register T) (node : Nat) (l : Ledger) : Computation (Register T) := do
  let trie ← match r.votes[node]? with
    | some old => (·.2) <$> VoteTrie.withdraw r.trie old 1
    | none => pure r.trie
  let trie ← VoteTrie.insert trie l 1
  return { r with trie, votes := r.votes.insert node l }

/-- Takes a node out of those that wait for a ledger. -/
def stopWaiting (r : Register T) (mark : Mark) (node : Nat) : Register T :=
  { r with
    awaited := r.awaited.alter mark fun
      | some nodes => if (nodes.erase node).isEmpty then none else some (nodes.erase node)
      | none => none }

/-- Adds a node to those that wait for a ledger. -/
def startWaiting (r : Register T) (mark : Mark) (node : Nat) : Register T :=
  { r with
    awaited := r.awaited.alter mark fun
      | some nodes => some (nodes.insert node)
      | none => some ((∅ : NodeSet).insert node) }

variable [VoteTrie T]

/-- Makes the votes of the nodes that wait for a ledger, if it is at hand. -/
def settleAt (env : Surroundings) (r : Register T) (mark : Mark) : Computation (Register T) :=
  match env.acquire mark.id, r.awaited[mark]? with
  | some l, some nodes =>
    (byRank (env.order.waiting mark) nodes.toList).foldlM (fun r node => r.vote node l)
      { r with awaited := r.awaited.erase mark }
  | _, _ => pure r

/-- Makes the votes of all nodes whose awaited ledger is at hand. -/
def settle (r : Register T) (env : Surroundings) : Computation (Register T) :=
  (byRank env.order.marks r.awaited.keys).foldlM (settleAt env) r

/-- Makes the vote of a trusted validation, or waits for its ledger. `prior` is the ledger that the
node may still be waiting for. -/
def enroll (r : Register T) (env : Surroundings) (node : Nat) (v : Validation)
    (prior : Option Mark) : Computation (Register T) := do
  let r := match prior with
    | some mark => r.stopWaiting mark node
    | none => r
  let r ← r.settle env
  if r.awaited.contains v.mark then return r.startWaiting v.mark node
  match env.acquire v.ledgerId with
  | some l => r.vote node l
  | none => return r.startWaiting v.mark node

/-- Takes back what a validation has led to: the wait for its ledger, and the vote if it is for the
same ledger. -/
def dismiss (r : Register T) (node : Nat) (v : Validation) : Computation (Register T) := do
  let r := r.stopWaiting v.mark node
  match r.votes[node]? with
  | some l =>
    if l.id = v.ledgerId then
      let (_, trie) ← VoteTrie.withdraw r.trie l 1
      return { r with trie, votes := r.votes.erase node }
    else return r
  | none => return r

end ForkChoice.Register

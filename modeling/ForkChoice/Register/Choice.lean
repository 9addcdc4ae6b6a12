import ForkChoice.Register.Sweep
import ForkChoice.Trie.Preferred

/-!
# Choosing a ledger to work on

* `Register.preferred`: the ledger to work on, by the votes of trusted nodes, or by the ledgers
  that are awaited when there are no votes.
* `Register.preferredId`: its identifier, unless it lies too far back.
* `Register.preferredClosed`: the last closed ledger to build on, by the word of peers if there is
  nothing else.
-/

namespace ForkChoice

namespace Register

/-- The ledger that most nodes wait for with their number, ties going to the larger identifier and
then to the later entry. -/
def mostAwaited : List (Mark × NodeSet) → Option (Mark × Nat)
  | [] => none
  | (mark, nodes) :: rest =>
    match mostAwaited rest with
    | none => some (mark, nodes.size)
    | some (best, size) =>
      if size < nodes.size ∨ size = nodes.size ∧ best.id < mark.id then some (mark, nodes.size)
      else some (best, size)

/-- The identifier with the largest count, ties going to the larger identifier. -/
def mostCounted : List (Nat × Nat) → Option (Nat × Nat)
  | [] => none
  | (id, count) :: rest =>
    match mostCounted rest with
    | none => some (id, count)
    | some (best, most) =>
      if most < count ∨ most = count ∧ best < id then some (id, count) else some (best, most)

/-- The ledger to work on, given the tip that the votes prefer. The current ledger stays when it is
the parent of the tip, since it may be about to become it, and when the tip lies behind it on the
same chain. -/
def choose (curr : Ledger) (tip : Tip) : Except Fault Mark := do
  let isParent ←
    if tip.seq = curr.seq + 1 then (tip.ancestor curr.seq).map (· == curr.id) else .ok false
  if isParent then .ok curr.mark
  else if curr.seq < tip.seq then .ok tip.mark
  else do
    let id ← curr.ancestor tip.seq
    .ok (if id = tip.id then curr.mark else tip.mark)

variable {T : Type} [VoteTrie T]

/-- The ledger to work on in place of `curr`. -/
def preferred (r : Register T) (env : Surroundings) (curr : Ledger) :
    Computation (Outcome T (Option Mark)) := do
  let fresh ← r.refresh env
  let r := fresh.register
  match ← VoteTrie.preferred r.trie r.own.largest with
  | none =>
    let awaited := byRank (fun entry => env.order.marks entry.1) r.awaited.toList
    return ⟨(mostAwaited awaited).map (·.1), r, fresh.retired⟩
  | some tip =>
    let mark ← choose curr tip
    return ⟨some mark, r, fresh.retired⟩

/-- The identifier of the ledger to work on, or of `curr` if that one lies before `least`. -/
def preferredId (r : Register T) (env : Surroundings) (curr : Ledger) (least : Nat) :
    Computation (Outcome T Nat) := do
  let choice ← r.preferred env curr
  let id := match choice.answer with
    | some mark => if least ≤ mark.seq then mark.id else curr.id
    | none => curr.id
  return { choice with answer := id }

/-- The identifier of the last closed ledger to build on, in place of `closed`. Peers are listened
to only when the register prefers nothing. -/
def preferredClosed (r : Register T) (env : Surroundings) (closed : Ledger) (least : Nat)
    (counts : Std.ExtTreeMap Nat Nat) : Computation (Outcome T Nat) := do
  let choice ← r.preferred env closed
  let id := match choice.answer with
    | some mark => if least ≤ mark.seq then mark.id else closed.id
    | none =>
      match mostCounted counts.toList with
      | some (id, _) => id
      | none => closed.id
  return { choice with answer := id }

end Register

end ForkChoice

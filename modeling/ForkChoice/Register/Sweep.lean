import ForkChoice.Register.Ballot

/-!
# Sweeping out stale validations

* `Register.sweep`: the current validations that are too old turned out, with their votes.
* `Register.refresh`: a sweep, then the votes of nodes whose awaited ledger has come. The trie is
  asked only after it.
-/

namespace ForkChoice.Register

/-- The entries whose validation is not current. -/
def staleAmong (timing : Timing) (now : Time) :
    List (Nat × Validation) → Except Fault (List (Nat × Validation))
  | [] => .ok []
  | (node, v) :: rest => do
    let current ← timing.isCurrent now v.signed v.seen
    let stale ← staleAmong timing now rest
    .ok (if current then stale else (node, v) :: stale)

variable {T : Type}

/-- The current validations of all nodes, in the order in which they come up. -/
def entries (r : Register T) (env : Surroundings) : List (Nat × Validation) :=
  byRank (fun entry => env.order.nodes entry.1) r.current.toList

variable [VoteTrie T]

/-- Turns out the current validation of a node. -/
def retire (r : Register T) (entry : Nat × Validation) : Computation (Register T) :=
  { r with current := r.current.erase entry.1 }.dismiss entry.1 entry.2

/-- Turns out all current validations that are stale. -/
def sweep (r : Register T) (env : Surroundings) : Computation (Outcome T Unit) := do
  let now ← env.now
  let stale ← staleAmong r.timing now (r.entries env)
  let r ← stale.foldlM retire r
  return ⟨(), r, stale.map (·.2)⟩

/-- Brings the votes up to date. -/
def refresh (r : Register T) (env : Surroundings) : Computation (Outcome T Unit) := do
  let swept ← r.sweep env
  let r ← swept.register.settle env
  return ⟨(), r, swept.retired⟩

end ForkChoice.Register

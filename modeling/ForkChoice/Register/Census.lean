import ForkChoice.Register.Sweep

/-!
# Counting validations and votes

* `Register.trustedFor`, `Register.countTrusted`, `Register.fees`: what is filed for a ledger. To
  ask for it keeps it from expiring.
* `Register.nodesAfter`: the nodes that vote for a descendant of a ledger.
* `Register.currentTrusted`, `Register.currentNodes`: the current validations and their nodes.
* `Register.laggards`: the validators that are online but behind.
-/

namespace ForkChoice

/-- The identifier of the ledger before this one; genesis has none before it. -/
def Ledger.parentId? (l : Ledger) : Option Nat :=
  if 0 < l.seq then some (l.idAt (l.seq - 1) (Nat.sub_le _ _)) else none

namespace Register

variable {T : Type}

/-- The full validations of trusted nodes that are filed for a ledger. -/
def filedFor (r : Register T) (id : Nat) : List Validation :=
  match r.byLedger.get? id with
  | some set => set.values.filter (·.counts)
  | none => []

/-- The register after what is filed for a ledger was used. -/
def used (r : Register T) (env : Surroundings) (id : Nat) : Register T :=
  { r with byLedger := r.byLedger.touch env.steady id }

/-- The number of full validations of trusted nodes for a ledger. -/
def countTrusted (r : Register T) (env : Surroundings) (id : Nat) : Outcome T Nat :=
  ⟨(r.filedFor id).length, r.used env id, []⟩

/-- The full validations of trusted nodes for a ledger that give it this sequence number. -/
def trustedFor (r : Register T) (env : Surroundings) (id seq : Nat) :
    Outcome T (List Validation) :=
  ⟨(r.filedFor id).filter (·.seq == seq), r.used env id, []⟩

/-- The fees in the full validations of trusted nodes for a ledger, `base` where none is given. -/
def fees (r : Register T) (env : Surroundings) (id base : Nat) : Outcome T (List Nat) :=
  ⟨(r.filedFor id).map fun v => v.fee.getD base, r.used env id, []⟩

/-- Those of the keys that are not online, and the number of the others that are behind `seq`. A
key is online when a validation under it was seen less than the freshness ago. -/
def sortKeys (timing : Timing) (now : Time) (seq : Nat) :
    List Validation → Nat → Std.ExtTreeSet Key → Except Fault (Nat × Std.ExtTreeSet Key)
  | [], behind, keys => .ok (behind, keys)
  | v :: rest, behind, keys => do
    let limit ← v.seen.add timing.freshness
    if now < limit ∧ keys.contains v.key then
      sortKeys timing now seq rest (if v.seq < seq then behind + 1 else behind) (keys.erase v.key)
    else sortKeys timing now seq rest behind keys

variable [VoteTrie T]

/-- The number of nodes that vote for a ledger after the one with identifier `id`. When that one is
`l`, all its descendants count; else only its children do. -/
def nodesAfter (r : Register T) (env : Surroundings) (l : Ledger) (id : Nat) :
    Computation (Outcome T Nat) := do
  if l.id = id then
    let fresh ← r.refresh env
    let branch ← VoteTrie.branchSupport fresh.register.trie l
    let tip ← VoteTrie.tipSupport fresh.register.trie l
    let count ← debit branch tip
    return { fresh with answer := count }
  else return ⟨r.votes.values.countP fun vote => vote.parentId? == some id, r, []⟩

/-- The full current validations of trusted nodes. -/
def currentTrusted (r : Register T) (env : Surroundings) :
    Computation (Outcome T (List Validation)) := do
  let swept ← r.sweep env
  return { swept with answer := swept.register.current.values.filter (·.counts) }

/-- The nodes that have a current validation. -/
def currentNodes (r : Register T) (env : Surroundings) : Computation (Outcome T (List Nat)) := do
  let swept ← r.sweep env
  return { swept with answer := swept.register.current.keys }

/-- The number of validators among the keys that are online and behind `seq`, and the keys of those
that are not online. -/
def laggards (r : Register T) (env : Surroundings) (seq : Nat)
    (keys : Std.ExtTreeSet Key) : Computation (Outcome T (Nat × Std.ExtTreeSet Key)) := do
  let now ← env.now
  let swept ← r.sweep env
  let current := (swept.register.entries env).map (·.2)
  let sorted ← sortKeys r.timing now seq current 0 keys
  return { swept with answer := sorted }

end Register

end ForkChoice

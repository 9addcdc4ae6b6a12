import ForkChoice.Register.Sweep

/-!
# Upkeep of the register

* `Register.keep`: the sequence numbers whose sets are not to expire.
* `Register.expire`: old sets of validations removed.
* `Register.changeTrust`: nodes that are trusted from now on, or no longer.
* `Register.flush`: all current validations handed over.
-/

namespace ForkChoice.Register

variable {T : Type}

/-- Sets the range of sequence numbers to keep. -/
def keep (r : Register T) (low high : Nat) : Except Fault (Outcome T Unit) :=
  if h : low < high then .ok ⟨(), { r with kept := some ⟨low, high, h⟩ }, []⟩
  else .error .emptyKeepRange

/-- The ledgers whose first validation lies in a range. -/
def ledgersIn (r : Register T) (env : Surroundings) (range : KeepRange) : List Nat :=
  let first (id : Nat) (set : ValidationSet) :=
    (byRank (fun entry => env.order.filed id entry.1) set.toList).head?
  (r.byLedger.toList.filter fun e => (first e.1 e.2).any fun v => range.contains v.2.seq).map (·.1)

/-- Touches the sets to keep, if the last time is so long ago that they are about to expire. -/
def touchKept (r : Register T) (env : Surroundings) : Except Fault (Register T) :=
  match r.kept with
  | none => .ok r
  | some range =>
    if r.keepRefresh.all (· ≤ env.steady) then do
      let limit ← env.steady.add r.timing.expiry
      let next ← limit.sub r.timing.freshness
      .ok { r with
        keepRefresh := some next
        byLedger := r.byLedger.touchAll env.steady (r.ledgersIn env range)
        bySeq := r.bySeq.touchAll env.steady (r.bySeq.keys.filter range.contains) }
    else .ok r

/-- Removes the sets that have not been used for a while and are not to be kept. -/
def expire (r : Register T) (env : Surroundings) : Except Fault (Outcome T Unit) := do
  let r ← r.touchKept env
  let r := { r with
    byLedger := (r.byLedger.expire env.steady r.timing.expiry).2
    bySeq := (r.bySeq.expire env.steady r.timing.expiry).2 }
  .ok ⟨(), r, []⟩

/-- The trust in the node of an entry after a change, if the change concerns it. A node that is both
added and removed counts as added. -/
def trustAfter (added removed : NodeSet) (node : Nat) : Option Bool :=
  if added.contains node then some true
  else if removed.contains node then some false
  else none

/-- A validation with the trust in its node after a change. -/
def restamp (added removed : NodeSet) (node : Nat) (v : Validation) : Validation :=
  { v with trusted := (trustAfter added removed node).getD v.trusted }

/-- Changes the trust in the node of a current validation, and its vote with it. -/
def changeTrustIn [VoteTrie T] (env : Surroundings) (added removed : NodeSet) (r : Register T)
    (entry : Nat × Validation) : Computation (Register T) :=
  let v := restamp added removed entry.1 entry.2
  let changed := { r with current := r.current.insert entry.1 v }
  match trustAfter added removed entry.1 with
  | some true => changed.enroll env entry.1 v none
  | some false => changed.dismiss entry.1 v
  | none => pure r

/-- Changes the trust in nodes: in their current validations, in those filed by ledger, and in
their votes. -/
def changeTrust [VoteTrie T] (r : Register T) (env : Surroundings) (added removed : NodeSet) :
    Computation (Outcome T Unit) := do
  let r ← (r.entries env).foldlM (changeTrustIn env added removed) r
  let r := { r with byLedger := r.byLedger.map (·.map (restamp added removed)) }
  return ⟨(), r, []⟩

/-- Hands over all current validations. -/
def flush (r : Register T) : Outcome T (List Validation) :=
  ⟨r.current.values, { r with current := ∅ }, []⟩

end ForkChoice.Register

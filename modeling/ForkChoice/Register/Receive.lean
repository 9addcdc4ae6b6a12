import ForkChoice.Register.Ballot

/-!
# Receiving validations

* `Verdict`: what is made of a validation.
* `Register.receive`: a validation of a node checked and stored.
* `Register.mayValidate`: whether this node may validate a sequence number itself.
-/

namespace ForkChoice

/-- What is made of a validation. -/
inductive Verdict where
  /-- It is now the current one of its node. -/
  | current
  /-- It is too old, or older than the current one. -/
  | stale
  /-- Its sequence number is not larger than an earlier one. -/
  | badSeq
  /-- It is a second one for the same ledger. -/
  | multiple
  /-- It contradicts another one for the same sequence number. -/
  | conflicting
  deriving DecidableEq, Repr

namespace Verdict

def text : Verdict → String
  | current => "current"
  | stale => "stale"
  | badSeq => "badSeq"
  | multiple => "multiple"
  | conflicting => "conflicting"

/-- Why a validation was refused whose sequence number is not new: what it has in common with the
tracked one for that sequence number. -/
def ofRefused (tracked v : Validation) : Verdict :=
  if tracked.ledgerId ≠ v.ledgerId then conflicting
  else if tracked.signed ≠ v.signed then conflicting
  else if tracked.cookie ≠ v.cookie then multiple
  else badSeq

end Verdict

namespace Register

variable {T : Type}

/-- Whether this node may validate a sequence number, which it is then held to. -/
def mayValidate (r : Register T) (env : Surroundings) (seq : Nat) :
    Except Fault (Outcome T Bool) := do
  let (granted, own) ← r.own.advance r.timing env.steady seq
  .ok ⟨granted, { r with own }, []⟩

/-- The validation to hold a new one against: the one already tracked for the sequence number, but
the new one itself if there is none or if that one was signed long enough before. -/
def trackedFor (r : Register T) (node : Nat) (v : Validation) : Validation :=
  match (r.bySeq.get? v.seq).bind (·[node]?) with
  | some old =>
    if r.timing.wall < old.signed.gap v.signed ∧ old.signed < v.signed then v else old
  | none => v

/-- Tracks a validation for its sequence number. -/
def track (r : Register T) (env : Surroundings) (node : Nat) (v : Validation) : Register T :=
  { r with
    bySeq := (r.bySeq.ensure env.steady v.seq ∅).modify v.seq
      (·.insert node (r.trackedFor node v)) }

/-- Files a validation under its ledger. -/
def file (r : Register T) (env : Surroundings) (node : Nat) (v : Validation) : Register T :=
  { r with
    byLedger := (r.byLedger.ensure env.steady v.ledgerId ∅).modify v.ledgerId
      (·.insert node v) }

variable [VoteTrie T]

/-- Makes a validation the current one of its node. -/
def install (r : Register T) (env : Surroundings) (node : Nat) (v : Validation)
    (prior : Option Validation) : Computation (Outcome T Verdict) := do
  let r := { r with current := r.current.insert node v }
  let r ← if v.trusted then r.enroll env node v (prior.map (·.mark)) else pure r
  return ⟨.current, r, prior.toList⟩

/-- Takes in a validation of a node. It is filed when its sequence number is larger than those
before it, and becomes the current one when it was signed later than the one it replaces. -/
def receive (r : Register T) (env : Surroundings) (node : Nat) (v : Validation) :
    Computation (Outcome T Verdict) := do
  let now ← env.now
  let current ← r.timing.isCurrent now v.signed v.seen
  if current then
    let tracked := r.trackedFor node v
    let r := r.track env node v
    let (rising, guard) ← (r.guards.getD node {}).advance r.timing env.steady v.seq
    let r := { r with guards := r.guards.insert node guard }
    if rising then
      let r := r.file env node v
      match r.current[node]? with
      | none => r.install env node v none
      | some old =>
        if old.signed < v.signed then r.install env node v (some old)
        else return ⟨.stale, r, []⟩
    else return ⟨.ofRefused tracked v, r, []⟩
  else return ⟨.stale, r, []⟩

end Register

end ForkChoice

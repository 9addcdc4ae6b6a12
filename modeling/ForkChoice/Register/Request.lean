import ForkChoice.Register.Census
import ForkChoice.Register.Choice
import ForkChoice.Register.Receive
import ForkChoice.Register.Upkeep

/-!
# Requests to the register

* `Request`, `Reply`: everything the register can be asked, and what it says.
* `Register.step`: one request.
* `Register.run`: several requests, each made in surroundings of its own.
-/

namespace ForkChoice

inductive Request where
  | receive (node : Nat) (v : Validation)
  | mayValidate (seq : Nat)
  | keep (low high : Nat)
  | expire
  | changeTrust (added removed : NodeSet)
  | preferred (curr : Ledger)
  | preferredId (curr : Ledger) (least : Nat)
  | preferredClosed (closed : Ledger) (least : Nat) (counts : Std.ExtTreeMap Nat Nat)
  | nodesAfter (l : Ledger) (id : Nat)
  | currentTrusted
  | currentNodes
  | countTrusted (id : Nat)
  | trustedFor (id seq : Nat)
  | fees (id base : Nat)
  | flush
  | laggards (seq : Nat) (keys : Std.ExtTreeSet Key)

inductive Reply where
  /-- Nothing, the request being carried out. -/
  | done
  | verdict (v : Verdict)
  | granted (yes : Bool)
  | choice (mark : Option Mark)
  | ledger (id : Nat)
  | count (n : Nat)
  | validations (vs : List Validation)
  | nodes (ns : List Nat)
  | fees (fs : List Nat)
  /-- The number of laggards, and the keys that are not online. -/
  | laggards (n : Nat) (offline : Std.ExtTreeSet Key)
  deriving DecidableEq

/-- An outcome with its answer put in another form. -/
def Outcome.map {T α β : Type} (f : α → β) (o : Outcome T α) : Outcome T β :=
  { o with answer := f o.answer }

namespace Register

variable {T : Type} [VoteTrie T]

/-- Carries out a request. -/
def step (r : Register T) (env : Surroundings) : Request → Computation (Outcome T Reply)
  | .receive node v => (·.map .verdict) <$> r.receive env node v
  | .mayValidate seq => (·.map .granted) <$> liftM (r.mayValidate env seq)
  | .keep low high => (·.map fun _ => .done) <$> liftM (r.keep low high)
  | .expire => (·.map fun _ => .done) <$> liftM (r.expire env)
  | .changeTrust added removed => (·.map fun _ => .done) <$> r.changeTrust env added removed
  | .preferred curr => (·.map .choice) <$> r.preferred env curr
  | .preferredId curr least => (·.map .ledger) <$> r.preferredId env curr least
  | .preferredClosed closed least counts =>
    (·.map .ledger) <$> r.preferredClosed env closed least counts
  | .nodesAfter l id => (·.map .count) <$> r.nodesAfter env l id
  | .currentTrusted => (·.map .validations) <$> r.currentTrusted env
  | .currentNodes => (·.map .nodes) <$> r.currentNodes env
  | .countTrusted id => pure ((r.countTrusted env id).map .count)
  | .trustedFor id seq => pure ((r.trustedFor env id seq).map .validations)
  | .fees id base => pure ((r.fees env id base).map .fees)
  | .flush => pure (r.flush.map .validations)
  | .laggards seq keys => (·.map fun a => .laggards a.1 a.2) <$> r.laggards env seq keys

/-- Carries out several requests and gives the outcome of each. -/
def run (r : Register T) :
    List (Surroundings × Request) → Computation (List (Outcome T Reply))
  | [] => pure []
  | (env, request) :: rest => do
    let first ← r.step env request
    let later ← first.register.run rest
    return first :: later

end Register

end ForkChoice

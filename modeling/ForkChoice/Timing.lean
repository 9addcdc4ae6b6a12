import ForkChoice.Time

/-!
# Timing of validations

* `Timing`: five durations that say when a validation is current, how long sets of validations are
  kept, and how long a validator counts as online.
* `Timing.check`: whether the durations make sense together.
* `Timing.isCurrent`: whether a validation may be the current one of a node.
* `SequenceGuard.advance`: a node may only validate larger and larger sequence numbers. What it
  validated is forgotten after a while, so that it can start again.
-/

namespace ForkChoice

/-- The durations that govern validations. -/
structure Timing where
  /-- How far past now a signing time may lie. -/
  wall : Duration := .ofSeconds 300
  /-- How far past now the time of first sight may lie. -/
  sight : Duration := .ofSeconds 180
  /-- How far before now a signing time may lie. -/
  early : Duration := .ofSeconds 180
  /-- How long a set of validations is kept after its last use. -/
  expiry : Duration := .ofSeconds 600
  /-- How long after its last validation a validator counts as online. -/
  freshness : Duration := .ofSeconds 20
  deriving DecidableEq

namespace Timing

/-- The names of the durations, in order. -/
inductive Field where
  | wall
  | sight
  | early
  | expiry
  | freshness
  deriving DecidableEq, Repr

namespace Field

/-- The name of a field in a configuration. -/
def key : Field → String
  | wall => "validation_current_wall"
  | sight => "validation_current_local"
  | early => "validation_current_early"
  | expiry => "validation_set_expires"
  | freshness => "validation_freshness"

def all : List Field := [wall, sight, early, expiry, freshness]

/-- The fields that bound how long a validation stays current. -/
def windows : List Field := [wall, sight, early]

def ofKey? (name : String) : Option Field := all.find? (·.key == name)

end Field

def get (t : Timing) : Field → Duration
  | .wall => t.wall
  | .sight => t.sight
  | .early => t.early
  | .expiry => t.expiry
  | .freshness => t.freshness

/-- The timing with one duration replaced. -/
def set (t : Timing) (d : Duration) : Field → Timing
  | .wall => { t with wall := d }
  | .sight => { t with sight := d }
  | .early => { t with early := d }
  | .expiry => { t with expiry := d }
  | .freshness => { t with freshness := d }

/-- What is wrong with a timing. -/
inductive Flaw where
  | zero (field : Field)
  /-- The window is longer than sets of validations are kept. -/
  | exceedsExpiry (field : Field)
  deriving DecidableEq, Repr

namespace Flaw

/-- The field that is at fault. -/
def field : Flaw → Field
  | zero f => f
  | exceedsExpiry f => f

def message : Flaw → String
  | zero f => f.key ++ " must be greater than zero"
  | exceedsExpiry f => f.key ++ " must not exceed validation_set_expires"

end Flaw

/-- The first flaw: no duration is zero, and no window is longer than sets are kept. -/
def flaw? (t : Timing) : Option Flaw :=
  match Field.all.find? fun f => t.get f = .zero with
  | some f => some (.zero f)
  | none => (Field.windows.find? fun f => t.expiry < t.get f).map .exceedsExpiry

/-- A timing without flaws. -/
def check (t : Timing) : Except Flaw Timing :=
  match t.flaw? with
  | some flaw => .error flaw
  | none => .ok t

/-- Whether a validation was signed late enough. A window that opens before the first representable
time has no earliest moment. -/
def isRecent (t : Timing) (now signed : Time) : Bool :=
  (now.before? t.early).all (· < signed)

/-- Whether a validation was not signed too far ahead of now nor, if it was ever seen, seen so. -/
def isDue (t : Timing) (now signed seen : Time) : Except Fault Bool := do
  let latest ← now.add t.wall
  if signed < latest then
    if seen = .epoch then .ok true
    else do
      let horizon ← now.add t.sight
      .ok (seen < horizon)
  else .ok false

/-- Whether a validation is current, that is recent and due. Signing times come from others, so no
sum is made with them. -/
def isCurrent (t : Timing) (now signed seen : Time) : Except Fault Bool :=
  if t.isRecent now signed then t.isDue now signed seen else .ok false

end Timing

/-! ## Rising sequence numbers -/

/-- The largest sequence number that a node validated, and when it did. -/
structure SequenceGuard where
  largest : Nat := 0
  since : Time := .epoch
  deriving DecidableEq

namespace SequenceGuard

/-- Forgets the largest sequence number when it is older than the expiry, then takes a larger one
and refuses any other. What was forgotten stays forgotten after a refusal. -/
def advance (g : SequenceGuard) (timing : Timing) (now : Time) (seq : Nat) :
    Except Fault (Bool × SequenceGuard) := do
  let limit ← g.since.add timing.expiry
  let g := if limit < now then { g with largest := 0 } else g
  .ok <| if g.largest < seq then (true, ⟨seq, now⟩) else (false, g)

end SequenceGuard

end ForkChoice

import ForkChoice.Ledger.Parting

/-!
# Segments of a history

A segment is a non-empty range `[start, stop)` of sequence numbers in the history of a ledger. The
ledger that backs it may reach further than the segment.

* `Segment.before`, `Segment.after`: the two sides of a cut.
* `Segment.join`: two adjacent segments in one.
* `Segment.agreement`: how far a ledger agrees with a segment.
* `Segment.tip`: the last ledger of a segment.
-/

namespace ForkChoice

/-- The last ledger of a segment, with the ledger that backs it. -/
structure Tip where
  seq : Nat
  id : Nat
  backing : Ledger
  deriving DecidableEq

namespace Tip

/-- The identifier at a sequence number of the backing history, which may lie past the tip. -/
def ancestor (t : Tip) (s : Nat) : Except Fault Nat := t.backing.ancestor s

end Tip

/-- A range of the history of a ledger. -/
structure Segment where
  start : Nat
  stop : Nat
  backing : Ledger
  start_lt_stop : start < stop
  stop_le : stop ≤ backing.seq + 1
  deriving DecidableEq

namespace Segment

/-- The whole history of a ledger, itself included. -/
def ofLedger (l : Ledger) : Segment := ⟨0, l.seq + 1, l, by omega, by omega⟩

def genesis : Segment := ofLedger .genesis

/-- The place in the range that is nearest to `s`; its end counts as a place. -/
def clamp (g : Segment) (s : Nat) : Nat := min (max g.start s) g.stop

theorem start_le_clamp (g : Segment) (s : Nat) : g.start ≤ g.clamp s := by
  have := g.start_lt_stop
  simp only [clamp]; omega

theorem clamp_le_stop (g : Segment) (s : Nat) : g.clamp s ≤ g.stop := by
  simp only [clamp]; omega

/-- The part from `lo` to `hi`, both brought into the range first. -/
def slice (g : Segment) (lo hi : Nat) : Option Segment :=
  if h : g.clamp lo < g.clamp hi then
    some ⟨g.clamp lo, g.clamp hi, g.backing, h, Nat.le_trans (g.clamp_le_stop hi) g.stop_le⟩
  else none

/-- The part that starts at `cut`. -/
def after (g : Segment) (cut : Nat) : Option Segment := g.slice cut g.stop

/-- The part that ends at `cut`. -/
def before (g : Segment) (cut : Nat) : Option Segment := g.slice g.start cut

/-- The identifier at a sequence number of the range. -/
def idAt (g : Segment) (s : Nat) (h : s < g.stop) : Nat :=
  g.backing.idAt s (by have := g.stop_le; omega)

def startId (g : Segment) : Nat := g.idAt g.start g.start_lt_stop

def tip (g : Segment) : Tip where
  seq := g.stop - 1
  id := g.idAt (g.stop - 1) (by have := g.start_lt_stop; omega)
  backing := g.backing

/-- The first place of the range at which a ledger may differ from the segment, or its end. -/
def agreement (g : Segment) (l : Ledger) : Nat := g.clamp (g.backing.divergence l)

/-- Two segments in one, backed by the ledger of the one that reaches further. -/
def join (a b : Segment) : Segment :=
  if h : a.stop < b.stop then
    ⟨min a.start b.start, b.stop, b.backing, by have := b.start_lt_stop; omega, b.stop_le⟩
  else
    ⟨min a.start b.start, a.stop, a.backing, by have := a.start_lt_stop; omega, a.stop_le⟩

/-- Two segments are the same when range and backing ledger are. -/
def sameAs (a b : Segment) : Bool :=
  a.start == b.start && a.stop == b.stop && a.backing.sameAs b.backing

/-- The identifier of the tip and the range. -/
def text (g : Segment) : String :=
  toString g.tip.id ++ "[" ++ toString g.start ++ "," ++ toString g.stop ++ ")"

end Segment

end ForkChoice

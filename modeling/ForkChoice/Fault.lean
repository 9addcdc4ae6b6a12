import ForkChoice.Text.Quoted

/-!
# Faults

A fault is a request that has no answer: a sum that leaves the range of its type, an empty range
where a range is due, an ancestor above the ledger it is asked of, a slot of an arena that is empty,
or a ledger name that cannot be formed. `Fault.message` words each of them.
-/

namespace ForkChoice

/-- Why a request has no answer. -/
inductive Fault where
  /-- A time plus a duration lies past the last representable time. -/
  | timeOverflow
  /-- A time minus a duration lies before the first representable time. -/
  | timeUnderflow
  /-- A count of votes passes the largest one that can be stored. -/
  | supportOverflow
  /-- More votes are taken away than are there. -/
  | supportUnderflow
  /-- The range of sequences to keep holds no sequence. -/
  | emptyKeepRange
  /-- The ancestor at `wanted` is asked of a ledger at `held`, which lies below it. -/
  | noAncestor (wanted held : Nat)
  /-- A slot of the arena is empty that should hold a node. -/
  | emptySlot
  /-- The last character of the name is already the last character of another name. -/
  | reusedName (name : String)
  deriving DecidableEq, Repr

namespace Fault

def message : Fault → String
  | timeOverflow => "overflow when adding duration to `SystemTime`"
  | timeUnderflow => "overflow when subtracting duration from `SystemTime`"
  | supportOverflow => "attempt to add with overflow"
  | supportUnderflow => "attempt to subtract with overflow"
  | emptyKeepRange => "assertion failed: low < high"
  | noAncestor wanted held =>
      "no ancestor at " ++ toString wanted ++ " for ledger at " ++ toString held
  | emptySlot => "No element at index"
  | reusedName name => "ledger name " ++ Text.quote name ++ " reuses its last character"

end Fault

end ForkChoice

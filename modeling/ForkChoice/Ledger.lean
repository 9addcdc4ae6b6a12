import ForkChoice.Fault

/-!
# Ledgers and their archive

A ledger is known by an identifier and stands at the end of a history: the transactions applied
since genesis and the identifiers of the ledgers they led through.

The archive holds every ledger there is and hands out identifiers in the order of creation, genesis
being 0. Ledgers with the same transactions share one identifier.

* `Ledger.ancestor`: the identifier at a sequence number of the history.
* `Ledger.descendsFrom`, `Ledger.sameAs`: the relations between ledgers.
* `Archive.lookup`: the ledger with an identifier.
* `Archive.accept`: the child of a ledger that applies one more transaction.
-/

namespace ForkChoice

/-- A ledger with its whole history. -/
structure Ledger where
  /-- The transactions since genesis, oldest first. -/
  txs : List Nat
  /-- The identifiers from genesis to the ledger itself. -/
  history : List Nat
  /-- Each transaction leads to one more ledger. -/
  length_history : history.length = txs.length + 1
  deriving DecidableEq

namespace Ledger

/-- The ledger before any transaction. -/
def genesis : Ledger := ⟨[], [0], rfl⟩

/-- The sequence number of a ledger is the length of its transaction list. -/
def seq (l : Ledger) : Nat := l.txs.length

theorem seq_lt_length (l : Ledger) : l.seq < l.history.length := by
  rw [l.length_history]; exact Nat.lt_succ_self _

/-- The identifier at a sequence number of the history. -/
def idAt (l : Ledger) (s : Nat) (h : s ≤ l.seq) : Nat :=
  l.history.get ⟨s, Nat.lt_of_le_of_lt h l.seq_lt_length⟩

def id (l : Ledger) : Nat := l.idAt l.seq (Nat.le_refl _)

/-- The identifier of the ancestor at `s`; there is none above the ledger. -/
def ancestor (l : Ledger) (s : Nat) : Except Fault Nat :=
  if h : s ≤ l.seq then .ok (l.idAt s h) else .error (.noAncestor s l.seq)

/-- Whether `b` is a proper ancestor of `a`. -/
def descendsFrom (a b : Ledger) : Bool :=
  if h : b.seq < a.seq then a.idAt b.seq (Nat.le_of_lt h) == b.id else false

/-- Two ledgers are the same when they have the same identifier and transactions; the histories
then need no comparison. -/
def sameAs (a b : Ledger) : Bool := a.id == b.id && a.txs == b.txs

/-- The ledger that one more transaction leads to, under a given identifier. -/
def extend (l : Ledger) (tx id : Nat) : Ledger where
  txs := l.txs ++ [tx]
  history := l.history ++ [id]
  length_history := by simp [l.length_history]

@[simp] theorem seq_genesis : genesis.seq = 0 := rfl

@[simp] theorem seq_extend (l : Ledger) (tx id : Nat) : (l.extend tx id).seq = l.seq + 1 := by
  simp [seq, extend]

@[simp] theorem id_extend (l : Ledger) (tx id : Nat) : (l.extend tx id).id = id := by
  simp [Ledger.id, idAt, extend, seq, ← l.length_history]

end Ledger

/-! ## The archive -/

/-- The ledgers created so far, each at the place of its identifier. -/
structure Archive where
  ledgers : List Ledger

namespace Archive

/-- Only genesis is there from the start. -/
def empty : Archive := ⟨[Ledger.genesis]⟩

/-- The number of ledgers, which is also the next identifier. -/
def size (a : Archive) : Nat := a.ledgers.length

def lookup (a : Archive) (id : Nat) : Option Ledger := a.ledgers[id]?

/-- The identifier of the ledger with these transactions. -/
def idOf? (a : Archive) (txs : List Nat) : Option Nat := a.ledgers.findIdx? (·.txs == txs)

/-- The child of `parent` that applies `tx`. Its history goes on from the history of this parent,
also when its identifier is an old one. -/
def accept (a : Archive) (parent : Ledger) (tx : Nat) : Ledger × Archive :=
  match a.idOf? (parent.txs ++ [tx]) with
  | some id => (parent.extend tx id, a)
  | none =>
    let child := parent.extend tx a.size
    (child, ⟨a.ledgers ++ [child]⟩)

end Archive

end ForkChoice

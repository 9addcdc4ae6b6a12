import ForkChoice.Ledger
import ForkChoice.Loop

/-!
# Where two ledgers part

The first sequence number at which two histories differ is found by halving. The search can also be
made by asking both ledgers for one ancestor after another; an ancestor above a ledger is a fault
then, and a range that did not shrink would be searched for ever.

* `firstFailure`: the place where a predicate that holds on an initial part of a range stops
  holding. The predicate is asked only inside the range.
* `Ledger.divergence`: the first sequence number at which two histories differ.
* `Ledger.parting`: the same, by asking the ledgers.
-/

namespace ForkChoice

/-! ## Binary search -/

/-- Halves the `count` places from `start` on, keeping the half in which `holds` first fails. -/
def firstFailureFrom {n : Nat} (holds : (i : Nat) → i < n → Bool) (start count : Nat)
    (h : start + count ≤ n) : Nat :=
  if hc : count = 0 then start
  else if holds (start + count / 2) (by omega) then
    firstFailureFrom holds (start + count / 2 + 1) (count - (count / 2 + 1)) (by omega)
  else
    firstFailureFrom holds start (count / 2) (by omega)
termination_by count

/-- The first place below `n` at which `holds` fails, and `n` when it never does. -/
def firstFailure (n : Nat) (holds : (i : Nat) → i < n → Bool) : Nat :=
  firstFailureFrom holds 0 n (by omega)

/-- A search stays between its ends. -/
theorem firstFailureFrom_mem {n : Nat} (holds : (i : Nat) → i < n → Bool) (start count : Nat)
    (h : start + count ≤ n) :
    start ≤ firstFailureFrom holds start count h ∧
      firstFailureFrom holds start count h ≤ start + count := by
  fun_induction firstFailureFrom holds start count h with
  | case1 => omega
  | case2 => omega
  | case3 => omega

theorem firstFailure_le (n : Nat) (holds : (i : Nat) → i < n → Bool) :
    firstFailure n holds ≤ n := by
  have := (firstFailureFrom_mem holds 0 n (by omega)).2
  simpa [firstFailure] using this

/-! ## Histories -/

namespace Ledger

/-- The first sequence number at which the histories of two ledgers differ. Two histories that
agree as far as the shorter one goes differ right after it. -/
def divergence (a b : Ledger) : Nat :=
  firstFailure (min a.seq b.seq + 1) fun s h => a.idAt s (by omega) == b.idAt s (by omega)

theorem divergence_le (a b : Ledger) : divergence a b ≤ min a.seq b.seq + 1 :=
  firstFailure_le _ _

/-- Halves a range, given by its first place and its length, by asking for the ancestors in its
middle. A range without places is the result. -/
def bisect (a b : Ledger) : Nat × Nat → Except Fault ((Nat × Nat) ⊕ Nat)
  | (start, count) =>
    if count = 0 then .ok (.inr start)
    else do
      let x ← a.ancestor (start + count / 2)
      let y ← b.ancestor (start + count / 2)
      if x = y then .ok (.inl (start + count / 2 + 1, count - (count / 2 + 1)))
      else .ok (.inl (start, count / 2))

/-- The first sequence number at which the histories of two ledgers differ, sought up to the shorter
one of them. -/
def parting (a b : Ledger) : Computation Nat := loop (bisect a b) (0, min a.seq b.seq + 1)

end Ledger

end ForkChoice

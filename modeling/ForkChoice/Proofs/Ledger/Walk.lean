import ForkChoice.Proofs.Ledger.Content
import Mathlib.Data.List.MinMax
import Mathlib.Data.Multiset.Count
import Mathlib.Data.Prod.Lex

/-!
# The walk from ledger to ledger

The rule of the fork choice, told for a multiset of votes and for one ledger at a time. From a
ledger the walk goes on to the best of the ledgers right below it, as long as the votes that are
still uncommitted cannot make another one the best.

* `Ledger.support`, `Ledger.rank`: the votes for a ledger, and the order of rivals.
* `Archive.contest`: the best ledger right below a ledger and its margin.
* `Archive.step`, `Archive.walk`: one step and the whole walk.
* `Archive.contest_of_alone`, `Archive.contest_of_second`: how to recognise the outcome of a contest.
-/

namespace ForkChoice

namespace Ledger

/-- The votes for a ledger and all that descends from it. -/
def support (V : Multiset Ledger) (l : Ledger) : Nat := V.countP (·.leadsTo l)

/-- Rivals are ranked by their votes, and by identifier among equals. -/
def rank (V : Multiset Ledger) (l : Ledger) : Nat ×ₗ Nat := toLex (l.support V, l.id)

end Ledger

/-- The votes that may still move when a walk decides on the step to a sequence number. -/
def uncommitted (V : Multiset Ledger) (largestIssued s : Nat) : Nat :=
  V.countP (·.seq < max s largestIssued)

/-- The margin over the runner-up: all votes without one, else the lead, which counts one more for
the larger identifier. -/
def margin (V : Multiset Ledger) (best : Ledger) : Option Ledger → Nat
  | none => best.support V
  | some second =>
    best.support V - second.support V + if second.id < best.id then 1 else 0

namespace Archive

/-- The ledgers right below a ledger that have votes at or below them. -/
def rivals (a : Archive) (V : Multiset Ledger) (l : Ledger) : List Ledger :=
  a.ledgers.filter fun m => m.seq = l.seq + 1 ∧ m.descendsFrom l ∧ 0 < m.support V

/-- The best ledger right below a ledger and its margin. -/
def contest (a : Archive) (V : Multiset Ledger) (l : Ledger) : Option (Ledger × Nat) :=
  match (a.rivals V l).argmax (·.rank V) with
  | none => none
  | some best => some (best, margin V best (((a.rivals V l).erase best).argmax (·.rank V)))

/-- The ledger that a walk goes on to, if it goes on. -/
def step (a : Archive) (V : Multiset Ledger) (largestIssued : Nat) (l : Ledger) :
    Option Ledger :=
  match a.contest V l with
  | none => none
  | some (best, margin) =>
    if uncommitted V largestIssued (l.seq + 1) < margin ∨
        uncommitted V largestIssued (l.seq + 1) = 0 then some best
    else none

variable {a : Archive} {V : Multiset Ledger} {largestIssued : Nat} {l best second : Ledger}

theorem rivals_spec {m : Ledger} : m ∈ a.rivals V l ↔
    m ∈ a.ledgers ∧ m.seq = l.seq + 1 ∧ m.descendsFrom l = true ∧ 0 < m.support V := by
  simp [rivals]

theorem contest_mem {k : Nat} (h : a.contest V l = some (best, k)) : best ∈ a.rivals V l := by
  unfold contest at h
  split at h
  · cases h
  · rename_i m hm
    have : m = best := congrArg Prod.fst (Option.some.inj h)
    exact this ▸ List.argmax_mem hm

theorem step_mem {m : Ledger} (h : a.step V largestIssued l = some m) : m ∈ a.rivals V l := by
  unfold step at h
  split at h
  · cases h
  · rename_i best margin hcontest
    split at h
    · exact Option.some.inj h ▸ contest_mem hcontest
    · cases h

/-- The largest sequence number. -/
def height (a : Archive) : Nat := (a.ledgers.map (·.seq)).foldr max 0

theorem seq_le_height {m : Ledger} (hm : m ∈ a.ledgers) : m.seq ≤ a.height :=
  List.le_max_of_le' 0 (List.mem_map_of_mem hm) (Nat.le_refl _)

/-- The ledger at which the walk from a ledger ends. -/
def walk (a : Archive) (V : Multiset Ledger) (largestIssued : Nat) (l : Ledger) : Ledger :=
  match _h : a.step V largestIssued l with
  | none => l
  | some m => a.walk V largestIssued m
termination_by a.height - l.seq
decreasing_by
  obtain ⟨hm, hseq, -⟩ := rivals_spec.mp (step_mem _h)
  have := seq_le_height hm
  omega

theorem walk_of_none (h : a.step V largestIssued l = none) : a.walk V largestIssued l = l := by
  rw [walk]
  split
  · rfl
  · simp_all

theorem walk_of_some {m : Ledger} (h : a.step V largestIssued l = some m) :
    a.walk V largestIssued l = a.walk V largestIssued m := by
  rw [walk]
  split
  · simp_all
  · simp_all

/-! ## The outcome of a contest -/

/-- A candidate that all others fall behind is the best. -/
theorem argmax_of_lt {xs : List Ledger} {x : Ledger} (hx : x ∈ xs)
    (hlt : ∀ y ∈ xs, y ≠ x → y.rank V < x.rank V) : xs.argmax (·.rank V) = some x := by
  cases hmax : xs.argmax (·.rank V) with
  | none =>
    rw [List.argmax_eq_none] at hmax
    simp [hmax] at hx
  | some m =>
    have hm : m ∈ xs := List.argmax_mem hmax
    have hle := List.le_of_mem_argmax hx hmax
    by_contra hne
    exact absurd (hlt m hm fun h => hne (congrArg some h)) (not_lt_of_ge hle)

theorem Sound.nodup_rivals (ha : a.Sound) : (a.rivals V l).Nodup := by
  refine List.Nodup.filter _ (List.nodup_iff_getElem?_ne_getElem?.mpr fun i j hij hj heq => ?_)
  have hlast : a.ledgers[j]? = some a.ledgers[j] := List.getElem?_eq_getElem hj
  have hi := ha.id_eq (heq.trans hlast)
  have hj := ha.id_eq hlast
  omega

theorem contest_of_none (h : ∀ m, m ∉ a.rivals V l) : a.contest V l = none := by
  have : a.rivals V l = [] := List.eq_nil_iff_forall_not_mem.mpr h
  simp [contest, this]

theorem contest_of_alone (ha : a.Sound) (h : ∀ m, m ∈ a.rivals V l ↔ m = best) :
    a.contest V l = some (best, best.support V) := by
  have hbest : (a.rivals V l).argmax (·.rank V) = some best :=
    argmax_of_lt ((h best).mpr rfl) fun y hy hne => absurd ((h y).mp hy) hne
  have hrest : (a.rivals V l).erase best = [] := by
    refine List.eq_nil_iff_forall_not_mem.mpr fun m hm => ?_
    rw [ha.nodup_rivals.mem_erase_iff, h] at hm
    exact hm.1 hm.2
  simp [contest, hbest, hrest, margin]

theorem contest_of_second (ha : a.Sound) (hbest : best ∈ a.rivals V l)
    (hsecond : second ∈ a.rivals V l) (hlt : second.rank V < best.rank V)
    (hothers : ∀ m ∈ a.rivals V l, m ≠ best → m ≠ second → m.rank V < second.rank V) :
    a.contest V l = some (best, margin V best (some second)) := by
  have hne : second ≠ best := fun h => absurd (h ▸ hlt) (lt_irrefl _)
  have htop : (a.rivals V l).argmax (·.rank V) = some best := by
    refine argmax_of_lt hbest fun m hm hmb => ?_
    by_cases hms : m = second
    · exact hms ▸ hlt
    · exact (hothers m hm hmb hms).trans hlt
  have hnext : ((a.rivals V l).erase best).argmax (·.rank V) = some second := by
    refine argmax_of_lt ?_ fun m hm hms => ?_
    · exact ha.nodup_rivals.mem_erase_iff.mpr ⟨hne, hsecond⟩
    · obtain ⟨hmb, hm⟩ := ha.nodup_rivals.mem_erase_iff.mp hm
      exact hothers m hm hmb hms
  simp [contest, htop, hnext]

end Archive

end ForkChoice

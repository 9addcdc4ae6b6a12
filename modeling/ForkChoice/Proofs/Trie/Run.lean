import ForkChoice.Proofs.Trie.Votes
import Mathlib.Data.List.Induction
import Mathlib.Data.List.Infix

/-!
# Runs of the trie

A run casts and withdraws votes for ledgers of one archive, in any order. Beside it the votes
themselves are kept as a multiset.

* `Change`: one call that casts or withdraws votes.
* `votesAfter`: the multiset of votes after a run.
* `Admissible`: the ledgers are archived, and all votes together fit in a count at every moment.
* `Trie.counts_run`: an admissible run succeeds, and the trie holds the votes.
-/

namespace ForkChoice

/-- A call that changes the votes for a ledger; without a count it is about one vote. -/
inductive Change where
  | cast (l : Ledger) (count : Option Nat)
  | withdraw (l : Ledger) (count : Option Nat)

namespace Change

def ledger : Change → Ledger
  | cast l _ => l
  | withdraw l _ => l

/-- What a call does to the votes: it adds copies of the ledger, or takes away as many as there are
up to the count. -/
def apply (V : Multiset Ledger) : Change → Multiset Ledger
  | cast l count => V + Multiset.replicate (count.getD 1) l
  | withdraw l count => V - Multiset.replicate (count.getD 1) l

end Change

/-- The votes after a run that starts without any. -/
def votesAfter (changes : List Change) : Multiset Ledger := changes.foldl Change.apply 0

/-- A run on ledgers of one archive in which all votes together always fit in a count. -/
structure Admissible (a : Archive) (changes : List Change) : Prop where
  drawn : ∀ c ∈ changes, c.ledger ∈ a.ledgers
  inRange : ∀ before ∈ changes.inits, (votesAfter before).card ≤ maxSupport

theorem Admissible.of_concat {a : Archive} {changes : List Change} {c : Change}
    (h : Admissible a (changes ++ [c])) : Admissible a changes := by
  refine ⟨fun d hd => h.drawn d (List.mem_append_left _ hd), fun before hbefore => ?_⟩
  rw [List.mem_inits] at hbefore
  exact h.inRange before ((List.mem_inits _ _).mpr (hbefore.trans (List.prefix_append _ _)))

theorem Admissible.concat {a : Archive} {changes : List Change} {c : Change}
    (h : Admissible a changes) (hc : c.ledger ∈ a.ledgers)
    (hcard : (votesAfter (changes ++ [c])).card ≤ maxSupport) : Admissible a (changes ++ [c]) := by
  constructor
  · intro d hd
    rcases List.mem_append.mp hd with hd | hd
    · exact h.drawn d hd
    · exact List.mem_singleton.mp hd ▸ hc
  · intro before hbefore
    rcases List.prefix_concat_iff.mp ((List.mem_inits _ _).mp hbefore) with rfl | hprefix
    · exact hcard
    · exact h.inRange before ((List.mem_inits _ _).mpr hprefix)

theorem Admissible.card_le {a : Archive} {changes : List Change} (h : Admissible a changes) :
    (votesAfter changes).card ≤ maxSupport :=
  h.inRange _ ((List.mem_inits _ _).mpr List.prefix_rfl)

theorem votesAfter_concat (changes : List Change) (c : Change) :
    votesAfter (changes ++ [c]) = c.apply (votesAfter changes) := by
  rw [votesAfter, List.foldl_concat, votesAfter]

/-- Votes can be cast in either order. -/
theorem votesAfter_cast_cast (changes : List Change) (l m : Ledger) (x y : Option Nat) :
    votesAfter (changes ++ [.cast m y] ++ [.cast l x]) =
      votesAfter (changes ++ [.cast l x] ++ [.cast m y]) := by
  simp only [votesAfter_concat, Change.apply]
  exact add_right_comm _ _ _

theorem Admissible.cast_cast {a : Archive} {changes : List Change} {l m : Ledger}
    {x y : Option Nat} (h : Admissible a (changes ++ [.cast l x] ++ [.cast m y])) :
    Admissible a (changes ++ [.cast m y] ++ [.cast l x]) := by
  have hcard := h.card_le
  rw [← votesAfter_cast_cast] at hcard
  refine (h.of_concat.of_concat.concat (h.drawn (.cast m y) (by simp)) ?_).concat
    (h.drawn (.cast l x) (by simp)) hcard
  refine le_trans (Multiset.card_le_card ?_) hcard
  exact (votesAfter_concat (changes ++ [.cast m y]) (.cast l x)).symm ▸ Multiset.le_add_right _ _

namespace Trie

variable {a : Archive} {V : Multiset Ledger} {t : Trie}

/-- Carries out a call. -/
def change (t : Trie) : Change → Except Fault Trie
  | .cast l count => t.insert l (count.getD 1)
  | .withdraw l count => (t.withdraw l (count.getD 1)).map (·.2)

/-- Carries out a run, beginning with no votes. -/
def run (changes : List Change) : Except Fault Trie := changes.foldlM change .empty

theorem run_concat {changes : List Change} {c : Change} (h : run changes = .ok t) :
    run (changes ++ [c]) = t.change c := by
  rw [run, List.foldlM_append, ← run, h]
  cases hchange : t.change c <;> simp [hchange, bind, Except.bind, pure, Except.pure]

/-- One call does to the trie what it does to the multiset of its votes. -/
theorem Counts.change (ha : a.Sound) (h : Counts a V t) (c : Change)
    (hc : c.ledger ∈ a.ledgers) (hcard : (c.apply V).card ≤ maxSupport) :
    ∃ t', t.change c = .ok t' ∧ Counts a (c.apply V) t' := by
  cases c with
  | cast l count => exact h.insert ha hc hcard
  | withdraw l count =>
    have hl : l ∈ a.ledgers := hc
    by_cases hcount : V.count l = 0
    · have hsub : V - Multiset.replicate (count.getD 1) l = V := by
        ext m
        rw [Multiset.count_sub, Multiset.count_replicate]
        split
        · rename_i hlm
          rw [← hlm, hcount, Nat.zero_sub]
        · rfl
      refine ⟨t, ?_, ?_⟩
      · rw [Trie.change, h.withdraw_absent ha hl hcount]
        rfl
      · rw [Change.apply, hsub]
        exact h
    · obtain ⟨t', hwithdraw, h'⟩ := h.withdraw (v := count.getD 1) ha hl hcount
      refine ⟨t', ?_, h'⟩
      rw [Trie.change, hwithdraw]
      rfl

/-- An admissible run succeeds, and the trie holds the votes. -/
theorem counts_run (ha : a.Sound) {changes : List Change} (h : Admissible a changes) :
    ∃ t, run changes = .ok t ∧ Counts a (votesAfter changes) t := by
  induction changes using List.reverseRecOn with
  | nil => exact ⟨.empty, rfl, counts_empty ha⟩
  | append_singleton changes c ih =>
    obtain ⟨t, hrun, ht⟩ := ih h.of_concat
    have hcard := h.card_le
    rw [votesAfter_concat] at hcard ⊢
    rw [run_concat hrun]
    exact ht.change ha c (h.drawn c (by simp)) hcard

end Trie

end ForkChoice

import ForkChoice.Proofs.Ledger.Walk
import ForkChoice.Proofs.Trie.Votes
import ForkChoice.Trie.Preferred

/-!
# Uncommitted votes along a walk

A walk through the trie reads the votes by sequence number once, from front to back. At every
moment the entries behind it are those below some sequence number, and their sum is the number of
votes that are uncommitted there.

* `Uncommitted.Reached`: the position of a walk, by the sequence number it has read up to.
* `Uncommitted.absorb_spec`: the entries read at the start of a segment.
* `Uncommitted.advance_spec`: a jump over several sequence numbers is as good as single steps.
-/

namespace ForkChoice

namespace Uncommitted

variable {V : Multiset Ledger} {s votes : Nat} {ahead : Tally}

/-- The votes below a sequence number are counted, and the entries from there on lie ahead. -/
structure Reached (V : Multiset Ledger) (s votes : Nat) (ahead : Tally) : Prop where
  counted : votes = V.countP (·.seq < s)
  entries : ∀ k more, (k, more) ∈ ahead ↔ s ≤ k ∧ V.countP (·.seq = k) = more ∧ more ≠ 0
  sorted : ahead.Pairwise (·.1 < ·.1)

theorem countP_seq_lt_succ (V : Multiset Ledger) (s : Nat) :
    V.countP (·.seq < s + 1) = V.countP (·.seq < s) + V.countP (·.seq = s) := by
  induction V using Multiset.induction with
  | empty => rfl
  | cons l V ih =>
    simp only [Multiset.countP_cons, ih]
    split_ifs <;> omega

namespace Reached

/-- A walk has come as far as the next entry. -/
theorem skip (h : Reached V s votes ahead) {s' : Nat} (hs : s ≤ s')
    (hgap : ∀ e ∈ ahead, s' ≤ e.1) : Reached V s' votes ahead := by
  have hnone : ∀ l ∈ V, s ≤ l.seq → s' ≤ l.seq := by
    intro l hl hsl
    have hpos : V.countP (·.seq = l.seq) ≠ 0 := by
      rw [Ne, Multiset.countP_eq_zero]
      exact fun h => h l hl rfl
    exact hgap _ ((h.entries l.seq _).mpr ⟨hsl, rfl, hpos⟩)
  refine ⟨?_, fun k more => ?_, h.sorted⟩
  · rw [h.counted]
    refine Multiset.countP_congr rfl fun l hl => propext ?_
    have := hnone l hl
    omega
  · constructor
    · intro hmem
      exact ⟨hgap _ hmem, ((h.entries k more).mp hmem).2⟩
    · rintro ⟨hk, hmore⟩
      exact (h.entries k more).mpr ⟨hs.trans hk, hmore⟩

theorem le_of_mem_cons {k more : Nat} (h : Reached V s votes ((k, more) :: ahead)) :
    ∀ e ∈ (k, more) :: ahead, k ≤ e.1 := by
  intro e he
  rcases List.mem_cons.mp he with rfl | he
  · exact Nat.le_refl _
  · exact ((List.pairwise_cons.mp h.sorted).1 e he).le

/-- Reading an entry brings a walk past its sequence number. -/
theorem read {k more : Nat} (h : Reached V s votes ((k, more) :: ahead)) :
    s ≤ k ∧ Reached V (k + 1) (votes + more) ahead := by
  obtain ⟨hs, hmore, -⟩ := (h.entries k more).mp List.mem_cons_self
  have hk := h.skip hs h.le_of_mem_cons
  obtain ⟨hbehind, hsorted⟩ := List.pairwise_cons.mp h.sorted
  refine ⟨hs, ?_, fun j others => ?_, hsorted⟩
  · rw [countP_seq_lt_succ, hk.counted, hmore]
  · constructor
    · intro hmem
      exact ⟨hbehind _ hmem, ((h.entries j others).mp (List.mem_cons_of_mem _ hmem)).2⟩
    · rintro ⟨hj, hothers⟩
      have hmem := (h.entries j others).mpr ⟨by omega, hothers⟩
      rcases List.mem_cons.mp hmem with heq | hmem
      · have : j = k := congrArg Prod.fst heq
        omega
      · exact hmem

theorem le_card (h : Reached V s votes ahead) : votes ≤ V.card :=
  h.counted ▸ Multiset.countP_le_card _ _

theorem votes_eq {largestIssued next : Nat} (h : Reached V (max next largestIssued) votes ahead) :
    votes = uncommitted V largestIssued next :=
  h.counted

end Reached

theorem credit_eq {held votes : Nat} (h : held + votes ≤ maxSupport) :
    credit held votes = .ok (held + votes) := if_pos h

/-- All entries below the limit are read. -/
theorem absorb_spec (hcard : V.card ≤ maxSupport) (h : Reached V s votes ahead) {limit : Nat}
    (hs : s ≤ limit) :
    ∃ u, absorb limit votes ahead = .ok u ∧ Reached V limit u.votes u.ahead := by
  induction ahead generalizing s votes with
  | nil => exact ⟨⟨votes, []⟩, rfl, h.skip hs (by simp)⟩
  | cons entry ahead ih =>
    obtain ⟨k, more⟩ := entry
    rw [absorb]
    by_cases hk : k < limit
    · have hread := h.read.2
      rw [if_pos hk, credit_eq (hread.le_card.trans hcard)]
      exact ih hread hk
    · rw [if_neg hk]
      exact ⟨⟨votes, (k, more) :: ahead⟩, rfl, h.skip hs fun e he =>
        (Nat.le_of_not_lt hk).trans (h.le_of_mem_cons e he)⟩

/-- What a jump along a segment comes to: at every sequence number that it passes, the votes of the
branch exceed the uncommitted ones, and where it ends inside the segment they do not. -/
structure Jump (V : Multiset Ledger) (largestIssued stop branch next : Nat)
    (arrival : Nat × Uncommitted) : Prop where
  le : next ≤ arrival.1
  le_stop : arrival.1 ≤ stop
  reached : Reached V (max arrival.1 largestIssued) arrival.2.votes arrival.2.ahead
  passed : ∀ s, next ≤ s → s < arrival.1 → uncommitted V largestIssued s < branch
  stopped : arrival.1 < stop → branch ≤ uncommitted V largestIssued arrival.1

/-- Between two entries the uncommitted votes do not change. -/
theorem Reached.uncommitted_eq {largestIssued next bound : Nat}
    (h : Reached V (max next largestIssued) votes ahead) (hgap : ∀ e ∈ ahead, bound ≤ e.1) :
    ∀ s, next ≤ s → s ≤ bound → Reached V (max s largestIssued) votes ahead := by
  intro s hs hbound
  refine h.skip (by omega) fun e he => ?_
  have := hgap e he
  have := ((h.entries e.1 e.2).mp he).1
  omega

theorem Jump.to_stop {largestIssued stop branch next : Nat}
    (h : Reached V (max next largestIssued) votes ahead) (hnext : next < stop)
    (hbranch : votes < branch) (hgap : ∀ e ∈ ahead, stop ≤ e.1) :
    Jump V largestIssued stop branch next (stop, ⟨votes, ahead⟩) where
  le := hnext.le
  le_stop := Nat.le_refl _
  reached := h.uncommitted_eq hgap stop hnext.le (Nat.le_refl _)
  passed := by
    intro s hs hstop
    rw [← (h.uncommitted_eq hgap s hs (Nat.le_of_lt hstop)).votes_eq]
    exact hbranch
  stopped := fun hlt => absurd hlt (Nat.lt_irrefl _)

theorem Jump.stay {largestIssued stop branch next : Nat}
    (h : Reached V (max next largestIssued) votes ahead) (hnext : next ≤ stop)
    (hstay : ¬ (next < stop ∧ votes < branch)) :
    Jump V largestIssued stop branch next (next, ⟨votes, ahead⟩) where
  le := Nat.le_refl _
  le_stop := hnext
  reached := h
  passed := fun s hs hlt => absurd hs (Nat.not_le_of_lt hlt)
  stopped := by
    intro hlt
    rw [← h.votes_eq]
    exact Nat.le_of_not_lt fun hbranch => hstay ⟨hlt, hbranch⟩

theorem advance_spec (hcard : V.card ≤ maxSupport) {largestIssued stop next : Nat} (branch : Nat)
    (h : Reached V (max next largestIssued) votes ahead) (hnext : next ≤ stop) :
    ∃ arrival, advance stop branch next votes ahead = .ok arrival ∧
      Jump V largestIssued stop branch next arrival := by
  induction ahead generalizing next votes with
  | nil =>
    rw [advance]
    by_cases hgo : next < stop ∧ votes < branch
    · rw [if_pos hgo]
      exact ⟨_, rfl, Jump.to_stop h hgo.1 hgo.2 (by simp)⟩
    · rw [if_neg hgo]
      exact ⟨_, rfl, Jump.stay h hnext hgo⟩
  | cons entry ahead ih =>
    obtain ⟨k, more⟩ := entry
    rw [advance]
    by_cases hgo : next < stop ∧ votes < branch
    · rw [if_pos hgo]
      by_cases hk : k < stop
      · obtain ⟨hle, hread⟩ := h.read
        rw [if_pos hk, credit_eq (hread.le_card.trans hcard)]
        have hread : Reached V (max (k + 1) largestIssued) (votes + more) ahead := by
          rwa [show max (k + 1) largestIssued = k + 1 by omega]
        obtain ⟨arrival, hadvance, hjump⟩ := ih hread hk
        refine ⟨arrival, hadvance, ⟨?_, hjump.le_stop, hjump.reached, ?_, hjump.stopped⟩⟩
        · have := hjump.le
          omega
        · intro s hs hlt
          rcases Nat.lt_or_ge k s with hks | hsk
          · exact hjump.passed s hks hlt
          · rw [← (h.uncommitted_eq h.le_of_mem_cons s hs hsk).votes_eq]
            exact hgo.2
      · rw [if_neg hk]
        exact ⟨_, rfl, Jump.to_stop h hgo.1 hgo.2 fun e he =>
          (Nat.le_of_not_lt hk).trans (h.le_of_mem_cons e he)⟩
    · rw [if_neg hgo]
      exact ⟨_, rfl, Jump.stay h hnext hgo⟩

end Uncommitted

/-- At the start of a walk every entry lies ahead. -/
theorem Trie.Counts.reached {a : Archive} {V : Multiset Ledger} {t : Trie} (h : Counts a V t) :
    Uncommitted.Reached V 0 0 t.seqSupport.toList where
  counted := by simp
  entries := by
    intro k more
    rw [Std.ExtTreeMap.mem_toList_iff_getElem?_eq_some, h.bySeq, entryOf]
    split <;> simp <;> omega
  sorted := by
    refine Std.ExtTreeMap.ordered_keys_toList.imp fun hlt => ?_
    exact Nat.compare_eq_lt.mp hlt

end ForkChoice

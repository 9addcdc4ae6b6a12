import ForkChoice.Proofs.Trie.Arena.Check
import ForkChoice.Proofs.Trie.Arena.WellFormed
import ForkChoice.Proofs.Trie.Arena.Withdraw
import ForkChoice.Proofs.Trie.Run
import ForkChoice.Proofs.Trie.Preferred

/-!
# Runs in an arena

A run in an arena shows, after every call, the trie that the same run leads to as a tree. It answers
by the votes, never comes upon an empty slot and leaves the slots well-formed.

* `ArenaTrie.run`: a run that starts without votes.
* `ArenaTrie.shows_run`: an admissible run succeeds, and shows a trie that holds the votes.
* `ArenaTrie.run_answers_votes`: what the queries answer after a run.
* `ArenaTrie.run_prefers_walk`: the preferred ledger after a run.
* `ArenaTrie.run_wellFormed`: the rules that the slots keep to after a run.
-/

namespace ForkChoice

namespace ArenaTrie

variable {Slot : Type} [DecidableEq Slot] {A : Slots Slot (Cell Slot)} {a : Archive}
  {t : ArenaTrie A} {T T' : Trie} {V : Multiset Ledger} {changes : List Change} {c : Change}

/-- Carries out a call. -/
def change (t : ArenaTrie A) : Change → Computation (ArenaTrie A)
  | .cast l count => t.insert l (count.getD 1)
  | .withdraw l count => (·.2) <$> t.withdraw l (count.getD 1)

/-- Carries out a run, beginning with no votes. -/
def run (A : Slots Slot (Cell Slot)) (changes : List Change) : Computation (ArenaTrie A) :=
  changes.foldlM change (.empty A)

theorem run_concat (h : run A changes = pure t) : run A (changes ++ [c]) = t.change c := by
  rw [run, List.foldlM_append, ← run, h, pure_bind, List.foldlM_cons]
  exact bind_pure (t.change c)

/-! ## An arena shows a trie -/

theorem shows_empty (A : Slots Slot (Cell Slot)) : (empty A).Shows .empty := by
  obtain ⟨j, s, hput, -, hj, hother⟩ := A.put_spec A.empty ⟨.genesis, 0, 0, [], none⟩
  have hempty : empty A = ⟨j, s, ∅⟩ := by rw [empty, hput]
  rw [hempty]
  refine ⟨⟨[j], ?_, List.nodup_singleton j, fun i hi => ?_⟩, rfl⟩
  · exact Node.held_iff.mpr ⟨[], [], rfl, hj, Node.heldAll_nil.mpr ⟨rfl, rfl⟩⟩
  · by_contra hne
    rw [hother i (List.mem_singleton.not.mp hne), A.get_empty] at hi
    cases hi

theorem Shows.change (ha : a.Sound) (h : t.Shows T) (hT : T.Rooted a) (hc : c.ledger ∈ a.ledgers)
    (hchange : T.change c = .ok T') : ∃ t', t.change c = pure t' ∧ t'.Shows T' := by
  cases c with
  | cast l count => exact h.insert_eq hT hchange
  | withdraw l count =>
    rw [Trie.change] at hchange
    cases hwithdraw : T.withdraw l (count.getD 1) with
    | error fault =>
      rw [hwithdraw] at hchange
      cases hchange
    | ok result =>
      rw [hwithdraw] at hchange
      cases hchange
      have hl : l ∈ a.ledgers := hc
      obtain ⟨t', ht', hshows⟩ := h.withdraw_eq ha hl hT hwithdraw
      refine ⟨t', ?_, hshows⟩
      rw [ArenaTrie.change, ht', map_pure]

/-- An admissible run succeeds, and shows a trie that holds the votes. -/
theorem shows_run (A : Slots Slot (Cell Slot)) (ha : a.Sound) (h : Admissible a changes) :
    ∃ t T, run A changes = pure t ∧ Trie.run changes = .ok T ∧ t.Shows T ∧
      T.Counts a (votesAfter changes) := by
  induction changes using List.reverseRecOn with
  | nil => exact ⟨empty A, .empty, rfl, rfl, shows_empty A, Trie.counts_empty ha⟩
  | append_singleton changes c ih =>
    obtain ⟨t, T, hrun, hrunT, ht, hT⟩ := ih h.of_concat
    obtain ⟨T', hrunT', hT'⟩ := Trie.counts_run ha h
    have hchange : T.change c = .ok T' := (Trie.run_concat hrunT).symm.trans hrunT'
    obtain ⟨t', hchange', ht'⟩ := ht.change ha hT.toRooted (h.drawn c (by simp)) hchange
    exact ⟨t', T', (run_concat hrun).trans hchange', hrunT', ht', hT'⟩

/-! ## Answers -/

/-- After every admissible run the queries answer as the multiset of votes does, for every ledger of
the archive, wherever it lies. -/
theorem run_answers_votes (A : Slots Slot (Cell Slot)) (ha : a.Reachable)
    (h : Admissible a changes) :
    ∃ t, run A changes = pure t ∧
      (∀ l ∈ a.ledgers, t.tipSupport l = pure ((votesAfter changes).count l) ∧
        t.branchSupport l = pure ((votesAfter changes).countP (·.leadsTo l))) ∧
      (∀ s, t.seqSupport[s]? = entryOf ((votesAfter changes).countP (·.seq = s))) ∧
      (∃ answer, t.isEmpty = .ok answer ∧ (answer = true ↔ votesAfter changes = 0)) ∧
      ∀ l ∈ a.ledgers, ∀ count : Option Nat, ∃ t',
        t.withdraw l (count.getD 1) = pure (decide (0 < (votesAfter changes).count l), t') ∧
          ((votesAfter changes).count l = 0 → t' = t) := by
  obtain ⟨t, T, hrun, -, ht, hT⟩ := shows_run A ha.sound h
  refine ⟨t, hrun, fun l hl => ⟨?_, ?_⟩, fun s => ?_, ⟨_, ht.isEmpty_eq, hT.isEmpty_iff⟩,
    fun l hl count => ?_⟩
  · rw [ht.tipSupport_eq ha.sound hT.toRooted hl, hT.tipSupport_eq ha.sound hl]
  · rw [ht.branchSupport_eq ha.sound hT.toRooted hl, hT.branchSupport_eq ha.sound hl]
  · rw [ht.seqSupport, hT.bySeq]
  · by_cases hcount : (votesAfter changes).count l = 0
    · refine ⟨t, ?_, fun _ => rfl⟩
      rw [ht.withdraw_absent ha.sound hl hT.toRooted (by rw [hT.tipSupport_eq ha.sound hl, hcount]),
        hcount]
      rfl
    · obtain ⟨T', hwithdraw, -⟩ := hT.withdraw (v := count.getD 1) ha.sound hl hcount
      obtain ⟨t', hwithdraw', -⟩ := ht.withdraw_eq ha.sound hl hT.toRooted hwithdraw
      refine ⟨t', ?_, fun h0 => absurd h0 hcount⟩
      rw [hwithdraw', decide_eq_true (Nat.pos_of_ne_zero hcount)]

/-- A vote for a branch that is cut by a vote for its parent and then withdrawn again. -/
theorem run_answers_votes_fork :
    Fork.archive.Reachable ∧
      Admissible Fork.archive [.cast Fork.left (some 2), .cast Fork.trunk none,
        .cast Fork.right none, .withdraw Fork.trunk (some 5)] ∧
      ∃ t, run (Slots.numbered _) [.cast Fork.left (some 2), .cast Fork.trunk none,
          .cast Fork.right none, .withdraw Fork.trunk (some 5)] = pure t ∧
        t.tipSupport Fork.left = pure 2 ∧ t.tipSupport Fork.trunk = pure 0 ∧
        t.branchSupport Fork.trunk = pure 3 ∧ t.seqSupport[1]? = none ∧
        t.seqSupport[2]? = some 3 ∧ t.isEmpty = .ok false := by
  have hadmissible : Admissible Fork.archive [.cast Fork.left (some 2), .cast Fork.trunk none,
      .cast Fork.right none, .withdraw Fork.trunk (some 5)] := ⟨by decide, by decide⟩
  obtain ⟨t, hrun, hsupport, hseq, ⟨answer, hempty, hanswer⟩, -⟩ :=
    run_answers_votes (Slots.numbered _) Fork.archive_reachable hadmissible
  refine ⟨Fork.archive_reachable, hadmissible, t, hrun, ?_, ?_, ?_, ?_, ?_, ?_⟩
  · rw [(hsupport Fork.left (by decide)).1]
    exact congrArg pure (by decide)
  · rw [(hsupport Fork.trunk (by decide)).1]
    exact congrArg pure (by decide)
  · rw [(hsupport Fork.trunk (by decide)).2]
    exact congrArg pure (by decide)
  · rw [hseq]
    decide
  · rw [hseq]
    decide
  · rw [hempty, Bool.eq_false_iff.mpr (hanswer.not.mpr (by decide))]

/-- The preferred ledger is found without fault, and it is the one at which the walk from genesis
ends. -/
theorem run_prefers_walk (A : Slots Slot (Cell Slot)) (ha : a.Reachable)
    (h : Admissible a changes) :
    ∃ t, run A changes = pure t ∧ ∀ largestIssued, ∃ answer,
      t.preferred largestIssued = pure answer ∧
        (answer = none ↔ votesAfter changes = 0) ∧
        ∀ tip, answer = some tip →
          tip.seq = (a.walk (votesAfter changes) largestIssued .genesis).seq ∧
          tip.id = (a.walk (votesAfter changes) largestIssued .genesis).id := by
  obtain ⟨t, T, hrun, -, ht, hT⟩ := shows_run A ha.sound h
  refine ⟨t, hrun, fun largestIssued => ?_⟩
  have hpreferred := ht.preferred_eq largestIssued
  rcases hT.preferred_eq ha.sound h.card_le largestIssued with
    ⟨hempty, hnone⟩ | ⟨hvotes, tip, hsome, hseq, hid⟩
  · rw [hnone] at hpreferred
    exact ⟨none, hpreferred, by simp [hempty], by simp⟩
  · rw [hsome] at hpreferred
    refine ⟨some tip, hpreferred, by simp [hvotes], ?_⟩
    rintro _ ⟨⟩
    exact ⟨hseq, hid⟩

/-- A vote for the trunk keeps the walk from either side of the fork, and the votes below a large
sequence number of this node keep it at genesis. -/
theorem run_prefers_walk_fork :
    Fork.archive.Reachable ∧
      Admissible Fork.archive [.cast Fork.left (some 2), .cast Fork.right none,
        .cast Fork.trunk none] ∧
      ∃ t, run (Slots.numbered _) [.cast Fork.left (some 2), .cast Fork.right none,
          .cast Fork.trunk none] = pure t ∧
        (∃ tip, t.preferred 0 = pure (some tip) ∧ tip.seq = 1 ∧ tip.id = 1) ∧
        ∃ tip, t.preferred 3 = pure (some tip) ∧ tip.seq = 0 ∧ tip.id = 0 := by
  have hadmissible : Admissible Fork.archive [.cast Fork.left (some 2), .cast Fork.right none,
      .cast Fork.trunk none] := ⟨by decide, by decide⟩
  obtain ⟨t, hrun, hanswers⟩ :=
    run_prefers_walk (Slots.numbered _) Fork.archive_reachable hadmissible
  have hwalk : ∀ largestIssued l,
      Fork.archive.walk (votesAfter [.cast Fork.left (some 2), .cast Fork.right none,
        .cast Fork.trunk none]) largestIssued .genesis = l →
      ∃ tip, t.preferred largestIssued = pure (some tip) ∧ tip.seq = l.seq ∧ tip.id = l.id := by
    intro largestIssued l hl
    obtain ⟨answer, hanswer, hnone, htip⟩ := hanswers largestIssued
    cases answer with
    | none => exact absurd (hnone.mp rfl) (by decide)
    | some tip => exact ⟨tip, hanswer, hl ▸ htip tip rfl⟩
  refine ⟨Fork.archive_reachable, hadmissible, t, hrun, hwalk 0 Fork.trunk ?_,
    hwalk 3 .genesis ?_⟩
  · rw [Archive.walk_of_some (m := Fork.trunk) (by decide), Archive.walk_of_none (by decide)]
  · exact Archive.walk_of_none (by decide)

/-! ## Well-formed slots -/

/-- After every admissible run the slots keep to their rules and the audit agrees. No query and no
further call comes upon an empty slot. -/
theorem run_wellFormed (A : Slots Slot (Cell Slot)) (ha : a.Reachable)
    (h : Admissible a changes) :
    ∃ t, run A changes = pure t ∧ t.WellFormed ∧ t.check = pure true ∧
      (∀ l ∈ a.ledgers, (∃ votes, t.tipSupport l = pure votes) ∧
        ∃ votes, t.branchSupport l = pure votes) ∧
      (∃ answer, t.isEmpty = .ok answer) ∧
      (∀ largestIssued, ∃ answer, t.preferred largestIssued = pure answer) ∧
      (∃ T, t.tree = pure T) ∧
      ∀ c, Admissible a (changes ++ [c]) → ∃ t', t.change c = pure t' ∧ t'.WellFormed := by
  obtain ⟨t, T, hrun, -, ht, hT⟩ := shows_run A ha.sound h
  refine ⟨t, hrun, ht.wellFormed ha.sound hT.toRooted, ht.check_eq hT h.card_le,
    fun l hl => ⟨⟨_, ht.tipSupport_eq ha.sound hT.toRooted hl⟩,
      ⟨_, ht.branchSupport_eq ha.sound hT.toRooted hl⟩⟩,
    ⟨_, ht.isEmpty_eq⟩, fun largestIssued => ?_, ⟨T, ht.tree_eq⟩, fun c hc => ?_⟩
  · have hpreferred := ht.preferred_eq largestIssued
    rcases hT.preferred_eq ha.sound h.card_le largestIssued with
      ⟨-, hnone⟩ | ⟨-, tip, hsome, -⟩
    · exact ⟨none, by rw [hpreferred, hnone]; rfl⟩
    · exact ⟨some tip, by rw [hpreferred, hsome]; rfl⟩
  · obtain ⟨t', T', hrun', -, ht', hT'⟩ := shows_run A ha.sound hc
    rw [run_concat hrun] at hrun'
    exact ⟨t', hrun', ht'.wellFormed ha.sound hT'.toRooted⟩

/-- The trunk is cut off from the left side for a vote of its own, and goes away again with it. -/
theorem run_wellFormed_fork :
    Fork.archive.Reachable ∧
      Admissible Fork.archive [.cast Fork.left (some 2), .cast Fork.trunk none,
        .withdraw Fork.trunk none] ∧
      ∃ t, run (Slots.numbered _) [.cast Fork.left (some 2), .cast Fork.trunk none,
          .withdraw Fork.trunk none] = pure t ∧
        t.WellFormed ∧ t.check = pure true := by
  have hadmissible : Admissible Fork.archive [.cast Fork.left (some 2), .cast Fork.trunk none,
      .withdraw Fork.trunk none] := ⟨by decide, by decide⟩
  obtain ⟨t, hrun, hrules, hcheck, -⟩ :=
    run_wellFormed (Slots.numbered _) Fork.archive_reachable hadmissible
  exact ⟨Fork.archive_reachable, hadmissible, t, hrun, hrules, hcheck⟩

end ArenaTrie

end ForkChoice

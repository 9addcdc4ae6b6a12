import ForkChoice.Proofs.Ledger.Secure
import ForkChoice.Proofs.Register.Consulting

/-!
# Two ways to count the nodes after a ledger

Asked by the ledger itself, the register is brought up to date and the trie counts the votes for
descendants. Asked by its identifier alone, the votes for children are counted as they stand. In one
state the second count is no more than the first; but only the first question drops stale votes and
makes those that have waited, so a count by identifier may change when it is asked again later.

* `Ledger.parentId?_eq_iff`: a ledger names its parent just when it is a child of it.
* `Register.step_scan`, `Register.step_trie`: the nodes that each question counts.
* `Register.run_counts_followers`: both counts after any run, and when their order does not matter.
-/

namespace ForkChoice

variable {a : Archive}

namespace Ledger

variable {l m x : Ledger}

/-- A ledger names the identifier of its parent, and of no other ledger. -/
theorem parentId?_eq_iff (ha : a.Sound) (hm : m ∈ a.ledgers) (hx : x ∈ a.ledgers) :
    m.parentId? = some x.id ↔ m.ChildOf x := by
  rw [parentId?]
  constructor
  · intro h
    split at h
    · rename_i hpos
      have hid := Option.some.inj h
      have htxs := (ha.idAt_eq_id hm hx (Nat.sub_le _ _)).mp hid
      have hseq : x.seq = m.seq - 1 := by
        rw [seq, ← htxs, List.length_take]
        exact Nat.min_eq_left (Nat.sub_le _ _)
      refine ⟨by omega, ?_⟩
      rw [descendsFrom, dif_pos (by omega), beq_iff_eq, ha.idAt_eq_id hm hx, hseq]
      exact htxs
    · cases h
  · intro h
    have hseq := h.seq
    have hdescends := h.descends
    rw [descendsFrom, dif_pos (by omega), beq_iff_eq, ha.idAt_eq_id hm hx] at hdescends
    rw [if_pos (by omega), Option.some.injEq, ha.idAt_eq_id hm hx, ← hdescends]
    congr 1
    omega

end Ledger

namespace Register

variable {T : Type} {E : Fault → Prop} {nodes : Set Nat} {env : Surroundings}
  {r s : Register T} {x y : Ledger} {P Q : Ledger → Bool}

theorem voters_congr (hP : ∀ (n : Nat) l, r.votes[n]? = some l → P l = Q l) :
    r.voters P = r.voters Q := by
  ext n
  rw [voters, voters, mem_votersIn, mem_votersIn]
  apply exists_congr
  intro l
  apply and_congr_right
  intro hl
  rw [hP n l hl]

theorem voters_mono (hP : ∀ l, P l = true → Q l = true) : r.voters P ⊆ r.voters Q := by
  intro n hn
  obtain ⟨l, hl, hPl⟩ := mem_votersIn.mp hn
  exact mem_votersIn.mpr ⟨l, hl, hP l hPl⟩

/-- The votes after a ledger are those for it and its descendants, less those for itself. -/
theorem card_voters_after (r : Register T) (x : Ledger) :
    (r.voters (·.leadsTo x)).card - (r.voters (· == x)).card =
      (r.voters (·.descendsFrom x)).card := by
  have hdisjoint : Disjoint (r.voters (· == x)) (r.voters (·.descendsFrom x)) := by
    rw [Finset.disjoint_left]
    intro n hn hn'
    obtain ⟨l, hl, hx⟩ := mem_votersIn.mp hn
    obtain ⟨l', hl', hx'⟩ := mem_votersIn.mp hn'
    obtain rfl := Option.some.inj (hl.symm.trans hl')
    rw [beq_iff_eq.mp hx] at hx'
    exact x.not_descendsFrom_self hx'
  have hunion : r.voters (·.leadsTo x) = r.voters (· == x) ∪ r.voters (·.descendsFrom x) := by
    ext n
    simp only [Finset.mem_union, voters, mem_votersIn, Ledger.leadsTo, Bool.or_eq_true, and_or_left,
      exists_or]
  rw [hunion, Finset.card_union_of_disjoint hdisjoint, Nat.add_sub_cancel_left]

/-- The children of a ledger among the votes as they stand. -/
theorem countP_parentId? [VoteTrie T] [LawfulVoteTrie T] (ha : a.Sound) (h : r.Sound a nodes)
    (hx : x ∈ a.ledgers) : (r.votes.values.countP fun vote => vote.parentId? == some x.id) =
      (r.voters fun l => l.ChildOf x).card := by
  rw [voters_congr (Q := fun l => l.parentId? == some x.id) fun n l hl => ?_, voters,
    ← countP_ballots, ballots, values_eq, Multiset.coe_countP]
  · congr 1
    funext vote
    rw [Bool.eq_iff_iff, decide_eq_true_iff]
  · rw [Bool.eq_iff_iff, decide_eq_true_iff, beq_iff_eq,
      Ledger.parentId?_eq_iff ha (h.drawn_of_getElem? hl) hx]

variable [VoteTrie T] [LawfulVoteTrie T]

/-- Asked by the identifier of another ledger, the votes for its children are counted. -/
theorem step_scan (ha : a.Sound) (h : r.Sound a nodes) (hx : x ∈ a.ledgers) (hy : y.id ≠ x.id) :
    r.step env (.nodesAfter y x.id) =
      pure ⟨.count (r.voters fun l => l.ChildOf x).card, r, []⟩ := by
  rw [step, nodesAfter, if_neg hy, map_pure, countP_parentId? ha h hx]
  rfl

/-- Asked by the ledger, the votes for its descendants are counted when the register was brought up to
date. -/
theorem step_trie (ha : a.Sound) {fresh : Outcome T Unit} (hfresh : r.refresh env = pure fresh)
    (h : fresh.register.Sound a nodes) (hx : x ∈ a.ledgers) :
    r.step env (.nodesAfter x x.id) = pure ⟨.count (fresh.register.voters (·.descendsFrom x)).card,
      fresh.register, fresh.retired⟩ := by
  have hle : (fresh.register.voters (· == x)).card ≤ (fresh.register.voters (·.leadsTo x)).card := by
    apply Finset.card_le_card
    apply voters_mono
    intro l hl
    rw [Ledger.leadsTo, hl, Bool.true_or]
  rw [step, nodesAfter, if_pos rfl, hfresh, pure_bind, h.branchSupport ha hx, pure_bind,
    h.tipSupport ha hx, pure_bind, debit, if_pos hle, card_voters_after]
  rfl

/-- After any run, a question by the ledger counts the votes for its descendants in the register brought
up to date, and a question by its identifier counts the votes for its children as they stand. In the
register that the first question leaves, the second count is no more than the first, and either
question can be asked again with the same answer. So it is from the start, and neither answer depends
on which question is asked first, when the votes are timely. -/
theorem run_counts_followers {Slot : Type} [DecidableEq Slot] (A : Slots Slot (Cell Slot))
    (ha : a.Reachable) {requests : List (Surroundings × Request)}
    (h : Orderly a Set.univ requests) (timing : Timing) (henv : env.Honest a)
    (hx : x ∈ a.ledgers) (hy : y.id ≠ x.id) :
    Ends Bounded ((empty timing : Register (ArenaTrie A)).after requests) fun r =>
      r.step env (.nodesAfter y x.id) =
        pure ⟨.count (r.voters fun l => l.ChildOf x).card, r, []⟩ ∧
      Ends Bounded (r.step env (.nodesAfter x x.id)) fun o => ∃ now, env.now = .ok now ∧
        Refreshed env now r o.register ∧
        o.answer = .count (o.register.voters (·.descendsFrom x)).card ∧
        (o.register.voters fun l => l.ChildOf x) ⊆ o.register.voters (·.descendsFrom x) ∧
        o.register.step env (.nodesAfter y x.id) =
          pure ⟨.count (o.register.voters fun l => l.ChildOf x).card, o.register, []⟩ ∧
        o.register.step env (.nodesAfter x x.id) = pure ⟨o.answer, o.register, []⟩ ∧
        (r.Timely env now → ∀ P, o.register.voters P = r.voters P) := by
  refine ((sound_empty ha.sound timing).after ha.sound (fun _ => Or.inl) (room_bounded _) h).imp
    fun r hr => ⟨step_scan ha.sound hr hx hy, ?_⟩
  have hrefresh := (refresh_ends ha.sound henv (fun _ => Or.inl) (room_bounded _) hr).self
  rcases hrefresh with ⟨fresh, -, hfresh, hs, now, hnow, hrefreshed⟩ | ⟨fault, hfault, hbounded⟩
  · have hagain := (hrefreshed.upToDate hs.awaited).refresh_eq hnow
    rw [step_trie ha.sound hfresh hs hx]
    refine Ends.pure ⟨now, hnow, hrefreshed, rfl, ?_, step_scan ha.sound hs hx hy,
      step_trie ha.sound hagain hs hx, fun htimely P => ?_⟩
    · apply voters_mono
      intro l hl
      exact (of_decide_eq_true hl).descends
    · rw [voters, hrefreshed.votes_eq htimely, voters]
  · rw [step, nodesAfter, if_pos rfl, hfault]
    exact Ends.throw hbounded

/-- One node votes for the trunk, another one for the left side. -/
def chain : List Fork.Line :=
  [(Fork.early, [1, 2], .receive 1 (Fork.word 1 Fork.trunk Fork.early)),
    (Fork.early, [1, 2], .receive 2 (Fork.word 2 Fork.left Fork.early))]

/-- Both come after genesis, but one of them votes for a child of it. -/
theorem run_counts_followers_fork :
    ∃ r o, (empty {} : Register (ArenaTrie (Slots.numbered (Cell Nat)))).after
        (Fork.script chain) = pure r ∧
      r.step (Fork.world Fork.soon [1, 2]) (.nodesAfter Fork.trunk 0) = pure ⟨.count 1, r, []⟩ ∧
      r.step (Fork.world Fork.soon [1, 2]) (.nodesAfter .genesis 0) = pure o ∧
      o.answer = .count 2 ∧
      o.register.step (Fork.world Fork.soon [1, 2]) (.nodesAfter Fork.trunk 0) =
        pure ⟨.count 1, o.register, []⟩ := by
  have hchain : ∀ line ∈ chain, line.2.2.Apt Fork.archive Set.univ := by
    simp [chain, Request.Apt]
  obtain ⟨r, t, hr, hsound, hup, htest⟩ := Fork.exists_upToDate chain [1, 2]
    (fun s => (s.voters fun l => l.ChildOf .genesis).card == 1 &&
      (s.voters (·.descendsFrom .genesis)).card == 2) hchain (by decide +kernel)
  obtain ⟨hchildren, hdescendants⟩ := (Bool.and_eq_true _ _).mp htest
  have hchildren : (r.voters fun l => l.ChildOf .genesis).card = 1 := beq_iff_eq.mp hchildren
  have hdescendants : (r.voters (·.descendsFrom .genesis)).card = 2 := beq_iff_eq.mp hdescendants
  have hgenesis : Ledger.genesis ∈ Fork.archive.ledgers := by decide
  obtain ⟨hscan, htrie⟩ := (run_counts_followers (Slots.numbered (Cell Nat)) (y := Fork.trunk)
    Fork.archive_reachable (Fork.orderly_script chain hchain) {} (Fork.honest Fork.soon [1, 2])
    hgenesis (by decide)).result hr
  obtain ⟨o, ho⟩ : ∃ o, r.step (Fork.world Fork.soon [1, 2]) (.nodesAfter .genesis 0) = pure o :=
    ⟨_, step_trie Fork.archive_reachable.sound (hup.refresh_eq rfl) hsound hgenesis⟩
  obtain ⟨now, hnow, -, hanswer, -, hagain, -, hsame⟩ := htrie.result ho
  obtain rfl : Fork.soon = now := Except.ok.inj hnow
  rw [hchildren] at hscan
  rw [hsame hup.timely, hchildren] at hagain
  rw [hsame hup.timely, hdescendants] at hanswer
  exact ⟨r, o, hr, hscan, ho, hanswer, hagain⟩

/-- A stale vote is counted by identifier until a question by the ledger drops it. -/
theorem run_counts_followers_stale :
    ∃ r o, (empty {} : Register (ArenaTrie (Slots.numbered (Cell Nat)))).after
        (Fork.script (chain.take 1)) = pure r ∧
      r.step (Fork.world Fork.late []) (.nodesAfter Fork.trunk 0) = pure ⟨.count 1, r, []⟩ ∧
      r.step (Fork.world Fork.late []) (.nodesAfter .genesis 0) = pure o ∧
      o.answer = .count 0 ∧
      o.register.step (Fork.world Fork.late []) (.nodesAfter Fork.trunk 0) =
        pure ⟨.count 0, o.register, []⟩ := by
  obtain ⟨r, o, s, o', hr, ho, ⟨-, -, t, rfl, -⟩, ⟨hanswer, ⟨-, -, u, hu, -⟩, -⟩, htest⟩ :=
    Fork.exists_step (Slots.numbered (Cell Nat)) (chain.take 1) (Fork.late, [], .nodesAfter .genesis 0)
      (fun s o => s.votes.toList == [(1, Fork.trunk)] && o.register.votes.isEmpty &&
        o.answer == .count 0)
      (by simp [chain, Request.Apt]) (show Ledger.genesis ∈ Fork.archive.ledgers by decide)
      (by decide +kernel)
  simp only [Bool.and_eq_true, beq_iff_eq, hu, hanswer] at htest
  obtain ⟨⟨hbefore, hafter⟩, hcount⟩ := htest
  have hscan (q : Register (ArenaTrie (Slots.numbered (Cell Nat)))) :
      q.step (Fork.world Fork.late []) (.nodesAfter Fork.trunk 0) =
        pure ⟨.count (q.votes.values.countP fun vote => vote.parentId? == some 0), q, []⟩ := rfl
  have hbefore : r.votes.toList = [(1, Fork.trunk)] := hbefore
  have hafter : o.register.votes = ∅ := Std.ExtTreeMap.isEmpty_iff.mp hafter
  refine ⟨r, o, hr, ?_, ho, hcount, ?_⟩
  · rw [hscan, values_eq, hbefore]
    rfl
  · rw [hscan, hafter]
    rfl

end Register

end ForkChoice

import ForkChoice.Proofs.Register.Agreement

/-!
# One validator, one vote

After every run the trie supports each ledger by as many votes as there are nodes whose last ledger
it is, or descends from it. No node is counted twice, and whenever a vote is taken from the trie it
is there.

* `Register.run_counts_voters`: the support after a run.
-/

namespace ForkChoice

/-- The votes of at most as many nodes as a count can hold never leave its range. -/
theorem room_of_card_le {E : Fault → Prop} {nodes : Finset Nat} (h : nodes.card ≤ maxSupport) :
    Room E (nodes : Set Nat) := by
  intro s hs hcard
  have := Finset.card_le_card fun n hn => hs n hn
  omega

namespace Register

variable {T : Type} [VoteTrie T] [LawfulVoteTrie T] {a : Archive} {nodes : Finset Nat}
  {requests : List (Surroundings × Request)}

/-- A run of not too many nodes fails only for a time that is not representable or an empty range,
and leaves a sound register. -/
theorem after_sound (ha : a.Sound) (hnodes : nodes.card ≤ maxSupport)
    (h : Orderly a (nodes : Set Nat) requests) (timing : Timing) :
    Ends Fault.External ((empty timing : Register T).after requests)
      fun r => r.Sound a (nodes : Set Nat) :=
  (sound_empty ha timing).after ha (fun _ => id) (room_of_card_le hnodes) h

/-- After every run the support of a ledger is the number of nodes whose last ledger it is, that of
its branch the number of nodes whose last ledger equals or descends from it, and every vote that was
taken from the trie was there. -/
theorem run_counts_voters {Slot : Type} [DecidableEq Slot] (A : Slots Slot (Cell Slot))
    (ha : a.Reachable) (hnodes : nodes.card ≤ maxSupport) (h : Orderly a (nodes : Set Nat) requests)
    (timing : Timing) :
    Ends Fault.External ((empty timing : Register (ArenaTrie A)).after requests) (fun r =>
      ∀ l ∈ a.ledgers, r.trie.tipSupport l = pure (r.voters (· == l)).card ∧
        r.trie.branchSupport l = pure (r.voters (·.leadsTo l)).card) ∧
    Ends Fault.External ((empty timing : Register (Recorded (ArenaTrie A))).after requests)
      fun r => ∀ answer ∈ r.trie.found, answer = true := by
  constructor
  · refine (after_sound ha.sound hnodes h timing).imp fun r hr l hl => ⟨?_, ?_⟩
    · exact hr.tipSupport ha.sound hl
    · exact hr.branchSupport ha.sound hl
  · exact (after_sound ha.sound hnodes h timing).imp fun r hr => Recorded.all_found hr.holds

/-- Two nodes vote for the two sides of the fork, and a third waits for the trunk. -/
def sides : List Fork.Line :=
  [(Fork.early, [2, 3], .receive 1 (Fork.word 1 Fork.left Fork.early)),
    (Fork.early, [2, 3], .receive 2 (Fork.word 2 Fork.right Fork.early)),
    (Fork.early, [2, 3], .receive 3 (Fork.word 3 Fork.trunk Fork.early))]

/-- The trunk has the support of both sides, but none of the node that waits for it. -/
theorem run_counts_voters_fork :
    ∃ r, (empty {} : Register (ArenaTrie (Slots.numbered (Cell Nat)))).after
        (Fork.script sides) = pure r ∧
      r.trie.tipSupport Fork.left = pure 1 ∧ r.trie.branchSupport Fork.trunk = pure 2 := by
  obtain ⟨r, s, hr, ⟨-, -, t, rfl, -⟩, htest⟩ := Fork.exists_after (Slots.numbered (Cell Nat)) sides
    (fun s => (s.voters (· == Fork.left)).card == 1 && (s.voters (·.leadsTo Fork.trunk)).card == 2)
    (by simp [sides, Request.Apt]) (by decide +kernel)
  obtain ⟨htip, hbranch⟩ := (Bool.and_eq_true _ _).mp htest
  have hsupport := (run_counts_voters (Slots.numbered (Cell Nat)) Fork.archive_reachable
    (show ({1, 2, 3} : Finset Nat).card ≤ maxSupport by decide)
    (Fork.orderly_script sides (by simp [sides, Request.Apt])) {}).1.result hr
  refine ⟨r, hr, (hsupport Fork.left (by decide)).1.trans ?_,
    (hsupport Fork.trunk (by decide)).2.trans ?_⟩
  · exact congrArg pure (beq_iff_eq.mp htip)
  · exact congrArg pure (beq_iff_eq.mp hbranch)

end Register

end ForkChoice

import ForkChoice.Proofs.Register.Records

/-!
# Nodes that stay silent

A node that neither votes nor waits starts to do so only when a trusted validation of its own comes in
or it is given trust. So whatever is done to the votes and waits of others, it stays silent, and there
is nothing to take back from it.

* `Register.Quiet`: only some nodes start to vote or to wait.
* `Register.settle_quiet`, `Register.enroll_quiet`, `Register.dismiss_quiet`: whose votes and waits
  these computations touch.
* `Register.dismiss_silent`: nothing is taken back from a silent node.
-/

namespace ForkChoice

variable {T : Type} {env : Surroundings}

namespace Register

variable {r s t : Register T} {node n : Nat} {v : Validation} {but : Set Nat}

/-- No ledger comes to be awaited by nobody, and no node starts to vote or to wait but some given
ones. -/
structure Quiet (but : Set Nat) (r s : Register T) : Prop where
  awaited : r.Awaited → s.Awaited
  silent : ∀ n, n ∉ but → r.Silent n → s.Silent n

namespace Quiet

theorem refl (but : Set Nat) (r : Register T) : Quiet but r r := ⟨id, fun _ _ => id⟩

theorem trans (h : Quiet but r s) (h' : Quiet but s t) : Quiet but r t :=
  ⟨h'.awaited ∘ h.awaited, fun n hn => h'.silent n hn ∘ h.silent n hn⟩

theorem mono (h : Quiet ∅ r s) (but : Set Nat) : Quiet but r s :=
  ⟨h.awaited, fun n _ => h.silent n (Set.notMem_empty n)⟩

theorem stopWaiting (r : Register T) (mark : Mark) (node : Nat) :
    Quiet but r (r.stopWaiting mark node) :=
  ⟨fun h => h.stopWaiting mark node, fun _ _ h =>
    ⟨h.votes, fun m hm => h.waits m (waits_stopWaiting.mp hm).1⟩⟩

theorem startWaiting (r : Register T) (mark : Mark) (node : Nat) :
    Quiet {node} r (r.startWaiting mark node) := by
  refine ⟨fun h => h.startWaiting mark node, fun n hn h => ⟨h.votes, fun m hm => ?_⟩⟩
  exact (waits_startWaiting.mp hm).elim (h.waits m) fun h => hn h.1

theorem withoutMark (r : Register T) (mark : Mark) : Quiet but r (r.withoutMark mark) :=
  ⟨fun h => h.withoutMark mark, fun _ _ h =>
    ⟨h.votes, fun m hm => h.waits m (waits_withoutMark.mp hm).1⟩⟩

theorem release (r : Register T) (prior : Option Mark) (node : Nat) :
    Quiet but r (r.release prior node) := by
  cases prior with
  | none => exact refl but r
  | some mark => exact stopWaiting r mark node

theorem withVotes (r : Register T) (trie : T) (node : Nat) (l : Ledger) :
    Quiet {node} r (r.withVotes trie (r.votes.insert node l)) := by
  refine ⟨id, fun n hn h => ⟨?_, h.waits⟩⟩
  rw [votes_withVotes, Std.ExtTreeMap.getElem?_insert, if_neg fun heq => ?_]
  · exact h.votes
  · exact hn (Nat.compare_eq_eq.mp heq).symm

end Quiet

variable [VoteTrie T]

theorem vote_quiet (r : Register T) (node : Nat) (l : Ledger) :
    Gives (r.vote node l) (Quiet {node} r) := by
  rw [vote]
  split
  all_goals
    refine (Gives.trivial _).bind fun _ _ => (Gives.trivial _).bind fun _ _ => ?_
    exact Gives.pure (Quiet.withVotes r _ node l)

theorem settle_quiet (r : Register T) (env : Surroundings) :
    Gives (r.settle env) (Quiet ∅ r) := by
  refine Gives.foldlM (I := fun _ s => Quiet ∅ r s) (Quiet.refl ∅ r) fun mark _ s hs => ?_
  rw [settleAt.eq_def]
  split
  · rename_i l nodes _ hnodes
    -- who waits for the ledger was not silent before
    have hnot : ∀ n ∈ byRank (env.order.waiting mark) nodes.toList, ¬ r.Silent n := by
      intro n hn h
      refine (hs.silent n (Set.notMem_empty n) h).waits mark ⟨nodes, hnodes, ?_⟩
      exact Std.ExtTreeSet.mem_toList.mp (mem_byRank.mp hn)
    refine (Gives.foldlM (I := fun rest s' => Quiet ∅ r s' ∧ ∀ n ∈ rest, ¬ r.Silent n)
      ⟨hs.trans (Quiet.withoutMark s mark), hnot⟩ fun node rest s' h => ?_).imp fun _ h => h.1
    refine (vote_quiet s' node l).imp fun s'' hvote => ⟨⟨hvote.awaited ∘ h.1.awaited, ?_⟩,
      fun n hn => h.2 n (List.mem_cons_of_mem _ hn)⟩
    intro n hn hsilent
    refine hvote.silent n (fun heq => ?_) (h.1.silent n hn hsilent)
    exact h.2 node List.mem_cons_self (Set.mem_singleton_iff.mp heq ▸ hsilent)
  · exact Gives.pure hs

theorem enroll_quiet (r : Register T) (env : Surroundings) (node : Nat) (v : Validation)
    (prior : Option Mark) : Gives (r.enroll env node v prior) (Quiet {node} r) := by
  rw [enroll_eq]
  refine (settle_quiet _ env).bind fun s hs => ?_
  have hs := (Quiet.release r prior node).trans (hs.mono {node})
  have hstart : Quiet {node} r (s.startWaiting v.mark node) := hs.trans (.startWaiting s _ node)
  split
  · exact Gives.pure hstart
  · split
    · exact (vote_quiet s node _).imp fun _ => hs.trans
    · exact Gives.pure hstart

theorem dismiss_quiet (r : Register T) (node : Nat) (v : Validation) :
    Gives (r.dismiss node v) (Quiet ∅ r) := by
  have hstop : Quiet ∅ r (r.stopWaiting v.mark node) := .stopWaiting r v.mark node
  rw [dismiss]
  dsimp only
  split
  · split
    · refine (Gives.trivial _).bind fun answer _ => Gives.pure ⟨hstop.awaited, fun n hn h => ?_⟩
      have h := hstop.silent n hn h
      refine ⟨?_, h.waits⟩
      cases hl : ((r.stopWaiting v.mark node).votes.erase node)[n]? with
      | none => rfl
      | some l => exact absurd (getElem?_of_erase hl) (by rw [h.votes]; exact Option.some_ne_none l ∘ Eq.symm)
    · exact Gives.pure hstop
  · exact Gives.pure hstop

/-- There is nothing to take back from a node that neither votes nor waits. -/
theorem dismiss_silent (hawaited : r.Awaited) (h : r.Silent node) (v : Validation) :
    r.dismiss node v = pure r := by
  rw [dismiss, stopWaiting_eq hawaited (h.waits _)]
  dsimp only
  rw [h.votes]

end Register

end ForkChoice

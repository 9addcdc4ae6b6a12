import ForkChoice.Proofs.Register.Run

/-!
# The register does not depend on how votes are kept

Two registers that agree in all but the structure that keeps their votes answer every request alike,
fail with the same fault if they fail, and agree afterwards. So what is known of the register over a
trie as a tree is known of the register over a trie in an arena.

* `Register.Agree`: two registers that differ only in the structure of their votes.
* `Register.step_alike`, `Register.run_alike`: one request and several.
* `Fork.exists_step`: a run on a fork is followed by computation.
-/

namespace ForkChoice

variable {T T' α : Type} {a : Archive} {env : Surroundings}

namespace Register

/-- A register with its votes kept in another structure. -/
def withTrie (r : Register T) (trie : T') : Register T' := { r with trie }

variable [VoteTrie T] [LawfulVoteTrie T] [VoteTrie T'] [LawfulVoteTrie T']

/-- Two registers are the same but for the structures that keep their votes, and both of these hold
the votes of the table. -/
def Agree (a : Archive) (r : Register T) (s : Register T') : Prop :=
  (∀ l ∈ ballots r.votes, l ∈ a.ledgers) ∧ Holds a (ballots r.votes) r.trie ∧
    ∃ trie, s = r.withTrie trie ∧ Holds a (ballots r.votes) trie

end Register

variable [VoteTrie T] [LawfulVoteTrie T] [VoteTrie T'] [LawfulVoteTrie T']

/-- Two outcomes with the same answer and registers that agree. -/
structure Outcome.Agree (a : Archive) (o : Outcome T α) (o' : Outcome T' α) : Prop where
  answer : o'.answer = o.answer
  register : o.register.Agree a o'.register
  retired : o'.retired = o.retired

theorem Outcome.Agree.map {β : Type} {o : Outcome T α} {o' : Outcome T' α} (h : o.Agree a o')
    (f : α → β) : (o.map f).Agree a (o'.map f) :=
  ⟨congrArg f h.answer, h.register, h.retired⟩

theorem insert_alike {V : Multiset Ledger} {t : T} {t' : T'} {l : Ledger} (votes : Nat)
    (ha : a.Sound) (h : Holds a V t) (h' : Holds a V t') (hl : l ∈ a.ledgers) :
    EndAlike (VoteTrie.insert t l votes) (VoteTrie.insert t' l votes) fun u u' =>
      Holds a (V + Multiset.replicate votes l) u ∧ Holds a (V + Multiset.replicate votes l) u' := by
  rcases LawfulVoteTrie.insert votes ha h hl with ⟨u, hu, hV⟩ | ⟨fault, hfault, rfl, hV⟩
  · rcases LawfulVoteTrie.insert votes ha h' hl with ⟨u', hu', hV'⟩ | ⟨fault, -, -, hV'⟩
    · exact Or.inl ⟨u, u', hu, hu', hV, hV'⟩
    · exact absurd (LawfulVoteTrie.card_le hV) (Nat.not_le_of_lt hV')
  · rcases LawfulVoteTrie.insert votes ha h' hl with ⟨u', -, hV'⟩ | ⟨fault', hfault', rfl, -⟩
    · exact absurd (LawfulVoteTrie.card_le hV') (Nat.not_le_of_lt hV)
    · exact Or.inr ⟨_, hfault, hfault'⟩

namespace Register

variable {r : Register T} {s : Register T'} {node : Nat} {l : Ledger} {v : Validation}
  (ha : a.Sound)

namespace Agree

variable (h : r.Agree a s)

include h

theorem timing : s.timing = r.timing := by
  obtain ⟨-, -, t, rfl, -⟩ := h
  rfl

theorem awaited : s.awaited = r.awaited := by
  obtain ⟨-, -, t, rfl, -⟩ := h
  rfl

theorem entries (env : Surroundings) : s.entries env = r.entries env := by
  obtain ⟨-, -, t, rfl, -⟩ := h
  rfl

theorem insertCurrent (node : Nat) (v : Validation) :
    ({ r with current := r.current.insert node v } : Register T).Agree a
      { s with current := s.current.insert node v } := by
  obtain ⟨hdrawn, hr, t, rfl, ht⟩ := h
  exact ⟨hdrawn, hr, t, rfl, ht⟩

theorem tipSupport (ha : a.Sound) (hl : l ∈ a.ledgers) :
    VoteTrie.tipSupport r.trie l = pure (r.voters (· == l)).card := by
  rw [LawfulVoteTrie.tipSupport ha h.2.1 hl, count_ballots, voters]

end Agree

/-! ## Votes -/

section Votes

include ha

theorem vote_alike (h : r.Agree a s) (hl : l ∈ a.ledgers) :
    EndAlike (r.vote node l) (s.vote node l) (Agree a) := by
  obtain ⟨hdrawn, hr, t, rfl, ht⟩ := h
  have hballots := ballots_insert_eq_add r.votes node l
  have hinsert {u : T} {u' : T'} (hu : Holds a (ballots (r.votes.erase node)) u)
      (hu' : Holds a (ballots (r.votes.erase node)) u') :
      EndAlike
        (VoteTrie.insert u l 1 >>= fun trie =>
          pure (r.withVotes trie (r.votes.insert node l)))
        (VoteTrie.insert u' l 1 >>= fun trie =>
          pure ((r.withTrie t).withVotes trie (r.votes.insert node l)))
        (Agree a) := by
    refine (insert_alike 1 ha hu hu' hl).bind fun w w' hw => EndAlike.pure ⟨fun m hm => ?_, ?_, w',
      rfl, ?_⟩
    · rcases Multiset.mem_add.mp (hballots ▸ hm) with hm | hm
      · exact hdrawn m (mem_ballots_of_erase hm)
      · exact Multiset.eq_of_mem_replicate hm ▸ hl
    · exact hballots ▸ hw.1
    · exact hballots ▸ hw.2
  have hsame : (r.withTrie t).votes = r.votes := rfl
  cases hold : r.votes[node]? with
  | none =>
    simp only [vote, hsame, hold, pure_bind]
    have herase := erase_of_getElem? hold
    exact hinsert (herase.symm ▸ hr) (herase.symm ▸ ht)
  | some old =>
    have hmem := hdrawn old (mem_ballots.mpr ⟨node, hold⟩)
    obtain ⟨u, hwithdraw, hu⟩ := withdraw_ballot ha hr hold hmem
    obtain ⟨u', hwithdraw', hu'⟩ := withdraw_ballot ha ht hold hmem
    have hother : VoteTrie.withdraw (r.withTrie t).trie old 1 = pure (true, u') := hwithdraw'
    simp only [vote, hsame, hold, hwithdraw, hother, map_pure, pure_bind]
    exact hinsert hu hu'

theorem settleAt_alike (henv : env.Honest a) (h : r.Agree a s) (mark : Mark) :
    EndAlike (settleAt env r mark) (settleAt env s mark) (Agree a) := by
  obtain ⟨hdrawn, hr, t, rfl, ht⟩ := h
  have hsame : (r.withTrie t).awaited = r.awaited := rfl
  rw [settleAt.eq_def, settleAt.eq_def, hsame]
  cases hl : env.acquire mark.id with
  | none => exact EndAlike.pure ⟨hdrawn, hr, t, rfl, ht⟩
  | some l =>
    cases r.awaited[mark]? with
    | none => exact EndAlike.pure ⟨hdrawn, hr, t, rfl, ht⟩
    | some nodes =>
      exact EndAlike.foldlM ⟨hdrawn, hr, t, rfl, ht⟩ fun _ _ _ _ h =>
        vote_alike ha h (henv.drawn hl)

theorem settle_alike (henv : env.Honest a) (h : r.Agree a s) :
    EndAlike (r.settle env) (s.settle env) (Agree a) := by
  rw [settle, settle, h.awaited]
  exact EndAlike.foldlM h fun mark _ _ _ h => settleAt_alike ha henv h mark

theorem enroll_alike (henv : env.Honest a) (h : r.Agree a s) (v : Validation)
    (prior : Option Mark) :
    EndAlike (r.enroll env node v prior) (s.enroll env node v prior) (Agree a) := by
  have hstart {r : Register T} {s : Register T'} (h : r.Agree a s) :
      (r.startWaiting v.mark node).Agree a (s.startWaiting v.mark node) := by
    obtain ⟨hdrawn, hr, t, rfl, ht⟩ := h
    exact ⟨hdrawn, hr, t, rfl, ht⟩
  have hrelease : (r.release prior node).Agree a (s.release prior node) := by
    obtain ⟨hdrawn, hr, t, rfl, ht⟩ := h
    cases prior with
    | none => exact ⟨hdrawn, hr, t, rfl, ht⟩
    | some mark => exact ⟨hdrawn, hr, t, rfl, ht⟩
  rw [enroll_eq, enroll_eq]
  refine (settle_alike ha henv hrelease).bind fun r' s' h' => ?_
  rw [h'.awaited]
  split
  · exact EndAlike.pure (hstart h')
  · cases hl : env.acquire v.ledgerId with
    | none => exact EndAlike.pure (hstart h')
    | some l => exact vote_alike ha h' (henv.drawn hl)

theorem dismiss_alike (h : r.Agree a s) (v : Validation) :
    EndAlike (r.dismiss node v) (s.dismiss node v) (Agree a) := by
  obtain ⟨hdrawn, hr, t, rfl, ht⟩ := h
  have hsame : ((r.withTrie t).stopWaiting v.mark node).votes[node]? = r.votes[node]? := rfl
  rw [dismiss, dismiss]
  dsimp only
  rw [hsame, votes_stopWaiting]
  cases hl : r.votes[node]? with
  | none => exact EndAlike.pure ⟨hdrawn, hr, t, rfl, ht⟩
  | some l =>
    dsimp only
    split
    · have hmem := hdrawn l (mem_ballots.mpr ⟨node, hl⟩)
      obtain ⟨u, hwithdraw, hu⟩ := withdraw_ballot ha hr hl hmem
      obtain ⟨u', hwithdraw', hu'⟩ := withdraw_ballot ha ht hl hmem
      have hone : VoteTrie.withdraw (r.stopWaiting v.mark node).trie l 1 = pure (true, u) :=
        hwithdraw
      have hother : VoteTrie.withdraw ((r.withTrie t).stopWaiting v.mark node).trie l 1 =
          pure (true, u') := hwithdraw'
      rw [hone, hother, pure_bind, pure_bind]
      exact EndAlike.pure ⟨fun m hm => hdrawn m (mem_ballots_of_erase hm), hu, u', rfl, hu'⟩
    · exact EndAlike.pure ⟨hdrawn, hr, t, rfl, ht⟩

end Votes

/-! ## Sweeping and looking through the ledgers at hand -/

section Sweep

include ha

theorem sweep_alike (h : r.Agree a s) :
    EndAlike (r.sweep env) (s.sweep env) (Outcome.Agree a) := by
  rw [sweep, sweep, h.timing, h.entries]
  refine (EndAlike.liftM_self env.now).bind ?_
  rintro now _ rfl
  refine (EndAlike.liftM_self _).bind ?_
  rintro stale _ rfl
  refine EndAlike.bind (R := Agree a) (EndAlike.foldlM h fun entry _ r s h => ?_) fun r s h =>
    EndAlike.pure ⟨rfl, h, rfl⟩
  have herase : ({ r with current := r.current.erase entry.1 } : Register T).Agree a
      { s with current := s.current.erase entry.1 } := by
    obtain ⟨hdrawn, hr, t, rfl, ht⟩ := h
    exact ⟨hdrawn, hr, t, rfl, ht⟩
  exact dismiss_alike ha herase entry.2

theorem refresh_alike (henv : env.Honest a) (h : r.Agree a s) :
    EndAlike (r.refresh env) (s.refresh env) (Outcome.Agree a) := by
  rw [refresh, refresh]
  refine (sweep_alike ha h).bind fun o o' ho => ?_
  refine (settle_alike ha henv ho.register).bind fun r s h => ?_
  exact EndAlike.pure ⟨rfl, h, ho.retired⟩

end Sweep

/-! ## Requests that change the votes -/

section Change

include ha

theorem install_alike (henv : env.Honest a) (h : r.Agree a s) (v : Validation)
    (prior : Option Validation) :
    EndAlike (r.install env node v prior) (s.install env node v prior) (Outcome.Agree a) := by
  have hinsert := h.insertCurrent node v
  rw [install, install]
  split
  · exact (enroll_alike ha henv hinsert v _).bind fun _ _ h => EndAlike.pure ⟨rfl, h, rfl⟩
  · exact EndAlike.pure ⟨rfl, hinsert, rfl⟩

theorem receive_alike (henv : env.Honest a) (h : r.Agree a s) (v : Validation) :
    EndAlike (r.receive env node v) (s.receive env node v) (Outcome.Agree a) := by
  obtain ⟨hdrawn, hr, t, rfl, ht⟩ := h
  rw [receive, receive]
  refine (EndAlike.liftM_self env.now).bind ?_
  rintro now _ rfl
  refine (EndAlike.liftM_self (r.timing.isCurrent now v.signed v.seen)).bind ?_
  rintro current _ rfl
  cases current with
  | false => exact EndAlike.pure ⟨rfl, ⟨hdrawn, hr, t, rfl, ht⟩, rfl⟩
  | true =>
    refine (EndAlike.liftM_self (((r.track env node v).guards.getD node {}).advance
      (r.track env node v).timing env.steady v.seq)).bind ?_
    rintro ⟨rising, guard⟩ _ rfl
    cases rising with
    | false => exact EndAlike.pure ⟨rfl, ⟨hdrawn, hr, t, rfl, ht⟩, rfl⟩
    | true =>
      have hsame : (r.withTrie t).current = r.current := rfl
      have hfiled : ({ r.track env node v with
            guards := (r.track env node v).guards.insert node guard }.file env node v).Agree a
          ({ (r.withTrie t).track env node v with
            guards := ((r.withTrie t).track env node v).guards.insert node guard }.file
              env node v) := ⟨hdrawn, hr, t, rfl, ht⟩
      have hcurrent : ({ (r.withTrie t).track env node v with
            guards := ((r.withTrie t).track env node v).guards.insert node guard }.file
              env node v).current[node]? = r.current[node]? := rfl
      have hcurrent' : ({ r.track env node v with
            guards := (r.track env node v).guards.insert node guard }.file
              env node v).current[node]? = r.current[node]? := rfl
      simp only [if_true]
      rw [hcurrent, hcurrent']
      cases r.current[node]? with
      | none => exact install_alike ha henv hfiled v none
      | some old =>
        dsimp only
        split
        · exact install_alike ha henv hfiled v (some old)
        · exact EndAlike.pure ⟨rfl, hfiled, rfl⟩

theorem changeTrustIn_alike (henv : env.Honest a) (added removed : NodeSet) (h : r.Agree a s)
    (entry : Nat × Validation) :
    EndAlike (changeTrustIn env added removed r entry) (changeTrustIn env added removed s entry)
      (Agree a) := by
  have hinsert := h.insertCurrent entry.1 (restamp added removed entry.1 entry.2)
  rw [changeTrustIn, changeTrustIn]
  cases trustAfter added removed entry.1 with
  | none => exact EndAlike.pure h
  | some trusted =>
    cases trusted with
    | true => exact enroll_alike ha henv hinsert _ none
    | false => exact dismiss_alike ha hinsert _

theorem changeTrust_alike (henv : env.Honest a) (added removed : NodeSet) (h : r.Agree a s) :
    EndAlike (r.changeTrust env added removed) (s.changeTrust env added removed)
      (Outcome.Agree a) := by
  rw [changeTrust, changeTrust, h.entries]
  refine EndAlike.bind (R := Agree a)
    (EndAlike.foldlM h fun entry _ _ _ h => changeTrustIn_alike ha henv added removed h entry) ?_
  rintro r _ ⟨hdrawn, hr, t, rfl, ht⟩
  exact EndAlike.pure ⟨rfl, ⟨hdrawn, hr, t, rfl, ht⟩, rfl⟩

end Change

/-! ## Questions -/

section Questions

include ha

omit [VoteTrie T] [LawfulVoteTrie T] [VoteTrie T'] [LawfulVoteTrie T'] in
/-- The choice depends on the sequence number and the identifier of the tip alone. -/
theorem choose_eq {tip other : Tip} (h : tip.Drawn a) (h' : other.Drawn a)
    (hseq : other.seq = tip.seq) (hid : other.id = tip.id) (curr : Ledger) :
    choose curr other = choose curr tip := by
  have hmark : other.mark = tip.mark := by rw [Tip.mark, Tip.mark, hseq, hid]
  rw [choose, choose, hseq, hid, hmark]
  split
  · rename_i hparent
    rw [h.ancestor_eq ha h' hseq hid (by omega)]
  · rfl

theorem preferred_alike (henv : env.Honest a) (h : r.Agree a s) (curr : Ledger) :
    EndAlike (r.preferred env curr) (s.preferred env curr) (Outcome.Agree a) := by
  rw [preferred, preferred]
  refine (refresh_alike ha henv h).bind fun o o' ho => ?_
  obtain ⟨-, ⟨hdrawn, hr, t, hs, ht⟩, hretired⟩ := ho
  dsimp only
  rw [hs]
  obtain ⟨answer, hanswer, hnone, htip⟩ :=
    LawfulVoteTrie.preferred o.register.own.largest ha hr
  obtain ⟨answer', hanswer', hnone', htip'⟩ :=
    LawfulVoteTrie.preferred o.register.own.largest ha ht
  have hother : VoteTrie.preferred (o.register.withTrie t).trie
      (o.register.withTrie t).own.largest = pure answer' := hanswer'
  rw [hanswer, hother, pure_bind, pure_bind]
  have hagree : o.register.Agree a (o.register.withTrie t) := ⟨hdrawn, hr, t, rfl, ht⟩
  cases answer with
  | none =>
    obtain rfl := hnone'.mpr (hnone.mp rfl)
    exact EndAlike.pure ⟨rfl, hagree, hretired⟩
  | some tip =>
    cases answer' with
    | none =>
      have := hnone.mpr (hnone'.mp rfl)
      cases this
    | some tip' =>
      obtain ⟨hbacked, hstands⟩ := htip tip rfl
      obtain ⟨hbacked', hstands'⟩ := htip' tip' rfl
      dsimp only
      rw [choose_eq ha hbacked hbacked' (hstands'.seq.trans hstands.seq.symm)
        (hstands'.id.trans hstands.id.symm)]
      refine (EndAlike.liftM_self (choose curr tip)).bind ?_
      rintro mark _ rfl
      exact EndAlike.pure ⟨rfl, hagree, hretired⟩

theorem nodesAfter_alike (henv : env.Honest a) (h : r.Agree a s) {l : Ledger}
    (hl : l ∈ a.ledgers) (id : Nat) :
    EndAlike (r.nodesAfter env l id) (s.nodesAfter env l id) (Outcome.Agree a) := by
  rw [nodesAfter, nodesAfter]
  split
  · refine (refresh_alike ha henv h).bind fun o o' ho => ?_
    obtain ⟨-, ⟨hdrawn, hr, t, hs, ht⟩, hretired⟩ := ho
    rw [hs]
    have hbranch : VoteTrie.branchSupport (o.register.withTrie t).trie l =
        VoteTrie.branchSupport o.register.trie l :=
      (LawfulVoteTrie.branchSupport ha ht hl).trans (LawfulVoteTrie.branchSupport ha hr hl).symm
    have htip : VoteTrie.tipSupport (o.register.withTrie t).trie l =
        VoteTrie.tipSupport o.register.trie l :=
      (LawfulVoteTrie.tipSupport ha ht hl).trans (LawfulVoteTrie.tipSupport ha hr hl).symm
    rw [hbranch, htip, LawfulVoteTrie.branchSupport ha hr hl, LawfulVoteTrie.tipSupport ha hr hl]
    simp only [pure_bind]
    refine (EndAlike.liftM_self (debit _ _)).bind ?_
    rintro count _ rfl
    exact EndAlike.pure ⟨rfl, ⟨hdrawn, hr, t, rfl, ht⟩, hretired⟩
  · obtain ⟨hdrawn, hr, t, rfl, ht⟩ := h
    exact EndAlike.pure ⟨rfl, ⟨hdrawn, hr, t, rfl, ht⟩, rfl⟩

theorem laggards_alike (h : r.Agree a s) (seq : Nat) (keys : Std.ExtTreeSet Key) :
    EndAlike (r.laggards env seq keys) (s.laggards env seq keys) (Outcome.Agree a) := by
  rw [laggards, laggards, h.timing]
  refine (EndAlike.liftM_self env.now).bind ?_
  rintro now _ rfl
  refine (sweep_alike ha h).bind fun o o' ho => ?_
  dsimp only
  rw [ho.register.entries]
  refine (EndAlike.liftM_self _).bind ?_
  rintro sorted _ rfl
  exact EndAlike.pure ⟨rfl, ho.register, ho.retired⟩

end Questions

/-! ## Requests that leave the votes alone -/

omit [VoteTrie T] [LawfulVoteTrie T] [VoteTrie T'] [LawfulVoteTrie T'] in
theorem touchKept_withTrie (r : Register T) (trie : T') (env : Surroundings) :
    (r.withTrie trie).touchKept env = (·.withTrie trie) <$> r.touchKept env := by
  have hkept : (r.withTrie trie).kept = r.kept := rfl
  have hrefresh : (r.withTrie trie).keepRefresh = r.keepRefresh := rfl
  have htiming : (r.withTrie trie).timing = r.timing := rfl
  rw [touchKept, touchKept, hkept, hrefresh, htiming]
  cases hrange : r.kept with
  | none => rfl
  | some range =>
    dsimp only
    split
    · rcases env.steady.add_cases r.timing.expiry with ⟨limit, hlimit⟩ | hfault
      · rw [hlimit]
        dsimp only [bind, Except.bind]
        rcases limit.sub_cases r.timing.freshness with ⟨next, hnext⟩ | hfault
        · rw [hnext]
          rfl
        · rw [hfault]
          rfl
      · rw [hfault]
        rfl
    · rfl

theorem expire_alike (h : r.Agree a s) :
    EndAlike (liftM (r.expire env)) (liftM (s.expire env)) (Outcome.Agree a) := by
  obtain ⟨hdrawn, hr, t, rfl, ht⟩ := h
  rw [expire, expire, touchKept_withTrie]
  rcases r.touchKept_cases env with ⟨u, hu, hsame⟩ | ⟨fault, -, hfault⟩
  · rw [hu]
    have hholds : Holds a (ballots u.votes) u.trie ∧ Holds a (ballots u.votes) t ∧
        ∀ l ∈ ballots u.votes, l ∈ a.ledgers := by
      rw [hsame.votes, hsame.trie]
      exact ⟨hr, ht, hdrawn⟩
    exact EndAlike.pure ⟨rfl, ⟨hholds.2.2, hholds.1, t, rfl, hholds.2.1⟩, rfl⟩
  · rw [hfault]
    exact EndAlike.throw fault

theorem keep_alike (h : r.Agree a s) (low high : Nat) :
    EndAlike (liftM (r.keep low high)) (liftM (s.keep low high)) (Outcome.Agree a) := by
  obtain ⟨hdrawn, hr, t, rfl, ht⟩ := h
  rw [keep, keep]
  split
  · exact EndAlike.pure ⟨rfl, ⟨hdrawn, hr, t, rfl, ht⟩, rfl⟩
  · exact EndAlike.throw _

theorem mayValidate_alike (h : r.Agree a s) (seq : Nat) :
    EndAlike (liftM (r.mayValidate env seq)) (liftM (s.mayValidate env seq))
      (Outcome.Agree a) := by
  obtain ⟨hdrawn, hr, t, rfl, ht⟩ := h
  have hsame : (r.withTrie t).own.advance (r.withTrie t).timing env.steady seq =
      r.own.advance r.timing env.steady seq := rfl
  rw [mayValidate, mayValidate, hsame]
  rcases r.own.advance_cases r.timing env.steady seq with ⟨answer, hanswer⟩ | hfault
  · rw [hanswer]
    exact EndAlike.pure ⟨rfl, ⟨hdrawn, hr, t, rfl, ht⟩, rfl⟩
  · rw [hfault]
    exact EndAlike.throw _

/-! ## Runs -/

section Runs

include ha

/-- Two registers that agree answer a request alike and agree afterwards. -/
theorem step_alike (henv : env.Honest a) {nodes : Set Nat} {request : Request}
    (hrequest : request.Apt a nodes) (h : r.Agree a s) :
    EndAlike (r.step env request) (s.step env request) (Outcome.Agree a) := by
  have hpure {o : Outcome T Reply} {o' : Outcome T' Reply} (ho : o.Agree a o') :
      EndAlike (pure o) (pure o') (Outcome.Agree a) := EndAlike.pure ho
  cases request with
  | receive node v => exact (receive_alike ha henv h v).map fun _ _ ho => ho.map _
  | mayValidate seq => exact (mayValidate_alike h seq).map fun _ _ ho => ho.map _
  | keep low high => exact (keep_alike h low high).map fun _ _ ho => ho.map _
  | expire => exact (expire_alike h).map fun _ _ ho => ho.map _
  | changeTrust added removed =>
    exact (changeTrust_alike ha henv added removed h).map fun _ _ ho => ho.map _
  | preferred curr => exact (preferred_alike ha henv h curr).map fun _ _ ho => ho.map _
  | preferredId curr least =>
    refine EndAlike.map (R := Outcome.Agree a)
      ((preferred_alike ha henv h curr).bind fun o o' ho => ?_) fun _ _ ho => ho.map _
    exact EndAlike.pure ⟨by dsimp only; rw [ho.answer], ho.register, ho.retired⟩
  | preferredClosed closed least counts =>
    refine EndAlike.map (R := Outcome.Agree a)
      ((preferred_alike ha henv h closed).bind fun o o' ho => ?_) fun _ _ ho => ho.map _
    exact EndAlike.pure ⟨by dsimp only; rw [ho.answer], ho.register, ho.retired⟩
  | nodesAfter l id =>
    exact (nodesAfter_alike ha henv h hrequest id).map fun _ _ ho => ho.map _
  | currentTrusted | currentNodes =>
    refine EndAlike.map (R := Outcome.Agree a)
      ((sweep_alike ha h).bind fun o o' ho => ?_) fun _ _ ho => ho.map _
    obtain ⟨-, ⟨hdrawn, hr, t, hs, ht⟩, hretired⟩ := ho
    exact EndAlike.pure ⟨by dsimp only; rw [hs]; rfl, ⟨hdrawn, hr, t, hs, ht⟩, hretired⟩
  | countTrusted id | trustedFor id seq | fees id base | flush =>
    obtain ⟨hdrawn, hr, t, rfl, ht⟩ := h
    exact hpure ⟨rfl, ⟨hdrawn, hr, t, rfl, ht⟩, rfl⟩
  | laggards seq keys => exact (laggards_alike ha h seq keys).map fun _ _ ho => ho.map _

theorem after_alike {nodes : Set Nat} {requests : List (Surroundings × Request)}
    (hrequests : Orderly a nodes requests) (h : r.Agree a s) :
    EndAlike (r.after requests) (s.after requests) (Agree a) :=
  EndAlike.foldlM h fun request hmem _ _ h =>
    (step_alike ha (hrequests request hmem).1 (hrequests request hmem).2 h).map
      fun _ _ ho => ho.register

/-- Two registers that agree answer every run of requests alike. -/
theorem run_alike {nodes : Set Nat} {requests : List (Surroundings × Request)}
    (hrequests : Orderly a nodes requests) (h : r.Agree a s) :
    EndAlike (r.run requests) (s.run requests) (List.Forall₂ (Outcome.Agree a)) := by
  induction requests generalizing r s with
  | nil => exact EndAlike.pure .nil
  | cons first rest ih =>
    obtain ⟨env, request⟩ := first
    obtain ⟨henv, hrequest⟩ := hrequests _ List.mem_cons_self
    rw [run, run]
    refine (step_alike ha henv hrequest h).bind fun o o' ho => ?_
    refine (ih (fun q hq => hrequests q (List.mem_cons_of_mem _ hq)) ho.register).bind ?_
    exact fun later later' hlater => EndAlike.pure (.cons ho hlater)

theorem empty_agree (timing : Timing) :
    (empty timing : Register T).Agree a (empty timing : Register T') := by
  have hnone : ballots (empty timing : Register T).votes = 0 := ballots_empty
  refine ⟨fun l hl => ?_, ?_, VoteTrie.empty, rfl, ?_⟩
  · rw [hnone] at hl
    exact absurd hl (Multiset.notMem_zero l)
  · exact hnone ▸ LawfulVoteTrie.empty ha
  · exact hnone ▸ LawfulVoteTrie.empty ha

end Runs

end Register

/-! ## Runs on a fork

A run over the trie as a tree can be followed by computation, and the register over an arena agrees
with it. -/

namespace Fork

def early : Time := ⟨1000 * nanosPerSecond, by decide, by decide⟩

def soon : Time := ⟨1001 * nanosPerSecond, by decide, by decide⟩

/-- A time at which what was signed early or soon is stale. -/
def late : Time := ⟨1601 * nanosPerSecond, by decide, by decide⟩

/-- The validation of a ledger that a trusted node signs at a time. -/
def word (node : Nat) (l : Ledger) (signed : Time) : Validation where
  ledgerId := l.id
  seq := l.seq
  signed := signed
  seen := signed
  key := ⟨node, 0⟩
  node := node
  fee := none
  full := true
  trusted := true
  cookie := 0

/-- The world at a time when some ledgers of the archive are at hand. -/
def world (now : Time) (ids : List Nat) : Surroundings where
  now := .ok now
  steady := now
  acquire id := if ids.contains id then archive.lookup id else none

theorem honest (now : Time) (ids : List Nat) : (world now ids).Honest archive where
  drawn {id l} h := by
    dsimp only [world] at h
    split at h
    · exact List.mem_of_getElem? h
    · cases h
  id_eq {id l} h := by
    dsimp only [world] at h
    split at h
    · exact archive_reachable.sound.id_eq h
    · cases h
  clock fault h := by cases h

/-- A request at a time when some ledgers of the archive are at hand. -/
abbrev Line := Time × List Nat × Request

/-- Requests, each in a world of its own. -/
def script (lines : List Line) : List (Surroundings × Request) :=
  lines.map fun line => (world line.1 line.2.1, line.2.2)

theorem orderly_script {nodes : Set Nat} (lines : List Line)
    (h : ∀ line ∈ lines, line.2.2.Apt archive nodes) :
    Register.Orderly archive nodes (script lines) := by
  intro request hmem
  obtain ⟨line, hline, rfl⟩ := List.mem_map.mp hmem
  exact ⟨honest _ _, h line hline⟩

variable {Slot : Type} [DecidableEq Slot] (A : Slots Slot (Cell Slot))

open Register in
/-- What is found by following a script over a tree, and then one more request, is so over an
arena. -/
theorem exists_step (lines : List Line) (line : Line)
    (test : Register Trie → Outcome Trie Reply → Bool)
    (hlines : ∀ line ∈ lines, line.2.2.Apt archive Set.univ)
    (hline : line.2.2.Apt archive Set.univ)
    (h : yields (do
      let s ← (empty {} : Register Trie).after (script lines)
      let o ← s.step (world line.1 line.2.1) line.2.2
      return (s, o)) fun found => test found.1 found.2) :
    ∃ (r : Register (ArenaTrie A)) (o : Outcome (ArenaTrie A) Reply) (s : Register Trie)
      (o' : Outcome Trie Reply), (empty {} : Register (ArenaTrie A)).after (script lines) = pure r ∧
        r.step (world line.1 line.2.1) line.2.2 = pure o ∧ r.Agree archive s ∧
        o.Agree archive o' ∧ test s o' = true := by
  obtain ⟨⟨s, o'⟩, hs, htest⟩ := exists_of_yields h
  have hempty : (empty {} : Register (ArenaTrie A)).Agree archive (empty {} : Register Trie) :=
    empty_agree archive_reachable.sound {}
  rcases after_alike archive_reachable.sound (orderly_script lines hlines) hempty with ⟨r, s', hr, hs', hagree⟩ | ⟨fault, -, hfault⟩
  · have hstep := step_alike archive_reachable.sound (honest line.1 line.2.1) hline hagree
    rw [hs', pure_bind] at hs
    rcases hstep with ⟨o, o'', ho, ho'', hoagree⟩ | ⟨fault, -, hfault⟩
    · rw [ho'', pure_bind] at hs
      cases pure_inj hs
      exact ⟨r, o, s, o', hr, ho, hagree, hoagree, htest⟩
    · rw [hfault] at hs
      exact absurd hs.symm (pure_ne_throw _ fault)
  · rw [hfault] at hs
    exact absurd hs.symm (pure_ne_throw _ fault)

open Register in
/-- What is found by following a script over a tree is so over an arena. -/
theorem exists_after (lines : List Line) (test : Register Trie → Bool)
    (hlines : ∀ line ∈ lines, line.2.2.Apt archive Set.univ)
    (h : yields ((empty {} : Register Trie).after (script lines)) test) :
    ∃ (r : Register (ArenaTrie A)) (s : Register Trie),
      (empty {} : Register (ArenaTrie A)).after (script lines) = pure r ∧ r.Agree archive s ∧
        test s = true := by
  obtain ⟨s, hs, htest⟩ := exists_of_yields h
  obtain ⟨r, hr, hagree⟩ := (after_alike archive_reachable.sound (orderly_script lines hlines)
    (empty_agree (T := ArenaTrie A) archive_reachable.sound {})).result hs
  exact ⟨r, s, hr, hagree, htest⟩

end Fork

end ForkChoice

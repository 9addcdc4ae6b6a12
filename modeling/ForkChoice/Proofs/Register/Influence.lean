import ForkChoice.Proofs.Register.Shadow

/-!
# What has no influence

Nodes that are never trusted have no influence on the choice of a ledger: a run without what they said
gives the same answers wherever these do not tell of untrusted nodes. A validation that is refused has
no influence either: from then on the register answers as if it had not come.

* `Register.history_ignores`: a run and the one without what untrusted nodes said.
* `SequenceGuard.SameFrom`: guards that let the same pass from a time on.
* `Register.refusal_traceless`: a register and the one without a refused validation.
-/

namespace ForkChoice

variable {T : Type}

namespace Register

variable {U : Set Nat} [DecidablePred (· ∈ U)] {G : SequenceGuard → SequenceGuard → Prop}
  {r s t : Register T} {env : Surroundings} {node : Nat} {v : Validation} {timing : Timing}

/-! ## Untrusted nodes -/

theorem shadow_empty [VoteTrie T] (U : Set Nat) [DecidablePred (· ∈ U)] (timing : Timing) :
    Shadow U Eq (empty timing : Register T) (empty timing) where
  same := ⟨_, _, _, _, rfl⟩
  current := by
    refine Std.ExtTreeMap.ext_getElem? fun n => ?_
    rw [getElem?_without]
    simp [empty]
  guards _ _ := rfl
  byLedger _ := rfl
  awaited _ _ mark hmark := by simp [empty] at hmark
  silent n _ := by
    refine ⟨by simp [empty], ?_⟩
    rintro mark ⟨nodes, hnodes, -⟩
    simp [empty] at hnodes
  untrusted n _ w hw := by simp [empty] at hw

variable [VoteTrie T]

/-- In any run in which some nodes are not trusted, neither on receipt nor later, nothing that they say
matters: without it all requests for the ledger to work on, for the voters after a ledger, for what
counts and for leave to validate are answered the same, and so is what other nodes say, but for the
reason of a refusal.

Both runs go through their tables in the same order, for the order alone can make a difference: of
several ledgers at hand for which a node waits, it votes for the one that comes up last. As long as no
node waits for several, the order is no matter to the votes and waits after a receipt, which is what
`SameWorld` allows for. -/
theorem history_ignores {es : List (Event T)} (h : History (empty timing) es r)
    (hes : ∀ e ∈ es, e.request.Distrusts U) :
    ∃ es' s, History (empty timing) es' s ∧
      List.Forall₂ (Event.Echoes U) (es.filter fun e => !e.request.isFrom U) es' := by
  obtain ⟨es', s, hhistory, -, hechoes⟩ :=
    h.shadowed (shadow_empty U timing) (fun _ _ => tolerant_eq _ _) hes
  exact ⟨es', s, hhistory, hechoes⟩

/-- A node that is not trusted validates the right side twice, and one that is trusted the left side. -/
def chatter : List Fork.Line :=
  [(Fork.early, [3], .receive 3 { Fork.word 3 Fork.right Fork.early with trusted := false }),
    (Fork.early, [3], .preferred Fork.trunk),
    (Fork.early, [3], .receive 3 { Fork.word 3 Fork.right Fork.early with trusted := false }),
    (Fork.soon, [2, 3], .receive 1 (Fork.word 1 Fork.left Fork.soon)),
    (Fork.soon, [2, 3], .nodesAfter Fork.left 1)]

/-- The run without the untrusted node gives the same answers to the other three requests. -/
theorem history_ignores_fork :
    ∃ (outcomes : List (Outcome (ArenaTrie (Slots.numbered (Cell Nat))) Reply))
      (r s : Register (ArenaTrie (Slots.numbered (Cell Nat))))
      (es : List (Event (ArenaTrie (Slots.numbered (Cell Nat))))),
      History (empty {}) (events (Fork.script chatter) outcomes) r ∧
        outcomes.map (·.answer) =
          [.verdict .current, .choice none, .verdict .badSeq, .verdict .current, .count 1] ∧
        es.length = 3 ∧ History (empty {}) es s ∧
        List.Forall₂ (Event.Echoes {3})
          ((events (Fork.script chatter) outcomes).filter fun e => !e.request.isFrom {3}) es := by
  obtain ⟨outcomes, r, hr, hanswers, -⟩ := Fork.exists_history (Slots.numbered (Cell Nat)) chatter
    [.verdict .current, .choice none, .verdict .badSeq, .verdict .current, .count 1] (fun _ => true)
    (by simp [chatter, Request.Apt]; decide) (by decide +kernel)
  have hdistrusts : ∀ q ∈ Fork.script chatter, q.2.Distrusts {3} := by
    simp [Fork.script, chatter, Request.Distrusts]
  obtain ⟨es, s, hs, hechoes⟩ := history_ignores (U := {3}) hr
    fun e he => hdistrusts _ (mem_events he)
  refine ⟨outcomes, r, s, es, hr, hanswers, ?_, hs, hechoes⟩
  rw [← hechoes.length_eq]
  simp only [List.map_eq_cons_iff, List.map_eq_nil_iff] at hanswers
  obtain ⟨o₁, _, rfl, -, o₂, _, rfl, -, o₃, _, rfl, -, o₄, _, rfl, -, o₅, _, rfl, -, rfl⟩ := hanswers
  rfl

end Register

/-! ## Refused validations -/

namespace SequenceGuard

variable {timing : Timing} {now later : Time} {seq : Nat} {g h : SequenceGuard}

/-- Two guards let the same pass from a time on: they are the same, or have both expired by then. -/
def SameFrom (timing : Timing) (now : Time) (g h : SequenceGuard) : Prop :=
  h = g ∨ h.since = g.since ∧ timing.Expired g.since now

theorem SameFrom.symm (hgh : SameFrom timing now g h) : SameFrom timing now h g := by
  rcases hgh with rfl | ⟨hsince, hexpired⟩
  · exact Or.inl rfl
  · exact Or.inr ⟨hsince.symm, hsince ▸ hexpired⟩

/-- What has expired does not matter. -/
theorem advance_eq_of_expired (hsince : h.since = g.since) (hexpired : timing.Expired g.since now)
    (seq : Nat) : h.advance timing now seq = g.advance timing now seq := by
  obtain ⟨largest, since⟩ := h
  obtain rfl : since = g.since := hsince
  unfold advance
  rcases g.since.add_cases timing.expiry with ⟨limit, hlimit⟩ | hfault
  · have hlt : limit < now := by
      rw [Time.lt_iff, Time.add_eq_ok.mp hlimit]
      exact hexpired
    simp only [hlimit, bind, Except.bind, if_pos hlt]
  · simp only [hfault, bind, Except.bind]

theorem tolerant_sameFrom (hle : now ≤ later) : Tolerant (SameFrom timing now) timing later := by
  intro g h seq answer hgh hadvance
  rcases hgh with rfl | ⟨hsince, hexpired⟩
  · exact ⟨_, hadvance, Or.inl rfl⟩
  · exact ⟨_, (advance_eq_of_expired hsince (hexpired.later hle) seq).trans hadvance, Or.inl rfl⟩

/-- A guard that refuses forgets no more than has expired. -/
theorem sameFrom_of_refused (hadvance : g.advance timing now seq = .ok (false, h)) :
    SameFrom timing now g h := by
  cases advance_spec hadvance with
  | held => exact Or.inl rfl
  | forgot hexpired => exact Or.inr ⟨rfl, hexpired⟩

end SequenceGuard

namespace Register

open SequenceGuard

variable {r s t : Register T} {env : Surroundings} {node : Nat} {v : Validation} {now : Time}

/-- Registers that differ in what is tracked and in guards alone. -/
theorem shadow_of_guards {G : SequenceGuard → SequenceGuard → Prop}
    (hsame : ∃ guards bySeq, s = { r with guards, bySeq })
    (hguards : ∀ n, G (r.guards.getD n {}) (s.guards.getD n {})) : Shadow ∅ G r s := by
  obtain ⟨_, _, rfl⟩ := hsame
  exact ⟨⟨_, _, _, _, rfl⟩, (without_empty rfl _).symm, fun n _ => hguards n, fun _ => rfl,
    fun n hn => absurd hn (Set.notMem_empty n), fun n hn => absurd hn (Set.notMem_empty n),
    fun n hn => absurd hn (Set.notMem_empty n)⟩

theorem Shadow.guards_alone {G : SequenceGuard → SequenceGuard → Prop} (h : Shadow ∅ G r s) :
    ∃ guards bySeq, s = { r with guards, bySeq } := by
  have hcurrent := h.current
  have hbyLedger := h.byLedger rfl
  rw [without_empty rfl] at hcurrent
  obtain ⟨_, _, _, _, rfl⟩ := h.same
  exact ⟨_, _, by rw [← show _ = r.current from hcurrent, ← show _ = r.byLedger from hbyLedger]⟩

variable [VoteTrie T]

/-- From a time on one register goes on as another one does: the same requests are carried out with like
answers, and the registers differ in what is tracked and in guards alone. -/
def GoesOnAs (now : Time) (r s : Register T) : Prop :=
  ∀ es t, History s es t → (∀ e ∈ es, now ≤ e.time) →
    ∃ es' t', History r es' t' ∧ List.Forall₂ (Event.Echoes ∅) es es' ∧
      ∃ guards bySeq, t' = { t with guards, bySeq }

theorem Shadow.goesOnAs (h : Shadow ∅ (SameFrom r.timing now) r s) : GoesOnAs now s r := by
  intro es t hhistory hclock
  have hdistrusts (request : Request) : request.Distrusts ∅ := by
    cases request with
    | receive node v => exact fun hnode => absurd hnode (Set.notMem_empty node)
    | changeTrust added removed => exact fun n hn => absurd hn (Set.notMem_empty n)
    | _ => trivial
  have hfrom (request : Request) : request.isFrom ∅ = false := by
    cases request with
    | receive node v => exact decide_eq_false (Set.notMem_empty node)
    | _ => rfl
  obtain ⟨es', t', hhistory', hshadow, hechoes⟩ := hhistory.shadowed h
    (fun e he => tolerant_sameFrom (hclock e he)) fun e _ => hdistrusts e.request
  refine ⟨es', t', hhistory', ?_, hshadow.guards_alone⟩
  rwa [List.filter_eq_self.mpr fun e _ => by rw [hfrom, Bool.not_false]] at hechoes

/-- A refusal looks at nothing but the clocks. -/
theorem receive_of_refused {env' : Surroundings} {guard : SequenceGuard}
    (hstage : r.assess env node v = .ok (.refused guard)) (hnow : env'.now = env.now)
    (hsteady : env'.steady = env.steady) : r.receive env' node v =
      pure (r.outcome node v (.refused guard) ((r.track env node v).withGuard node guard)) := by
  have hstage' : r.assess env' node v = .ok (.refused guard) := by
    rw [assess, hnow, hsteady]
    exact hstage
  have htrack : r.track env' node v = r.track env node v := by rw [track, track, hsteady]
  rw [receive_of_assess hstage', ← htrack]
  rfl

/-- A validation that is refused, for whatever reason, leaves no trace: nothing is changed but what is
tracked and the guard of its node, nothing is handed over and no ledger is asked for, and from then on
the register goes on as the one that it did not come to, and that one as the register. What is stale on
arrival changes nothing at all. -/
theorem refusal_traceless {o : Outcome T Reply} (hstep : r.step env (.receive node v) = pure o) :
    (∀ verdict : Verdict, o.answer = .verdict verdict → verdict.Refusal →
      (∃ guards bySeq, o.register = { r with guards, bySeq }) ∧ o.retired = [] ∧
      (∀ env' : Surroundings, env'.now = env.now → env'.steady = env.steady →
        r.step env' (.receive node v) = pure o) ∧
      GoesOnAs env.steady r o.register ∧ GoesOnAs env.steady o.register r) ∧
    ∀ now, env.now = .ok now → r.timing.isCurrent now v.signed v.seen = .ok false →
      o = ⟨.verdict .stale, r, []⟩ := by
  obtain ⟨stage, s, hstage, hadopt, rfl⟩ := step_receive.mp hstep
  refine ⟨fun verdict hanswer hrefusal => ?_, fun now hnow hstale => ?_⟩
  · obtain rfl := Reply.verdict.inj hanswer
    cases stage with
    | ignored | late | installed =>
      rcases hrefusal with h | h | h
      all_goals cases h
    | refused guard =>
      obtain rfl := pure_inj hadopt
      have hguards (n : Nat) : SameFrom r.timing env.steady (r.guards.getD n {})
          (((r.track env node v).withGuard node guard).guards.getD n {}) := by
        simp only [withGuard, track, Std.ExtTreeMap.getD_insert]
        split
        · rename_i hn
          obtain rfl := Nat.compare_eq_eq.mp hn
          cases assess_eq_ok.mp hstage with
          | refused _ _ hadvanced => exact sameFrom_of_refused hadvanced
        · exact Or.inl rfl
      refine ⟨⟨_, _, rfl⟩, rfl, fun env' hnow hsteady => ?_, Shadow.goesOnAs ?_, Shadow.goesOnAs ?_⟩
      · exact congrArg (Functor.map (Outcome.map Reply.verdict)) (receive_of_refused hstage hnow hsteady)
      · exact shadow_of_guards ⟨_, _, rfl⟩ fun n => (hguards n).symm
      · exact shadow_of_guards ⟨_, _, rfl⟩ hguards
  · have hignored : r.assess env node v = .ok .ignored :=
      assess_eq_ok.mpr (.ignored hnow hstale)
    obtain rfl := Except.ok.inj (hstage.symm.trans hignored)
    obtain rfl := pure_inj hadopt
    rfl

/-- A node validates the trunk, contradicts itself and goes on to the left side. -/
def stumble : List Fork.Line :=
  [(Fork.early, [], .receive 1 (Fork.word 1 Fork.trunk Fork.early)),
    (Fork.soon, [], .receive 1 (Fork.word 1 Fork.trunk Fork.soon)),
    (Fork.soon, [], .receive 1 (Fork.word 1 Fork.left Fork.soon))]

/-- The contradiction is refused, and what comes after it is taken in with it as without it. -/
theorem refusal_traceless_fork :
    ∃ (r : Register (ArenaTrie (Slots.numbered (Cell Nat))))
      (o o' p : Outcome (ArenaTrie (Slots.numbered (Cell Nat))) Reply),
      r.step (Fork.world Fork.soon []) (.receive 1 (Fork.word 1 Fork.trunk Fork.soon)) = pure o ∧
        o.answer = .verdict .conflicting ∧ o.retired = [] ∧
        o.register.step (Fork.world Fork.soon [])
          (.receive 1 (Fork.word 1 Fork.left Fork.soon)) = pure o' ∧
        r.step (Fork.world Fork.soon []) (.receive 1 (Fork.word 1 Fork.left Fork.soon)) = pure p ∧
        o'.answer = .verdict .current ∧ p.answer = .verdict .current := by
  obtain ⟨outcomes, s, hs, hanswers, -⟩ := Fork.exists_history (Slots.numbered (Cell Nat)) stumble
    [.verdict .current, .verdict .conflicting, .verdict .current] (fun _ => true)
    (by simp [stumble, Request.Apt]) (by decide +kernel)
  simp only [List.map_eq_cons_iff, List.map_eq_nil_iff] at hanswers
  obtain ⟨o₁, _, rfl, -, o₂, _, rfl, hrefused, o₃, _, rfl, hanswer, rfl⟩ := hanswers
  obtain ⟨-, hrest⟩ := History.of_cons hs
  obtain ⟨hstep, hlast⟩ := History.of_cons hrest
  obtain ⟨-, hretired, -, hgoes, -⟩ := (refusal_traceless hstep).1 .conflicting hrefused
    (Or.inr (Or.inr rfl))
  obtain ⟨es, t, hhistory, hechoes, -⟩ := hgoes _ _ hlast fun e he =>
    List.mem_singleton.mp he ▸ Int.le_refl _
  obtain ⟨⟨env, request, p⟩, _, hecho, hnone, rfl⟩ := List.forall₂_cons_left_iff.mp hechoes
  obtain rfl := List.forall₂_nil_left_iff.mp hnone
  obtain ⟨hstep', -⟩ := History.of_cons hhistory
  obtain ⟨rfl, rfl, hlike, -⟩ := hecho
  obtain ⟨hcontinued, -⟩ := History.of_cons hlast
  refine ⟨_, _, _, p, hstep, hrefused, hretired, hcontinued, hstep', hanswer, ?_⟩
  rcases hlike (Or.inr rfl) with hsame | ⟨verdict, _, hverdict, -, hrefusal, -⟩
  · exact hsame.trans hanswer
  · -- what became current was not refused
    obtain rfl := Reply.verdict.inj (hanswer.symm.trans hverdict)
    rcases hrefusal with h | h | h
    all_goals cases h

end Register

end ForkChoice

import ForkChoice.Proofs.Register.Ballot
import ForkChoice.Proofs.Time

/-!
# What becomes of stale validations

A sweep turns out the current validations that are stale. With each goes the wait of its node for its
ledger, and the vote of its node if that is for its ledger; other votes and waits of the node stay.

* `Register.Fresh`, `Register.Stale`: how the current validation of a node stands at a time.
* `Register.Swept`: what becomes of a register that is swept.
* `Register.sweep_ends`, `Register.refresh_ends`: these computations keep a register sound, and end
  so.
-/

namespace ForkChoice

namespace Register

variable {T : Type} {a : Archive} {E : Fault → Prop} {nodes : Set Nat} {env : Surroundings}
  {r s : Register T} {node n : Nat} {v w : Validation} {now : Time}

/-- The current validation of a node is current at a time. -/
structure Fresh (r : Register T) (now : Time) (node : Nat) (v : Validation) : Prop where
  current : r.current[node]? = some v
  fresh : r.timing.isCurrent now v.signed v.seen = .ok true

/-- The current validation of a node is no longer current at a time. -/
structure Stale (r : Register T) (now : Time) (node : Nat) (v : Validation) : Prop where
  current : r.current[node]? = some v
  stale : r.timing.isCurrent now v.signed v.seen = .ok false

theorem Fresh.not_stale (h : r.Fresh now node v) : ¬ r.Stale now node w := by
  intro h'
  obtain rfl := Option.some.inj (h.current.symm.trans h'.current)
  have := h.fresh.symm.trans h'.stale
  cases this

/-- What becomes of a register when the validations of some entries are turned out. -/
structure Retired (entries : List (Nat × Validation)) (r s : Register T) : Prop where
  records : s.records = { r.records with current := s.current }
  current : ∀ n v, s.current[n]? = some v ↔ r.current[n]? = some v ∧ ∀ w, (n, w) ∉ entries
  waits : ∀ n m, s.Waits n m ↔ r.Waits n m ∧ ∀ w, (n, w) ∈ entries → m ≠ w.mark
  votes : ∀ n l, s.votes[n]? = some l ↔
    r.votes[n]? = some l ∧ ∀ w, (n, w) ∈ entries → l.id ≠ w.ledgerId

/-- What becomes of a register that is swept. Every current validation can be judged. -/
structure Swept (now : Time) (r s : Register T) : Prop where
  records : s.records = { r.records with current := s.current }
  judged : ∀ n v, r.current[n]? = some v → r.Fresh now n v ∨ r.Stale now n v
  current : ∀ n v, s.current[n]? = some v ↔ r.Fresh now n v
  waits : ∀ n m, s.Waits n m ↔ r.Waits n m ∧ ∀ v, r.Stale now n v → m ≠ v.mark
  votes : ∀ n l, s.votes[n]? = some l ↔
    r.votes[n]? = some l ∧ ∀ v, r.Stale now n v → l.id ≠ v.ledgerId

/-- What becomes of a register that is brought up to date: it is swept, and then the ledgers at hand
are looked through. -/
def Refreshed (env : Surroundings) (now : Time) (r s : Register T) : Prop :=
  ∃ swept, Swept now r swept ∧ Settled env swept s

theorem Retired.cons {entries : List (Nat × Validation)} {s' : Register T}
    (h : Retired [(node, v)] r s) (h' : Retired entries s s') :
    Retired ((node, v) :: entries) r s' := by
  refine ⟨?_, fun n w => ?_, fun n m => ?_, fun n l => ?_⟩
  · rw [h'.records, h.records]
  · rw [h'.current, h.current]
    simp only [List.mem_cons, List.not_mem_nil, or_false, not_or, forall_and]
    exact and_assoc
  · rw [h'.waits, h.waits]
    simp only [List.mem_cons, List.not_mem_nil, or_false, or_imp, forall_and]
    exact and_assoc
  · rw [h'.votes, h.votes]
    simp only [List.mem_cons, List.not_mem_nil, or_false, or_imp, forall_and]
    exact and_assoc

theorem staleAmong_cases (timing : Timing) (now : Time) (entries : List (Nat × Validation)) :
    (∃ stale, staleAmong timing now entries = .ok stale ∧
        (∀ e, e ∈ stale ↔ e ∈ entries ∧ timing.isCurrent now e.2.signed e.2.seen = .ok false) ∧
        ∀ e ∈ entries, ∃ b, timing.isCurrent now e.2.signed e.2.seen = .ok b) ∨
      staleAmong timing now entries = .error .timeOverflow := by
  induction entries with
  | nil => exact Or.inl ⟨[], rfl, by simp, by simp⟩
  | cons entry rest ih =>
    obtain ⟨n, v⟩ := entry
    rw [staleAmong]
    rcases timing.isCurrent_cases now v.signed v.seen with ⟨b, hb⟩ | hfault
    · rcases ih with ⟨stale, hstale, hmem, hjudged⟩ | hfault
      · refine Or.inl ⟨if b then stale else (n, v) :: stale, ?_, fun e => ?_, fun e he => ?_⟩
        · simp only [hb, hstale, bind, Except.bind]
        · cases b with
          | true =>
            rw [if_pos rfl, hmem, List.mem_cons]
            refine and_congr_left fun hfalse => ⟨Or.inr, fun h => h.resolve_left ?_⟩
            rintro rfl
            have := hb.symm.trans hfalse
            cases this
          | false =>
            rw [if_neg Bool.false_ne_true, List.mem_cons, List.mem_cons, hmem]
            constructor
            · rintro (rfl | h)
              · exact ⟨Or.inl rfl, hb⟩
              · exact ⟨Or.inr h.1, h.2⟩
            · rintro ⟨rfl | h, hfalse⟩
              · exact Or.inl rfl
              · exact Or.inr ⟨h, hfalse⟩
        · rcases List.mem_cons.mp he with rfl | he
          · exact ⟨b, hb⟩
          · exact hjudged e he
      · exact Or.inr (by simp only [hb, hfault, bind, Except.bind])
    · exact Or.inr (by simp only [hfault, bind, Except.bind])

/-- Whether a validation is stale at a time. -/
def lapsed (timing : Timing) (now : Time) (v : Validation) : Bool :=
  match timing.isCurrent now v.signed v.seen with
  | .ok current => !current
  | .error _ => false

/-- If every entry can be judged, those that are stale are found, in order. -/
theorem staleAmong_eq_ok {timing : Timing} {entries stale : List (Nat × Validation)} :
    staleAmong timing now entries = .ok stale ↔
      (∀ e ∈ entries, ∃ b, timing.isCurrent now e.2.signed e.2.seen = .ok b) ∧
        stale = entries.filter fun e => lapsed timing now e.2 := by
  induction entries generalizing stale with
  | nil => simp [staleAmong, eq_comm]
  | cons entry rest ih =>
    obtain ⟨n, v⟩ := entry
    rw [staleAmong, List.forall_mem_cons, List.filter_cons, lapsed]
    cases hv : timing.isCurrent now v.signed v.seen with
    | error fault => simp [bind, Except.bind]
    | ok current =>
      cases hrest : staleAmong timing now rest with
      | error fault =>
        have hnot : ¬ ∀ e ∈ rest, ∃ b, timing.isCurrent now e.2.signed e.2.seen = .ok b := by
          intro hjudged
          have := hrest.symm.trans (ih.mpr ⟨hjudged, rfl⟩)
          cases this
        exact iff_of_false (fun h => by cases h) fun h => hnot h.1.2
      | ok rest' =>
        obtain ⟨hjudged, rfl⟩ := ih.mp hrest
        simp only [bind, Except.bind, Except.ok.injEq, and_iff_right hjudged, exists_eq', true_and]
        cases current <;> simp [eq_comm]

variable [VoteTrie T] [LawfulVoteTrie T]

theorem retire_ends (ha : a.Sound) (h : r.Sound a nodes) (entry : Nat × Validation) :
    Ends E (retire r entry) fun s => s.Sound a nodes ∧ Retired [entry] r s := by
  obtain ⟨node, v⟩ := entry
  have herase : ({ r with current := r.current.erase node } : Register T).Sound a nodes :=
    ⟨h.holds, h.drawn, h.awaited, h.voting, h.waiting,
      fun n hn => h.current n (Std.ExtTreeMap.mem_of_mem_erase hn)⟩
  refine (dismiss_ends ha herase node v).imp ?_
  rintro s ⟨hs, hdismissed⟩
  have hcurrent : s.current = r.current.erase node := current_of_records hdismissed.records
  refine ⟨hs, hcurrent ▸ hdismissed.records, fun n w => ?_, fun n m => ?_, fun n l => ?_⟩
  · rw [hcurrent, Std.ExtTreeMap.getElem?_erase]
    by_cases hn : node = n
    · simp [hn]
    · simp [hn, Ne.symm hn]
  · rw [hdismissed.waits]
    simp [and_imp, Waits]
  · rw [hdismissed.votes]
    simp [and_imp]

theorem retireAll_end (ha : a.Sound) (entries : List (Nat × Validation)) (h : r.Sound a nodes) :
    Ends E (entries.foldlM retire r) fun s => s.Sound a nodes ∧ Retired entries r s := by
  induction entries generalizing r with
  | nil => exact Ends.pure ⟨h, rfl, by simp, by simp, by simp⟩
  | cons entry rest ih =>
    rw [List.foldlM_cons]
    refine (retire_ends ha h entry).bind ?_
    rintro s ⟨hs, hentry⟩
    exact (ih hs).imp fun s' hs' => ⟨hs'.1, hentry.cons hs'.2⟩

theorem sweep_ends (ha : a.Sound) (henv : env.Honest a) (hE : ∀ fault, fault.External → E fault)
    (h : r.Sound a nodes) :
    Ends E (r.sweep env) fun o => o.register.Sound a nodes ∧
      ∃ now, env.now = .ok now ∧ Swept now r o.register := by
  rw [sweep]
  refine Ends.bind (P := fun now => env.now = .ok now)
    (Ends.liftM (fun _ => id) fun fault hfault => hE _ (henv.clock fault hfault)) fun now hnow => ?_
  refine Ends.bind (P := fun stale => (∀ e, e ∈ stale ↔ e ∈ r.entries env ∧
      r.timing.isCurrent now e.2.signed e.2.seen = .ok false) ∧
      ∀ e ∈ r.entries env, ∃ b, r.timing.isCurrent now e.2.signed e.2.seen = .ok b) ?_ ?_
  · rcases staleAmong_cases r.timing now (r.entries env) with ⟨stale, hstale, hspec⟩ | hfault
    · rw [hstale]
      exact Ends.pure hspec
    · rw [hfault]
      exact Ends.throw (hE _ .timeOverflow)
  · rintro stale ⟨hstale, hjudged⟩
    have hentries : ∀ n v, (n, v) ∈ r.entries env ↔ r.current[n]? = some v := fun n v =>
      mem_byRank.trans Std.ExtTreeMap.mem_toList_iff_getElem?_eq_some
    have hmem : ∀ n v, (n, v) ∈ stale ↔ r.Stale now n v := fun n v => by
      rw [hstale, hentries]
      exact ⟨fun h => ⟨h.1, h.2⟩, fun h => ⟨h.1, h.2⟩⟩
    have hjudge : ∀ n v, r.current[n]? = some v → r.Fresh now n v ∨ r.Stale now n v := by
      intro n v hv
      obtain ⟨b, hb⟩ := hjudged (n, v) ((hentries n v).mpr hv)
      cases b with
      | true => exact Or.inl ⟨hv, hb⟩
      | false => exact Or.inr ⟨hv, hb⟩
    refine (retireAll_end ha stale h).bind ?_
    rintro s ⟨hs, hretired⟩
    refine Ends.pure ⟨hs, now, hnow, hretired.records, hjudge, fun n v => ?_, fun n m => ?_,
      fun n l => ?_⟩
    · rw [hretired.current]
      constructor
      · rintro ⟨hv, hnot⟩
        exact (hjudge n v hv).resolve_right fun hstale => hnot v ((hmem n v).mpr hstale)
      · exact fun hv => ⟨hv.current, fun w hw => hv.not_stale ((hmem n w).mp hw)⟩
    · rw [hretired.waits]
      simp only [hmem]
    · rw [hretired.votes]
      simp only [hmem]

theorem refresh_ends (ha : a.Sound) (henv : env.Honest a) (hE : ∀ fault, fault.External → E fault)
    (hroom : Room E nodes) (h : r.Sound a nodes) :
    Ends E (r.refresh env) fun o => o.register.Sound a nodes ∧
      ∃ now, env.now = .ok now ∧ Refreshed env now r o.register := by
  rw [refresh]
  refine (sweep_ends ha henv hE h).bind ?_
  rintro o ⟨hsound, now, hnow, hswept⟩
  refine (settle_ends ha henv hroom hsound).bind ?_
  rintro s ⟨hs, hsettled⟩
  exact Ends.pure ⟨hs, now, hnow, o.register, hswept, hsettled⟩

end Register

end ForkChoice

import ForkChoice.Proofs.Register.Effect

/-!
# Runs of the register

A run makes one request after another, each in surroundings of its own. Every request keeps the
register sound, so a run does.

* `Register.step_ends`: one request.
* `Register.after`: the register after several requests.
* `Register.after_ends`: what each request preserves is preserved by a run.
-/

namespace ForkChoice

namespace Register

variable {T : Type} {a : Archive} {E : Fault → Prop} {nodes : Set Nat} {env : Surroundings}
  {r : Register T}

/-! ## Requests that leave the votes alone -/

theorem touchKept_cases (r : Register T) (env : Surroundings) :
    (∃ s, r.touchKept env = .ok s ∧ Untouched r s) ∨
      ∃ fault, fault.External ∧ r.touchKept env = .error fault := by
  rw [touchKept]
  cases r.kept with
  | none => exact Or.inl ⟨r, rfl, rfl, rfl, rfl, rfl, rfl⟩
  | some range =>
    dsimp only
    split
    · rcases env.steady.add_cases r.timing.expiry with ⟨limit, hlimit⟩ | hfault
      · rcases limit.sub_cases r.timing.freshness with ⟨next, hnext⟩ | hfault
        · have huntouched : Untouched r { r with
              kept := some range
              keepRefresh := some next
              byLedger := r.byLedger.touchAll env.steady (r.ledgersIn env range)
              bySeq := r.bySeq.touchAll env.steady (r.bySeq.keys.filter range.contains) } :=
            ⟨rfl, rfl, rfl, rfl, rfl⟩
          refine Or.inl ⟨_, ?_, huntouched⟩
          rw [hlimit]
          dsimp only [bind, Except.bind]
          rw [hnext]
        · refine Or.inr ⟨_, .timeUnderflow, ?_⟩
          rw [hlimit]
          dsimp only [bind, Except.bind]
          rw [hfault]
      · refine Or.inr ⟨_, .timeOverflow, ?_⟩
        rw [hfault]
        rfl
    · exact Or.inl ⟨r, rfl, rfl, rfl, rfl, rfl, rfl⟩

theorem expire_ends (r : Register T) (env : Surroundings) (hE : ∀ fault, fault.External → E fault) :
    Ends E (liftM (r.expire env)) fun o : Outcome T Unit => Untouched r o.register := by
  rw [expire]
  rcases r.touchKept_cases env with ⟨s, hs, huntouched⟩ | ⟨fault, hfault, herror⟩
  · rw [hs]
    exact Ends.pure ⟨huntouched.timing, huntouched.current, huntouched.trie, huntouched.votes,
      huntouched.awaited⟩
  · rw [herror]
    exact Ends.throw (hE _ hfault)

theorem keep_ends (r : Register T) (low high : Nat) (hE : ∀ fault, fault.External → E fault) :
    Ends E (liftM (r.keep low high)) fun o : Outcome T Unit => Untouched r o.register := by
  rw [keep]
  split
  · exact Ends.pure ⟨rfl, rfl, rfl, rfl, rfl⟩
  · exact Ends.throw (hE _ .emptyKeepRange)

theorem mayValidate_ends (r : Register T) (env : Surroundings) (seq : Nat)
    (hE : ∀ fault, fault.External → E fault) :
    Ends E (liftM (r.mayValidate env seq)) fun o : Outcome T Bool => Untouched r o.register := by
  rw [mayValidate]
  rcases r.own.advance_cases r.timing env.steady seq with ⟨answer, hanswer⟩ | hfault
  · rw [hanswer]
    exact Ends.pure ⟨rfl, rfl, rfl, rfl, rfl⟩
  · rw [hfault]
    exact Ends.throw (hE _ .timeOverflow)

theorem sortKeys_cases (timing : Timing) (now : Time) (seq : Nat) (vs : List Validation)
    (behind : Nat) (keys : Std.ExtTreeSet Key) :
    (∃ sorted, sortKeys timing now seq vs behind keys = .ok sorted) ∨
      sortKeys timing now seq vs behind keys = .error .timeOverflow := by
  induction vs generalizing behind keys with
  | nil => exact Or.inl ⟨_, rfl⟩
  | cons v rest ih =>
    rw [sortKeys]
    rcases v.seen.add_cases timing.freshness with ⟨limit, hlimit⟩ | hfault
    · rw [hlimit]
      dsimp only [bind, Except.bind]
      split
      · exact ih _ _
      · exact ih _ _
    · exact Or.inr (by rw [hfault]; rfl)

/-- Keys are sorted if the freshness fits after the time at which each validation was seen. -/
theorem exists_sortKeys {timing : Timing} {now : Time} {seq : Nat} (vs : List Validation)
    (behind : Nat) (keys : Std.ExtTreeSet Key) :
    (∃ sorted, sortKeys timing now seq vs behind keys = .ok sorted) ↔
      ∀ v ∈ vs, (v.seen.later? timing.freshness).isSome := by
  induction vs generalizing behind keys with
  | nil => exact iff_of_true ⟨_, rfl⟩ fun v hv => absurd hv List.not_mem_nil
  | cons v rest ih =>
    rw [List.forall_mem_cons, sortKeys]
    by_cases hv : (v.seen.later? timing.freshness).isSome
    · obtain ⟨limit, hlimit, -⟩ := Time.exists_add hv
      rw [and_iff_right hv, hlimit]
      dsimp only [bind, Except.bind]
      split
      · exact ih _ _
      · exact ih _ _
    · refine iff_of_false (fun h => ?_) fun h => hv h.1
      rw [Time.add, Option.not_isSome_iff_eq_none.mp hv] at h
      obtain ⟨sorted, hsorted⟩ := h
      cases hsorted

/-! ## One request -/

variable [VoteTrie T] [LawfulVoteTrie T]

theorem laggards_ends (ha : a.Sound) (henv : env.Honest a) (hE : ∀ fault, fault.External → E fault)
    (h : r.Sound a nodes) (seq : Nat) (keys : Std.ExtTreeSet Key) :
    Ends E (r.laggards env seq keys) fun o => o.register.Sound a nodes ∧
      ∃ now, env.now = .ok now ∧ Swept now r o.register := by
  rw [laggards]
  refine Ends.bind (P := fun _ => True)
    (Ends.liftM (fun _ _ => trivial) fun fault hfault => hE _ (henv.clock fault hfault)) fun now _ => ?_
  refine (sweep_ends ha henv hE h).bind fun swept hswept => ?_
  refine Ends.bind (P := fun _ => True) ?_ fun sorted _ => Ends.pure hswept
  rcases sortKeys_cases r.timing now seq ((swept.register.entries env).map (·.2)) 0 keys with
    ⟨sorted, hsorted⟩ | hfault
  · exact hsorted ▸ Ends.pure trivial
  · exact hfault ▸ Ends.throw (hE _ .timeOverflow)

/-- A request keeps the register sound and does no more than its effect says. -/
theorem step_ends (ha : a.Sound) (henv : env.Honest a) (hE : ∀ fault, fault.External → E fault)
    (hroom : Room E nodes) (h : r.Sound a nodes) {request : Request}
    (hrequest : request.Apt a nodes) :
    Ends E (r.step env request) fun o =>
      o.register.Sound a nodes ∧ Effect env r o.register request := by
  have huntouched {s : Register T} (hs : Untouched r s) : s.Sound a nodes ∧ Untouched r s :=
    ⟨h.untouched hs, hs⟩
  cases request with
  | receive node v => exact (receive_ends ha henv hE hroom h hrequest v).map fun _ => id
  | mayValidate seq => exact (mayValidate_ends r env seq hE).map fun _ => huntouched
  | keep low high => exact (keep_ends r low high hE).map fun _ => huntouched
  | expire => exact (expire_ends r env hE).map fun _ => huntouched
  | changeTrust added removed =>
    exact (changeTrust_ends ha henv hroom h added removed).map fun _ => id
  | preferred curr =>
    exact (preferred_ends ha henv hE hroom h curr).map fun _ ho => ⟨ho.1, ho.2.1⟩
  | preferredId curr least =>
    exact ((preferred_ends ha henv hE hroom h curr).bind fun _ ho =>
      Ends.pure ⟨ho.1, ho.2.1⟩).map fun _ => id
  | preferredClosed closed least counts =>
    exact ((preferred_ends ha henv hE hroom h closed).bind fun _ ho =>
      Ends.pure ⟨ho.1, ho.2.1⟩).map fun _ => id
  | nodesAfter l id =>
    by_cases hid : l.id = id
    · subst hid
      refine (nodesAfter_ends ha henv hE hroom h hrequest).map fun o ho => ⟨ho.1, ?_⟩
      rw [Effect, if_pos rfl]
      exact ho.2.1
    · rw [step, nodesAfter, if_neg hid, map_pure]
      refine Ends.pure ⟨h, ?_⟩
      rw [Effect, if_neg hid]
      rfl
  | currentTrusted =>
    exact ((sweep_ends ha henv hE h).bind fun _ ho => Ends.pure ho).map fun _ => id
  | currentNodes =>
    exact ((sweep_ends ha henv hE h).bind fun _ ho => Ends.pure ho).map fun _ => id
  | countTrusted id => exact Ends.pure (huntouched ⟨rfl, rfl, rfl, rfl, rfl⟩)
  | trustedFor id seq => exact Ends.pure (huntouched ⟨rfl, rfl, rfl, rfl, rfl⟩)
  | fees id base => exact Ends.pure (huntouched ⟨rfl, rfl, rfl, rfl, rfl⟩)
  | flush =>
    refine Ends.pure ⟨⟨h.holds, h.drawn, h.awaited, h.voting, h.waiting, fun n hn => ?_⟩, rfl⟩
    exact absurd hn Std.ExtTreeMap.not_mem_empty
  | laggards seq keys => exact (laggards_ends ha henv hE h seq keys).map fun _ => id

/-! ## Several requests -/

/-- The register after several requests. -/
def after (r : Register T) (requests : List (Surroundings × Request)) :
    Computation (Register T) :=
  requests.foldlM (fun r request => (·.register) <$> r.step request.1 request.2) r

/-- Requests about the nodes and ledgers that there are, in surroundings that offer no others. -/
def Orderly (a : Archive) (nodes : Set Nat) (requests : List (Surroundings × Request)) : Prop :=
  ∀ request ∈ requests, request.1.Honest a ∧ request.2.Apt a nodes

/-- What holds of the register and the requests that are still to come holds to the end, if it is
preserved by the effect of each request. -/
theorem after_ends (ha : a.Sound) (hE : ∀ fault, fault.External → E fault) (hroom : Room E nodes)
    {requests : List (Surroundings × Request)} (hrequests : Orderly a nodes requests)
    (h : r.Sound a nodes) {I : List (Surroundings × Request) → Register T → Prop}
    (hI : I requests r)
    (hstep : ∀ env request rest (r s : Register T), I ((env, request) :: rest) r →
      r.Sound a nodes → env.Honest a → Effect env r s request → I rest s) :
    Ends E (r.after requests) fun s => s.Sound a nodes ∧ I [] s := by
  refine (Ends.foldlM (I := fun rest s => Orderly a nodes rest ∧ s.Sound a nodes ∧ I rest s)
    ⟨hrequests, h, hI⟩ ?_).imp fun s hs => hs.2
  rintro ⟨env, request⟩ rest s ⟨horderly, hs, hI⟩
  obtain ⟨henv, hrequest⟩ := horderly _ List.mem_cons_self
  refine (step_ends ha henv hE hroom hs hrequest).map fun o ho => ?_
  exact ⟨fun q hq => horderly q (List.mem_cons_of_mem _ hq), ho.1, hstep _ _ _ _ _ hI hs henv ho.2⟩

/-- A run keeps the register sound. -/
theorem Sound.after (hr : r.Sound a nodes) (ha : a.Sound) (hE : ∀ fault, fault.External → E fault)
    (hroom : Room E nodes) {requests : List (Surroundings × Request)}
    (hrequests : Orderly a nodes requests) :
    Ends E (r.after requests) fun s => s.Sound a nodes :=
  (after_ends (I := fun _ _ => True) ha hE hroom hrequests hr trivial
    fun _ _ _ _ _ _ _ _ _ => trivial).imp fun _ hs => hs.1

end Register

end ForkChoice

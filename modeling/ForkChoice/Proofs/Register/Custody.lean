import ForkChoice.Proofs.Register.Assessment
import ForkChoice.Proofs.Register.History

/-!
# No current validation gets lost

A validation that becomes the current one of its node stays so until it is replaced, turned out as
stale or flushed, and each time it is handed over. So at every moment the validations that were taken
in as current are those that are current now together with those that were handed over, each as often
as it was taken in. Only the trust in its node may have changed in between.

* `tally`: validations with their nodes, whatever the trust in these.
* `Event.accepted`, `Event.handed`: what an event takes in as current, and what it hands over.
* `Register.Transfer`: the balance of one request.
* `Register.step_transfers`: every request keeps it.
* `Register.history_accounts`: the balance of a run, and nothing handed over before it was taken in.
-/

namespace ForkChoice

variable {T α : Type}

/-- A validation without the trust in its node, which may change while it is current. -/
def Validation.unstamped (v : Validation) : Validation := { v with trusted := false }

/-- Validations with their nodes, each as often as it occurs, whatever the trust in the nodes. -/
def tally (entries : List (Nat × Validation)) : Multiset (Nat × Validation) :=
  entries.map fun entry => (entry.1, entry.2.unstamped)

section Tally

variable {entries others : List (Nat × Validation)}

@[simp] theorem tally_nil : tally [] = 0 := rfl

@[simp] theorem tally_append : tally (entries ++ others) = tally entries + tally others := by
  rw [tally, List.map_append]
  rfl

theorem tally_cons (entry : Nat × Validation) :
    tally (entry :: entries) = tally [entry] + tally entries := by
  rw [← tally_append, List.singleton_append]

theorem tally_perm (h : entries.Perm others) : tally entries = tally others :=
  Quot.sound (h.map _)

theorem tally_insert (table : ValidationSet) (node : Nat) (v : Validation) :
    tally (table.insert node v).toList = tally [(node, v)] + tally (table.erase node).toList :=
  (tally_perm (toList_insert_perm table node v)).trans (tally_cons _)

theorem tally_of_getElem? {table : ValidationSet} {node : Nat} {v : Validation}
    (h : table[node]? = some v) :
    tally table.toList = tally [(node, v)] + tally (table.erase node).toList :=
  (tally_perm (toList_perm_of_getElem? h)).trans (tally_cons _)

/-- A change of trust is not seen. -/
theorem tally_map (table : ValidationSet) {f : Nat → Validation → Validation}
    (hf : ∀ n v, (f n v).unstamped = v.unstamped) : tally (table.map f).toList = tally table.toList := by
  rw [tally, tally, Std.ExtTreeMap.toList_map, List.map_map]
  refine congrArg _ (List.map_congr_left fun entry _ => ?_)
  rw [Function.comp_apply, hf]

end Tally

namespace Event

/-- The validation that an event takes in as current, with its node. -/
def accepted (e : Event T) : List (Nat × Validation) :=
  match e.request, e.outcome.answer with
  | .receive node v, .verdict .current => [(node, v)]
  | _, _ => []

/-- The validations that an event flushes. -/
def flushed (e : Event T) : List Validation :=
  match e.request, e.outcome.answer with
  | .flush, .validations vs => vs
  | _, _ => []

/-- The validations that an event hands over, turned out or flushed. -/
def handed (e : Event T) : List Validation := e.outcome.retired ++ e.flushed

theorem accepted_receive (env : Surroundings) (node : Nat) (v : Validation)
    (o : Outcome T Verdict) : accepted ⟨env, .receive node v, o.map .verdict⟩ =
      if o.answer = .current then [(node, v)] else [] := by
  obtain ⟨answer, s, retired⟩ := o
  cases answer <;> rfl

end Event

namespace Register

variable {env : Surroundings} {r s s' : Register T} {gone more accepted : List (Nat × Validation)}

/-- The balance of a request: the validations `gone` were current and no longer are, and those
`accepted` are current now. -/
structure Transfer (accepted gone : List (Nat × Validation)) (r s : Register T) : Prop where
  held : tally gone ≤ tally r.current.toList
  balance : tally s.current.toList + tally gone = tally r.current.toList + tally accepted

/-- A request that takes nothing in as current hands over what it turns out. -/
def Hands (r : Register T) (o : Outcome T α) : Prop :=
  ∃ gone, o.retired = gone.map (·.2) ∧ Transfer [] gone r o.register

theorem Transfer.of_current (h : tally s.current.toList = tally r.current.toList) :
    Transfer [] [] r s :=
  ⟨Multiset.zero_le _, by rw [h]⟩

theorem Transfer.trans (h : Transfer [] gone r s) (h' : Transfer [] more s s') :
    Transfer [] (gone ++ more) r s' := by
  have hbalance := h.balance
  have hbalance' := h'.balance
  rw [tally_nil, Multiset.add_zero] at hbalance hbalance'
  have hall : tally s'.current.toList + tally (gone ++ more) = tally r.current.toList := by
    rw [tally_append, Multiset.add_comm (tally gone), ← Multiset.add_assoc, hbalance', hbalance]
  exact ⟨hall ▸ Multiset.le_add_left _ _, by rw [hall, tally_nil, Multiset.add_zero]⟩

/-- What is turned out was the current validation of its node. -/
theorem Transfer.of_erase {node : Nat} {v : Validation} (hv : r.current[node]? = some v)
    (hs : s.current = r.current.erase node) : Transfer [] [(node, v)] r s := by
  have hall := tally_of_getElem? hv
  refine ⟨hall ▸ Multiset.le_add_right _ _, ?_⟩
  rw [hs, hall, tally_nil, Multiset.add_zero, Multiset.add_comm]

/-- What is replaced was the current validation of its node. -/
theorem Transfer.of_insert {node : Nat} {v : Validation} (hs : s.current = r.current.insert node v) :
    Transfer [(node, v)] (r.current[node]?.toList.map (node, ·)) r s := by
  cases hold : r.current[node]? with
  | none =>
    refine ⟨Multiset.zero_le _, ?_⟩
    rw [hs, tally_insert, erase_of_getElem? hold, Option.toList_none, List.map_nil, tally_nil,
      Multiset.add_zero, Multiset.add_comm]
  | some old =>
    have hall := tally_of_getElem? hold
    refine ⟨hall ▸ Multiset.le_add_right _ _, ?_⟩
    rw [hs, tally_insert, hall, Multiset.add_comm, Multiset.add_comm (tally [(node, v)]),
      ← Multiset.add_assoc]
    rfl

theorem Hands.of_current {o : Outcome T α} (hretired : o.retired = [])
    (h : tally o.register.current.toList = tally r.current.toList) : Hands r o :=
  ⟨[], hretired, .of_current h⟩

/-! ## Each request -/

variable [VoteTrie T]

theorem retireAll_transfers (entries : List (Nat × Validation)) (r : Register T)
    (hnodup : (entries.map (·.1)).Nodup) (hentries : ∀ e ∈ entries, r.current[e.1]? = some e.2) :
    Gives (entries.foldlM retire r) fun s => Transfer [] entries r s := by
  induction entries generalizing r with
  | nil => exact Gives.pure (.of_current rfl)
  | cons entry rest ih =>
    obtain ⟨hnode, hnodup⟩ := List.nodup_cons.mp hnodup
    rw [List.foldlM_cons]
    refine (dismiss_records _ entry.1 entry.2).bind fun s hs => ?_
    have hcurrent : s.current = r.current.erase entry.1 := current_of_records hs
    refine (ih s hnodup fun e he => ?_).imp fun s' hs' =>
      (Transfer.of_erase (hentries entry List.mem_cons_self) hcurrent).trans hs'
    rw [hcurrent, Std.ExtTreeMap.getElem?_erase, if_neg fun h => ?_]
    · exact hentries e (List.mem_cons_of_mem _ he)
    · exact hnode (List.mem_map.mpr ⟨e, he, (Nat.compare_eq_eq.mp h).symm⟩)

theorem sweep_hands (r : Register T) (env : Surroundings) : Gives (r.sweep env) (Hands r) := by
  rw [sweep]
  refine (Gives.trivial _).bind fun now _ => ?_
  refine Gives.bind (P := fun stale => staleAmong r.timing now (r.entries env) = .ok stale)
    (Gives.liftM fun _ => id) fun stale hstale => ?_
  obtain ⟨-, rfl⟩ := staleAmong_eq_ok.mp hstale
  have hnodup : ((r.entries env).map (·.1)).Nodup :=
    ((byRank_perm _ r.current.toList).map _).nodup_iff.mpr (nodup_entries r.current)
  refine (retireAll_transfers _ r (hnodup.sublist (List.filter_sublist.map _)) fun e he => ?_).bind
    fun s hs => Gives.pure ⟨_, rfl, hs⟩
  exact Std.ExtTreeMap.mem_toList_iff_getElem?_eq_some.mp (mem_byRank.mp (List.mem_filter.mp he).1)

theorem refresh_hands (r : Register T) (env : Surroundings) : Gives (r.refresh env) (Hands r) := by
  rw [refresh]
  refine (sweep_hands r env).bind ?_
  rintro swept ⟨gone, hretired, htransfer⟩
  refine (settle_records _ env).bind fun s hs => Gives.pure ⟨gone, hretired, htransfer.held, ?_⟩
  rw [current_of_records hs]
  exact htransfer.balance

theorem preferred_hands (r : Register T) (env : Surroundings) (curr : Ledger) :
    Gives (r.preferred env curr) (Hands r) := by
  rw [preferred]
  refine (refresh_hands r env).bind fun fresh hfresh => (Gives.trivial _).bind fun answer _ => ?_
  cases answer with
  | none => exact Gives.pure hfresh
  | some tip => exact (Gives.trivial _).bind fun _ _ => Gives.pure hfresh

theorem nodesAfter_hands (r : Register T) (env : Surroundings) (l : Ledger) (id : Nat) :
    Gives (r.nodesAfter env l id) (Hands r) := by
  rw [nodesAfter]
  split
  · refine (refresh_hands r env).bind fun fresh hfresh => (Gives.trivial _).bind fun _ _ => ?_
    exact (Gives.trivial _).bind fun _ _ => (Gives.trivial _).bind fun _ _ => Gives.pure hfresh
  · exact Gives.pure (.of_current rfl rfl)

theorem laggards_hands (r : Register T) (env : Surroundings) (seq : Nat)
    (keys : Std.ExtTreeSet Key) : Gives (r.laggards env seq keys) (Hands r) := by
  rw [laggards]
  refine (Gives.trivial _).bind fun _ _ => (sweep_hands r env).bind fun swept hswept => ?_
  exact (Gives.trivial _).bind fun _ _ => Gives.pure hswept

theorem changeTrust_hands (r : Register T) (env : Surroundings) (added removed : NodeSet) :
    Gives (r.changeTrust env added removed) (Hands r) := by
  have hretired : Gives (r.changeTrust env added removed) fun o => o.retired = [] := by
    rw [changeTrust]
    exact (Gives.trivial _).bind fun _ _ => Gives.pure rfl
  intro o ho
  have hrestamped := changeTrust_records r env added removed o ho
  have hcurrent : o.register.current = r.current.map (restamp added removed) :=
    Std.ExtTreeMap.ext_getElem? fun n => by rw [hrestamped.current, Std.ExtTreeMap.getElem?_map]
  refine .of_current (hretired o ho) ?_
  rw [hcurrent]
  exact tally_map _ fun n v => rfl

/-- A validation that becomes the current one is the only one taken in, and the one that it replaces
is the only one handed over. -/
theorem receive_transfers (r : Register T) (env : Surroundings) (node : Nat) (v : Validation) :
    Gives (r.receive env node v) fun o => ∃ gone, o.retired = gone.map (·.2) ∧
      Transfer (if o.answer = .current then [(node, v)] else []) gone r o.register := by
  refine (receive_gives r env node v).imp ?_
  rintro o ⟨stage, s, -, hs, rfl⟩
  have hcurrent : s.current = (r.enter env node v stage).current :=
    current_of_records (adopt_records r env node v stage s hs)
  cases stage with
  | installed guard =>
    refine ⟨_, ?_, Transfer.of_insert hcurrent⟩
    rw [outcome, Stage.replaced, List.map_map]
    exact (List.map_id' _).symm
  | ignored | late => exact ⟨[], rfl, .of_current (congrArg (fun c => tally c.toList) hcurrent)⟩
  | refused guard =>
    have hanswer : (r.outcome node v (.refused guard) s).answer ≠ .current :=
      Verdict.ofRefused_ne_current
    rw [if_neg hanswer]
    exact ⟨[], rfl, .of_current (congrArg (fun c => tally c.toList) hcurrent)⟩

/-- A request hands over what it turns out or flushes, and keeps the balance. -/
theorem step_transfers (r : Register T) (env : Surroundings) (request : Request) :
    Gives (r.step env request) fun o =>
      ∃ gone, Event.handed ⟨env, request, o⟩ = gone.map (·.2) ∧
        Transfer (Event.accepted ⟨env, request, o⟩) gone r o.register := by
  have hkeep {α : Type} {x : Computation (Outcome T α)} {f : α → Reply} {request : Request}
      (haccepted : ∀ o : Outcome T Reply, Event.accepted ⟨env, request, o⟩ = [])
      (hflushed : ∀ o : Outcome T Reply, Event.flushed ⟨env, request, o⟩ = [])
      (hx : Gives x (Hands r)) :
      Gives ((·.map f) <$> x) fun o => ∃ gone, Event.handed ⟨env, request, o⟩ = gone.map (·.2) ∧
        Transfer (Event.accepted ⟨env, request, o⟩) gone r o.register := by
    refine hx.map ?_
    rintro o ⟨gone, hretired, htransfer⟩
    refine ⟨gone, ?_, ?_⟩
    · rw [Event.handed, hflushed, List.append_nil]
      exact hretired
    · rw [haccepted]
      exact htransfer
  cases request with
  | receive node v =>
    refine (receive_transfers r env node v).map ?_
    rintro o ⟨gone, hretired, htransfer⟩
    rw [Event.accepted_receive]
    exact ⟨gone, (List.append_nil _).trans hretired, htransfer⟩
  | mayValidate seq =>
    refine hkeep (fun _ => rfl) (fun _ => rfl) (Gives.liftM fun o ho => ?_)
    rw [mayValidate] at ho
    cases hadvance : r.own.advance r.timing env.steady seq with
    | error fault =>
      rw [hadvance] at ho
      cases ho
    | ok answer =>
      rw [hadvance] at ho
      cases ho
      exact .of_current rfl rfl
  | keep low high =>
    refine hkeep (fun _ => rfl) (fun _ => rfl) (Gives.liftM fun o ho => ?_)
    rw [keep] at ho
    split at ho
    · cases ho
      exact .of_current rfl rfl
    · cases ho
  | expire =>
    refine hkeep (fun _ => rfl) (fun _ => rfl) (Gives.liftM fun o ho => ?_)
    rw [expire] at ho
    cases htouched : r.touchKept env with
    | error fault =>
      rw [htouched] at ho
      cases ho
    | ok touched =>
      rw [htouched] at ho
      cases ho
      exact .of_current rfl (by rw [← (touchKept_others htouched).2.1])
  | changeTrust added removed =>
    exact hkeep (fun _ => rfl) (fun _ => rfl) (changeTrust_hands r env added removed)
  | preferred curr => exact hkeep (fun _ => rfl) (fun _ => rfl) (preferred_hands r env curr)
  | preferredId curr least =>
    exact hkeep (fun _ => rfl) (fun _ => rfl)
      ((preferred_hands r env curr).bind fun _ ho => Gives.pure ho)
  | preferredClosed closed least counts =>
    exact hkeep (fun _ => rfl) (fun _ => rfl)
      ((preferred_hands r env closed).bind fun _ ho => Gives.pure ho)
  | nodesAfter l id => exact hkeep (fun _ => rfl) (fun _ => rfl) (nodesAfter_hands r env l id)
  | currentTrusted | currentNodes =>
    exact hkeep (fun _ => rfl) (fun _ => rfl) ((sweep_hands r env).bind fun _ ho => Gives.pure ho)
  | countTrusted id | trustedFor id seq | fees id base =>
    exact Gives.pure ⟨[], rfl, .of_current rfl⟩
  | flush =>
    refine Gives.pure ⟨r.current.toList, values_eq _, le_rfl, ?_⟩
    have hnone : (∅ : ValidationSet).toList = [] := Std.ExtTreeMap.toList_eq_nil_iff.mpr rfl
    show tally (∅ : ValidationSet).toList + _ = _ + tally []
    rw [hnone, Multiset.add_comm]
  | laggards seq keys => exact hkeep (fun _ => rfl) (fun _ => rfl) (laggards_hands r env seq keys)

/-! ## Runs -/

/-- The balance of a run. Each event hands over its share, which is given here with the nodes that the
validations were taken in from. -/
structure Accounted (es : List (Event T)) (shares : List (List (Nat × Validation)))
    (s : Register T) : Prop where
  handed : es.map Event.handed = shares.map (·.map (·.2))
  /-- What was taken in as current is current now or was handed over. -/
  balance : tally (es.flatMap Event.accepted) = tally s.current.toList + tally shares.flatten
  /-- What an event hands over was taken in as current before. -/
  earlier : ∀ k, tally (shares.take (k + 1)).flatten ≤ tally ((es.take k).flatMap Event.accepted)

omit [VoteTrie T] in
/-- One more request. -/
theorem Accounted.snoc {es : List (Event T)} {shares : List (List (Nat × Validation))} {e : Event T}
    (h : Accounted es shares s) (hgone : e.handed = gone.map (·.2))
    (htransfer : Transfer e.accepted gone s s') :
    Accounted (es ++ [e]) (shares ++ [gone]) s' := by
  have hlength : es.length = shares.length := by
    have := congrArg List.length h.handed
    rwa [List.length_map, List.length_map] at this
  refine ⟨?_, ?_, fun k => ?_⟩
  · rw [List.map_append, List.map_append, h.handed, List.map_singleton, List.map_singleton, hgone]
  · calc tally ((es ++ [e]).flatMap Event.accepted)
        = tally s.current.toList + tally shares.flatten + tally e.accepted := by
          rw [List.flatMap_append, List.flatMap_singleton, tally_append, h.balance]
      _ = tally s'.current.toList + tally gone + tally shares.flatten := by
          rw [add_right_comm, ← htransfer.balance]
      _ = tally s'.current.toList + tally (shares ++ [gone]).flatten := by
          rw [List.flatten_append, List.flatten_singleton, tally_append, Multiset.add_assoc,
            Multiset.add_comm (tally gone)]
  · rcases Nat.lt_or_ge k es.length with hk | hk
    · rw [List.take_append_of_le_length (by omega), List.take_append_of_le_length (by omega)]
      exact h.earlier k
    · have hall : (shares ++ [gone]).length ≤ k + 1 := by
        rw [List.length_append, List.length_singleton]
        omega
      rw [List.take_of_length_le hall, List.take_append, List.take_of_length_le hk,
        List.flatMap_append, tally_append, h.balance, List.flatten_append, List.flatten_singleton,
        tally_append, Multiset.add_comm]
      exact (Multiset.add_le_add_right htransfer.held).trans (Multiset.le_add_right _ _)

/-- In any history of an empty register, the validations that were taken in as current are those that
are current now together with those that were handed over, each as often as it was taken in, and nothing
is handed over that was not taken in as current before. -/
theorem history_accounts {timing : Timing} {es : List (Event T)} (h : History (empty timing) es s) :
    ∃ shares, Accounted es shares s := by
  induction h with
  | nil => exact ⟨[], rfl, rfl, fun k => by simp⟩
  | snoc _ hstep ih =>
    obtain ⟨shares, hshares⟩ := ih
    obtain ⟨gone, hgone, htransfer⟩ := step_transfers _ _ _ _ hstep
    exact ⟨_, hshares.snoc hgone htransfer⟩

/-- A node repeats itself and goes on, and is flushed. What another one says becomes stale. -/
def handover : List Fork.Line :=
  [(Fork.early, [], .receive 1 (Fork.word 1 Fork.trunk Fork.early)),
    (Fork.early, [], .receive 1 (Fork.word 1 Fork.trunk Fork.early)),
    (Fork.soon, [], .receive 1 (Fork.word 1 Fork.left Fork.soon)),
    (Fork.soon, [], .flush),
    (Fork.soon, [], .receive 2 (Fork.word 2 Fork.right Fork.soon)),
    (Fork.late, [], .currentNodes)]

/-- Three validations are taken in as current, and the balance holds. -/
theorem history_accounts_fork :
    ∃ (outcomes : List (Outcome (ArenaTrie (Slots.numbered (Cell Nat))) Reply))
      (s : Register (ArenaTrie (Slots.numbered (Cell Nat)))) (shares : List (List (Nat × Validation))),
      History (empty {}) (events (Fork.script handover) outcomes) s ∧
        outcomes.map (·.answer) = [.verdict .current, .verdict .badSeq, .verdict .current,
          .validations [Fork.word 1 Fork.left Fork.soon], .verdict .current, .nodes []] ∧
        Accounted (events (Fork.script handover) outcomes) shares s := by
  obtain ⟨outcomes, s, hs, hanswers, -⟩ := Fork.exists_history (Slots.numbered (Cell Nat)) handover
    [.verdict .current, .verdict .badSeq, .verdict .current,
      .validations [Fork.word 1 Fork.left Fork.soon], .verdict .current, .nodes []] (fun _ => true)
    (by simp [handover, Request.Apt]) (by decide +kernel)
  obtain ⟨shares, hshares⟩ := history_accounts hs
  exact ⟨outcomes, s, shares, hs, hanswers, hshares⟩

end Register

end ForkChoice

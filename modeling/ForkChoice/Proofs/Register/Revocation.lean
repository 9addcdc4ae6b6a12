import ForkChoice.Proofs.Register.Pending

/-!
# Trust taken back

When the trust in a node is taken back, its vote goes if it is for the ledger of the current
validation of the node, and its wait goes if it is for that ledger. Then the node has no part in the
trie until it is trusted again. A vote for an older ledger stays, and with it the support that comes
from the node.

* `Register.Traced`: the vote and the waits of a node are those of its current validation.
* `Register.TrustChanged.silent`, `Register.TrustChanged.traced`: a node is silent afterwards if they
  are, and only then if nobody becomes trusted.
* `Register.Effect.silent`: a node stays silent until it is trusted again.
* `Register.run_revokes`: trust taken back after any run.
-/

namespace ForkChoice

/-- A request that trusts a node: its validation is marked so, or it is among those to trust. -/
def Request.Trusts (node : Nat) : Request → Prop
  | .receive n v => n = node ∧ v.trusted = true
  | .changeTrust added _ => node ∈ added
  | _ => False

namespace Register

variable {T : Type} {a : Archive} {env : Surroundings} {r s : Register T} {node n : Nat}
  {v : Validation} {now : Time} {added removed : NodeSet} {prior : Option Mark}

/-- The vote and the waits of a node are for the ledger of its current validation. -/
structure Traced (r : Register T) (node : Nat) : Prop where
  votes : ∀ l, r.votes[node]? = some l → ∃ v, r.current[node]? = some v ∧ l.id = v.ledgerId
  waits : ∀ m, r.Waits node m → ∃ v, r.current[node]? = some v ∧ m = v.mark

theorem Silent.traced (h : r.Silent node) : Traced r node where
  votes l hl := by
    rw [h.votes] at hl
    cases hl
  waits m hm := absurd hm (h.waits m)

theorem Traced.silent_of_none (h : Traced r node) (hnone : r.current[node]? = none) :
    r.Silent node where
  votes := by
    cases hl : r.votes[node]? with
    | none => rfl
    | some l =>
      obtain ⟨v, hv, -⟩ := h.votes l hl
      rw [hnone] at hv
      cases hv
  waits m hm := by
    obtain ⟨v, hv, -⟩ := h.waits m hm
    rw [hnone] at hv
    cases hv

theorem Traced.bystander (h : Traced r node) (henv : env.Honest a)
    (hs : Bystander env node r s) : Traced s node where
  votes l hl := by
    rw [hs.current]
    rcases hs.of_votes hl with hl | ⟨m, hm, hl⟩
    · exact h.votes l hl
    · obtain ⟨v, hv, rfl⟩ := h.waits m hm
      exact ⟨v, hv, henv.id_eq hl⟩
  waits m hm := by
    rw [hs.current]
    exact h.waits m (hs.of_waits hm)

/-! ## Taking trust back -/

theorem trustAfter_removed (hremoved : node ∈ removed) (hadded : node ∉ added) :
    trustAfter added removed node = some false := by
  rcases trustAfter_cases added removed node with ⟨-, h⟩ | ⟨h, -⟩ | ⟨-, -, h⟩
  · exact absurd h hadded
  · exact h
  · exact absurd hremoved h

/-- The current validation of a node is taken back. -/
theorem TrustChangedIn.silent (hs : TrustChangedIn env added removed (node, v) r s)
    (hremoved : node ∈ removed) (hadded : node ∉ added) (hv : r.current[node]? = some v)
    (h : Traced r node) : s.Silent node := by
  unfold TrustChangedIn at hs
  rw [trustAfter_removed hremoved hadded] at hs
  constructor
  · cases hl : s.votes[node]? with
    | none => rfl
    | some l =>
      obtain ⟨hl, hne⟩ := (hs.votes node l).mp hl
      obtain ⟨w, hw, hid⟩ := h.votes l hl
      obtain rfl := Option.some.inj (hv.symm.trans hw)
      exact absurd ⟨rfl, hid⟩ hne
  · intro m hm
    obtain ⟨hm, hne⟩ := (hs.waits node m).mp hm
    obtain ⟨w, hw, rfl⟩ := h.waits m hm
    obtain rfl := Option.some.inj (hv.symm.trans hw)
    exact hne ⟨rfl, rfl⟩

/-- A node whose vote and waits are those of its current validation is silent after its trust was
taken back. -/
theorem TrustChanged.silent (hs : TrustChanged env added removed r s) (henv : env.Honest a)
    (hremoved : node ∈ removed) (hadded : node ∉ added) (h : Traced r node) : s.Silent node :=
  hs.of_node (P := (Traced · node)) (Q := (Silent · node))
    (fun hother hr => hr.bystander henv hother) Bystander.silent
    (fun hentry hv hr => hentry.silent hremoved hadded hv hr)
    (fun hnone hr => hr.silent_of_none hnone) h

/-- When the node of an entry does not become trusted, no ledgers are looked for, and what is for the
current validation of a node afterwards was so before. -/
theorem TrustChangedIn.traced (hs : TrustChangedIn env added removed (n, v) r s) (hn : n ∉ added)
    (hv : r.current[n]? = some v) (h : Traced s node) : Traced r node := by
  unfold TrustChangedIn at hs
  dsimp only at hs
  rcases trustAfter_cases added removed n with ⟨-, hmem⟩ | ⟨hafter, -⟩ | ⟨hafter, -⟩
  · exact absurd hmem hn
  · rw [hafter] at hs
    have hcurrent : s.current[node]? =
        (r.current.insert n (restamp added removed n v))[node]? := by
      rw [current_of_records hs.records]
    by_cases hnode : n = node
    · subst hnode
      rw [Std.ExtTreeMap.getElem?_insert_self] at hcurrent
      refine ⟨fun l hl => ⟨v, hv, ?_⟩, fun m hm => ⟨v, hv, ?_⟩⟩
      · by_contra hid
        obtain ⟨w, hw, hid'⟩ := h.votes l ((hs.votes n l).mpr ⟨hl, fun h' => hid h'.2⟩)
        obtain rfl := Option.some.inj (hcurrent.symm.trans hw)
        exact hid hid'
      · by_contra hmark
        obtain ⟨w, hw, hmark'⟩ := h.waits m ((hs.waits n m).mpr ⟨hm, fun h' => hmark h'.2⟩)
        obtain rfl := Option.some.inj (hcurrent.symm.trans hw)
        exact hmark hmark'
    · rw [Std.ExtTreeMap.getElem?_insert, if_neg (Nat.compare_eq_eq.not.mpr hnode)] at hcurrent
      refine ⟨fun l hl => ?_, fun m hm => ?_⟩
      · exact hcurrent ▸ h.votes l ((hs.votes node l).mpr ⟨hl, fun h' => hnode h'.1.symm⟩)
      · exact hcurrent ▸ h.waits m ((hs.waits node m).mpr ⟨hm, fun h' => hnode h'.1.symm⟩)
  · rw [hafter] at hs
    exact hs ▸ h

/-- A node that is silent after trust was taken back, and nobody has become trusted who has a current
validation, had no vote or wait that was not for its current validation. -/
theorem TrustChanged.traced (hs : TrustChanged env added removed r s)
    (hnobody : ∀ n ∈ added, r.current[n]? = none) (h : s.Silent node) : Traced r node := by
  obtain ⟨entries, changed, hnodup, hentries, hchanged, huntouched⟩ := hs
  have hadded : ∀ n v, (n, v) ∈ entries → n ∉ added ∧ r.current[n]? = some v := by
    intro n v hv
    have hv := (hentries n v).mp hv
    refine ⟨fun hmem => ?_, hv⟩
    rw [hnobody n hmem] at hv
    cases hv
  have hlast : Traced changed node :=
    Silent.traced ⟨huntouched.votes ▸ h.votes, fun m hm => h.waits m (huntouched.waits.mpr hm)⟩
  clear huntouched hentries hnobody h
  induction hchanged with
  | nil r => exact hlast
  | @cons entry rest r s s' hentry _ ih =>
    obtain ⟨n, v⟩ := entry
    obtain ⟨hn, hnodup⟩ := List.nodup_cons.mp hnodup
    obtain ⟨hnot, hv⟩ := hadded n v List.mem_cons_self
    refine hentry.traced hnot hv (ih hnodup (fun k w hw => ?_) hlast)
    obtain ⟨hnot', hw'⟩ := hadded k w (List.mem_cons_of_mem _ hw)
    refine ⟨hnot', Eq.trans ?_ hw'⟩
    refine (hentry.bystander fun hk => hn ?_).current
    exact List.mem_map.mpr ⟨(k, w), hw, hk.symm⟩

/-! ## Silence -/

theorem Swept.silent (hs : Swept now r s) (h : r.Silent node) : s.Silent node where
  votes := by
    cases hl : s.votes[node]? with
    | none => rfl
    | some l =>
      have hl := ((hs.votes node l).mp hl).1
      rw [h.votes] at hl
      cases hl
  waits m hm := h.waits m ((hs.waits node m).mp hm).1

theorem Refreshed.silent (hs : Refreshed env now r s) (h : r.Silent node) : s.Silent node := by
  obtain ⟨swept, hswept, hsettled⟩ := hs
  exact (hsettled.bystander node).silent (hswept.silent h)

theorem Received.silent (hs : Received env n v r s) (htrust : ¬ (n = node ∧ v.trusted = true))
    (h : r.Silent node) : s.Silent node := by
  rcases hs with huntouched | ⟨installed, huntouched, hs⟩
  · exact (huntouched.bystander env node).silent h
  · have hinstalled : installed.Silent node :=
      (huntouched.bystander env node).silent ⟨h.votes, h.waits⟩
    split at hs
    · rename_i hv
      exact (hs.bystander fun hn => htrust ⟨hn, hv⟩).silent hinstalled
    · exact hs ▸ hinstalled

theorem TrustChangedIn.silent_of_silent (hs : TrustChangedIn env added removed (node, v) r s)
    (hadded : node ∉ added) (h : r.Silent node) : s.Silent node := by
  unfold TrustChangedIn at hs
  dsimp only at hs
  rcases trustAfter_cases added removed node with ⟨-, hmem⟩ | ⟨hafter, -⟩ | ⟨hafter, -⟩
  · exact absurd hmem hadded
  · rw [hafter] at hs
    refine ⟨?_, fun m hm => h.waits m ((hs.waits node m).mp hm).1⟩
    cases hl : s.votes[node]? with
    | none => rfl
    | some l =>
      have hl : r.votes[node]? = some l := ((hs.votes node l).mp hl).1
      rw [h.votes] at hl
      cases hl
  · rw [hafter] at hs
    exact hs ▸ h

theorem TrustChanged.silent_of_silent (hs : TrustChanged env added removed r s)
    (hadded : node ∉ added) (h : r.Silent node) : s.Silent node :=
  hs.of_node (P := (Silent · node)) (Q := (Silent · node)) Bystander.silent Bystander.silent
    (fun hentry _ hr => hentry.silent_of_silent hadded hr) (fun _ => id) h

/-- A node that neither votes nor waits goes on so until it is trusted again. -/
theorem Effect.silent {request : Request} (hs : Effect env r s request)
    (htrust : ¬ request.Trusts node) (h : r.Silent node) : s.Silent node := by
  rcases hs.kinds with ⟨n, v, rfl, hreceived⟩ | ⟨added, removed, rfl, hchanged⟩ | ⟨rfl, rfl⟩ |
    ⟨-, ⟨now, hswept⟩ | ⟨now, hrefreshed⟩ | huntouched⟩
  · exact hreceived.silent htrust h
  · exact hchanged.silent_of_silent htrust h
  · exact ⟨h.votes, h.waits⟩
  · exact hswept.silent h
  · exact hrefreshed.silent h
  · exact (huntouched.bystander env node).silent h

/-! ## Runs -/

variable [VoteTrie T] [LawfulVoteTrie T]

/-- A silent node stays silent through requests that do not trust it, and is none of those that the
trie counts. -/
theorem after_silent (ha : a.Sound) {requests : List (Surroundings × Request)}
    (h : Orderly a Set.univ requests) (htrust : ∀ request ∈ requests, ¬ request.2.Trusts node)
    (hr : r.Sound a Set.univ) (hsilent : r.Silent node) :
    Ends Bounded (r.after requests) fun s => s.Sound a Set.univ ∧ s.Silent node := by
  refine (after_ends (I := fun rest r => (∀ request ∈ rest, ¬ request.2.Trusts node) ∧
    r.Silent node) ha (fun _ => Or.inl) (room_bounded _) h hr ⟨htrust, hsilent⟩ ?_).imp
    fun s hs => ⟨hs.1, hs.2.2⟩
  rintro env request rest r s ⟨htrust, hsilent⟩ - - hs
  exact ⟨fun q hq => htrust q (List.mem_cons_of_mem _ hq),
    hs.silent (htrust _ List.mem_cons_self) hsilent⟩

/-- After any run, a node that is no longer to be trusted has no vote and waits for nothing, provided
that its vote and waits were those of its current validation, and so it remains until it is trusted
again: the trie counts other nodes only. When nobody becomes trusted who has a current validation,
there is no other way to it. -/
theorem run_revokes {Slot : Type} [DecidableEq Slot] (A : Slots Slot (Cell Slot))
    (ha : a.Reachable) {past later : List (Surroundings × Request)}
    (hpast : Orderly a Set.univ past) (timing : Timing) (henv : env.Honest a)
    (hremoved : node ∈ removed) (hadded : node ∉ added) (hlater : Orderly a Set.univ later)
    (htrust : ∀ request ∈ later, ¬ request.2.Trusts node) :
    Ends Bounded ((empty timing : Register (ArenaTrie A)).after past) fun r =>
      Ends Bounded (r.step env (.changeTrust added removed)) fun o =>
        (Traced r node → o.register.Silent node ∧ Ends Bounded (o.register.after later) fun s =>
          s.Silent node ∧ ∀ l ∈ a.ledgers,
            (s.trie.tipSupport l = pure (s.voters (· == l)).card ∧ node ∉ s.voters (· == l)) ∧
            s.trie.branchSupport l = pure (s.voters (·.leadsTo l)).card ∧
              node ∉ s.voters (·.leadsTo l)) ∧
        ((∀ n ∈ added, r.current[n]? = none) → o.register.Silent node → Traced r node) := by
  refine ((sound_empty ha.sound timing).after ha.sound (fun _ => Or.inl) (room_bounded _)
    hpast).imp fun r hr => ?_
  refine (step_ends ha.sound henv (fun _ => Or.inl) (room_bounded _) hr
    (show (Request.changeTrust added removed).Apt a Set.univ from trivial)).imp ?_
  rintro o ⟨ho, hchanged⟩
  have hchanged : TrustChanged env added removed r o.register := hchanged
  refine ⟨fun htraced => ?_, fun hnobody hsilent => hchanged.traced hnobody hsilent⟩
  have hsilent := hchanged.silent henv hremoved hadded htraced
  refine ⟨hsilent, (after_silent ha.sound hlater htrust ho hsilent).imp ?_⟩
  rintro s ⟨hs, hsilent⟩
  exact ⟨hsilent, fun l hl => ⟨⟨hs.tipSupport ha.sound hl, hsilent.not_mem_voters _⟩,
    hs.branchSupport ha.sound hl, hsilent.not_mem_voters _⟩⟩

/-- A node votes for the left side. -/
def pledge : List Fork.Line :=
  [(Fork.early, [2], .receive 1 (Fork.word 1 Fork.left Fork.early))]

/-- The node has no part in the trie when its trust is taken back. -/
theorem run_revokes_fork :
    ∃ r o, (empty {} : Register (ArenaTrie (Slots.numbered (Cell Nat)))).after
        (Fork.script pledge) = pure r ∧ r.votes[1]? = some Fork.left ∧
      r.step (Fork.world Fork.soon []) (.changeTrust ∅ ((∅ : NodeSet).insert 1)) = pure o ∧
      o.register.Silent 1 := by
  obtain ⟨r, o, s, o', hr, ho, ⟨-, -, t, rfl, -⟩, -, htest⟩ :=
    Fork.exists_step (Slots.numbered (Cell Nat)) pledge
      (Fork.soon, [], .changeTrust ∅ ((∅ : NodeSet).insert 1))
      (fun s _ => s.current[1]? == some (Fork.word 1 Fork.left Fork.early) &&
        s.votes[1]? == some Fork.left && s.awaited.isEmpty)
      (by simp [pledge, Request.Apt]) trivial (by decide +kernel)
  simp only [Bool.and_eq_true, beq_iff_eq] at htest
  obtain ⟨⟨hcurrent, hvotes⟩, hawaited⟩ := htest
  have htraced : Traced r 1 := by
    refine ⟨fun l hl => ⟨_, hcurrent, ?_⟩, fun m hm => ?_⟩
    · rw [← Option.some.inj (hvotes.symm.trans hl)]
      rfl
    · exact absurd hm (not_waits_of_isEmpty hawaited)
  have hrevoked := (run_revokes (Slots.numbered (Cell Nat)) Fork.archive_reachable
    (Fork.orderly_script pledge (by simp [pledge, Request.Apt])) {} (Fork.honest Fork.soon [])
    (show 1 ∈ (∅ : NodeSet).insert 1 by simp) (show 1 ∉ (∅ : NodeSet) by simp)
    (show Orderly Fork.archive Set.univ [] by simp [Orderly]) (by simp)).result hr
  exact ⟨r, o, hr, hvotes, ho, ((hrevoked.result ho).1 htraced).1⟩

/-- A node votes for the trunk and then validates the left side, which is not at hand. -/
def lagging : List Fork.Line :=
  [(Fork.early, [1], .receive 1 (Fork.word 1 Fork.trunk Fork.early)),
    (Fork.soon, [1], .receive 1 (Fork.word 1 Fork.left Fork.soon))]

/-- The vote that lags behind stays when the trust in the node is taken back. -/
theorem run_revokes_lagging :
    ∃ r o, (empty {} : Register (ArenaTrie (Slots.numbered (Cell Nat)))).after
        (Fork.script lagging) = pure r ∧
      r.step (Fork.world Fork.soon [1]) (.changeTrust ∅ ((∅ : NodeSet).insert 1)) = pure o ∧
      o.register.votes[1]? = some Fork.trunk ∧ o.register.trie.tipSupport Fork.trunk = pure 1 := by
  obtain ⟨r, o, s, o', hr, ho, -, ⟨-, hregister, -⟩, htest⟩ :=
    Fork.exists_step (Slots.numbered (Cell Nat)) lagging
      (Fork.soon, [1], .changeTrust ∅ ((∅ : NodeSet).insert 1))
      (fun _ o => o.register.votes[1]? == some Fork.trunk &&
        (o.register.voters (· == Fork.trunk)).card == 1)
      (by simp [lagging, Request.Apt]) trivial (by decide +kernel)
  have htip := hregister.tipSupport Fork.archive_reachable.sound (show Fork.trunk ∈ _ by decide)
  obtain ⟨-, -, t, hs, -⟩ := hregister
  simp only [Bool.and_eq_true, beq_iff_eq, hs] at htest
  exact ⟨r, o, hr, ho, htest.1, htip.trans (congrArg pure htest.2)⟩

end Register

end ForkChoice

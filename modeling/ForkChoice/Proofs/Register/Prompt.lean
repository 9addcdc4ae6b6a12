import ForkChoice.Proofs.Register.Freshness

/-!
# Ledgers at hand in time

When validations come with the trust in their nodes, and the ledger of each is at hand when it comes,
votes do not lag behind: the vote of a node is for the ledger of its current validation, which is
trusted. Then a node whose trust is taken back has no part in the trie, and the trie never counts a
node whose validation is stale.

* `Register.Backed`: the vote of a node is that of its trusted current validation.
* `Register.Effect.backed`: a request preserves it.
* `Register.prompt_run_backs`: what holds after such a run.
-/

namespace ForkChoice

/-- A request whose validation finds its ledger at hand. -/
def Request.Prompt (env : Surroundings) : Request → Prop
  | .receive _ v => (env.acquire v.ledgerId).isSome
  | _ => True

namespace Register

variable {T : Type} {a : Archive} {env : Surroundings} {r s : Register T} {node n : Nat}
  {v : Validation} {now : Time} {added removed : NodeSet} {trusted : Set Nat}

/-- The vote of a node is for the ledger of its current validation, which is trusted. -/
def Backed (r : Register T) (node : Nat) : Prop :=
  ∀ l, r.votes[node]? = some l →
    ∃ v, r.current[node]? = some v ∧ v.trusted = true ∧ l.id = v.ledgerId

namespace Backed

variable (h : Backed r node)

include h

theorem traced (hin : InStep (node ∈ trusted) r node) : Traced r node where
  votes l hl := by
    obtain ⟨v, hv, -, hid⟩ := h l hl
    exact ⟨v, hv, hid⟩
  waits m hm := by
    obtain ⟨v, hv, -, rfl⟩ := hin.waits m hm
    exact ⟨v, hv, rfl⟩

theorem bystander (hin : InStep (node ∈ trusted) r node) (henv : env.Honest a)
    (hs : Bystander env node r s) : Backed s node := by
  intro l hl
  rw [hs.current]
  rcases hs.of_votes hl with hl | ⟨m, hm, hl⟩
  · exact h l hl
  · obtain ⟨v, hv, htrust, rfl⟩ := hin.waits m hm
    exact ⟨v, hv, htrust, henv.id_eq hl⟩

theorem swept (hs : Swept now r s) : Backed s node := by
  intro l hl
  obtain ⟨hl, hnot⟩ := (hs.votes node l).mp hl
  obtain ⟨v, hv, htrust, hid⟩ := h l hl
  refine ⟨v, (hs.current node v).mpr ?_, htrust, hid⟩
  exact (hs.judged node v hv).resolve_right fun hstale => hnot v hstale hid

/-- A node whose vote is backed has a trusted validation that is current, or its vote lapses. -/
theorem confirmed_or_lapses (hin : InStep (node ∈ trusted) r node) (hs : Swept now r s) :
    r.Confirmed now node ∨ Lapses env r now node := by
  refine or_iff_not_imp_left.mpr fun hnot => ?_
  have hstale : ∀ v, r.current[node]? = some v → v.trusted = true → r.Stale now node v :=
    fun v hv htrust => (hs.judged node v hv).resolve_left fun hfresh => hnot ⟨v, htrust, hfresh⟩
  refine ⟨fun l hl => ?_, fun m hm _ => ?_⟩
  · obtain ⟨v, hv, htrust, hid⟩ := h l hl
    exact ⟨v, hstale v hv htrust, hid⟩
  · obtain ⟨v, hv, htrust, rfl⟩ := hin.waits m hm
    exact ⟨v, hstale v hv htrust, rfl⟩

end Backed

/-! ## One request -/

theorem Received.backed (henv : env.Honest a) (hs : Received env node v r s)
    (hin : ∀ n, InStep (n ∈ trusted) r n) (hr : ∀ n, Backed r n)
    (hv : v.trusted = true ↔ node ∈ trusted) (hl : (env.acquire v.ledgerId).isSome) (n : Nat) :
    Backed s n := by
  rcases hs with huntouched | ⟨installed, huntouched, hs⟩
  · exact (hr n).bystander (hin n) henv (huntouched.bystander env n)
  · have hcurrent : installed.current[node]? = some v := by
      rw [huntouched.current]
      exact Std.ExtTreeMap.getElem?_insert_self
    by_cases hn : node = n
    · subst hn
      by_cases htrust : v.trusted = true
      · rw [if_pos htrust] at hs
        obtain ⟨l, hl⟩ := Option.isSome_iff_exists.mp hl
        intro m hm
        obtain rfl := Option.some.inj ((hs.voted l hl).symm.trans hm)
        exact ⟨v, (current_of_records hs.records).symm ▸ hcurrent, htrust, henv.id_eq hl⟩
      · -- a vote would be that of a trusted validation of a distrusted node
        rw [if_neg htrust] at hs
        subst hs
        intro l hl
        obtain ⟨w, hw, hwt, -⟩ := hr node l (huntouched.votes ▸ hl)
        exact absurd (hv.mpr (((hin node).trust w hw).mp hwt)) htrust
    · have hinstalled := (huntouched.bystander env n).of_insertCurrent hn
      split at hs
      · exact ((hr n).bystander (hin n) henv hinstalled).bystander
          ((hin n).bystander henv hinstalled) henv (hs.bystander hn)
      · exact hs ▸ (hr n).bystander (hin n) henv hinstalled

theorem TrustChangedIn.backed (henv : env.Honest a)
    (hs : TrustChangedIn env added removed (node, v) r s) (hv : r.current[node]? = some v)
    (hin : InStep (node ∈ trusted) r node) (h : Backed r node) : Backed s node := by
  have hcurrent : (r.current.insert node (restamp added removed node v))[node]? =
      some (restamp added removed node v) := Std.ExtTreeMap.getElem?_insert_self
  have hid : ∀ l, r.votes[node]? = some l → l.id = v.ledgerId := by
    intro l hl
    obtain ⟨w, hw, -, hid⟩ := h l hl
    rw [hid, Option.some.inj (hw.symm.trans hv)]
  unfold TrustChangedIn at hs
  dsimp only at hs
  rcases trustAfter_cases added removed node with ⟨hafter, -⟩ | ⟨hafter, -⟩ | ⟨hafter, -⟩
  · have htrust : (restamp added removed node v).trusted = true := by simp [restamp, hafter]
    rw [hafter] at hs
    intro l hl
    refine ⟨_, (current_of_records hs.records).symm ▸ hcurrent, htrust, ?_⟩
    cases hfound : env.acquire v.ledgerId with
    | some m =>
      obtain rfl := Option.some.inj ((hs.voted m hfound).symm.trans hl)
      exact henv.id_eq hfound
    | none =>
      have hwanted : env.acquire (restamp added removed node v).ledgerId = none := hfound
      rcases hs.votes node (by simp [hwanted]) with ⟨hsame, -⟩ | ⟨m, l', ⟨hm, -⟩, hl', hmoved⟩
      · exact hid l (hsame ▸ hl)
      · obtain rfl := Option.some.inj (hmoved.symm.trans hl)
        rw [henv.id_eq hl', hin.mark_eq hv hm]
        rfl
  · rw [hafter] at hs
    intro l hl
    obtain ⟨hl, hne⟩ := (hs.votes node l).mp hl
    exact absurd ⟨rfl, hid l hl⟩ hne
  · rw [hafter] at hs
    exact hs ▸ h

theorem TrustChanged.backed (henv : env.Honest a) (hs : TrustChanged env added removed r s)
    (hin : InStep (node ∈ trusted) r node) (h : Backed r node) : Backed s node :=
  (hs.of_node
    (P := fun r => InStep (node ∈ trusted) r node ∧ Backed r node)
    (Q := fun r => InStep (node ∈ (Request.changeTrust added removed).trustedAfter trusted) r node ∧
      Backed r node)
    (fun hother hr => ⟨hr.1.bystander henv hother, hr.2.bystander hr.1 henv hother⟩)
    (fun hother hr => ⟨hr.1.bystander henv hother, hr.2.bystander hr.1 henv hother⟩)
    (fun hentry hv hr => ⟨hentry.inStep henv hv hr.1, hentry.backed henv hv hr.1 hr.2⟩)
    (fun hnone hr => ⟨hr.1.of_none hnone _, hr.2⟩) ⟨hin, h⟩).2

/-- A request that finds the ledger of its validation at hand keeps the vote of every node backed. -/
theorem Effect.backed (henv : env.Honest a) {request : Request} (hs : Effect env r s request)
    (htruthful : request.Truthful trusted) (hprompt : request.Prompt env)
    (hin : ∀ n, InStep (n ∈ trusted) r n) (hr : ∀ n, Backed r n) (n : Nat) : Backed s n := by
  rcases hs.kinds with ⟨node, v, rfl, hreceived⟩ | ⟨added, removed, rfl, hchanged⟩ | ⟨rfl, -⟩ |
    ⟨-, ⟨now, hswept⟩ | ⟨now, swept, hswept, hsettled⟩ | huntouched⟩
  · exact hreceived.backed henv hin hr htruthful hprompt n
  · exact hchanged.backed henv (hin n) (hr n)
  · exact htruthful.elim
  · exact (hr n).swept hswept
  · exact ((hr n).swept hswept).bystander ((hin n).swept hswept) henv (hsettled.bystander n)
  · exact (hr n).bystander (hin n) henv (huntouched.bystander env n)

/-! ## Runs -/

variable [VoteTrie T] [LawfulVoteTrie T] {requests : List (Surroundings × Request)}

theorem after_backed (ha : a.Sound) (h : Orderly a Set.univ requests)
    (hfaithful : Faithful trusted requests)
    (hprompt : ∀ request ∈ requests, request.2.Prompt request.1) (timing : Timing) :
    Ends Bounded ((empty timing : Register T).after requests) fun r => r.Sound a Set.univ ∧
      ∃ trusted : Set Nat, ∀ n, InStep (n ∈ trusted) r n ∧ Backed r n := by
  refine (after_ends (I := fun rest r => (∀ request ∈ rest, request.2.Prompt request.1) ∧
    ∃ trusted : Set Nat, Faithful trusted rest ∧ ∀ n, InStep (n ∈ trusted) r n ∧ Backed r n)
    ha (fun _ => Or.inl) (room_bounded _) h (sound_empty ha timing)
    ⟨hprompt, trusted, hfaithful, fun n => ⟨inStep_empty timing, fun l hl => ?_⟩⟩ ?_).imp ?_
  · simp [empty] at hl
  · rintro env request rest r s ⟨hprompt, trusted, ⟨htruthful, hfaithful⟩, hr⟩ - henv hs
    refine ⟨fun q hq => hprompt q (List.mem_cons_of_mem _ hq), _, hfaithful, fun n => ⟨?_, ?_⟩⟩
    · exact hs.inStep henv htruthful (fun n => (hr n).1) n
    · exact hs.backed henv htruthful (hprompt _ List.mem_cons_self) (fun n => (hr n).1)
        (fun n => (hr n).2) n
  · rintro r ⟨hsound, -, trusted, -, hr⟩
    exact ⟨hsound, trusted, hr⟩

/-- After a run in which validations come with the trust in their nodes and find their ledgers at
hand, a node whose trust is taken back neither votes nor waits to vote, and a question to the trie
counts only nodes with a trusted validation that is current; when none is, no ledger is preferred and
no node counted. -/
theorem prompt_run_backs {Slot : Type} [DecidableEq Slot] (A : Slots Slot (Cell Slot))
    (ha : a.Reachable) (h : Orderly a Set.univ requests) (hfaithful : Faithful trusted requests)
    (hprompt : ∀ request ∈ requests, request.2.Prompt request.1) (timing : Timing)
    (henv : env.Honest a) :
    Ends Bounded ((empty timing : Register (ArenaTrie A)).after requests) fun r =>
      (∀ node ∈ removed, node ∉ added →
        Ends Bounded (r.step env (.changeTrust added removed)) fun o => o.register.Silent node) ∧
      ∀ request : Request, request.Consults a →
        Ends Bounded (r.step env request) fun o => ∃ now, env.now = .ok now ∧
          (∀ n ∈ o.register.voters fun _ => true, o.register.Confirmed now n) ∧
          ((∀ n v, r.current[n]? = some v → r.Stale now n v) → o.answer.Void) := by
  refine (after_backed ha.sound h hfaithful hprompt timing).imp ?_
  rintro r ⟨hsound, trusted, hr⟩
  have htraced : ∀ n, Traced r n := fun n => (hr n).2.traced (hr n).1
  refine ⟨fun node hremoved hadded => ?_, fun request hconsults => ?_⟩
  · refine (step_ends ha.sound henv (fun _ => Or.inl) (room_bounded _) hsound
      (show (Request.changeTrust added removed).Apt a Set.univ from trivial)).imp ?_
    rintro o ⟨-, hchanged⟩
    exact TrustChanged.silent hchanged henv hremoved hadded (htraced node)
  · refine (consult_ends ha.sound henv (fun _ => Or.inl) (room_bounded _) hsound hconsults).imp ?_
    rintro o ⟨-, ⟨now, hnow, hfresh⟩, hvoid⟩
    obtain ⟨swept, hswept, -⟩ := id hfresh
    refine ⟨now, hnow, hfresh.confirmed_iff.mpr fun n => ?_, fun hstale => hvoid fun n => ?_⟩
    · exact (hr n).2.confirmed_or_lapses (hr n).1 hswept
    · exact hfresh.silent_of_stale (hstale n) (htraced n)

end Register

end ForkChoice

import ForkChoice.Proofs.Register.Voters

/-!
# Votes that wait for their ledger

When validations come with the trust that there is in their nodes, a node waits for at most one
ledger, that of its current validation, and is trusted. The ledger that a trusted node validates is
either awaited or voted for, so that no vote is lost while a ledger is not at hand. After a question
to the trie no ledger that is at hand is awaited any more.

* `Faithful`: validations come with the trust in their nodes, and nothing is flushed.
* `Register.InStep`: what holds of each node then.
* `Register.Effect.inStep`: a request preserves it.
* `Register.run_pending`: it holds after every run.
-/

namespace ForkChoice

/-- The nodes that are trusted after a request. -/
def Request.trustedAfter (trusted : Set Nat) : Request → Set Nat
  | .changeTrust added removed => {n | n ∈ added ∨ n ∈ trusted ∧ n ∉ removed}
  | _ => trusted

/-- A request whose validation comes with the trust in its node, and which does not take all
validations away. -/
def Request.Truthful (trusted : Set Nat) : Request → Prop
  | .receive node v => v.trusted = true ↔ node ∈ trusted
  | .flush => False
  | _ => True

/-- A run in which validations come with the trust in their nodes at that moment, and in which
nothing is flushed. -/
def Faithful : Set Nat → List (Surroundings × Request) → Prop
  | _, [] => True
  | trusted, (_, request) :: rest =>
    request.Truthful trusted ∧ Faithful (request.trustedAfter trusted) rest

/-- A request that looks into the trie. -/
def Request.Consults (a : Archive) : Request → Prop
  | .preferred _ | .preferredId _ _ | .preferredClosed _ _ _ => True
  | .nodesAfter l id => l ∈ a.ledgers ∧ l.id = id
  | _ => False

namespace Register

variable {T : Type} {a : Archive} {env : Surroundings} {r s : Register T} {node n : Nat}
  {v : Validation} {trusted : Prop} {now : Time} {added removed : NodeSet} {prior : Option Mark}

/-- A node waits only for the ledger of its current validation, which is trusted then; and if it is
trusted, that ledger is awaited or voted for. -/
structure InStep (trusted : Prop) (r : Register T) (node : Nat) : Prop where
  trust : ∀ v, r.current[node]? = some v → (v.trusted = true ↔ trusted)
  waits : ∀ m, r.Waits node m → ∃ v, r.current[node]? = some v ∧ v.trusted = true ∧ v.mark = m
  counted : ∀ v, r.current[node]? = some v → v.trusted = true →
    r.Waits node v.mark ∨ ∃ l, r.votes[node]? = some l ∧ l.id = v.ledgerId

theorem inStep_empty [VoteTrie T] (timing : Timing) :
    InStep trusted (empty timing : Register T) node where
  trust v hv := by simp [empty] at hv
  waits m hm := by
    obtain ⟨nodes, hnodes, -⟩ := hm
    simp [empty] at hnodes
  counted v hv := by simp [empty] at hv

namespace InStep

variable (h : InStep trusted r node)

include h

/-- A node without a current validation is neither trusted nor distrusted. -/
theorem of_none (hnone : r.current[node]? = none) (trusted' : Prop) : InStep trusted' r node where
  trust v hv := by
    rw [hnone] at hv
    cases hv
  waits := h.waits
  counted := h.counted

/-- What is awaited is what the current validation names. -/
theorem mark_eq (hv : r.current[node]? = some v) {m : Mark} (hm : r.Waits node m) : m = v.mark := by
  obtain ⟨w, hw, -, rfl⟩ := h.waits m hm
  rw [Option.some.inj (hw.symm.trans hv)]

/-- A node stays in step while something is done about another one. -/
theorem bystander (henv : env.Honest a) (hs : Bystander env node r s) : InStep trusted s node where
  trust v hv := h.trust v (hs.current ▸ hv)
  waits m hm := by
    rw [hs.current]
    exact h.waits m (hs.of_waits hm)
  counted v hv htrusted := by
    rw [hs.current] at hv
    have hcounted := h.counted v hv htrusted
    cases hs with
    | unmoved _ hwaits hvotes =>
      rw [hwaits, hvotes]
      exact hcounted
    | served _ hwaits hvotes =>
      rcases hvotes with ⟨hsame, hnone⟩ | ⟨m, l, hm, hl, hmoved⟩
      · rcases hcounted with hwait | hvote
        · exact Or.inl ((hwaits v.mark).mpr ⟨hwait, hnone v.mark hwait⟩)
        · exact Or.inr (hsame ▸ hvote)
      · refine Or.inr ⟨l, hmoved, ?_⟩
        rw [henv.id_eq hl, h.mark_eq hv hm]
        rfl

theorem swept (hs : Swept now r s) : InStep trusted s node where
  trust v hv := h.trust v ((hs.current node v).mp hv).current
  waits m hm := by
    obtain ⟨hwait, hnot⟩ := (hs.waits node m).mp hm
    obtain ⟨v, hv, htrusted, rfl⟩ := h.waits m hwait
    refine ⟨v, (hs.current node v).mpr ?_, htrusted, rfl⟩
    exact (hs.judged node v hv).resolve_right fun hstale => hnot v hstale rfl
  counted v hv htrusted := by
    have hfresh := (hs.current node v).mp hv
    refine (h.counted v hfresh.current htrusted).imp (fun hwait => ?_) ?_
    · exact (hs.waits node v.mark).mpr ⟨hwait, fun w hw => absurd hw hfresh.not_stale⟩
    · rintro ⟨l, hl, hid⟩
      exact ⟨l, (hs.votes node l).mpr ⟨hl, fun w hw => absurd hw hfresh.not_stale⟩, hid⟩

theorem refreshed (henv : env.Honest a) (hs : Refreshed env now r s) : InStep trusted s node := by
  obtain ⟨swept, hswept, hsettled⟩ := hs
  exact (h.swept hswept).bystander henv (hsettled.bystander node)

end InStep

/-- A node is in step when its current validation was voted for and it waited for nothing else. -/
theorem Enrolled.inStep (henv : env.Honest a) (hs : Enrolled env node v prior r s)
    (hv : r.current[node]? = some v) (htrust : v.trusted = true) (htrusted : trusted)
    (hwaits : ∀ m, r.Waits node m → prior = some m ∨ m = v.mark) : InStep trusted s node := by
  have hcurrent : s.current[node]? = some v := by rw [current_of_records hs.records, hv]
  have hmark : ∀ m, s.Waits node m → m = v.mark := by
    intro m hm
    rcases (hs.waits node m).mp hm with ⟨⟨hm, hprior⟩, -⟩ | ⟨⟨-, rfl⟩, -⟩
    · exact (hwaits m hm).resolve_left fun h => hprior ⟨rfl, h⟩
    · rfl
  refine ⟨fun w hw => ?_, fun m hm => ⟨v, hcurrent, htrust, (hmark m hm).symm⟩, fun w hw _ => ?_⟩
  · obtain rfl := Option.some.inj (hcurrent.symm.trans hw)
    exact ⟨fun _ => htrusted, fun _ => htrust⟩
  · obtain rfl := Option.some.inj (hcurrent.symm.trans hw)
    cases hl : env.acquire v.ledgerId with
    | none => exact Or.inl ((hs.waits node v.mark).mpr (Or.inr ⟨⟨rfl, rfl⟩, hl⟩))
    | some l => exact Or.inr ⟨l, hs.voted l hl, henv.id_eq hl⟩

/-- A node that is not trusted is in step when it waits for nothing. -/
theorem inStep_of_distrusted (hv : r.current[node]? = some v) (htrust : ¬ v.trusted = true)
    (htrusted : ¬ trusted) (hwaits : ∀ m, ¬ r.Waits node m) : InStep trusted r node := by
  refine ⟨fun w hw => ?_, fun m hm => absurd hm (hwaits m), fun w hw ht => ?_⟩
  · obtain rfl := Option.some.inj (hv.symm.trans hw)
    exact iff_of_false htrust htrusted
  · obtain rfl := Option.some.inj (hv.symm.trans hw)
    exact absurd ht htrust

/-! ## One request -/

theorem Received.inStep (henv : env.Honest a) (hs : Received env node v r s) {trusted : Set Nat}
    (hr : ∀ n, InStep (n ∈ trusted) r n) (hv : v.trusted = true ↔ node ∈ trusted) (n : Nat) :
    InStep (n ∈ trusted) s n := by
  rcases hs with huntouched | ⟨installed, huntouched, hs⟩
  · exact (hr n).bystander henv (huntouched.bystander env n)
  · have hwaits : ∀ m, installed.Waits node m → r.current[node]?.map (·.mark) = some m := by
      intro m hm
      obtain ⟨w, hw, -, rfl⟩ := (hr node).waits m (huntouched.waits.mp hm)
      rw [hw]
      rfl
    have hcurrent : installed.current[node]? = some v := by
      rw [huntouched.current]
      exact Std.ExtTreeMap.getElem?_insert_self
    by_cases hn : node = n
    · subst hn
      by_cases htrust : v.trusted = true
      · rw [if_pos htrust] at hs
        exact hs.inStep henv hcurrent htrust (hv.mp htrust) fun m hm => Or.inl (hwaits m hm)
      · rw [if_neg htrust] at hs
        subst hs
        refine inStep_of_distrusted hcurrent htrust (hv.not.mp htrust) fun m hm => ?_
        -- what it waited for would be the ledger of a trusted validation of a distrusted node
        obtain ⟨w, hw, hwt, -⟩ := (hr node).waits m (huntouched.waits.mp hm)
        exact htrust (hv.mpr (((hr node).trust w hw).mp hwt))
    · have hother := (hr n).bystander henv ((huntouched.bystander env n).of_insertCurrent hn)
      split at hs
      · exact hother.bystander henv (hs.bystander hn)
      · exact hs ▸ hother

theorem TrustChangedIn.inStep (henv : env.Honest a)
    (hs : TrustChangedIn env added removed (node, v) r s) (hv : r.current[node]? = some v)
    {trusted : Set Nat} (h : InStep (node ∈ trusted) r node) :
    InStep (node ∈ (Request.changeTrust added removed).trustedAfter trusted) s node := by
  have hcurrent : (r.current.insert node (restamp added removed node v))[node]? =
      some (restamp added removed node v) := Std.ExtTreeMap.getElem?_insert_self
  unfold TrustChangedIn at hs
  dsimp only at hs
  rcases trustAfter_cases added removed node with
    ⟨hafter, hadded⟩ | ⟨hafter, hadded, hremoved⟩ | ⟨hafter, hadded, hremoved⟩
  · have htrust : (restamp added removed node v).trusted = true := by simp [restamp, hafter]
    rw [hafter] at hs
    exact Enrolled.inStep henv hs hcurrent htrust (Or.inl hadded)
      fun m hm => Or.inr (h.mark_eq hv hm)
  · have htrust : ¬ (restamp added removed node v).trusted = true := by simp [restamp, hafter]
    rw [hafter] at hs
    refine inStep_of_distrusted ((current_of_records hs.records).symm ▸ hcurrent) htrust ?_ ?_
    · rintro (hmem | ⟨-, hmem⟩)
      · exact hadded hmem
      · exact hmem hremoved
    · intro m hm
      obtain ⟨hm, hmark⟩ := (hs.waits node m).mp hm
      exact hmark ⟨rfl, h.mark_eq hv hm⟩
  · rw [hafter] at hs
    subst hs
    refine ⟨fun w hw => (h.trust w hw).trans ⟨fun hmem => Or.inr ⟨hmem, hremoved⟩, ?_⟩, h.waits,
      h.counted⟩
    rintro (hmem | ⟨hmem, -⟩)
    · exact absurd hmem hadded
    · exact hmem

theorem TrustChanged.inStep (henv : env.Honest a) (hs : TrustChanged env added removed r s)
    {trusted : Set Nat} (h : InStep (node ∈ trusted) r node) :
    InStep (node ∈ (Request.changeTrust added removed).trustedAfter trusted) s node :=
  hs.of_node (P := fun r => InStep (node ∈ trusted) r node)
    (Q := fun r => InStep (node ∈ (Request.changeTrust added removed).trustedAfter trusted) r node)
    (fun hother hr => hr.bystander henv hother) (fun hother hr => hr.bystander henv hother)
    (fun hentry hv hr => hentry.inStep henv hv hr) (fun hnone hr => hr.of_none hnone _) h

/-- The kinds of effects: a validation is taken in, the trust in nodes changes, all validations are
taken away, or the trust stays as it is and the register is swept, perhaps brought up to date, or its
votes are left alone. -/
theorem Effect.kinds {request : Request} (hs : Effect env r s request) :
    (∃ node v, request = .receive node v ∧ Received env node v r s) ∨
    (∃ added removed, request = .changeTrust added removed ∧ TrustChanged env added removed r s) ∨
    (request = .flush ∧ s = { r with current := ∅ }) ∨
    (∀ trusted, request.trustedAfter trusted = trusted) ∧
      ((∃ now, Swept now r s) ∨ (∃ now, Refreshed env now r s) ∨ Untouched r s) := by
  cases request with
  | receive node v => exact Or.inl ⟨node, v, rfl, hs⟩
  | changeTrust added removed => exact Or.inr (Or.inl ⟨added, removed, rfl, hs⟩)
  | flush => exact Or.inr (Or.inr (Or.inl ⟨rfl, hs⟩))
  | nodesAfter l id =>
    refine Or.inr (Or.inr (Or.inr ⟨fun _ => rfl, ?_⟩))
    rw [Effect] at hs
    split at hs
    · obtain ⟨now, -, hs⟩ := hs
      exact Or.inr (Or.inl ⟨now, hs⟩)
    · exact Or.inr (Or.inr (hs ▸ ⟨rfl, rfl, rfl, rfl, rfl⟩))
  | preferred curr | preferredId curr least | preferredClosed closed least counts =>
    obtain ⟨now, -, hs⟩ := hs
    exact Or.inr (Or.inr (Or.inr ⟨fun _ => rfl, Or.inr (Or.inl ⟨now, hs⟩)⟩))
  | currentTrusted | currentNodes | laggards seq keys =>
    obtain ⟨now, -, hs⟩ := hs
    exact Or.inr (Or.inr (Or.inr ⟨fun _ => rfl, Or.inl ⟨now, hs⟩⟩))
  | mayValidate seq | keep low high | expire | countTrusted id | trustedFor id seq | fees id base =>
    exact Or.inr (Or.inr (Or.inr ⟨fun _ => rfl, Or.inr (Or.inr hs)⟩))

/-- A request keeps every node in step. -/
theorem Effect.inStep (henv : env.Honest a) {request : Request}
    (hs : Effect env r s request) {trusted : Set Nat} (htruthful : request.Truthful trusted)
    (hr : ∀ n, InStep (n ∈ trusted) r n) (n : Nat) :
    InStep (n ∈ request.trustedAfter trusted) s n := by
  rcases hs.kinds with ⟨node, v, rfl, hreceived⟩ | ⟨added, removed, rfl, hchanged⟩ | ⟨rfl, -⟩ |
    ⟨hsame, ⟨now, hswept⟩ | ⟨now, hrefreshed⟩ | huntouched⟩
  · exact hreceived.inStep henv hr htruthful n
  · exact hchanged.inStep henv (hr n)
  · exact htruthful.elim
  · exact (hsame trusted).symm ▸ (hr n).swept hswept
  · exact (hsame trusted).symm ▸ (hr n).refreshed henv hrefreshed
  · exact (hsame trusted).symm ▸ (hr n).bystander henv (huntouched.bystander env n)

/-- A question to the trie comes after the register was brought up to date. -/
theorem Effect.refreshed {request : Request} (hs : Effect env r s request)
    (hconsults : request.Consults a) : ∃ now, env.now = .ok now ∧ Refreshed env now r s := by
  cases request with
  | preferred curr => exact hs
  | preferredId curr least => exact hs
  | preferredClosed closed least counts => exact hs
  | nodesAfter l id =>
    rw [Effect, if_pos hconsults.2] at hs
    exact hs
  | _ => exact hconsults.elim

/-! ## Runs -/

variable [VoteTrie T] [LawfulVoteTrie T] {requests : List (Surroundings × Request)}

/-- The faults of a run of any number of nodes. -/
def Bounded (fault : Fault) : Prop := fault.External ∨ fault = .supportOverflow

theorem room_bounded (nodes : Set Nat) : Room Bounded nodes := fun _ _ _ => Or.inr rfl

theorem after_inStep (ha : a.Sound) {trusted : Set Nat} (h : Orderly a Set.univ requests)
    (hfaithful : Faithful trusted requests) (timing : Timing) :
    Ends Bounded ((empty timing : Register T).after requests) fun r =>
      r.Sound a Set.univ ∧ ∃ trusted : Set Nat, ∀ n, InStep (n ∈ trusted) r n := by
  refine (after_ends (I := fun rest r => ∃ trusted : Set Nat, Faithful trusted rest ∧
    ∀ n, InStep (n ∈ trusted) r n) ha (fun _ => Or.inl) (room_bounded _) h (sound_empty ha timing)
    ⟨trusted, hfaithful, fun n => inStep_empty timing⟩ ?_).imp ?_
  · rintro env request rest r s ⟨trusted, ⟨htruthful, hfaithful⟩, hr⟩ - henv hs
    exact ⟨_, hfaithful, hs.inStep henv htruthful hr⟩
  · rintro r ⟨hsound, trusted, -, hr⟩
    exact ⟨hsound, trusted, hr⟩

/-- After every run in which validations come with the trust in their nodes and nothing is flushed, a
node waits only for the ledger of its current validation, which is trusted, and nobody waits in
vain; the ledger of a trusted current validation is awaited or voted for. A question to the trie
leaves no ledger awaited that is at hand, so that it counts the trusted current validations of all
of those. -/
theorem run_pending {Slot : Type} [DecidableEq Slot] (A : Slots Slot (Cell Slot))
    (ha : a.Reachable) {trusted : Set Nat} (h : Orderly a Set.univ requests)
    (hfaithful : Faithful trusted requests) (timing : Timing) :
    Ends Bounded ((empty timing : Register (ArenaTrie A)).after requests) fun r =>
      (∀ n mark, r.Waits n mark →
        ∃ v, r.current[n]? = some v ∧ v.trusted = true ∧ mark = ⟨v.seq, v.ledgerId⟩) ∧
      (∀ (mark : Mark) (nodes : NodeSet), r.awaited[mark]? = some nodes → nodes ≠ ∅) ∧
      (∀ n v, r.current[n]? = some v → v.trusted = true →
        r.Waits n ⟨v.seq, v.ledgerId⟩ ∨ ∃ l, r.votes[n]? = some l ∧ l.id = v.ledgerId) ∧
      ∀ env request, env.Honest a → request.Consults a →
        Ends Bounded (r.step env request) fun o =>
          (∀ mark ∈ o.register.awaited, env.acquire mark.id = none) ∧
          ∀ n v l, o.register.current[n]? = some v → v.trusted = true →
            env.acquire v.ledgerId = some l → n ∈ o.register.voters (· == l) ∧
              o.register.trie.tipSupport l = pure (o.register.voters (· == l)).card := by
  refine (after_inStep ha.sound h hfaithful timing).imp ?_
  rintro r ⟨hsound, trusted, hr⟩
  refine ⟨fun n mark hn => ?_, fun mark nodes hnodes => ?_, fun n v hv htrust => ?_,
    fun env request henv hconsults => ?_⟩
  · obtain ⟨v, hv, htrust, rfl⟩ := (hr n).waits mark hn
    exact ⟨v, hv, htrust, rfl⟩
  · rintro rfl
    have hmark : mark ∈ r.awaited := by
      rw [Std.ExtTreeMap.mem_iff_isSome_getElem?, hnodes]
      rfl
    obtain ⟨n, nodes, hn, hmem⟩ := hsound.awaited mark hmark
    obtain rfl := Option.some.inj (hnodes.symm.trans hn)
    exact Std.ExtTreeSet.not_mem_empty hmem
  · exact (hr n).counted v hv htrust
  · have hapt : request.Apt a Set.univ := by
      cases request with
      | receive node v => exact hconsults.elim
      | nodesAfter l id => exact hconsults.1
      | _ => trivial
    refine (step_ends ha.sound henv (fun _ => Or.inl) (room_bounded _) hsound hapt).imp ?_
    rintro o ⟨hs, heffect⟩
    obtain ⟨now, -, swept, hswept, hsettled⟩ := heffect.refreshed hconsults
    have hstep : ∀ n, InStep (n ∈ trusted) o.register n := fun n =>
      ((hr n).swept hswept).bystander henv (hsettled.bystander n)
    have hnone : ∀ n mark, o.register.Waits n mark → env.acquire mark.id = none := by
      intro n mark hn
      simpa using ((hsettled.waits n mark).mp hn).2
    refine ⟨fun mark hmark => ?_, fun n v l hv htrust hl => ?_⟩
    · obtain ⟨n, hn⟩ := hs.awaited mark hmark
      exact hnone n mark hn
    · rcases (hstep n).counted v hv htrust with hwait | ⟨m, hm, hid⟩
      · have := hl.symm.trans (hnone n v.mark hwait)
        cases this
      · have hml : m = l := ha.sound.eq_of_id (hs.drawn_of_getElem? hm) (henv.drawn hl)
          (hid.trans (henv.id_eq hl).symm)
        exact ⟨mem_votersIn.mpr ⟨m, hm, by simp [hml]⟩, hs.tipSupport ha.sound (henv.drawn hl)⟩

/-- A node validates the left side, which is not at hand. -/
def ahead : List Fork.Line :=
  [(Fork.early, [], .receive 1 (Fork.word 1 Fork.left Fork.early))]

/-- The node waits, and has its vote when the ledger is at hand. -/
theorem run_pending_fork :
    ∃ r o, (empty {} : Register (ArenaTrie (Slots.numbered (Cell Nat)))).after
        (Fork.script ahead) = pure r ∧ r.Waits 1 ⟨2, 2⟩ ∧
      r.step (Fork.world Fork.soon [2]) (.preferred .genesis) = pure o ∧
      1 ∈ o.register.voters (· == Fork.left) := by
  obtain ⟨r, o, s, o', hr, ho, ⟨-, -, t, rfl, -⟩, ⟨-, ⟨-, -, u, hu, -⟩, -⟩, htest⟩ :=
    Fork.exists_step (Slots.numbered (Cell Nat)) ahead (Fork.soon, [2], .preferred .genesis)
      (fun s o => s.current[1]? == some (Fork.word 1 Fork.left Fork.early) &&
        s.votes[1]? == none &&
        o.register.current[1]? == some (Fork.word 1 Fork.left Fork.early))
      (by simp [ahead, Request.Apt]) trivial (by decide +kernel)
  simp only [Bool.and_eq_true, beq_iff_eq, hu] at htest
  obtain ⟨⟨hcurrent, hvotes⟩, hafter⟩ := htest
  have hfaithful : Faithful {1} (Fork.script ahead) := by
    simp [Fork.script, ahead, Faithful, Request.Truthful, Fork.word]
  obtain ⟨-, -, hcounted, hquestion⟩ := (run_pending (Slots.numbered (Cell Nat))
    Fork.archive_reachable (Fork.orderly_script ahead (by simp [ahead, Request.Apt])) hfaithful
    {}).result hr
  refine ⟨r, o, hr, (hcounted 1 _ hcurrent rfl).resolve_right ?_, ho, ?_⟩
  · rintro ⟨l, hl, -⟩
    have := hl.symm.trans hvotes
    cases this
  · have hanswer := (hquestion _ (.preferred .genesis) (Fork.honest Fork.soon [2]) trivial).result ho
    exact (hanswer.2 1 _ Fork.left hafter rfl rfl).1

end Register

end ForkChoice

import ForkChoice.Proofs.Register.Assessment
import ForkChoice.Proofs.Register.History
import ForkChoice.Proofs.Register.Quiet

/-!
# A register without what some nodes said

Of two registers the one is the shadow of the other when it lacks the validations of some nodes, and
these neither vote nor wait in either. Their guards may differ as far as makes no difference to what
passes them. Then every request is carried out on the shadow as on the register, and the one stays the
shadow of the other. What is taken in from the nodes that the shadow lacks does not reach it.

* `Tolerant`: what may differ in two guards without a difference to what passes them.
* `Register.Shadow`: the relation.
* `Register.step_shadows`: a request to the register and to its shadow.
* `Register.Shadow.receive_unheard`: a validation that does not reach the shadow.
* `Register.History.shadowed`: a history of the register and the one of its shadow.
-/

namespace ForkChoice

variable {T α : Type} {env : Surroundings}

/-! ## Guards -/

/-- Related guards let the same pass at a time, and are related after it. -/
def Tolerant (G : SequenceGuard → SequenceGuard → Prop) (timing : Timing) (now : Time) : Prop :=
  ∀ g h seq answer, G g h → g.advance timing now seq = .ok answer →
    ∃ guard, h.advance timing now seq = .ok (answer.1, guard) ∧ G answer.2 guard

theorem tolerant_eq (timing : Timing) (now : Time) : Tolerant Eq timing now := by
  rintro g _ seq answer rfl hadvance
  exact ⟨answer.2, hadvance, rfl⟩

namespace Verdict

/-- A validation was refused, for whatever reason. -/
def Refusal (verdict : Verdict) : Prop :=
  verdict = .badSeq ∨ verdict = .multiple ∨ verdict = .conflicting

theorem refusal_ofRefused {tracked v : Validation} : (ofRefused tracked v).Refusal := by
  unfold ofRefused Refusal
  repeat' split
  all_goals simp

end Verdict

/-- The requests whose answers tell nothing of nodes that are not trusted: those for the ledger to work
on, for the voters after a ledger, for what counts, for leave to validate, and those that take a
validation in. -/
def Request.Guarded : Request → Prop
  | .receive _ _ | .mayValidate _ | .preferred _ | .preferredId _ _ | .preferredClosed _ _ _
  | .nodesAfter _ _ | .currentTrusted => True
  | _ => False

/-- A request takes in a validation from one of some nodes. -/
def Request.isFrom (U : Set Nat) [DecidablePred (· ∈ U)] : Request → Bool
  | .receive node _ => node ∈ U
  | _ => false

/-- A request gives no trust to some nodes: neither does it trust what it takes in from them, nor does
it change the trust in them but to take it away. -/
def Request.Distrusts (U : Set Nat) : Request → Prop
  | .receive node v => node ∈ U → v.trusted = false
  | .changeTrust added _ => ∀ n ∈ U, n ∉ added
  | _ => True

/-- Two answers are the same, or both say that a validation was refused. -/
def Reply.Like (a b : Reply) : Prop :=
  b = a ∨ ∃ v w, a = .verdict v ∧ b = .verdict w ∧ v.Refusal ∧ w.Refusal

/-- An event of the register and the one of its shadow: the same was requested in the same surroundings,
so that also the tables come up in the same order, and the outcomes are alike. -/
structure Event.Echoes (U : Set Nat) (e e' : Event T) : Prop where
  env : e'.env = e.env
  request : e'.request = e.request
  answer : e.request.Guarded ∨ U = ∅ → e.outcome.answer.Like e'.outcome.answer
  retired : U = ∅ → e'.outcome.retired = e.outcome.retired

/-- Validations come equally far, with guards that are related. -/
inductive Stage.Alike (G : SequenceGuard → SequenceGuard → Prop) : Stage → Stage → Prop
  | ignored : Alike G .ignored .ignored
  | refused {g h : SequenceGuard} (guards : G g h) : Alike G (.refused g) (.refused h)
  | late {g h : SequenceGuard} (guards : G g h) : Alike G (.late g) (.late h)
  | installed {g h : SequenceGuard} (guards : G g h) : Alike G (.installed g) (.installed h)

namespace Register

variable {r s r' s' : Register T} {node n : Nat} {v : Validation} {U but : Set Nat}
  [DecidablePred (· ∈ U)] {G : SequenceGuard → SequenceGuard → Prop}

/-! ## The relation -/

/-- The current validations of the nodes outside a set. -/
def without (U : Set Nat) [DecidablePred (· ∈ U)] (current : ValidationSet) : ValidationSet :=
  current.filter fun n _ => n ∉ U

/-- The register `s` is the register `r` without what the nodes `U` said. They neither vote nor wait,
and are not trusted. Guards of other nodes may differ, and sets of validations too unless `U` is
empty. -/
structure Shadow (U : Set Nat) [DecidablePred (· ∈ U)] (G : SequenceGuard → SequenceGuard → Prop)
    (r s : Register T) : Prop where
  same : ∃ current guards byLedger bySeq, s = { r with current, guards, byLedger, bySeq }
  current : s.current = without U r.current
  guards : ∀ n, n ∉ U → G (r.guards.getD n {}) (s.guards.getD n {})
  byLedger : U = ∅ → s.byLedger = r.byLedger
  awaited : ∀ n ∈ U, r.Awaited
  silent : ∀ n ∈ U, r.Silent n
  untrusted : ∀ n ∈ U, ∀ v, r.current[n]? = some v → v.trusted = false

theorem getElem?_without (current : ValidationSet) (n : Nat) :
    (without U current)[n]? = if n ∈ U then none else current[n]? := by
  rw [without, Std.ExtTreeMap.getElem?_filter']
  by_cases hn : n ∈ U <;> cases current[n]? <;> simp [hn]

theorem without_congr {current current' : ValidationSet}
    (h : ∀ n, n ∉ U → current[n]? = current'[n]?) : without U current = without U current' := by
  refine Std.ExtTreeMap.ext_getElem? fun n => ?_
  rw [getElem?_without, getElem?_without]
  split
  · rfl
  · rename_i hn
    exact h n hn

theorem without_empty (hU : U = ∅) (current : ValidationSet) : without U current = current := by
  refine Std.ExtTreeMap.ext_getElem? fun n => ?_
  rw [getElem?_without, if_neg (hU ▸ Set.notMem_empty n)]

theorem without_insert_self (current : ValidationSet) (hnode : node ∈ U) (v : Validation) :
    without U (current.insert node v) = without U current := by
  refine without_congr fun n hn => ?_
  have hne : node ≠ n := fun heq => hn (heq ▸ hnode)
  rw [Std.ExtTreeMap.getElem?_insert, if_neg (Nat.compare_eq_eq.not.mpr hne)]

theorem without_erase_self (current : ValidationSet) (hnode : node ∈ U) :
    without U (current.erase node) = without U current := by
  refine without_congr fun n hn => ?_
  have hne : node ≠ n := fun heq => hn (heq ▸ hnode)
  rw [Std.ExtTreeMap.getElem?_erase, if_neg (Nat.compare_eq_eq.not.mpr hne)]

theorem without_insert (current : ValidationSet) (hnode : node ∉ U) (v : Validation) :
    without U (current.insert node v) = (without U current).insert node v := by
  refine Std.ExtTreeMap.ext_getElem? fun n => ?_
  simp only [getElem?_without, Std.ExtTreeMap.getElem?_insert, Nat.compare_eq_eq]
  by_cases hn : node = n
  · rw [if_neg (hn ▸ hnode), if_pos hn, if_pos hn]
  · rw [if_neg hn, if_neg hn]

theorem without_erase (current : ValidationSet) (node : Nat) :
    without U (current.erase node) = (without U current).erase node := by
  refine Std.ExtTreeMap.ext_getElem? fun n => ?_
  simp only [getElem?_without, Std.ExtTreeMap.getElem?_erase]
  split <;> split <;> rfl

namespace Shadow

variable (h : Shadow U G r s)

include h

theorem upon : s = r.upon s := by
  obtain ⟨_, _, _, _, rfl⟩ := h.same
  rfl

theorem timing : s.timing = r.timing := by
  obtain ⟨_, _, _, _, rfl⟩ := h.same
  rfl

theorem own : s.own = r.own := by
  obtain ⟨_, _, _, _, rfl⟩ := h.same
  rfl

theorem getElem?_current (hn : n ∉ U) : s.current[n]? = r.current[n]? := by
  rw [h.current, getElem?_without, if_neg hn]

/-- What the register holds comes up in the same order in its shadow. -/
theorem entries (env : Surroundings) :
    s.entries env = (r.entries env).filter fun entry => entry.1 ∉ U := by
  rw [Register.entries, Register.entries, h.current, without, Std.ExtTreeMap.toList_filter, byRank_filter]

/-- Other current validations. -/
theorem withCurrents (current current' : ValidationSet) (hcurrent : current' = without U current)
    (huntrusted : ∀ n ∈ U, ∀ v, current[n]? = some v → v.trusted = false) :
    Shadow U G { r with current } { s with current := current' } := by
  obtain ⟨⟨_, _, _, _, rfl⟩, -, hguards, hbyLedger, hawaited, hsilent, -⟩ := h
  exact ⟨⟨_, _, _, _, rfl⟩, hcurrent, hguards, hbyLedger, hawaited,
    fun n hn => ⟨(hsilent n hn).votes, (hsilent n hn).waits⟩, huntrusted⟩

theorem erase (node : Nat) : Shadow U G { r with current := r.current.erase node }
    { s with current := s.current.erase node } :=
  h.withCurrents _ _ (by rw [without_erase, h.current])
    fun n hn v hv => h.untrusted n hn v (getElem?_of_erase hv)

theorem erase_unheard (hnode : node ∈ U) :
    Shadow U G { r with current := r.current.erase node } s :=
  h.withCurrents _ s.current (by rw [without_erase_self _ hnode, h.current])
    fun n hn v hv => h.untrusted n hn v (getElem?_of_erase hv)

theorem untrusted_insert (hnode : node ∈ U → v.trusted = false) : ∀ n ∈ U, ∀ w,
    (r.current.insert node v)[n]? = some w → w.trusted = false := by
  intro n hn w hw
  rw [Std.ExtTreeMap.getElem?_insert] at hw
  split at hw
  · rename_i heq
    obtain rfl := Nat.compare_eq_eq.mp heq
    exact Option.some.inj hw ▸ hnode hn
  · exact h.untrusted n hn w hw

theorem insert (hnode : node ∉ U) (v : Validation) :
    Shadow U G (r.withCurrent node v) (s.withCurrent node v) :=
  h.withCurrents _ _ (by rw [without_insert _ hnode, h.current])
    (h.untrusted_insert fun hU => absurd hU hnode)

theorem insert_unheard (hnode : node ∈ U) (hv : v.trusted = false) :
    Shadow U G (r.withCurrent node v) s :=
  h.withCurrents _ s.current (by rw [without_insert_self _ hnode, h.current])
    (h.untrusted_insert fun _ => hv)

/-- Records other than current validations change. -/
theorem untouched (hr : Untouched r r')
    (hsame : ∃ current guards byLedger bySeq, s' = { r' with current, guards, byLedger, bySeq })
    (hcurrent : s'.current = s.current)
    (hguards : ∀ n, n ∉ U → G (r'.guards.getD n {}) (s'.guards.getD n {}))
    (hbyLedger : U = ∅ → s'.byLedger = r'.byLedger) : Shadow U G r' s' := by
  have hwaits (n : Nat) (m : Mark) : r'.Waits n m ↔ r.Waits n m := hr.waits
  refine ⟨hsame, by rw [hcurrent, h.current, hr.current], hguards, hbyLedger, fun n hn m hm => ?_,
    fun n hn => ⟨by rw [hr.votes, (h.silent n hn).votes], fun m hm => ?_⟩, ?_⟩
  · obtain ⟨n', hn'⟩ := h.awaited n hn m (hr.awaited ▸ hm)
    exact ⟨n', (hwaits n' m).mpr hn'⟩
  · exact (h.silent n hn).waits m ((hwaits n m).mp hm)
  · rw [hr.current]
    exact h.untrusted

/-- Votes and waits of the register change, and those of its shadow with them. -/
theorem votes_change (hrecords : r'.records = r.records) (hquiet : Quiet but r r')
    (hbut : ∀ n ∈ U, n ∉ but) : Shadow U G r' (r'.upon s) := by
  have hr' : r' = r'.upon r := eq_upon_of_records hrecords
  obtain ⟨⟨current, guards, byLedger, bySeq, rfl⟩, hcurrent, hguards, hbyLedger, hawaited, hsilent,
    huntrusted⟩ := h
  have hsame : r'.upon { r with current, guards, byLedger, bySeq } =
      { r' with current, guards, byLedger, bySeq } := by
    conv_rhs => rw [hr']
    rfl
  refine ⟨⟨_, _, _, _, hsame⟩, ?_, ?_, ?_, fun n hn => hquiet.awaited (hawaited n hn),
    fun n hn => hquiet.silent n (hbut n hn) (hsilent n hn), ?_⟩
  · rw [hr']
    exact hcurrent
  · rw [hr']
    exact hguards
  · rw [hr']
    exact hbyLedger
  · rw [hr']
    exact huntrusted

/-! ## Votes and waits -/

/-- What is done to the votes and waits of the register can be done to those of its shadow. -/
theorem follows (f : Register T → Computation (Register T))
    (hupon : f (r.upon s) = (·.upon s) <$> f r) (hrecords : Gives (f r) fun r' => r'.records = r.records)
    (hquiet : Gives (f r) (Quiet but r)) (hbut : ∀ n ∈ U, n ∉ but) :
    Follows (f r) (f s) (Shadow U G) := by
  rw [← h.upon] at hupon
  rw [hupon]
  exact Follows.map_self (fun r' hr' => And.intro (hrecords r' hr') (hquiet r' hr'))
    fun r' hr' => h.votes_change hr'.1 hr'.2 hbut

variable [VoteTrie T]

theorem settle (env : Surroundings) : Follows (r.settle env) (s.settle env) (Shadow U G) :=
  h.follows (fun r => r.settle env) (settle_upon r s env) (settle_records r env) (settle_quiet r env)
    fun n _ => Set.notMem_empty n

theorem enroll (env : Surroundings) (hnode : node ∉ U) (v : Validation) (prior : Option Mark) :
    Follows (r.enroll env node v prior) (s.enroll env node v prior) (Shadow U G) :=
  h.follows (fun r => r.enroll env node v prior) (enroll_upon r s env node v prior)
    (enroll_records r env node v prior) (enroll_quiet r env node v prior)
    fun _ hn heq => hnode (Set.mem_singleton_iff.mp heq ▸ hn)

theorem dismiss (node : Nat) (v : Validation) :
    Follows (r.dismiss node v) (s.dismiss node v) (Shadow U G) :=
  h.follows (fun r => r.dismiss node v) (dismiss_upon r s node v) (dismiss_records r node v)
    (dismiss_quiet r node v) fun n _ => Set.notMem_empty n

theorem retire (entry : Nat × Validation) :
    Follows (Register.retire r entry) (Register.retire s entry) (Shadow U G) :=
  (h.erase entry.1).dismiss entry.1 entry.2

/-- What a node said that the shadow lacks is turned out without a trace. -/
theorem retire_unheard {entry : Nat × Validation} (hnode : entry.1 ∈ U) :
    Gives (Register.retire r entry) fun r' => Shadow U G r' s := by
  have herase := h.erase_unheard hnode
  rw [Register.retire, dismiss_silent (herase.awaited _ hnode) (herase.silent _ hnode)]
  exact Gives.pure herase

end Shadow

/-! ## Sweeping -/

/-- Outcomes of one request to a register and to its shadow. -/
structure Shadowed (U : Set Nat) [DecidablePred (· ∈ U)]
    (G : SequenceGuard → SequenceGuard → Prop) (R : α → α → Prop) (o o' : Outcome T α) : Prop where
  register : Shadow U G o.register o'.register
  answer : R o.answer o'.answer
  retired : U = ∅ → o'.retired = o.retired

variable [VoteTrie T] {R : α → α → Prop}

theorem Shadow.sweep (h : Shadow U G r s) (env : Surroundings) :
    Follows (r.sweep env) (s.sweep env) (Shadowed U G fun _ _ => True) := by
  rw [Register.sweep, Register.sweep, h.timing, h.entries env]
  refine (Follows.refl (liftM env.now)).bind ?_
  rintro now _ rfl
  refine Follows.bind (R := fun stale stale' => stale' = stale.filter fun e => e.1 ∉ U)
    (Follows.liftM fun stale hstale => ?_) ?_
  · obtain ⟨hjudged, rfl⟩ := staleAmong_eq_ok.mp hstale
    refine ⟨_, staleAmong_eq_ok.mpr ⟨fun e he => hjudged e (List.mem_filter.mp he).1, rfl⟩, ?_⟩
    exact List.filter_comm _ _ _
  · rintro stale _ rfl
    refine Follows.bind (R := Shadow U G) (Follows.foldlM_filter h
      (fun e _ _ _ _ h => h.retire e) fun e _ hp _ _ h => ?_) fun r' s' h' => ?_
    · exact h.retire_unheard (not_not.mp (of_decide_eq_false hp))
    · refine Follows.pure ⟨h', trivial, fun hU => ?_⟩
      rw [List.filter_eq_self.mpr fun e _ => decide_eq_true (hU ▸ Set.notMem_empty e.1)]

theorem Shadow.refresh (h : Shadow U G r s) (env : Surroundings) :
    Follows (r.refresh env) (s.refresh env) (Shadowed U G fun _ _ => True) := by
  rw [Register.refresh, Register.refresh]
  refine (h.sweep env).bind fun o o' ho => (ho.register.settle env).bind fun r' s' h' => ?_
  exact Follows.pure ⟨h', trivial, ho.retired⟩

/-! ## Receiving validations -/

section Entering

omit [VoteTrie T]

variable {stage stage' : Stage}

theorem Shadow.assess (h : Shadow U G r s) (hG : Tolerant G r.timing env.steady) (hnode : node ∉ U)
    (hstage : r.assess env node v = .ok stage) :
    ∃ stage', s.assess env node v = .ok stage' ∧ Stage.Alike G stage stage' := by
  have hguard {rising : Bool} {guard : SequenceGuard}
      (hadvanced : (r.guards.getD node {}).advance r.timing env.steady v.seq = .ok (rising, guard)) :
      ∃ guard', (s.guards.getD node {}).advance s.timing env.steady v.seq = .ok (rising, guard') ∧
        G guard guard' := by
    rw [h.timing]
    exact hG _ _ _ _ (h.guards node hnode) hadvanced
  simp only [assess_eq_ok] at hstage ⊢
  cases hstage with
  | ignored hnow hstale => exact ⟨_, .ignored hnow (by rwa [h.timing]), .ignored⟩
  | refused hnow hfresh hadvanced =>
    obtain ⟨guard', hadvanced', hG⟩ := hguard hadvanced
    exact ⟨_, .refused hnow (by rwa [h.timing]) hadvanced', .refused hG⟩
  | late hnow hfresh hadvanced holder =>
    obtain ⟨guard', hadvanced', hG⟩ := hguard hadvanced
    exact ⟨_, .late hnow (by rwa [h.timing]) hadvanced' (by rwa [h.getElem?_current hnode]), .late hG⟩
  | installed hnow hfresh hadvanced hnewer =>
    obtain ⟨guard', hadvanced', hG⟩ := hguard hadvanced
    exact ⟨_, .installed hnow (by rwa [h.timing]) hadvanced' (by rwa [h.getElem?_current hnode]),
      .installed hG⟩

/-- A validation is tracked and passes related guards. -/
theorem Shadow.track (h : Shadow U G r s) (env : Surroundings) (node : Nat) (v : Validation)
    {guard guard' : SequenceGuard} (hG : G guard guard') :
    Shadow U G ((r.track env node v).withGuard node guard)
      ((s.track env node v).withGuard node guard') := by
  refine h.untouched ⟨rfl, rfl, rfl, rfl, rfl⟩ ?_ rfl (fun n hn => ?_) h.byLedger
  · obtain ⟨_, _, _, _, rfl⟩ := h.same
    exact ⟨_, _, _, _, rfl⟩
  · simp only [withGuard, Register.track, Std.ExtTreeMap.getD_insert]
    split
    · exact hG
    · exact h.guards n hn

theorem Shadow.file (h : Shadow U G r s) (env : Surroundings) (node : Nat) (v : Validation) :
    Shadow U G (r.file env node v) (s.file env node v) := by
  refine h.untouched ⟨rfl, rfl, rfl, rfl, rfl⟩ ?_ rfl h.guards fun hU => ?_
  · obtain ⟨_, _, _, _, rfl⟩ := h.same
    exact ⟨_, _, _, _, rfl⟩
  · rw [Register.file, Register.file, h.byLedger hU]

theorem Shadow.enter (h : Shadow U G r s) (env : Surroundings) (hnode : node ∉ U) (v : Validation)
    (hstage : Stage.Alike G stage stage') :
    Shadow U G (r.enter env node v stage) (s.enter env node v stage') := by
  cases hstage with
  | ignored => exact h
  | refused hG => exact h.track env node v hG
  | late hG => exact (h.track env node v hG).file env node v
  | installed hG => exact ((h.track env node v hG).file env node v).insert hnode v

/-- What comes from a node that the shadow lacks is entered in the register alone. -/
theorem Shadow.enter_unheard (h : Shadow U G r s) (hnode : node ∈ U) (hv : v.trusted = false)
    (stage : Stage) : Shadow U G (r.enter env node v stage) s := by
  have hother {t : Register T} {guard : SequenceGuard} {byLedger bySeq : AgedMap Nat ValidationSet}
      (ht : t = { r with guards := r.guards.insert node guard, byLedger, bySeq }) : Shadow U G t s := by
    subst ht
    refine h.untouched ⟨rfl, rfl, rfl, rfl, rfl⟩ ?_ rfl (fun n hn => ?_) fun hU => ?_
    · obtain ⟨_, _, _, _, rfl⟩ := h.same
      exact ⟨_, _, _, _, rfl⟩
    · have hne : node ≠ n := fun heq => hn (heq ▸ hnode)
      rw [Std.ExtTreeMap.getD_insert, if_neg (Nat.compare_eq_eq.not.mpr hne)]
      exact h.guards n hn
    · exact absurd (hU ▸ hnode) (Set.notMem_empty node)
  cases stage with
  | ignored => exact h
  | refused guard => exact hother rfl
  | late guard => exact hother rfl
  | installed guard =>
    have hfiled : Shadow U G (((r.track env node v).withGuard node guard).file env node v) s :=
      hother rfl
    exact hfiled.insert_unheard hnode hv

end Entering

theorem Shadow.adopt (h : Shadow U G r s) (hnode : node ∉ U) {stage stage' : Stage}
    (hstage : Stage.Alike G stage stage') :
    Follows (r.adopt env node v stage) (s.adopt env node v stage') (Shadow U G) := by
  have henter := h.enter env hnode v hstage
  have henrolls : stage'.enrolls v = stage.enrolls v := by cases hstage <;> rfl
  rw [Register.adopt, Register.adopt, henrolls, h.getElem?_current hnode]
  split
  · exact henter.enroll env hnode v _
  · exact Follows.pure henter

theorem Shadow.receive (h : Shadow U G r s) (hG : Tolerant G r.timing env.steady) (hnode : node ∉ U)
    (v : Validation) : Follows (r.receive env node v) (s.receive env node v)
      (Shadowed U G fun a b => b = a ∨ a.Refusal ∧ b.Refusal) := by
  rw [receive_eq, receive_eq]
  refine Follows.bind (Follows.liftM fun stage hstage => h.assess hG hnode hstage) ?_
  intro stage stage' hstage
  refine (h.adopt hnode hstage).map fun r' s' h' => ⟨h', ?_, fun _ => ?_⟩
  · cases hstage with
    | ignored | late | installed => exact Or.inl rfl
    | refused => exact Or.inr ⟨Verdict.refusal_ofRefused, Verdict.refusal_ofRefused⟩
  · rw [outcome, outcome, h.getElem?_current hnode]
    cases hstage <;> rfl

/-- What comes from a node that the shadow lacks does not reach it. -/
theorem Shadow.receive_unheard (h : Shadow U G r s) (hnode : node ∈ U) (hv : v.trusted = false) :
    Gives (r.receive env node v) fun o => Shadow U G o.register s := by
  refine (receive_gives r env node v).imp ?_
  rintro o ⟨stage, r', -, hadopt, rfl⟩
  have henrolls : stage.enrolls v = false := by
    cases stage with
    | installed => exact hv
    | ignored | refused | late => rfl
  rw [Register.adopt, henrolls, if_neg Bool.false_ne_true] at hadopt
  exact pure_inj hadopt ▸ h.enter_unheard hnode hv stage

/-! ## Trust -/

theorem Shadow.changeTrustIn (h : Shadow U G r s) {added removed : NodeSet}
    {entry : Nat × Validation} (hnode : entry.1 ∉ U) :
    Follows (Register.changeTrustIn env added removed r entry)
      (Register.changeTrustIn env added removed s entry) (Shadow U G) := by
  have hchanged := h.insert hnode (restamp added removed entry.1 entry.2)
  rw [Register.changeTrustIn, Register.changeTrustIn]
  cases trustAfter added removed entry.1 with
  | none => exact Follows.pure h
  | some trusted =>
    cases trusted with
    | true => exact hchanged.enroll env hnode _ none
    | false => exact hchanged.dismiss _ _

/-- A node that the shadow lacks is not given trust. -/
theorem Shadow.changeTrustIn_unheard (h : Shadow U G r s) {added removed : NodeSet}
    {entry : Nat × Validation} (hnode : entry.1 ∈ U) (hadded : entry.1 ∉ added) :
    Gives (Register.changeTrustIn env added removed r entry) fun r' => Shadow U G r' s := by
  rw [Register.changeTrustIn]
  rcases trustAfter_cases added removed entry.1 with ⟨-, hmem⟩ | ⟨hafter, -⟩ | ⟨hafter, -⟩
  · exact absurd hmem hadded
  · have hchanged := h.insert_unheard (v := restamp added removed entry.1 entry.2) hnode (by
      rw [restamp, hafter]
      rfl)
    have hdismiss := dismiss_silent (hchanged.awaited _ hnode) (hchanged.silent _ hnode)
      (restamp added removed entry.1 entry.2)
    rw [hafter]
    exact fun r' hr' => pure_inj (hdismiss.symm.trans hr') ▸ hchanged
  · rw [hafter]
    exact Gives.pure h

theorem Shadow.changeTrust (h : Shadow U G r s) {added removed : NodeSet}
    (hadded : ∀ n ∈ U, n ∉ added) : Follows (r.changeTrust env added removed)
      (s.changeTrust env added removed) (Shadowed U G fun _ _ => True) := by
  rw [Register.changeTrust, Register.changeTrust, h.entries env]
  refine Follows.bind (R := Shadow U G) (Follows.foldlM_filter h (fun e _ hp _ _ h => ?_)
    fun e _ hp _ _ h => ?_) fun r' s' h' => ?_
  · exact h.changeTrustIn (of_decide_eq_true hp)
  · have hnode := not_not.mp (of_decide_eq_false hp)
    exact h.changeTrustIn_unheard hnode (hadded _ hnode)
  · refine Follows.pure ⟨?_, trivial, fun _ => rfl⟩
    refine h'.untouched ⟨rfl, rfl, rfl, rfl, rfl⟩ ?_ rfl h'.guards fun hU => ?_
    · obtain ⟨_, _, _, _, rfl⟩ := h'.same
      exact ⟨_, _, _, _, rfl⟩
    · exact congrArg (AgedMap.map · _) (h'.byLedger hU)

/-! ## Questions -/

theorem Shadow.preferred (h : Shadow U G r s) (env : Surroundings) (curr : Ledger) :
    Follows (r.preferred env curr) (s.preferred env curr) (Shadowed U G fun a b => b = a) := by
  rw [Register.preferred, Register.preferred]
  refine (h.refresh env).bind fun o o' ho => ?_
  obtain ⟨hregister, -, hretired⟩ := ho
  have hown := hregister.own
  have hupon := hregister.upon
  have htrie : o'.register.trie = o.register.trie := by rw [hupon, trie_upon]
  have hawaited : o'.register.awaited = o.register.awaited := by rw [hupon, awaited_upon]
  dsimp only
  rw [hown, htrie, hawaited]
  refine (Follows.refl _).bind ?_
  rintro answer _ rfl
  cases answer with
  | none => exact Follows.pure ⟨hregister, rfl, hretired⟩
  | some tip =>
    refine (Follows.refl (liftM (choose curr tip))).bind ?_
    rintro mark _ rfl
    exact Follows.pure ⟨hregister, rfl, hretired⟩

theorem Shadow.nodesAfter (h : Shadow U G r s) (env : Surroundings) (l : Ledger) (id : Nat) :
    Follows (r.nodesAfter env l id) (s.nodesAfter env l id) (Shadowed U G fun a b => b = a) := by
  rw [Register.nodesAfter, Register.nodesAfter]
  split
  · refine (h.refresh env).bind fun o o' ho => ?_
    obtain ⟨hregister, -, hretired⟩ := ho
    have hupon := hregister.upon
    have htrie : o'.register.trie = o.register.trie := by rw [hupon, trie_upon]
    rw [htrie]
    refine (Follows.refl _).bind ?_
    rintro branch _ rfl
    refine (Follows.refl _).bind ?_
    rintro tip _ rfl
    refine (Follows.refl (liftM (debit branch tip))).bind ?_
    rintro count _ rfl
    exact Follows.pure ⟨hregister, rfl, hretired⟩
  · have hupon := h.upon
    have hvotes : s.votes = r.votes := by rw [hupon, votes_upon]
    rw [hvotes]
    exact Follows.pure ⟨h, rfl, fun _ => rfl⟩

/-- What is current and counts is the same, since what the shadow lacks does not count. -/
theorem Shadow.currentTrusted (h : Shadow U G r s) (env : Surroundings) :
    Follows (r.currentTrusted env) (s.currentTrusted env) (Shadowed U G fun a b => b = a) := by
  rw [Register.currentTrusted, Register.currentTrusted]
  refine (h.sweep env).bind fun o o' ho => Follows.pure ⟨ho.register, ?_, ho.retired⟩
  dsimp only
  rw [ho.register.current, values_eq, values_eq, without, Std.ExtTreeMap.toList_filter,
    List.filter_map, List.filter_map, List.filter_filter]
  refine congrArg _ (List.filter_congr fun e he => ?_)
  have hcurrent := Std.ExtTreeMap.mem_toList_iff_getElem?_eq_some.mp he
  by_cases hU : e.1 ∈ U
  · have huntrusted := ho.register.untrusted _ hU _ hcurrent
    simp [Validation.counts, huntrusted]
  · simp [hU]

theorem Shadow.currentNodes (h : Shadow U G r s) (env : Surroundings) :
    Follows (r.currentNodes env) (s.currentNodes env) (Shadowed U G fun a b => U = ∅ → b = a) := by
  rw [Register.currentNodes, Register.currentNodes]
  refine (h.sweep env).bind fun o o' ho => Follows.pure ⟨ho.register, fun hU => ?_, ho.retired⟩
  dsimp only
  rw [ho.register.current, without_empty hU]

theorem Shadow.laggards (h : Shadow U G r s) (env : Surroundings) (seq : Nat)
    (keys : Std.ExtTreeSet Key) : Follows (r.laggards env seq keys) (s.laggards env seq keys)
      (Shadowed U G fun a b => U = ∅ → b = a) := by
  rw [Register.laggards, Register.laggards, h.timing]
  refine (Follows.refl (liftM env.now)).bind ?_
  rintro now _ rfl
  refine (h.sweep env).bind fun o o' ho => ?_
  have hentries := ho.register.entries env
  refine Follows.bind (R := fun a b => U = ∅ → b = a) (Follows.liftM fun sorted hsorted => ?_) ?_
  · have hlimits := (exists_sortKeys _ 0 keys).mp ⟨sorted, hsorted⟩
    have hlimits' : ∀ v ∈ (o'.register.entries env).map (·.2),
        (v.seen.later? r.timing.freshness).isSome := by
      intro v hv
      rw [hentries] at hv
      exact hlimits v ((List.filter_sublist.map _).mem hv)
    obtain ⟨sorted', hsorted'⟩ := (exists_sortKeys _ 0 keys).mpr hlimits'
    refine ⟨sorted', hsorted', fun hU => ?_⟩
    rw [hentries, List.filter_eq_self.mpr fun e _ => decide_eq_true (hU ▸ Set.notMem_empty e.1),
      hsorted] at hsorted'
    exact (Except.ok.inj hsorted').symm
  · exact fun sorted sorted' hsorted => Follows.pure ⟨ho.register, hsorted, ho.retired⟩

omit [VoteTrie T] in
theorem Shadow.used (h : Shadow U G r s) (env : Surroundings) (id : Nat) :
    Shadow U G (r.used env id) (s.used env id) := by
  refine h.untouched ⟨rfl, rfl, rfl, rfl, rfl⟩ ?_ rfl h.guards fun hU => ?_
  · obtain ⟨_, _, _, _, rfl⟩ := h.same
    exact ⟨_, _, _, _, rfl⟩
  · rw [Register.used, Register.used, h.byLedger hU]

/-! ## Upkeep -/

omit [VoteTrie T] in
theorem Shadow.touchKept (h : Shadow U G r s) {touched : Register T}
    (htouched : r.touchKept env = .ok touched) :
    ∃ touched', s.touchKept env = .ok touched' ∧ Shadow U G touched touched' := by
  have hsame := h.same
  have hbyLedger (hU : U = ∅) (range : KeepRange) : s.ledgersIn env range = r.ledgersIn env range := by
    rw [ledgersIn, ledgersIn, h.byLedger hU]
  obtain ⟨_, _, _, _, hs⟩ := hsame
  have hkept : s.kept = r.kept := by rw [hs]
  have hrefresh : s.keepRefresh = r.keepRefresh := by rw [hs]
  rw [Register.touchKept] at htouched ⊢
  rw [hkept, hrefresh, h.timing]
  cases hrange : r.kept with
  | none =>
    rw [hrange] at htouched
    cases htouched
    exact ⟨s, rfl, h⟩
  | some range =>
    rw [hrange] at htouched
    dsimp only at htouched ⊢
    split at htouched
    · rename_i hdue
      rw [if_pos hdue]
      cases hlimit : env.steady.add r.timing.expiry with
      | error fault =>
        rw [hlimit] at htouched
        cases htouched
      | ok limit =>
        rw [hlimit] at htouched
        dsimp only [bind, Except.bind] at htouched ⊢
        cases hnext : limit.sub r.timing.freshness with
        | error fault =>
          rw [hnext] at htouched
          cases htouched
        | ok next =>
          rw [hnext] at htouched
          cases htouched
          refine ⟨_, rfl, h.untouched ⟨rfl, rfl, rfl, rfl, rfl⟩ ?_ rfl h.guards fun hU => ?_⟩
          · rw [hs]
            exact ⟨_, _, _, _, rfl⟩
          · dsimp only
            rw [hbyLedger hU range, h.byLedger hU]
    · rename_i hdue
      rw [if_neg hdue]
      cases htouched
      exact ⟨s, rfl, h⟩

omit [VoteTrie T] in
theorem Shadow.expire (h : Shadow U G r s) (env : Surroundings) :
    Follows (liftM (r.expire env)) (liftM (s.expire env)) (Shadowed U G fun _ _ : Unit => True) := by
  refine Follows.liftM fun o ho => ?_
  rw [Register.expire] at ho ⊢
  cases htouched : r.touchKept env with
  | error fault =>
    rw [htouched] at ho
    cases ho
  | ok touched =>
    rw [htouched] at ho
    cases ho
    obtain ⟨touched', htouched', h'⟩ := h.touchKept htouched
    rw [htouched']
    refine ⟨_, rfl, h'.untouched ⟨rfl, rfl, rfl, rfl, rfl⟩ ?_ rfl h'.guards fun hU => ?_, trivial,
      fun _ => rfl⟩
    · obtain ⟨_, _, _, _, rfl⟩ := h'.same
      exact ⟨_, _, _, _, rfl⟩
    · dsimp only
      rw [h'.byLedger hU, h'.timing]

/-! ## Every request -/

/-- A request that gives no trust to the nodes that the shadow lacks, and takes in nothing from them, is
carried out on the shadow as on the register. The answers are alike where they tell nothing of nodes
that are not trusted, and everywhere if the shadow lacks no node. -/
theorem step_shadows (h : Shadow U G r s) (hG : Tolerant G r.timing env.steady) {request : Request}
    (hfrom : request.isFrom U = false) (hdistrusts : request.Distrusts U) :
    Follows (r.step env request) (s.step env request)
      (Shadowed U G fun a b => request.Guarded ∨ U = ∅ → a.Like b) := by
  have hreply {α : Type} {x y : Computation (Outcome T α)} {R : α → α → Prop} (f : α → Reply)
      (hxy : Follows x y (Shadowed U G R))
      (hR : ∀ a b, R a b → request.Guarded ∨ U = ∅ → (f a).Like (f b)) :
      Follows ((·.map f) <$> x) ((·.map f) <$> y)
        (Shadowed U G fun a b => request.Guarded ∨ U = ∅ → a.Like b) :=
    hxy.map fun o o' ho => ⟨ho.register, hR _ _ ho.answer, ho.retired⟩
  have hsame {α : Type} {f : α → Reply} (a b : α) (hab : b = a) (_ : request.Guarded ∨ U = ∅) :
      (f a).Like (f b) := Or.inl (congrArg f hab)
  have hother {α : Type} {f : α → Reply} (hrequest : ¬ request.Guarded) (a b : α)
      (hab : U = ∅ → b = a) (hU : request.Guarded ∨ U = ∅) : (f a).Like (f b) :=
    Or.inl (congrArg f (hab (hU.resolve_left hrequest)))
  have hdone (a b : Unit) (_ : True) (_ : request.Guarded ∨ U = ∅) : Reply.done.Like .done :=
    Or.inl rfl
  cases request with
  | receive node v =>
    refine hreply _ (h.receive hG (of_decide_eq_false hfrom) v) fun a b hab _ => ?_
    rcases hab with rfl | ⟨ha, hb⟩
    · exact Or.inl rfl
    · exact Or.inr ⟨a, b, rfl, rfl, ha, hb⟩
  | mayValidate seq =>
    refine hreply (R := fun a b => b = a) _ (Follows.liftM fun o ho => ?_) hsame
    rw [mayValidate] at ho ⊢
    rw [h.own, h.timing]
    cases hadvance : r.own.advance r.timing env.steady seq with
    | error fault =>
      rw [hadvance] at ho
      cases ho
    | ok answer =>
      rw [hadvance] at ho
      cases ho
      refine ⟨_, rfl, h.untouched ⟨rfl, rfl, rfl, rfl, rfl⟩ ?_ rfl h.guards h.byLedger, rfl,
        fun _ => rfl⟩
      obtain ⟨_, _, _, _, rfl⟩ := h.same
      exact ⟨_, _, _, _, rfl⟩
  | keep low high =>
    refine hreply (R := fun _ _ => True) _ (Follows.liftM fun o ho => ?_) hdone
    rw [keep] at ho ⊢
    by_cases hrange : low < high
    · rw [dif_pos hrange] at ho ⊢
      cases ho
      refine ⟨_, rfl, h.untouched ⟨rfl, rfl, rfl, rfl, rfl⟩ ?_ rfl h.guards h.byLedger, trivial,
        fun _ => rfl⟩
      obtain ⟨_, _, _, _, rfl⟩ := h.same
      exact ⟨_, _, _, _, rfl⟩
    · rw [dif_neg hrange] at ho
      cases ho
  | expire => exact hreply _ (h.expire env) hdone
  | changeTrust added removed => exact hreply _ (h.changeTrust hdistrusts) hdone
  | preferred curr => exact hreply _ (h.preferred env curr) hsame
  | preferredId curr least =>
    refine hreply (R := fun a b => b = a) _ ((h.preferred env curr).bind fun o o' ho => ?_) hsame
    exact Follows.pure ⟨ho.register, by dsimp only; rw [ho.answer], ho.retired⟩
  | preferredClosed closed least counts =>
    refine hreply (R := fun a b => b = a) _ ((h.preferred env closed).bind fun o o' ho => ?_) hsame
    exact Follows.pure ⟨ho.register, by dsimp only; rw [ho.answer], ho.retired⟩
  | nodesAfter l id => exact hreply _ (h.nodesAfter env l id) hsame
  | currentTrusted => exact hreply _ (h.currentTrusted env) hsame
  | currentNodes => exact hreply _ (h.currentNodes env) (hother not_false)
  | countTrusted id | trustedFor id seq | fees id base =>
    refine Follows.pure ⟨h.used env id, fun hU => Or.inl ?_, fun _ => rfl⟩
    have hbyLedger := h.byLedger (hU.resolve_left not_false)
    simp only [Outcome.map, countTrusted, trustedFor, fees, filedFor, hbyLedger]
  | flush =>
    refine Follows.pure ⟨h.withCurrents ∅ ∅ ?_ fun n _ v hv => ?_, fun hU => Or.inl ?_, fun _ => rfl⟩
    · refine Std.ExtTreeMap.ext_getElem? fun n => ?_
      rw [getElem?_without, Std.ExtTreeMap.getElem?_empty, ite_self]
    · rw [Std.ExtTreeMap.getElem?_empty] at hv
      cases hv
    · have hcurrent := h.current
      rw [without_empty (hU.resolve_left not_false)] at hcurrent
      simp only [Outcome.map, flush, hcurrent]
  | laggards seq keys =>
    exact hreply _ (h.laggards env seq keys) (hother not_false)

/-! ## Runs -/

/-- A history of the register has its like from the shadow, without the events that take in what the
nodes say that the shadow lacks. -/
theorem History.shadowed {es : List (Event T)} {t : Register T} (h : History r es t)
    (hs : Shadow U G r s) (hG : ∀ e ∈ es, Tolerant G r.timing e.time)
    (hes : ∀ e ∈ es, e.request.Distrusts U) :
    ∃ es' t', History s es' t' ∧ Shadow U G t t' ∧
      List.Forall₂ (Event.Echoes U) (es.filter fun e => !e.request.isFrom U) es' := by
  induction h with
  | nil => exact ⟨[], s, .nil, hs, .nil⟩
  | @snoc past before env request o hbefore hstep ih =>
    obtain ⟨es', t', hhistory, hshadow, hechoes⟩ := ih
      (fun e he => hG e (List.mem_append_left _ he)) (fun e he => hes e (List.mem_append_left _ he))
    have hlast := List.mem_append_right past (List.mem_singleton_self (⟨env, request, o⟩ : Event T))
    have hdistrusts : request.Distrusts U := hes _ hlast
    rw [List.filter_append, List.filter_singleton]
    cases hfrom : request.isFrom U with
    | true =>
      refine ⟨es', t', hhistory, ?_, ?_⟩
      · cases request with
        | receive node v =>
          have hnode : node ∈ U := of_decide_eq_true hfrom
          exact Gives.map (Q := fun o => Shadow U G o.register t')
            (hshadow.receive_unheard hnode (hdistrusts hnode)) (fun _ ho => ho) o hstep
        | _ => cases hfrom
      · exact (List.append_nil _).symm ▸ hechoes
    | false =>
      have htolerant : Tolerant G before.timing env.steady := hbefore.timing ▸ hG _ hlast
      obtain ⟨o', hstep', ho⟩ := step_shadows hshadow htolerant hfrom hdistrusts o hstep
      refine ⟨es' ++ [⟨env, request, o'⟩], o'.register, .snoc hhistory hstep', ho.register, ?_⟩
      exact List.rel_append hechoes (.cons ⟨rfl, rfl, ho.answer, ho.retired⟩ .nil)

end Register

end ForkChoice

import ForkChoice.Proofs.Register.Records

/-!
# Votes and records apart

A register is made up of its votes and waits on the one hand and of its records on the other. Votes
move whatever the records say. A validation is first assessed, by what the records hold of its own
node alone; then it is entered in the records of that node, and only when it becomes the current one
and is trusted do votes and waits follow.

* `Register.upon`: the votes and waits of one register upon the records of another.
* `Register.settle_upon`, `Register.enroll_upon`, `Register.dismiss_upon`: votes move whatever the
  records say.
* `Stage`, `Register.assess`, `Register.enter`: how far a validation comes, and what of it is recorded.
* `Register.assess_eq_ok`: what it is judged by.
* `Register.receive_eq`: a validation is assessed, entered and then voted for.
-/

namespace ForkChoice

variable {T T' σ τ ι : Type}

/-- A fold is followed in another form of the state, if every step is. -/
theorem foldlM_map {f : σ → ι → Computation σ} {g : τ → ι → Computation τ} (φ : σ → τ) (xs : List ι)
    (h : ∀ s, ∀ x ∈ xs, g (φ s) x = φ <$> f s x) (s : σ) :
    xs.foldlM g (φ s) = φ <$> xs.foldlM f s := by
  induction xs generalizing s with
  | nil => exact (map_pure φ s).symm
  | cons x rest ih =>
    rw [List.foldlM_cons, List.foldlM_cons, h s x List.mem_cons_self, map_bind, bind_map_left]
    exact bind_congr fun s' => ih (fun s y hy => h s y (List.mem_cons_of_mem _ hy)) s'

theorem liftM_bind {α β : Type} (x : Except Fault α) (f : α → Except Fault β) :
    (liftM (x >>= f) : Computation β) = liftM x >>= fun v => liftM (f v) := by
  cases x <;> rfl

namespace Register

variable {env : Surroundings} {r s : Register T} {node n : Nat} {v w : Validation}

/-- The votes and waits of one register upon the records of another. -/
def upon (r : Register T) (x : Register T') : Register T :=
  { x with trie := r.trie, votes := r.votes, awaited := r.awaited }

@[simp] theorem votes_upon (r : Register T) (x : Register T') : (r.upon x).votes = r.votes := rfl

@[simp] theorem awaited_upon (r : Register T) (x : Register T') :
    (r.upon x).awaited = r.awaited := rfl

@[simp] theorem trie_upon (r : Register T) (x : Register T') : (r.upon x).trie = r.trie := rfl

@[simp] theorem records_upon (r : Register T) (x : Register T') :
    (r.upon x).records = x.records := rfl

/-- A register is its own votes and waits upon the records of any register that has the same. -/
theorem eq_upon_of_records {x : Register T'} (h : s.records = x.records) : s = s.upon x := by
  have hupon : s.upon s.records = s.upon x.records := by rw [h]
  exact hupon

theorem release_upon (r : Register T) (x : Register T') (prior : Option Mark) (node : Nat) :
    (r.upon x).release prior node = (r.release prior node).upon x := by
  cases prior <;> rfl

/-! ## Votes move whatever the records say -/

section Votes

variable [VoteTrie T]

theorem vote_upon (r : Register T) (x : Register T') (node : Nat) (l : Ledger) :
    (r.upon x).vote node l = (·.upon x) <$> r.vote node l := by
  rw [vote, vote, votes_upon, trie_upon]
  split
  all_goals
    rw [map_bind]
    refine bind_congr fun trie => ?_
    rw [map_bind]
    exact bind_congr fun trie' => (map_pure _ _).symm

theorem settle_upon (r : Register T) (x : Register T') (env : Surroundings) :
    (r.upon x).settle env = (·.upon x) <$> r.settle env := by
  rw [settle, settle, awaited_upon]
  refine foldlM_map (·.upon x) _ (fun s mark _ => ?_) r
  rw [settleAt.eq_def, settleAt.eq_def, awaited_upon]
  cases env.acquire mark.id with
  | none => exact (map_pure _ _).symm
  | some l =>
    cases s.awaited[mark]? with
    | none => exact (map_pure _ _).symm
    | some nodes =>
      exact @foldlM_map _ _ _ (fun s n => vote s n l) _ (·.upon x) _ (fun s n _ => vote_upon s x n l)
        (s.withoutMark mark)

theorem enroll_upon (r : Register T) (x : Register T') (env : Surroundings) (node : Nat)
    (v : Validation) (prior : Option Mark) :
    (r.upon x).enroll env node v prior = (·.upon x) <$> r.enroll env node v prior := by
  rw [enroll_eq, enroll_eq, release_upon, settle_upon, map_bind, bind_map_left]
  refine bind_congr fun s => ?_
  rw [awaited_upon]
  split
  · exact (map_pure _ _).symm
  · split
    · exact vote_upon s x node _
    · exact (map_pure _ _).symm

theorem dismiss_upon (r : Register T) (x : Register T') (node : Nat) (v : Validation) :
    (r.upon x).dismiss node v = (·.upon x) <$> r.dismiss node v := by
  have hstop : (r.upon x).stopWaiting v.mark node = (r.stopWaiting v.mark node).upon x := rfl
  rw [dismiss, dismiss]
  dsimp only
  rw [hstop, votes_upon, trie_upon]
  split
  · split
    · rw [map_bind]
      exact bind_congr fun answer => (map_pure _ _).symm
    · exact (map_pure _ _).symm
  · exact (map_pure _ _).symm

end Votes

end Register

/-! ## How far a validation comes -/

/-- How far a validation comes, with what the guard of its node makes of it. -/
inductive Stage where
  /-- It is too old or too far ahead. -/
  | ignored
  /-- Its sequence number is not larger than an earlier one. -/
  | refused (guard : SequenceGuard)
  /-- It was not signed after the current one. -/
  | late (guard : SequenceGuard)
  /-- It becomes the current one. -/
  | installed (guard : SequenceGuard)

namespace Stage

/-- The verdict on a validation, which is held against a tracked one if it is refused. -/
def verdict (tracked v : Validation) : Stage → Verdict
  | ignored => .stale
  | refused _ => .ofRefused tracked v
  | late _ => .stale
  | installed _ => .current

/-- What the validation replaces, if there was a current one. -/
def replaced (current : Option Validation) : Stage → Option Validation
  | installed _ => current
  | _ => none

/-- Whether votes and waits follow. -/
def enrolls (v : Validation) : Stage → Bool
  | installed _ => v.trusted
  | _ => false

/-- Votes and waits follow for a trusted validation that becomes the current one. -/
theorem enrolls_iff {tracked v : Validation} {stage : Stage} :
    stage.enrolls v = true ↔ stage.verdict tracked v = .current ∧ v.trusted = true := by
  cases stage with
  | ignored | late => exact iff_of_false Bool.false_ne_true fun h => by cases h.1
  | refused => exact iff_of_false Bool.false_ne_true fun h => Verdict.ofRefused_ne_current h.1
  | installed => exact (and_iff_right rfl).symm

end Stage

namespace Register

variable {env : Surroundings} {r s : Register T} {node n : Nat} {v w : Validation} {stage : Stage}

/-- How far a validation comes. It is judged by the guard and the current validation of its node. -/
def assess (r : Register T) (env : Surroundings) (node : Nat) (v : Validation) :
    Except Fault Stage := do
  let now ← env.now
  let fresh ← r.timing.isCurrent now v.signed v.seen
  if fresh then
    let (rising, guard) ← (r.guards.getD node {}).advance r.timing env.steady v.seq
    if rising then
      if r.current[node]?.all (·.signed < v.signed) then .ok (.installed guard)
      else .ok (.late guard)
    else .ok (.refused guard)
  else .ok .ignored

/-- What a validation is judged by. -/
inductive Assessed (env : Surroundings) (node : Nat) (v : Validation) (r : Register T) : Stage → Prop
  | ignored {now : Time} (clock : env.now = .ok now)
    (stale : r.timing.isCurrent now v.signed v.seen = .ok false) : Assessed env node v r .ignored
  | refused {now : Time} {guard : SequenceGuard} (clock : env.now = .ok now)
    (fresh : r.timing.isCurrent now v.signed v.seen = .ok true)
    (advanced : (r.guards.getD node {}).advance r.timing env.steady v.seq = .ok (false, guard)) :
    Assessed env node v r (.refused guard)
  | late {now : Time} {guard : SequenceGuard} (clock : env.now = .ok now)
    (fresh : r.timing.isCurrent now v.signed v.seen = .ok true)
    (advanced : (r.guards.getD node {}).advance r.timing env.steady v.seq = .ok (true, guard))
    (older : r.current[node]?.all (·.signed < v.signed) = false) : Assessed env node v r (.late guard)
  | installed {now : Time} {guard : SequenceGuard} (clock : env.now = .ok now)
    (fresh : r.timing.isCurrent now v.signed v.seen = .ok true)
    (advanced : (r.guards.getD node {}).advance r.timing env.steady v.seq = .ok (true, guard))
    (newer : r.current[node]?.all (·.signed < v.signed) = true) :
    Assessed env node v r (.installed guard)

theorem assess_eq_ok : r.assess env node v = .ok stage ↔ Assessed env node v r stage := by
  constructor
  · intro h
    rw [assess] at h
    cases hnow : env.now with
    | error fault =>
      rw [hnow] at h
      cases h
    | ok now =>
      rw [hnow] at h
      dsimp only [bind, Except.bind] at h
      cases hfresh : r.timing.isCurrent now v.signed v.seen with
      | error fault =>
        rw [hfresh] at h
        cases h
      | ok fresh =>
        rw [hfresh] at h
        dsimp only at h
        cases fresh with
        | false =>
          cases h
          exact .ignored hnow hfresh
        | true =>
          simp only [if_true] at h
          cases hadvance : (r.guards.getD node {}).advance r.timing env.steady v.seq with
          | error fault =>
            rw [hadvance] at h
            cases h
          | ok answer =>
            obtain ⟨rising, guard⟩ := answer
            rw [hadvance] at h
            cases rising with
            | false =>
              cases h
              exact .refused hnow hfresh hadvance
            | true =>
              simp only [if_true] at h
              split at h
              · rename_i hnewer
                cases h
                exact .installed hnow hfresh hadvance hnewer
              · rename_i holder
                cases h
                exact .late hnow hfresh hadvance (Bool.eq_false_iff.mpr holder)
  · intro h
    cases h with
    | ignored hnow hstale => simp [assess, hnow, hstale, bind, Except.bind]
    | refused hnow hfresh hadvanced => simp [assess, hnow, hfresh, hadvanced, bind, Except.bind]
    | late hnow hfresh hadvanced holder =>
      simp [assess, hnow, hfresh, hadvanced, holder, bind, Except.bind]
    | installed hnow hfresh hadvanced hnewer =>
      simp [assess, hnow, hfresh, hadvanced, hnewer, bind, Except.bind]

/-- A register with another current validation of a node. -/
def withCurrent (r : Register T) (node : Nat) (v : Validation) : Register T :=
  { r with current := r.current.insert node v }

/-- What is recorded of a validation. -/
def enter (env : Surroundings) (node : Nat) (v : Validation) : Stage → Register T → Register T
  | .ignored, r => r
  | .refused guard, r => (r.track env node v).withGuard node guard
  | .late guard, r => ((r.track env node v).withGuard node guard).file env node v
  | .installed guard, r =>
    (((r.track env node v).withGuard node guard).file env node v).withCurrent node v

theorem enter_upon (x : Register T') (stage : Stage) :
    r.upon (x.enter env node v stage) = (r.upon x).enter env node v stage := by
  cases stage <;> rfl

@[simp] theorem votes_enter (r : Register T) (env : Surroundings) (node : Nat) (v : Validation)
    (stage : Stage) : (r.enter env node v stage).votes = r.votes := by
  cases stage <;> rfl

@[simp] theorem awaited_enter (r : Register T) (env : Surroundings) (node : Nat) (v : Validation)
    (stage : Stage) : (r.enter env node v stage).awaited = r.awaited := by
  cases stage <;> rfl

@[simp] theorem trie_enter (r : Register T) (env : Surroundings) (node : Nat) (v : Validation)
    (stage : Stage) : (r.enter env node v stage).trie = r.trie := by
  cases stage <;> rfl

variable [VoteTrie T]

/-- A validation is entered, and voted for if it is the current one and trusted. -/
def adopt (r : Register T) (env : Surroundings) (node : Nat) (v : Validation) (stage : Stage) :
    Computation (Register T) :=
  if stage.enrolls v then
    (r.enter env node v stage).enroll env node v (r.current[node]?.map (·.mark))
  else pure (r.enter env node v stage)

/-- The outcome for a validation that came so far, given the register after it. -/
def outcome (r : Register T) (node : Nat) (v : Validation) (stage : Stage) (s : Register T) :
    Outcome T Verdict :=
  ⟨stage.verdict (r.trackedFor node v) v, s, (stage.replaced r.current[node]?).toList⟩

theorem install_eq (r : Register T) (env : Surroundings) (node : Nat) (v : Validation)
    (guard : SequenceGuard) :
    (((r.track env node v).withGuard node guard).file env node v).install env node v
        r.current[node]? =
      r.outcome node v (.installed guard) <$> r.adopt env node v (.installed guard) := by
  rw [install, adopt, Stage.enrolls, map_eq_pure_bind]
  dsimp only
  split <;> rfl

/-- A validation is assessed, then entered, and then voted for if it is the current one and
trusted. -/
theorem receive_eq (r : Register T) (env : Surroundings) (node : Nat) (v : Validation) :
    r.receive env node v = liftM (r.assess env node v) >>= fun stage =>
      r.outcome node v stage <$> r.adopt env node v stage := by
  rw [receive, assess, liftM_bind, bind_assoc]
  refine bind_congr fun now => ?_
  rw [liftM_bind, bind_assoc]
  refine bind_congr fun fresh => ?_
  cases fresh with
  | false => rfl
  | true =>
    simp only [if_true]
    rw [liftM_bind, bind_assoc]
    refine bind_congr fun answer => ?_
    obtain ⟨rising, guard⟩ := answer
    cases rising with
    | false => rfl
    | true =>
      have hinstall := r.install_eq env node v guard
      simp only [if_true]
      split
      · rename_i hnone
        have hnone : r.current[node]? = none := hnone
        rw [hnone] at hinstall ⊢
        exact hinstall
      · rename_i old hold
        have hold : r.current[node]? = some old := hold
        rw [hold] at hinstall ⊢
        rw [Option.all_some]
        by_cases hnewer : old.signed < v.signed
        · rw [if_pos hnewer, if_pos (decide_eq_true hnewer)]
          exact hinstall
        · rw [if_neg hnewer, if_neg (by rwa [decide_eq_true_iff])]
          rfl

theorem receive_of_assess (hstage : r.assess env node v = .ok stage) :
    r.receive env node v = r.outcome node v stage <$> r.adopt env node v stage := by
  rw [receive_eq, hstage]
  rfl

theorem receive_gives (r : Register T) (env : Surroundings) (node : Nat) (v : Validation) :
    Gives (r.receive env node v) fun o => ∃ stage s,
      r.assess env node v = .ok stage ∧ r.adopt env node v stage = pure s ∧
        o = r.outcome node v stage s := by
  rw [receive_eq]
  refine Gives.bind (P := fun stage => r.assess env node v = .ok stage)
    (Gives.liftM fun _ => id) fun stage hstage => ?_
  exact Gives.map (P := fun s => r.adopt env node v stage = pure s) (fun _ => id) fun s hs =>
    ⟨stage, s, hstage, hs, rfl⟩

/-- A receipt is carried out when the validation can be assessed and adopted. -/
theorem step_receive {o : Outcome T Reply} : r.step env (.receive node v) = pure o ↔
    ∃ stage s, r.assess env node v = .ok stage ∧ r.adopt env node v stage = pure s ∧
      o = (r.outcome node v stage s).map .verdict := by
  have hreceive : r.step env (.receive node v) = (·.map .verdict) <$> r.receive env node v := rfl
  constructor
  · have hgives : Gives (r.step env (.receive node v)) fun o => ∃ stage s,
        r.assess env node v = .ok stage ∧ r.adopt env node v stage = pure s ∧
          o = (r.outcome node v stage s).map .verdict :=
      (receive_gives r env node v).map fun _ ⟨stage, s, hstage, hs, ho⟩ =>
        ⟨stage, s, hstage, hs, ho ▸ rfl⟩
    exact hgives o
  · rintro ⟨stage, s, hstage, hs, rfl⟩
    rw [hreceive, receive_of_assess hstage, hs, map_pure, map_pure]

theorem adopt_records (r : Register T) (env : Surroundings) (node : Nat) (v : Validation)
    (stage : Stage) : Gives (r.adopt env node v stage) fun s =>
      s.records = (r.enter env node v stage).records := by
  rw [adopt]
  split
  · exact enroll_records _ env node v _
  · exact Gives.pure rfl

end Register

end ForkChoice

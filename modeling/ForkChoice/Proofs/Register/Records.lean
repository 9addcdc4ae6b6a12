import ForkChoice.Proofs.AgedMap
import ForkChoice.Proofs.Register.Run

/-!
# What a request enters in the records

The records of a register are all that it holds but votes and waits. Whatever structure the votes are
kept in, and whatever ledgers are at hand, a request that is carried out changes the records in one
way. So what is known of guards and of sets of validations needs nothing known of votes.

* `Verdict.ofRefused_eq_conflicting`, `Verdict.ofRefused_eq_multiple`: what a refusal says.
* `Register.Taken`: what becomes of the records when a validation is taken in, with the verdict.
* `Register.Purged`, `Register.Restamped`: the same for a sweep and for a change of trust.
* `Register.Entered`: the same for every request.
* `Register.step_enters`: a request that is carried out does this and nothing else.
* `Register.touchKept_renews`, `Register.Entered.standing`: when the sets to keep are touched, and what
  changes the range and the time for that.
-/

namespace ForkChoice

namespace Verdict

variable {tracked v : Validation}

theorem ofRefused_ne_current : ofRefused tracked v ≠ .current := by
  unfold ofRefused
  repeat' split
  all_goals exact fun h => by cases h

theorem ofRefused_eq_conflicting :
    ofRefused tracked v = .conflicting ↔ tracked.ledgerId ≠ v.ledgerId ∨ tracked.signed ≠ v.signed := by
  unfold ofRefused
  split
  · rename_i hledger
    exact iff_of_true rfl (Or.inl hledger)
  · rename_i hledger
    rw [or_iff_right hledger]
    split
    · rename_i hsigned
      exact iff_of_true rfl hsigned
    · rename_i hsigned
      refine iff_of_false (fun h => ?_) hsigned
      split at h
      · cases h
      · cases h

theorem ofRefused_eq_multiple : ofRefused tracked v = .multiple ↔
    tracked.ledgerId = v.ledgerId ∧ tracked.signed = v.signed ∧ tracked.cookie ≠ v.cookie := by
  unfold ofRefused
  split
  · rename_i hledger
    exact iff_of_false (fun h => by cases h) fun h => hledger h.1
  · split
    · rename_i hsigned
      exact iff_of_false (fun h => by cases h) fun h => hsigned h.2.1
    · rename_i hledger hsigned
      rw [and_iff_right (not_not.mp hledger), and_iff_right (not_not.mp hsigned)]
      split
      · rename_i hcookie
        exact iff_of_true rfl hcookie
      · rename_i hcookie
        exact iff_of_false (fun h => by cases h) hcookie

end Verdict

/-- The range of sequence numbers that a request asks to keep. -/
def Request.range? : Request → Option KeepRange
  | .keep low high => if h : low < high then some ⟨low, high, h⟩ else none
  | _ => none

namespace Register

open SequenceGuard

variable {T : Type} {env : Surroundings} {r s : Register T} {node n : Nat} {v : Validation}
  {now : Time} {added removed : NodeSet}

/-- A register with another guard for a node. -/
def withGuard (r : Register T) (node : Nat) (guard : SequenceGuard) : Register T :=
  { r with guards := r.guards.insert node guard }

/-- What becomes of the records when a validation is taken in. It may be stale on arrival; it may be
refused, which is found out after it was tracked; it may be older than the current one, which is found
out after it was filed; or it becomes the current one. -/
inductive Taken (env : Surroundings) (node : Nat) (v : Validation) (r s : Register T) :
    Verdict → Prop
  | ignored {now : Time} (clock : env.now = .ok now)
    (stale : r.timing.isCurrent now v.signed v.seen = .ok false)
    (records : s.records = r.records) : Taken env node v r s .stale
  | refused {now : Time} {guard : SequenceGuard} (clock : env.now = .ok now)
    (fresh : r.timing.isCurrent now v.signed v.seen = .ok true)
    (advanced : Advanced r.timing env.steady v.seq (r.guards.getD node {}) false guard)
    (records : s.records = ((r.track env node v).withGuard node guard).records) :
    Taken env node v r s (.ofRefused (r.trackedFor node v) v)
  | late {now : Time} {guard : SequenceGuard} {old : Validation} (clock : env.now = .ok now)
    (fresh : r.timing.isCurrent now v.signed v.seen = .ok true)
    (advanced : Advanced r.timing env.steady v.seq (r.guards.getD node {}) true guard)
    (current : r.current[node]? = some old) (older : ¬ old.signed < v.signed)
    (records : s.records = (((r.track env node v).withGuard node guard).file env node v).records) :
    Taken env node v r s .stale
  | installed {now : Time} {guard : SequenceGuard} (clock : env.now = .ok now)
    (fresh : r.timing.isCurrent now v.signed v.seen = .ok true)
    (advanced : Advanced r.timing env.steady v.seq (r.guards.getD node {}) true guard)
    (newer : ∀ old, r.current[node]? = some old → old.signed < v.signed)
    (records : s.records = { ((r.track env node v).withGuard node guard).file env node v with
      current := r.current.insert node v }.records) :
    Taken env node v r s .current

/-- What becomes of the records in a sweep: only what is fresh stays current. -/
structure Purged (now : Time) (r s : Register T) : Prop where
  records : s.records = { r.records with current := s.current }
  current : ∀ n v, s.current[n]? = some v ↔ r.Fresh now n v

/-- What becomes of the records when the trust in nodes changes. -/
structure Restamped (added removed : NodeSet) (r s : Register T) : Prop where
  records : s.records = { r.records with
    current := s.current
    byLedger := r.byLedger.map (·.map (restamp added removed)) }
  current : ∀ n, s.current[n]? = r.current[n]?.map (restamp added removed n)

/-- A register without the sets that have not been used for a while. -/
def swept (r : Register T) (now : Time) : Register T :=
  { r with
    byLedger := r.byLedger.fresh now r.timing.expiry
    bySeq := r.bySeq.fresh now r.timing.expiry }

/-- The requests that leave the guards alone, and the sets of validations but for their age. -/
def Minor : Request → Prop
  | .receive _ _ | .mayValidate _ | .expire | .changeTrust _ _ => False
  | _ => True

/-- What becomes of the records in a request, with the answer where it tells of them. -/
inductive Entered (env : Surroundings) (r s : Register T) : Request → Reply → Prop
  | received {node : Nat} {v : Validation} {verdict : Verdict} (taken : Taken env node v r s verdict) :
    Entered env r s (.receive node v) (.verdict verdict)
  | advanced {seq : Nat} {granted : Bool} {own : SequenceGuard}
    (advanced : Advanced r.timing env.steady seq r.own granted own)
    (records : s.records = { r.records with own }) :
    Entered env r s (.mayValidate seq) (.granted granted)
  | expired {touched : Register T} (touches : r.touchKept env = .ok touched)
    (records : s.records = (touched.swept env.steady).records) : Entered env r s .expire .done
  | restamped {added removed : NodeSet} (restamped : Restamped added removed r s) :
    Entered env r s (.changeTrust added removed) .done
  | minor {request : Request} {answer : Reply} (minor : Minor request)
    (current : ∀ (n : Nat) (v : Validation), s.current[n]? = some v → r.current[n]? = some v)
    (byLedger : s.byLedger = r.byLedger ∨ ∃ id, s.byLedger = r.byLedger.touch env.steady id)
    (records : s.records = { r.records with
      current := s.current, byLedger := s.byLedger, kept := request.range?.or r.kept }) :
    Entered env r s request answer

theorem Purged.entered {request : Request} {answer : Reply} (h : Purged now r s)
    (hminor : Minor request) (hrange : request.range? = none) : Entered env r s request answer := by
  have hbyLedger : s.records.byLedger = r.records.byLedger := by rw [h.records]
  refine .minor hminor (fun n v hv => ((h.current n v).mp hv).current) (Or.inl hbyLedger) ?_
  rw [h.records, show s.byLedger = r.records.byLedger from hbyLedger, hrange]
  rfl

/-! ## Votes are no records -/

variable [VoteTrie T]

theorem vote_records (r : Register T) (node : Nat) (l : Ledger) :
    Gives (r.vote node l) fun s => s.records = r.records := by
  rw [vote]
  split
  all_goals
    refine (Gives.trivial _).bind fun _ _ => ?_
    exact (Gives.trivial _).bind fun _ _ => Gives.pure rfl

theorem settle_records (r : Register T) (env : Surroundings) :
    Gives (r.settle env) fun s => s.records = r.records := by
  refine Gives.foldlM (I := fun _ (s : Register T) => s.records = r.records) rfl
    fun mark _ s hs => ?_
  rw [settleAt.eq_def]
  split
  · refine Gives.foldlM (I := fun _ (s : Register T) => s.records = r.records) hs
      fun node _ s hs => ?_
    exact (vote_records s node _).imp fun s' hs' => hs'.trans hs
  · exact Gives.pure hs

theorem enroll_records (r : Register T) (env : Surroundings) (node : Nat) (v : Validation)
    (prior : Option Mark) : Gives (r.enroll env node v prior) fun s => s.records = r.records := by
  have hrelease : (r.release prior node).records = r.records := by
    cases prior <;> rfl
  rw [enroll_eq]
  refine (settle_records _ env).bind fun s hs => ?_
  have hs := hs.trans hrelease
  split
  · exact Gives.pure hs
  · split
    · exact (vote_records s node _).imp fun s' hs' => hs'.trans hs
    · exact Gives.pure hs

theorem dismiss_records (r : Register T) (node : Nat) (v : Validation) :
    Gives (r.dismiss node v) fun s => s.records = r.records := by
  rw [dismiss]
  dsimp only
  split
  · split
    · exact (Gives.trivial _).bind fun _ _ => Gives.pure rfl
    · exact Gives.pure rfl
  · exact Gives.pure rfl

/-! ## Sweeping -/

theorem retireAll_records (entries : List (Nat × Validation)) (r : Register T) :
    Gives (entries.foldlM retire r) fun s => s.records = { r.records with current := s.current } ∧
      ∀ n v, s.current[n]? = some v ↔ r.current[n]? = some v ∧ ∀ w, (n, w) ∉ entries := by
  induction entries generalizing r with
  | nil => exact Gives.pure ⟨rfl, by simp⟩
  | cons entry rest ih =>
    rw [List.foldlM_cons]
    refine (dismiss_records _ entry.1 entry.2).bind fun s hs => (ih s).imp fun s' hs' => ⟨?_, ?_⟩
    · rw [hs'.1, hs]
      rfl
    · intro n v
      have hcurrent : s.current = r.current.erase entry.1 := current_of_records hs
      rw [hs'.2, hcurrent, Std.ExtTreeMap.getElem?_erase]
      obtain ⟨node, w⟩ := entry
      by_cases hn : node = n
      · subst hn
        rw [if_pos (Nat.compare_eq_eq.mpr rfl)]
        exact iff_of_false (fun h => by cases h.1) fun h => h.2 w List.mem_cons_self
      · simp [hn, Ne.symm hn]

theorem sweep_records (r : Register T) (env : Surroundings) :
    Gives (r.sweep env) fun o => ∃ now, env.now = .ok now ∧ Purged now r o.register := by
  rw [sweep]
  refine Gives.bind (P := fun now => env.now = .ok now) (Gives.liftM fun _ => id) fun now hnow => ?_
  refine Gives.bind (P := fun stale => staleAmong r.timing now (r.entries env) = .ok stale)
    (Gives.liftM fun _ => id) fun stale hstale => ?_
  refine (retireAll_records stale r).bind fun s hs => Gives.pure ⟨now, hnow, hs.1, fun n v => ?_⟩
  rcases staleAmong_cases r.timing now (r.entries env) with ⟨stale', hstale', hmem, hjudged⟩ | hfault
  · obtain rfl : stale = stale' := Except.ok.inj (hstale.symm.trans hstale')
    have hentries : (n, v) ∈ r.entries env ↔ r.current[n]? = some v :=
      mem_byRank.trans Std.ExtTreeMap.mem_toList_iff_getElem?_eq_some
    rw [hs.2]
    constructor
    · rintro ⟨hv, hnot⟩
      obtain ⟨b, hb⟩ := hjudged _ (hentries.mpr hv)
      cases b with
      | true => exact ⟨hv, hb⟩
      | false => exact absurd ((hmem _).mpr ⟨hentries.mpr hv, hb⟩) (hnot v)
    · intro hv
      refine ⟨hv.current, fun w hw => ?_⟩
      obtain ⟨hw, hb⟩ := (hmem _).mp hw
      exact hv.not_stale ⟨Std.ExtTreeMap.mem_toList_iff_getElem?_eq_some.mp (mem_byRank.mp hw), hb⟩
  · rw [hfault] at hstale
    cases hstale

theorem refresh_records (r : Register T) (env : Surroundings) :
    Gives (r.refresh env) fun o => ∃ now, env.now = .ok now ∧ Purged now r o.register := by
  rw [refresh]
  refine (sweep_records r env).bind ?_
  rintro o ⟨now, hnow, hpurged⟩
  refine (settle_records o.register env).bind fun s hs => Gives.pure ⟨now, hnow, ?_, ?_⟩
  · rw [hs, hpurged.records, current_of_records hs]
  · rw [current_of_records hs]
    exact hpurged.current

/-! ## Taking validations in -/

theorem install_records (r : Register T) (env : Surroundings) (node : Nat) (v : Validation)
    (prior : Option Validation) : Gives (r.install env node v prior) fun o =>
      o.answer = .current ∧
        o.register.records = { r with current := r.current.insert node v }.records := by
  rw [install]
  dsimp only
  split
  · exact (enroll_records _ env node v _).bind fun s hs => Gives.pure ⟨rfl, hs⟩
  · exact Gives.pure ⟨rfl, rfl⟩

theorem receive_records (r : Register T) (env : Surroundings) (node : Nat) (v : Validation) :
    Gives (r.receive env node v) fun o => Taken env node v r o.register o.answer := by
  rw [receive]
  refine Gives.bind (P := fun now => env.now = .ok now) (Gives.liftM fun _ => id) fun now hnow => ?_
  refine Gives.bind (P := fun current => r.timing.isCurrent now v.signed v.seen = .ok current)
    (Gives.liftM fun _ => id) fun current hcurrent => ?_
  cases current with
  | false => exact Gives.pure (.ignored hnow hcurrent rfl)
  | true =>
    simp only [if_true]
    refine Gives.bind (P := fun answer => Advanced r.timing env.steady v.seq (r.guards.getD node {})
      answer.1 answer.2) (Gives.liftM fun answer (h : (r.guards.getD node {}).advance r.timing
        env.steady v.seq = .ok (answer.1, answer.2)) => advance_spec h) ?_
    rintro ⟨rising, guard⟩ hadvanced
    cases rising with
    | false => exact Gives.pure (.refused hnow hcurrent hadvanced rfl)
    | true =>
      simp only [if_true]
      split
      · rename_i hnone
        have hnone : r.current[node]? = none := hnone
        refine (install_records _ env node v none).imp fun o ho => ho.1 ▸ ?_
        refine .installed hnow hcurrent hadvanced (fun old hold => ?_) ho.2
        rw [hnone] at hold
        cases hold
      · rename_i old hold
        have hold : r.current[node]? = some old := hold
        split
        · rename_i hsigned
          refine (install_records _ env node v (some old)).imp fun o ho => ho.1 ▸ ?_
          refine .installed hnow hcurrent hadvanced (fun old' hold' => ?_) ho.2
          exact Option.some.inj (hold.symm.trans hold') ▸ hsigned
        · rename_i hsigned
          exact Gives.pure (.late hnow hcurrent hadvanced hold hsigned rfl)

/-! ## Trust -/

theorem changeTrustAlong_records (env : Surroundings) (added removed : NodeSet)
    (entries : List (Nat × Validation)) (hnodup : (entries.map (·.1)).Nodup) (r : Register T)
    (hentries : ∀ e ∈ entries, r.current[e.1]? = some e.2) :
    Gives (entries.foldlM (changeTrustIn env added removed) r) fun s =>
      s.records = { r.records with current := s.current } ∧
        (∀ e ∈ entries, s.current[e.1]? = some (restamp added removed e.1 e.2)) ∧
        ∀ n, n ∉ entries.map (·.1) → s.current[n]? = r.current[n]? := by
  induction entries generalizing r with
  | nil => exact Gives.pure ⟨rfl, by simp, fun _ _ => rfl⟩
  | cons entry rest ih =>
    obtain ⟨node, v⟩ := entry
    obtain ⟨hnode, hnodup⟩ := List.nodup_cons.mp hnodup
    have hturn : Gives (changeTrustIn env added removed r (node, v)) fun s =>
        s.records = { r.records with current := s.current } ∧
          s.current[node]? = some (restamp added removed node v) ∧
          ∀ n, n ≠ node → s.current[n]? = r.current[n]? := by
      have hchanged {s : Register T} (hs : s.records =
          { r with current := r.current.insert node (restamp added removed node v) }.records) :
          s.records = { r.records with current := s.current } ∧
            s.current[node]? = some (restamp added removed node v) ∧
            ∀ n, n ≠ node → s.current[n]? = r.current[n]? := by
        have hcurrent : s.current = r.current.insert node (restamp added removed node v) :=
          current_of_records hs
        refine ⟨by rw [hs, hcurrent]; rfl, ?_, fun n hn => ?_⟩
        · rw [hcurrent, Std.ExtTreeMap.getElem?_insert_self]
        · rw [hcurrent, Std.ExtTreeMap.getElem?_insert,
            if_neg (Nat.compare_eq_eq.not.mpr (Ne.symm hn))]
      rw [changeTrustIn]
      dsimp only
      cases hafter : trustAfter added removed node with
      | none =>
        have hsame : restamp added removed node v = v := by
          rw [restamp, hafter]
          rfl
        refine Gives.pure ⟨rfl, ?_, fun _ _ => rfl⟩
        rw [hsame]
        exact hentries _ List.mem_cons_self
      | some trusted =>
        cases trusted with
        | true => exact (enroll_records _ env node _ none).imp fun s hs => hchanged hs
        | false => exact (dismiss_records _ node _).imp fun s hs => hchanged hs
    rw [List.foldlM_cons]
    refine hturn.bind ?_
    rintro s ⟨hrecords, hself, hothers⟩
    have hdiff : ∀ e ∈ rest, e.1 ≠ node := by
      rintro e he rfl
      exact hnode (List.mem_map.mpr ⟨e, he, rfl⟩)
    refine (ih hnodup s fun e he => ?_).imp ?_
    · exact (hothers e.1 (hdiff e he)).trans (hentries e (List.mem_cons_of_mem _ he))
    · rintro s' ⟨hrecords', hin, hout⟩
      refine ⟨by rw [hrecords', hrecords], fun e he => ?_, fun n hn => ?_⟩
      · rcases List.mem_cons.mp he with rfl | he
        · exact (hout node hnode).trans hself
        · exact hin e he
      · obtain ⟨hne, hn⟩ := not_or.mp (List.mem_cons.not.mp hn)
        exact (hout n hn).trans (hothers n hne)

theorem changeTrust_records (r : Register T) (env : Surroundings) (added removed : NodeSet) :
    Gives (r.changeTrust env added removed) fun o => Restamped added removed r o.register := by
  have hentries : ∀ e ∈ r.entries env, r.current[e.1]? = some e.2 := fun e he =>
    Std.ExtTreeMap.mem_toList_iff_getElem?_eq_some.mp (mem_byRank.mp he)
  have hnodup : ((r.entries env).map (·.1)).Nodup :=
    ((byRank_perm _ r.current.toList).map _).nodup_iff.mpr (nodup_entries r.current)
  rw [changeTrust]
  refine (changeTrustAlong_records env added removed _ hnodup r hentries).bind ?_
  rintro s ⟨hrecords, hin, hout⟩
  have hbyLedger : s.byLedger = r.byLedger := congrArg (fun records : Register Unit => records.byLedger)
    (show s.records = { r.records with current := s.current } from hrecords)
  refine Gives.pure ⟨?_, fun n => ?_⟩
  · show { s.records with byLedger := s.byLedger.map (·.map (restamp added removed)) } = _
    rw [hrecords, hbyLedger]
  · cases hv : r.current[n]? with
    | none =>
      refine (hout n fun hmem => ?_).trans hv
      obtain ⟨e, he, rfl⟩ := List.mem_map.mp hmem
      have := (hentries e he).symm.trans hv
      cases this
    | some v =>
      exact hin (n, v) (mem_byRank.mpr (Std.ExtTreeMap.mem_toList_iff_getElem?_eq_some.mpr hv))

/-! ## Every request -/

theorem preferred_records (r : Register T) (env : Surroundings) (curr : Ledger) :
    Gives (r.preferred env curr) fun o => ∃ now, env.now = .ok now ∧ Purged now r o.register := by
  rw [preferred]
  refine (refresh_records r env).bind fun o ho => (Gives.trivial _).bind fun answer _ => ?_
  cases answer with
  | none => exact Gives.pure ho
  | some tip => exact (Gives.trivial _).bind fun _ _ => Gives.pure ho

/-- A request that is carried out changes the records as it should. -/
theorem step_enters (r : Register T) (env : Surroundings) (request : Request) :
    Gives (r.step env request) fun o => Entered env r o.register request o.answer := by
  have hpurged {α : Type} {x : Computation (Outcome T α)} {f : α → Reply} (request : Request)
      (hminor : Minor request) (hrange : request.range? = none)
      (h : Gives x fun o => ∃ now, env.now = .ok now ∧ Purged now r o.register) :
      Gives ((·.map f) <$> x) fun o => Entered env r o.register request o.answer := by
    refine h.map ?_
    rintro o ⟨now, -, ho⟩
    exact ho.entered hminor hrange
  cases request with
  | receive node v => exact (receive_records r env node v).map fun _ ho => .received ho
  | mayValidate seq =>
    refine (Gives.liftM (P := fun o => ∃ own, Advanced r.timing env.steady seq r.own o.answer own ∧
      o.register.records = { r.records with own }) fun o ho => ?_).map fun o ho => ?_
    · rw [mayValidate] at ho
      cases hadvance : r.own.advance r.timing env.steady seq with
      | error fault =>
        rw [hadvance] at ho
        cases ho
      | ok answer =>
        rw [hadvance] at ho
        cases ho
        exact ⟨answer.2, advance_spec hadvance, rfl⟩
    · obtain ⟨own, hadvanced, hrecords⟩ := ho
      exact .advanced hadvanced hrecords
  | keep low high =>
    refine (Gives.liftM (P := fun o : Outcome T Unit => o.register =
      { r with kept := (Request.keep low high).range?.or r.kept }) fun o ho => ?_).map fun o ho => ?_
    · rw [keep] at ho
      split at ho
      · rename_i hrange
        cases ho
        rw [Request.range?, dif_pos hrange]
        rfl
      · cases ho
    · show Entered env r o.register _ _
      rw [ho]
      exact .minor trivial (fun _ _ hv => hv) (Or.inl rfl) rfl
  | expire =>
    refine (Gives.liftM (P := fun o : Outcome T Unit => ∃ touched, r.touchKept env = .ok touched ∧
      o.register = touched.swept env.steady) fun o ho => ?_).map fun o ho => ?_
    · rw [expire] at ho
      cases htouched : r.touchKept env with
      | error fault =>
        rw [htouched] at ho
        cases ho
      | ok touched =>
        rw [htouched] at ho
        cases ho
        exact ⟨touched, rfl, rfl⟩
    · obtain ⟨touched, htouched, hregister⟩ := ho
      exact .expired htouched (congrArg records hregister)
  | changeTrust added removed =>
    exact (changeTrust_records r env added removed).map fun _ => .restamped
  | preferred curr => exact hpurged _ trivial rfl (preferred_records r env curr)
  | preferredId curr least =>
    exact hpurged _ trivial rfl ((preferred_records r env curr).bind fun _ ho => Gives.pure ho)
  | preferredClosed closed least counts =>
    exact hpurged _ trivial rfl ((preferred_records r env closed).bind fun _ ho => Gives.pure ho)
  | nodesAfter l id =>
    rw [step, nodesAfter]
    split
    · refine hpurged _ trivial rfl ((refresh_records r env).bind fun o ho => ?_)
      refine (Gives.trivial _).bind fun _ _ => (Gives.trivial _).bind fun _ _ => ?_
      exact (Gives.trivial _).bind fun _ _ => Gives.pure ho
    · exact Gives.pure (.minor trivial (fun _ _ hv => hv) (Or.inl rfl) rfl)
  | currentTrusted | currentNodes =>
    exact hpurged _ trivial rfl ((sweep_records r env).bind fun _ ho => Gives.pure ho)
  | countTrusted id | trustedFor id seq | fees id base =>
    exact Gives.pure (.minor trivial (fun _ _ hv => hv) (Or.inr ⟨id, rfl⟩) rfl)
  | flush =>
    refine Gives.pure (.minor trivial (fun n v hv => ?_) (Or.inl rfl) rfl)
    rw [show (r.flush.map Reply.validations).register.current = ∅ from rfl] at hv
    cases hv
  | laggards seq keys =>
    refine hpurged _ trivial rfl ?_
    rw [laggards]
    refine (Gives.trivial _).bind fun _ _ => (sweep_records r env).bind fun o ho => ?_
    exact (Gives.trivial _).bind fun _ _ => Gives.pure ho

theorem taken_of_step {o : Outcome T Reply} {verdict : Verdict}
    (hstep : r.step env (.receive node v) = pure o) (hanswer : o.answer = .verdict verdict) :
    Taken env node v r o.register verdict := by
  have hentered : Entered env r o.register (.receive node v) o.answer :=
    step_enters _ _ _ _ hstep
  rw [hanswer] at hentered
  cases hentered with
  | received htaken => exact htaken
  | minor hminor => exact hminor.elim

/-! ## What no request changes -/

omit [VoteTrie T]

/-- A register after its sets to keep were touched. -/
def renewed (r : Register T) (env : Surroundings) (range : KeepRange) (next : Time) : Register T :=
  { r with
    keepRefresh := some next
    byLedger := r.byLedger.touchAll env.steady (r.ledgersIn env range)
    bySeq := r.bySeq.touchAll env.steady (r.bySeq.keys.filter range.contains) }

/-- The sets to keep are touched when that is due, and the next time before they would have aged for the
expiry. -/
theorem touchKept_renews {touched : Register T} (h : r.touchKept env = .ok touched) :
    (∃ range next, r.kept = some range ∧ r.keepRefresh.all (· ≤ env.steady) = true ∧
        next.ns + r.timing.freshness.ns = env.steady.ns + r.timing.expiry.ns ∧
        touched = r.renewed env range next) ∨
      touched = r ∧ (r.kept = none ∨ ∃ next, r.keepRefresh = some next ∧ env.steady < next) := by
  rw [touchKept] at h
  cases hkept : r.kept with
  | none =>
    rw [hkept] at h
    cases h
    exact Or.inr ⟨rfl, Or.inl rfl⟩
  | some range =>
    simp only [hkept] at h
    split at h
    · rename_i hdue
      cases hlimit : env.steady.add r.timing.expiry with
      | error fault =>
        rw [hlimit] at h
        cases h
      | ok limit =>
        simp only [hlimit, bind, Except.bind] at h
        cases hnext : limit.sub r.timing.freshness with
        | error fault =>
          rw [hnext] at h
          cases h
        | ok next =>
          rw [hnext] at h
          cases h
          have hsum := Time.add_eq_ok.mp hlimit
          have hdifference := Time.sub_eq_ok.mp hnext
          exact Or.inl ⟨range, next, rfl, hdue, by omega, by rw [renewed, hkept]⟩
    · rename_i hearly
      cases h
      cases hrefresh : r.keepRefresh with
      | none =>
        rw [hrefresh] at hearly
        exact absurd rfl hearly
      | some next =>
        rw [hrefresh, Option.all_some, decide_eq_true_eq] at hearly
        exact Or.inr ⟨rfl, Or.inr ⟨next, rfl, Int.not_le.mp hearly⟩⟩

theorem touchKept_eq {touched : Register T} (h : r.touchKept env = .ok touched) : touched = r ∨
    ∃ range next ids seqs, r.kept = some range ∧ touched = { r with
      keepRefresh := some next
      byLedger := r.byLedger.touchAll env.steady ids
      bySeq := r.bySeq.touchAll env.steady seqs } := by
  rcases touchKept_renews h with ⟨range, next, hkept, -, -, hrenewed⟩ | ⟨hsame, -⟩
  · exact Or.inr ⟨range, next, _, _, hkept, hrenewed⟩
  · exact Or.inl hsame

/-- What is kept gets younger, and validations and guards stay as they are. -/
theorem touchKept_others {touched : Register T} (h : r.touchKept env = .ok touched) :
    touched.timing = r.timing ∧ touched.current = r.current ∧ touched.guards = r.guards ∧
      touched.own = r.own := by
  rcases touchKept_eq h with rfl | ⟨_, _, _, _, -, rfl⟩
  · exact ⟨rfl, rfl, rfl, rfl⟩
  · exact ⟨rfl, rfl, rfl, rfl⟩

/-- No request changes the timing. Only a request for it changes the range to keep, and only an expiry
the time of the next touch. -/
theorem Entered.standing {answer : Reply} {request : Request} (h : Entered env r s request answer) :
    ∃ touched : Register T, (touched = r ∨ request = .expire ∧ r.touchKept env = .ok touched) ∧
      s.timing = r.timing ∧ s.kept = request.range?.or r.kept ∧
      s.keepRefresh = touched.keepRefresh := by
  have hsame {t : Register Unit} (ht : s.records = t) :
      s.timing = t.timing ∧ s.kept = t.kept ∧ s.keepRefresh = t.keepRefresh := by
    rw [← ht]
    exact ⟨rfl, rfl, rfl⟩
  cases h with
  | received htaken =>
    cases htaken with
    | ignored _ _ hrecords => exact ⟨r, Or.inl rfl, hsame hrecords⟩
    | refused _ _ _ hrecords => exact ⟨r, Or.inl rfl, hsame hrecords⟩
    | late _ _ _ _ _ hrecords => exact ⟨r, Or.inl rfl, hsame hrecords⟩
    | installed _ _ _ _ hrecords => exact ⟨r, Or.inl rfl, hsame hrecords⟩
  | advanced _ hrecords => exact ⟨r, Or.inl rfl, hsame hrecords⟩
  | expired htouched hrecords =>
    obtain ⟨htiming, hkept, hrefresh⟩ := hsame hrecords
    refine ⟨_, Or.inr ⟨rfl, htouched⟩, htiming.trans (touchKept_others htouched).1, ?_, hrefresh⟩
    rcases touchKept_eq htouched with rfl | ⟨_, _, _, _, -, rfl⟩
    · exact hkept
    · exact hkept
  | restamped hrestamped => exact ⟨r, Or.inl rfl, hsame hrestamped.records⟩
  | minor _ _ _ hrecords => exact ⟨r, Or.inl rfl, hsame hrecords⟩

theorem Entered.timing {answer : Reply} {request : Request} (h : Entered env r s request answer) :
    s.timing = r.timing :=
  h.standing.choose_spec.2.1

theorem Entered.kept {answer : Reply} {request : Request} (h : Entered env r s request answer) :
    s.kept = request.range?.or r.kept :=
  h.standing.choose_spec.2.2.1

end Register

end ForkChoice

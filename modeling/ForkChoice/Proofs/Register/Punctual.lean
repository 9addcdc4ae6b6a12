import ForkChoice.Proofs.Register.Assessment
import ForkChoice.Proofs.Register.Fallback
import ForkChoice.Proofs.Register.Pending
import ForkChoice.Proofs.Register.Rising

/-!
# Sums of times

A request adds a duration of the timing to a time in four places: to the time of the network when it
judges a validation, to the time a guard remembers, to the steady time when sets are touched, and to
the time a validation was seen when it looks for laggards. A timing without flaws may still have
durations so long that one of these sums is not representable. Up to a time they all are if the
expiry fits after that time, and the freshness after the last time at which a validation can have
been seen; otherwise there is a run in which one of them is not.

* `Timing.Covers`: the sums that are made up to a time are representable.
* `Register.Punctual`: the guards remember no later time.
* `Register.step_spared`: a request does not fail for a time.
* `Register.run_punctual`: a run does not fail for a time, exactly if the timing covers the times.
-/

namespace ForkChoice

/-- A time is not representable. -/
def Fault.Timed (fault : Fault) : Prop := fault = .timeOverflow ∨ fault = .timeUnderflow

/-- A request is made at a time or before it, with clocks that can be read. -/
structure Surroundings.By (latest : Time) (env : Surroundings) : Prop where
  clock : ∃ now, env.now = .ok now ∧ now ≤ latest
  epoch : .epoch ≤ env.steady
  steady : env.steady ≤ latest

/-- The last representable time. -/
def Time.last : Time := ⟨0x8000000000000000 * nanosPerSecond - 1, by decide, by decide⟩

/-- Surroundings in which both clocks stand at a time and no ledger is at hand. -/
def Surroundings.still (t : Time) : Surroundings where
  now := .ok t
  steady := t
  acquire _ := none

theorem Surroundings.still_honest (a : Archive) (t : Time) : (Surroundings.still t).Honest a where
  drawn h := by cases h
  id_eq h := by cases h
  clock _ h := by cases h

/-! ## Guards -/

namespace SequenceGuard

variable {timing : Timing} {now latest : Time} {seq : Nat} {g g' : SequenceGuard} {b : Bool}

/-- A guard can be asked when the expiry fits after the time that it remembers. -/
theorem exists_advance (h : (g.since.later? timing.expiry).isSome) (now : Time) (seq : Nat) :
    ∃ answer, g.advance timing now seq = .ok answer := by
  obtain ⟨limit, hlimit, -⟩ := Time.exists_add h
  refine (g.advance_cases timing now seq).resolve_right fun hfault => ?_
  have := hlimit.symm.trans (advance_error hfault)
  cases this

theorem advance_of_not_later (h : ¬ (g.since.later? timing.expiry).isSome) (now : Time)
    (seq : Nat) : g.advance timing now seq = .error .timeOverflow := by
  rw [advance, Time.add, Option.not_isSome_iff_eq_none.mp h]
  rfl

/-- The first sequence number passes at a new guard. -/
theorem advance_start (h : (Time.epoch.later? timing.expiry).isSome) (now : Time) :
    ({} : SequenceGuard).advance timing now 1 = .ok (true, ⟨1, now⟩) := by
  obtain ⟨⟨b, g⟩, hadvance⟩ := exists_advance (g := {}) h now 1
  cases advance_spec hadvance with
  | passed => exact hadvance
  | held _ hle => cases hle
  | forgot _ hzero => cases hzero

/-- A guard remembers no time but that of the question and the one before. -/
theorem Advanced.since_le_of (h : Advanced timing now seq g b g') (hnow : now ≤ latest)
    (hsince : g.since ≤ latest) : g'.since ≤ latest := by
  cases h with
  | passed => exact hnow
  | held | forgot => exact hsince

end SequenceGuard

/-! ## Timings -/

namespace Timing

variable {timing : Timing} {latest now signed seen : Time}

/-- Up to a time, every sum of a time and a duration that is made is representable. -/
structure Covers (timing : Timing) (latest : Time) : Prop where
  expiry : (latest.later? timing.expiry).isSome
  freshness : latest.ns + timing.sight.ns + timing.freshness.ns ≤
    0x8000000000000000 * nanosPerSecond

/-- Both ends of the window are representable, since the window is no longer than the expiry. -/
theorem isCurrent_of_le (hflaw : timing.flaw? = none)
    (hexpiry : (latest.later? timing.expiry).isSome) (hnow : now ≤ latest) (signed seen : Time) :
    timing.isCurrent now signed seen = .ok (decide (timing.InWindow now signed seen)) := by
  have hwall : timing.wall.ns ≤ timing.expiry.ns := (flaw?_eq_none.mp hflaw).2 .wall (by decide)
  have hsight : timing.sight.ns ≤ timing.expiry.ns := (flaw?_eq_none.mp hflaw).2 .sight (by decide)
  rw [Time.isSome_later?] at hexpiry
  rw [Time.le_iff] at hnow
  apply isCurrent_eq
  · rw [Time.isSome_later?]
    omega
  · rw [Time.isSome_later?]
    omega

/-- The freshness can be added to the time at which a current validation was seen. -/
theorem Covers.isSome_later?_seen (hcovers : timing.Covers latest) (hflaw : timing.flaw? = none)
    (hlatest : .epoch ≤ latest) (hnow : now ≤ latest)
    (hcurrent : timing.isCurrent now signed seen = .ok true) :
    (seen.later? timing.freshness).isSome := by
  rw [isCurrent_of_le hflaw hcovers.expiry hnow] at hcurrent
  obtain ⟨-, -, hseen⟩ := of_decide_eq_true (Except.ok.inj hcurrent)
  have hfreshness := hcovers.freshness
  have hsight : 0 < timing.sight.ns := pos_of_flaw? hflaw .sight
  rw [Time.isSome_later?]
  rw [Time.le_iff] at hlatest hnow
  rcases hseen with rfl | hseen
  · omega
  · omega

/-- A current validation can have been seen so late that the freshness does not fit after it, if the
timing does not cover the time. -/
theorem exists_seen (hflaw : timing.flaw? = none) (hexpiry : (latest.later? timing.expiry).isSome)
    (hfreshness : ¬ latest.ns + timing.sight.ns + timing.freshness.ns ≤
      0x8000000000000000 * nanosPerSecond) :
    ∃ seen, timing.isCurrent latest latest seen = .ok true ∧
      ¬ (seen.later? timing.freshness).isSome := by
  have hwall : 0 < timing.wall.ns := pos_of_flaw? hflaw .wall
  have hsight : 0 < timing.sight.ns := pos_of_flaw? hflaw .sight
  have hearly : 0 < timing.early.ns := pos_of_flaw? hflaw .early
  have hle : timing.sight.ns ≤ timing.expiry.ns := (flaw?_eq_none.mp hflaw).2 .sight (by decide)
  have hend := Time.isSome_later?.mp hexpiry
  have hlower := latest.lower
  refine ⟨⟨latest.ns + timing.sight.ns - 1, by omega, by omega⟩, ?_, ?_⟩
  · rw [isCurrent_of_le hflaw hexpiry (Int.le_refl _)]
    refine congrArg Except.ok (decide_eq_true ⟨by omega, by omega, Or.inr ?_⟩)
    dsimp only
    omega
  · rw [Time.isSome_later?]
    dsimp only
    omega

end Timing

namespace Register

variable {T : Type} {a : Archive} {nodes : Set Nat} {env : Surroundings} {r s : Register T}
  {timing : Timing} {latest now : Time} {node : Nat} {v : Validation}

/-- The guards of a register remember no time after the latest. -/
structure Punctual (timing : Timing) (latest : Time) (r : Register T) : Prop where
  timing_eq : r.timing = timing
  since_le : ∀ owner, (r.guardOf owner).since ≤ latest

theorem punctual_empty [VoteTrie T] (timing : Timing) (hlatest : .epoch ≤ latest) :
    (empty timing : Register T).Punctual timing latest where
  timing_eq := rfl
  since_le owner := by
    cases owner with
    | none => exact hlatest
    | some node =>
      rw [guardOf, empty, Std.ExtTreeMap.getD_empty]
      exact hlatest

theorem Punctual.step [VoteTrie T] (h : r.Punctual timing latest) (hsteady : env.steady ≤ latest)
    (request : Request) :
    Gives (r.step env request) fun o => o.register.Punctual timing latest := by
  intro o ho
  have hentered := step_enters r env request o ho
  refine ⟨hentered.timing.trans h.timing_eq, fun owner => ?_⟩
  rcases hentered.guard owner with ⟨hsame, -⟩ | ⟨seq, b, hadvanced, -⟩
  · rw [hsame]
    exact h.since_le owner
  · exact hadvanced.since_le_of hsteady (h.since_le owner)

/-! ## Sums in one request -/

theorem exists_touchKept (hcovers : r.timing.Covers latest) (hepoch : .epoch ≤ env.steady)
    (hsteady : env.steady ≤ latest) : ∃ s, r.touchKept env = .ok s := by
  have hexpiry := Time.isSome_later?.mp hcovers.expiry
  have hfreshness := hcovers.freshness
  rw [Time.le_iff] at hepoch hsteady
  have hzero : Time.epoch.ns = 0 := rfl
  obtain ⟨limit, hlimit, hns⟩ := Time.exists_add (t := env.steady) (d := r.timing.expiry)
    (Time.isSome_later?.mpr (by omega))
  obtain ⟨next, hnext⟩ := Time.exists_sub (t := limit) (d := r.timing.freshness) (by omega)
  rw [touchKept]
  cases r.kept with
  | none => exact ⟨r, rfl⟩
  | some range =>
    dsimp only
    split
    · rw [hlimit]
      dsimp only [bind, Except.bind]
      rw [hnext]
      exact ⟨_, rfl⟩
    · exact ⟨r, rfl⟩

/-- A validation can be assessed. -/
theorem exists_assess (hflaw : timing.flaw? = none) (hexpiry : (latest.later? timing.expiry).isSome)
    (h : r.Punctual timing latest) (hnow : env.now = .ok now) (hle : now ≤ latest) (node : Nat)
    (v : Validation) : ∃ stage, r.assess env node v = .ok stage := by
  obtain rfl := h.timing_eq
  have hcurrent := Timing.isCurrent_of_le hflaw hexpiry hle v.signed v.seen
  obtain ⟨⟨rising, guard⟩, hadvance⟩ :=
    SequenceGuard.exists_advance
      (Time.isSome_later?_of_le (h.since_le (some node)) hexpiry) env.steady v.seq
  by_cases hwindow : r.timing.InWindow now v.signed v.seen
  · rw [decide_eq_true hwindow] at hcurrent
    cases rising with
    | false => exact ⟨_, assess_eq_ok.mpr (.refused hnow hcurrent hadvance)⟩
    | true =>
      cases hnewer : r.current[node]?.all (·.signed < v.signed) with
      | false => exact ⟨_, assess_eq_ok.mpr (.late hnow hcurrent hadvance hnewer)⟩
      | true => exact ⟨_, assess_eq_ok.mpr (.installed hnow hcurrent hadvance hnewer)⟩
  · rw [decide_eq_false hwindow] at hcurrent
    exact ⟨_, assess_eq_ok.mpr (.ignored hnow hcurrent)⟩

section Sums

variable [VoteTrie T]

/-- Once the register is swept, only the sums with the freshness can fail. -/
theorem laggards_eq {o : Outcome T Unit} (hnow : env.now = .ok now) (ho : r.sweep env = pure o)
    (seq : Nat) (keys : Std.ExtTreeSet Key) : r.laggards env seq keys =
      (fun sorted => { o with answer := sorted }) <$> (liftM (sortKeys r.timing now seq
        ((o.register.entries env).map (·.2)) 0 keys) : Computation _) := by
  rw [laggards, hnow, ho, map_eq_pure_bind]
  rfl

theorem Sound.enter [LawfulVoteTrie T] (h : r.Sound a nodes) (hnode : node ∈ nodes)
    (env : Surroundings) (v : Validation) (stage : Stage) :
    (r.enter env node v stage).Sound a nodes := by
  cases stage with
  | ignored => exact h
  | refused | late => exact h.untouched ⟨rfl, rfl, rfl, rfl, rfl⟩
  | installed => exact (h.insertCurrent hnode v).untouched ⟨rfl, rfl, rfl, rfl, rfl⟩

/-- What fails only for the number of votes does not fail for a time. -/
theorem spared_of_room {α : Type} {x : Computation α} {P : α → Prop}
    (h : Ends (fun fault => fault = .supportOverflow) x P) : Spared Fault.Timed x := by
  apply Spared.of_ends h
  rintro _ (rfl | rfl) hfault
  · cases hfault
  · cases hfault

variable [LawfulVoteTrie T] (ha : a.Sound) (henv : env.Honest a) (hflaw : timing.flaw? = none)
  (hs : r.Sound a nodes) (h : r.Punctual timing latest)

include ha henv hflaw hs h

/-- A register can be swept. -/
theorem Punctual.exists_sweep (hexpiry : (latest.later? timing.expiry).isSome)
    (hnow : env.now = .ok now) (hle : now ≤ latest) :
    ∃ o, r.sweep env = pure o ∧ o.register.Sound a nodes ∧ Swept now r o.register := by
  apply Register.exists_sweep ha henv hs hnow
  intro n v hv
  obtain rfl := h.timing_eq
  have hcurrent := Timing.isCurrent_of_le hflaw hexpiry hle v.signed v.seen
  by_cases hwindow : r.timing.InWindow now v.signed v.seen
  · exact Or.inl ⟨hv, hcurrent.trans (congrArg _ (decide_eq_true hwindow))⟩
  · exact Or.inr ⟨hv, hcurrent.trans (congrArg _ (decide_eq_false hwindow))⟩

variable (hcovers : timing.Covers latest) (hby : env.By latest)

include hcovers hby

theorem sweep_spared : Spared Fault.Timed (r.sweep env) := by
  obtain ⟨now, hnow, hle⟩ := hby.clock
  obtain ⟨o, ho, -⟩ := h.exists_sweep ha henv hflaw hs hcovers.expiry hnow hle
  exact ho ▸ Spared.pure o

theorem refresh_spared : Spared Fault.Timed (r.refresh env) := by
  obtain ⟨now, hnow, hle⟩ := hby.clock
  obtain ⟨o, ho, hsound, -⟩ := h.exists_sweep ha henv hflaw hs hcovers.expiry hnow hle
  rw [refresh, ho, pure_bind]
  exact (spared_of_room (settle_ends ha henv (fun _ _ _ => rfl) hsound)).bind fun _ _ =>
    Spared.pure _

theorem preferred_spared (curr : Ledger) : Spared Fault.Timed (r.preferred env curr) := by
  rw [preferred]
  refine (refresh_spared ha henv hflaw hs h hcovers hby).bind fun fresh hfresh => ?_
  have hsound := ((refresh_ends (E := fun _ => True) ha henv (fun _ _ => trivial)
    (fun _ _ _ => trivial) hs).result hfresh).1
  obtain ⟨answer, hanswer, -, htip⟩ :=
    LawfulVoteTrie.preferred fresh.register.own.largest ha hsound.holds
  dsimp only
  rw [hanswer, pure_bind]
  cases answer with
  | none => exact Spared.pure _
  | some tip =>
    obtain ⟨mark, hmark⟩ := choose_ok (htip tip rfl).1.reached curr
    dsimp only
    rw [hmark]
    exact Spared.pure _

theorem nodesAfter_spared {l : Ledger} (hl : l ∈ a.ledgers) (id : Nat) :
    Spared Fault.Timed (r.nodesAfter env l id) := by
  rw [nodesAfter]
  split
  · refine (refresh_spared ha henv hflaw hs h hcovers hby).bind fun fresh hfresh => ?_
    have hsound := ((refresh_ends (E := fun _ => True) ha henv (fun _ _ => trivial)
      (fun _ _ _ => trivial) hs).result hfresh).1
    rw [hsound.branchSupport ha hl, pure_bind, hsound.tipSupport ha hl, pure_bind]
    refine Spared.bind (Spared.liftM fun fault hfault => ?_) fun _ _ => Spared.pure _
    rw [debit]
    split
    · intro h
      cases h
    · rintro ⟨⟩
      rcases hfault with h | h
      all_goals cases h
  · exact Spared.pure _

theorem laggards_spared (seq : Nat) (keys : Std.ExtTreeSet Key) :
    Spared Fault.Timed (r.laggards env seq keys) := by
  obtain ⟨now, hnow, hle⟩ := hby.clock
  obtain ⟨o, ho, -, hswept⟩ := h.exists_sweep ha henv hflaw hs hcovers.expiry hnow hle
  obtain rfl := h.timing_eq
  have hsorted : ∃ sorted, sortKeys r.timing now seq ((o.register.entries env).map (·.2)) 0 keys =
      .ok sorted := (exists_sortKeys _ 0 keys).mpr ?_
  · obtain ⟨sorted, hsorted⟩ := hsorted
    rw [laggards_eq hnow ho, hsorted]
    exact Spared.pure _
  · intro v hv
    obtain ⟨entry, hentry, rfl⟩ := List.mem_map.mp hv
    have hleft := Std.ExtTreeMap.mem_toList_iff_getElem?_eq_some.mp (mem_byRank.mp hentry)
    have hcurrent := (hswept.current entry.1 entry.2).mp hleft
    exact hcovers.isSome_later?_seen hflaw (Int.le_trans hby.epoch hby.steady) hle hcurrent.fresh

/-- A request does not fail for a time, if the timing covers the time at which it is made. -/
theorem step_spared {request : Request} (hrequest : request.Apt a nodes) :
    Spared Fault.Timed (r.step env request) := by
  obtain ⟨now, hnow, hle⟩ := hby.clock
  cases request with
  | receive node v =>
    obtain ⟨stage, hstage⟩ := exists_assess hflaw hcovers.expiry h hnow hle node v
    have hreceive : r.step env (.receive node v) = (·.map .verdict) <$> r.receive env node v := rfl
    rw [hreceive, receive_of_assess hstage, adopt]
    refine Spared.map (Spared.map ?_ _) _
    split
    · exact spared_of_room (enroll_ends (E := fun fault => fault = .supportOverflow) ha henv
        (fun _ _ _ => rfl) (hs.enter hrequest env v stage) hrequest v _)
    · exact Spared.pure _
  | mayValidate seq =>
    obtain rfl := h.timing_eq
    obtain ⟨answer, hanswer⟩ :=
      SequenceGuard.exists_advance
      (Time.isSome_later?_of_le (h.since_le none) hcovers.expiry) env.steady seq
    refine Spared.map (Spared.liftM fun fault _ => ?_) _
    rw [mayValidate, show r.own.advance r.timing env.steady seq = .ok answer from hanswer]
    intro h
    cases h
  | keep low high =>
    refine Spared.map (Spared.liftM fun fault hfault => ?_) _
    rw [keep]
    split
    · intro h
      cases h
    · intro hempty
      cases hempty
      rcases hfault with hfault | hfault
      · cases hfault
      · cases hfault
  | expire =>
    obtain rfl := h.timing_eq
    obtain ⟨s, htouched⟩ := exists_touchKept hcovers hby.epoch hby.steady
    refine Spared.map (Spared.liftM fun fault _ => ?_) _
    rw [expire, htouched]
    intro h
    cases h
  | changeTrust added removed =>
    exact (spared_of_room (changeTrust_ends (E := fun fault => fault = .supportOverflow) ha henv
      (fun _ _ _ => rfl) hs added removed)).map _
  | preferred curr => exact (preferred_spared ha henv hflaw hs h hcovers hby curr).map _
  | preferredId curr least =>
    exact ((preferred_spared ha henv hflaw hs h hcovers hby curr).bind fun _ _ =>
      Spared.pure _).map _
  | preferredClosed closed least counts =>
    exact ((preferred_spared ha henv hflaw hs h hcovers hby closed).bind fun _ _ =>
      Spared.pure _).map _
  | nodesAfter l id => exact (nodesAfter_spared ha henv hflaw hs h hcovers hby hrequest id).map _
  | currentTrusted =>
    exact ((sweep_spared ha henv hflaw hs h hcovers hby).bind fun _ _ => Spared.pure _).map _
  | currentNodes =>
    exact ((sweep_spared ha henv hflaw hs h hcovers hby).bind fun _ _ => Spared.pure _).map _
  | countTrusted id => exact Spared.pure _
  | trustedFor id seq => exact Spared.pure _
  | fees id base => exact Spared.pure _
  | flush => exact Spared.pure _
  | laggards seq keys => exact (laggards_spared ha henv hflaw hs h hcovers hby seq keys).map _

end Sums

/-! ## Sums that fail -/

variable [VoteTrie T] {seq : Nat}

/-- The own guard answers, or the question fails as the guard does. -/
theorem step_mayValidate {b : Bool} {own : SequenceGuard}
    (h : r.own.advance r.timing env.steady seq = .ok (b, own)) :
    r.step env (.mayValidate seq) = pure ⟨.granted b, { r with own }, []⟩ := by
  rw [step, mayValidate, h]
  rfl

theorem step_mayValidate_fault {fault : Fault}
    (h : r.own.advance r.timing env.steady seq = .error fault) :
    r.step env (.mayValidate seq) = throw fault := by
  rw [step, mayValidate, h]
  rfl

theorem after_cons_pure {request : Request} {o : Outcome T Reply} (h : r.step env request = pure o)
    (rest : List (Surroundings × Request)) :
    r.after ((env, request) :: rest) = o.register.after rest := by
  rw [after, List.foldlM_cons, h, map_pure, pure_bind]
  rfl

theorem after_cons_throw {request : Request} {fault : Fault} (h : r.step env request = throw fault)
    (rest : List (Surroundings × Request)) : r.after ((env, request) :: rest) = throw fault := by
  rw [after, List.foldlM_cons, h]
  rfl

/-- When the expiry does not fit after a time, the second sequence number asked for at that time
fails, if the first one does not. -/
theorem after_mayValidate_overflows (h : ¬ (latest.later? timing.expiry).isSome) :
    (empty timing : Register T).after
        [(.still latest, .mayValidate 1), (.still latest, .mayValidate 1)] =
      throw .timeOverflow := by
  have hfails (s : Register T) (htiming : s.timing = timing)
      (hown : ¬ (s.own.since.later? timing.expiry).isSome) :
      s.step (.still latest) (.mayValidate 1) = throw .timeOverflow := by
    apply step_mayValidate_fault
    rw [htiming]
    exact SequenceGuard.advance_of_not_later hown _ _
  by_cases hfirst : ((empty timing : Register T).own.since.later? timing.expiry).isSome
  · have hstep : (empty timing : Register T).step (.still latest) (.mayValidate 1) =
        pure ⟨.granted true, { (empty timing : Register T) with own := ⟨1, latest⟩ }, []⟩ :=
      step_mayValidate (SequenceGuard.advance_start hfirst latest)
    rw [after_cons_pure hstep]
    exact after_cons_throw (hfails _ rfl h) []
  · exact after_cons_throw (hfails _ rfl hfirst) _

/-- The laggards cannot be told when the freshness does not fit after the time at which a validation
that is left was seen. -/
theorem laggards_fault {o : Outcome T Unit} (hnow : env.now = .ok now) (ho : r.sweep env = pure o)
    (hv : o.register.current[node]? = some v) (hseen : ¬ (v.seen.later? r.timing.freshness).isSome)
    (seq : Nat) (keys : Std.ExtTreeSet Key) : r.laggards env seq keys = throw .timeOverflow := by
  have hentry : (node, v) ∈ o.register.entries env :=
    mem_byRank.mpr (Std.ExtTreeMap.mem_toList_iff_getElem?_eq_some.mpr hv)
  have hsorted : ¬ ∃ sorted, sortKeys r.timing now seq ((o.register.entries env).map (·.2)) 0 keys =
      .ok sorted := by
    rw [exists_sortKeys]
    intro hall
    exact hseen (hall v (List.mem_map_of_mem hentry))
  rw [laggards_eq hnow ho, (sortKeys_cases _ _ _ _ _ _).resolve_left hsorted]
  rfl

/-- The first validation of a node that is not trusted becomes its current one. -/
theorem step_receive_first (node : Nat) (hnow : env.now = .ok now)
    (hcurrent : timing.isCurrent now v.signed v.seen = .ok true)
    (hexpiry : (Time.epoch.later? timing.expiry).isSome) (hseq : v.seq = 1)
    (htrusted : v.trusted = false) :
    ∃ o, (empty timing : Register T).step env (.receive node v) = pure o ∧
      o.register.current[node]? = some v := by
  let r : Register T := empty timing
  have hadvance : (r.guards.getD node {}).advance r.timing env.steady v.seq =
      .ok (true, ⟨1, env.steady⟩) := by
    rw [show r.guards = ∅ from rfl, Std.ExtTreeMap.getD_empty, hseq]
    exact SequenceGuard.advance_start hexpiry env.steady
  have hnewer : r.current[node]?.all (·.signed < v.signed) = true := by
    rw [show r.current = ∅ from rfl, Std.ExtTreeMap.getElem?_empty]
    rfl
  have hassess : r.assess env node v = .ok (.installed ⟨1, env.steady⟩) :=
    assess_eq_ok.mpr (.installed hnow hcurrent hadvance hnewer)
  have hadopt : r.adopt env node v (.installed ⟨1, env.steady⟩) =
      pure (r.enter env node v (.installed ⟨1, env.steady⟩)) := by
    rw [adopt, Stage.enrolls, htrusted]
    rfl
  exact ⟨_, step_receive.mpr ⟨_, _, hassess, hadopt, rfl⟩, Std.ExtTreeMap.getElem?_insert_self⟩

/-- When the freshness does not fit after the last time at which a current validation can have been
seen, a validation that was seen then makes the next question for laggards fail. -/
theorem after_laggards_overflows [LawfulVoteTrie T] (ha : a.Sound) (hflaw : timing.flaw? = none)
    (hlatest : .epoch ≤ latest) (hexpiry : (latest.later? timing.expiry).isSome)
    (hfreshness : ¬ latest.ns + timing.sight.ns + timing.freshness.ns ≤
      0x8000000000000000 * nanosPerSecond) :
    ∃ v, (empty timing : Register T).after
        [(.still latest, .receive 0 v), (.still latest, .laggards 0 ∅)] = throw .timeOverflow := by
  obtain ⟨seen, hcurrent, hseen⟩ := Timing.exists_seen hflaw hexpiry hfreshness
  let v : Validation :=
    { ledgerId := 0, seq := 1, signed := latest, seen, key := ⟨0, 0⟩, node := 0, fee := none
      full := true, trusted := false, cookie := 0 }
  have henv := Surroundings.still_honest a latest
  have hnow : (Surroundings.still latest).now = .ok latest := rfl
  obtain ⟨o, ho, hv⟩ := step_receive_first (T := T) (v := v) 0 hnow hcurrent
    (Time.isSome_later?_of_le hlatest hexpiry) rfl rfl
  have hapt : (Request.receive 0 v).Apt a Set.univ := trivial
  have hsound : o.register.Sound a Set.univ := ((step_ends ha henv (fun _ => Or.inl)
    (room_bounded _) (sound_empty ha timing) hapt).result ho).1
  have hpunctual : o.register.Punctual timing latest :=
    (punctual_empty timing hlatest).step (Int.le_refl _) _ o ho
  obtain ⟨swept, hsweep, -, hswept⟩ :=
    hpunctual.exists_sweep ha henv hflaw hsound hexpiry hnow (Int.le_refl _)
  have hleft : swept.register.current[0]? = some v :=
    (hswept.current 0 v).mpr ⟨hv, hpunctual.timing_eq ▸ hcurrent⟩
  have hlaggards : o.register.laggards (.still latest) 0 ∅ = throw .timeOverflow :=
    laggards_fault hnow hsweep hleft (hpunctual.timing_eq ▸ hseen) 0 ∅
  refine ⟨v, ?_⟩
  rw [after_cons_pure ho]
  apply after_cons_throw
  rw [step, hlaggards]
  rfl

/-! ## Runs -/

/-- The faults of a run that do not come from times. -/
def Untimed (fault : Fault) : Prop := fault = .supportOverflow ∨ fault = .emptyKeepRange

/-- A request up to a time ends without a fault of times, and remembers no later one. -/
theorem Punctual.step_ends [LawfulVoteTrie T] (h : r.Punctual timing latest) (ha : a.Sound)
    (henv : env.Honest a) (hflaw : timing.flaw? = none) (hs : r.Sound a Set.univ)
    (hcovers : timing.Covers latest) (hby : env.By latest) {request : Request}
    (hrequest : request.Apt a Set.univ) :
    Ends Untimed (r.step env request) fun o =>
      o.register.Sound a Set.univ ∧ o.register.Punctual timing latest := by
  have hends := Register.step_ends ha henv (fun _ => Or.inl) (room_bounded _) hs hrequest
  have hspared := step_spared ha henv hflaw hs h hcovers hby hrequest
  refine (hends.spared hspared).self.mono ?_ fun o ho => ⟨ho.2.1, h.step hby.steady request o ho.1⟩
  rintro fault ⟨hfault | rfl, huntimed⟩
  · cases hfault with
    | timeOverflow => exact absurd (Or.inl rfl) huntimed
    | timeUnderflow => exact absurd (Or.inr rfl) huntimed
    | emptyKeepRange => exact Or.inr rfl
  · exact Or.inl rfl

/-- A run of requests up to a time never fails for a time, if the timing covers that time, whatever
the validations say of when they were signed and seen. If it does not, two requests at that very
time are enough for a sum to overflow. -/
theorem run_punctual {Slot : Type} [DecidableEq Slot] (A : Slots Slot (Cell Slot))
    (ha : a.Reachable) (hflaw : timing.flaw? = none) (hlatest : .epoch ≤ latest) :
    (timing.Covers latest → ∀ requests, Orderly a Set.univ requests →
      (∀ request ∈ requests, request.1.By latest) →
      Ends Untimed ((empty timing : Register (ArenaTrie A)).after requests) fun _ => True) ∧
    (¬ timing.Covers latest → ∃ requests, Orderly a Set.univ requests ∧
      (∀ request ∈ requests, request.1 = .still latest) ∧
      (empty timing : Register (ArenaTrie A)).after requests = throw .timeOverflow) := by
  constructor
  · intro hcovers requests horderly hby
    have hafter := Ends.foldlM (E := Untimed)
      (I := fun rest (r : Register (ArenaTrie A)) => Orderly a Set.univ rest ∧
        (∀ request ∈ rest, request.1.By latest) ∧ r.Sound a Set.univ ∧ r.Punctual timing latest)
      (f := fun r request => (·.register) <$> r.step request.1 request.2)
      ⟨horderly, hby, sound_empty ha.sound timing, punctual_empty timing hlatest⟩ ?_
    · exact hafter.imp fun _ _ => trivial
    · intro request rest r h
      obtain ⟨horderly, hby, hs, h⟩ := h
      obtain ⟨hrequest, horderly⟩ := List.forall_mem_cons.mp horderly
      obtain ⟨hfirst, hby⟩ := List.forall_mem_cons.mp hby
      exact (h.step_ends ha.sound hrequest.1 hflaw hs hcovers hfirst hrequest.2).map
        fun o ho => ⟨horderly, hby, ho.1, ho.2⟩
  · intro huncovered
    have hstill := Surroundings.still_honest a latest
    by_cases hexpiry : (latest.later? timing.expiry).isSome
    · have hfreshness : ¬ latest.ns + timing.sight.ns + timing.freshness.ns ≤
          0x8000000000000000 * nanosPerSecond := fun h => huncovered ⟨hexpiry, h⟩
      obtain ⟨v, hv⟩ := after_laggards_overflows (T := ArenaTrie A) ha.sound hflaw hlatest hexpiry
        hfreshness
      exact ⟨_, by simp [Orderly, hstill, Request.Apt], by simp, hv⟩
    · exact ⟨_, by simp [Orderly, hstill, Request.Apt], by simp,
        after_mayValidate_overflows hexpiry⟩

/-- The default timing covers a time of 1601 seconds, but not the last representable one. -/
theorem run_punctual_fork :
    ({} : Timing).flaw? = none ∧ .epoch ≤ Fork.late ∧ .epoch ≤ Time.last ∧
      ({} : Timing).Covers Fork.late ∧
      Ends Untimed ((empty {} : Register (ArenaTrie (Slots.numbered (Cell Nat)))).after (Fork.script
        [(Fork.late, [], .keep 2 3), (Fork.late, [], .receive 1 (Fork.word 1 Fork.left .last)),
          (Fork.late, [], .expire), (Fork.late, [], .laggards 2 ∅)])) (fun _ => True) ∧
      ¬ ({} : Timing).Covers .last ∧ ∃ requests, (∀ request ∈ requests, request.1 = .still .last) ∧
        (empty {} : Register (ArenaTrie (Slots.numbered (Cell Nat)))).after requests =
          throw .timeOverflow := by
  have hflaw : ({} : Timing).flaw? = none := by decide
  have hlate : Time.epoch ≤ Fork.late := by decide
  have hlast : Time.epoch ≤ Time.last := by decide
  have hcovers : ({} : Timing).Covers Fork.late := ⟨by decide, by decide⟩
  have huncovered : ¬ ({} : Timing).Covers .last := fun h => absurd h.expiry (by decide)
  refine ⟨hflaw, hlate, hlast, hcovers, ?_, huncovered, ?_⟩
  · apply (run_punctual (Slots.numbered _) Fork.archive_reachable hflaw hlate).1 hcovers
    · exact Fork.orderly_script _ (by simp [Request.Apt])
    · have hby : (Fork.world Fork.late []).By Fork.late :=
        ⟨⟨Fork.late, rfl, Int.le_refl _⟩, hlate, Int.le_refl _⟩
      simp [Fork.script, hby]
  · obtain ⟨requests, -, hrequests⟩ :=
      (run_punctual (Slots.numbered _) Fork.archive_reachable hflaw hlast).2 huncovered
    exact ⟨requests, hrequests⟩

/-- The check lets a timing pass whose expiry fits after no time since the epoch. Then already the
first sequence number that this node asks for makes a sum overflow, here on the second day. -/
theorem run_punctual_overlong :
    ∃ timing : Timing, timing.check = .ok timing ∧
      (empty timing : Register (ArenaTrie (Slots.numbered (Cell Nat)))).after
        [(.still ⟨86400 * nanosPerSecond, by decide, by decide⟩, .mayValidate 1)] =
          throw .timeOverflow := by
  refine ⟨{ expiry := .ofSeconds 0xffffffffffffffff }, by decide, ?_⟩
  apply after_cons_throw
  apply step_mayValidate_fault
  exact SequenceGuard.advance_of_not_later (by decide) _ _

end Register

end ForkChoice

import ForkChoice.Proofs.Register.Rising
import ForkChoice.Proofs.Register.Tables

/-!
# What is filed by ledger

A validation that is taken in is filed for its ledger, in a set that is swept out when it has not been
used for the expiry. It is found there while it is current, if the set is kept for so long; filing it
does not count as a use of the set.

* `Register.filed`: the validation of a node that is filed for a ledger.
* `Register.Refiled`: what a request does to the sets by ledger.
* `Register.Covered`, `Register.Covering`: validations are filed in sets that are kept while they are
  current.
* `Register.history_covers`: the current validations are filed, and counted for their ledgers.
-/

namespace ForkChoice

open SequenceGuard

/-- What a request makes of the validations of a node that are held: trust may change. -/
def Request.stamp : Request → Nat → Validation → Validation
  | .changeTrust added removed => Register.restamp added removed
  | _ => fun _ v => v

namespace Request

@[simp] theorem stamp_ledgerId (request : Request) (n : Nat) (v : Validation) :
    (request.stamp n v).ledgerId = v.ledgerId := by
  cases request <;> rfl

@[simp] theorem stamp_seq (request : Request) (n : Nat) (v : Validation) :
    (request.stamp n v).seq = v.seq := by
  cases request <;> rfl

@[simp] theorem stamp_signed (request : Request) (n : Nat) (v : Validation) :
    (request.stamp n v).signed = v.signed := by
  cases request <;> rfl

end Request

/-- The set in which an accepted validation was filed is kept, if it is not used any more, for as long as
the validation may be current. -/
def Event.Keeps {T : Type} (timing : Timing) (e : Event T) : Prop :=
  ∀ node v, e.Accepts node v → ∃ used, e.outcome.register.byLedger.touched? v.ledgerId = some used ∧
    v.signed.ns + timing.early.ns ≤ used.ns + timing.expiry.ns

namespace Register

variable {T : Type} {env : Surroundings} {r s : Register T} {es : List (Event T)}
  {node n id : Nat} {v w : Validation} {request : Request} {answer : Reply} {now last : Time}

/-- The validation of a node that is filed for a ledger. -/
def filed (r : Register T) (id node : Nat) : Option Validation := r.byLedger.member? id node

theorem filed_congr (h : s.byLedger.get? id = r.byLedger.get? id) (node : Nat) :
    s.filed id node = r.filed id node := by
  rw [filed, filed, AgedMap.member?, AgedMap.member?, h]

theorem filed_file (r : Register T) (env : Surroundings) (node : Nat) (v : Validation)
    (id n : Nat) : (r.file env node v).filed id n =
      if v.ledgerId = id ∧ node = n then some v else r.filed id n :=
  AgedMap.member?_put r.byLedger env.steady v.ledgerId node v id n

/-- What a request does to the sets by ledger. -/
inductive Refiled (env : Surroundings) (r s : Register T) : Request → Prop
  | same {request : Request} (stamp : request.stamp = fun _ v => v)
    (byLedger : s.byLedger = r.byLedger) : Refiled env r s request
  | filed {node : Nat} {v : Validation} {guard : SequenceGuard}
    (advanced : Advanced r.timing env.steady v.seq (r.guardOf (some node)) true guard)
    (byLedger : s.byLedger = (r.file env node v).byLedger) : Refiled env r s (.receive node v)
  | expired {touched : Register T} (touches : r.touchKept env = .ok touched)
    (byLedger : s.byLedger = touched.byLedger.fresh env.steady r.timing.expiry) :
    Refiled env r s .expire
  | restamped {added removed : NodeSet}
    (byLedger : s.byLedger = r.byLedger.map (·.map (restamp added removed))) :
    Refiled env r s (.changeTrust added removed)
  | used {request : Request} {id : Nat} (stamp : request.stamp = fun _ v => v)
    (byLedger : s.byLedger = r.byLedger.touch env.steady id) : Refiled env r s request

theorem Minor.stamp_eq (h : Minor request) : request.stamp = fun _ v => v := by
  cases request with
  | changeTrust => exact h.elim
  | _ => rfl

theorem Entered.refiled (h : Entered env r s request answer) : Refiled env r s request := by
  have hsame {t : Register Unit} (ht : s.records = t) : s.byLedger = t.byLedger := by
    rw [← ht]
    rfl
  cases h with
  | received htaken =>
    cases htaken with
    | ignored _ _ hrecords => exact .same rfl (hsame hrecords)
    | refused _ _ _ hrecords => exact .same rfl (hsame hrecords)
    | late _ _ hadvanced _ _ hrecords => exact .filed hadvanced (hsame hrecords)
    | installed _ _ hadvanced _ hrecords => exact .filed hadvanced (hsame hrecords)
  | advanced _ hrecords => exact .same rfl (hsame hrecords)
  | expired htouched hrecords =>
    refine .expired htouched ((hsame hrecords).trans ?_)
    rw [← (touchKept_others htouched).1]
    rfl
  | restamped hrestamped => exact .restamped (hsame hrestamped.records)
  | minor hminor _ hbyLedger _ =>
    rcases hbyLedger with hsame | ⟨id, htouch⟩
    · exact .same hminor.stamp_eq hsame
    · exact .used hminor.stamp_eq htouch

/-- A current validation was current before, or has just been accepted. -/
theorem Entered.current (h : Entered env r s request answer) (hv : s.current[n]? = some v) :
    (∃ w, r.current[n]? = some w ∧ request.stamp n w = v) ∨
      request = .receive n v ∧ answer = .verdict .current := by
  have hsame {t : Register Unit} (ht : s.records = t) : s.current = t.current := by
    rw [← ht]
    rfl
  cases h with
  | received htaken =>
    cases htaken with
    | ignored _ _ hrecords => exact Or.inl ⟨v, hsame hrecords ▸ hv, rfl⟩
    | refused _ _ _ hrecords => exact Or.inl ⟨v, hsame hrecords ▸ hv, rfl⟩
    | late _ _ _ _ _ hrecords => exact Or.inl ⟨v, hsame hrecords ▸ hv, rfl⟩
    | installed _ _ _ _ hrecords =>
      have hcurrent : s.current = r.current.insert _ _ := hsame hrecords
      rw [hcurrent, Std.ExtTreeMap.getElem?_insert] at hv
      split at hv
      · rename_i hn
        obtain rfl := Nat.compare_eq_eq.mp hn
        obtain rfl := Option.some.inj hv
        exact Or.inr ⟨rfl, rfl⟩
      · exact Or.inl ⟨v, hv, rfl⟩
  | advanced _ hrecords => exact Or.inl ⟨v, hsame hrecords ▸ hv, rfl⟩
  | expired htouched hrecords =>
    obtain ⟨-, hcurrent, -⟩ := touchKept_others htouched
    exact Or.inl ⟨v, (hsame hrecords).trans hcurrent ▸ hv, rfl⟩
  | restamped hrestamped =>
    rw [hrestamped.current, Option.map_eq_some_iff] at hv
    exact Or.inl hv
  | minor hminor hcurrent _ _ =>
    exact Or.inl ⟨v, hcurrent n v hv, by rw [hminor.stamp_eq]⟩

theorem Taken.filed {verdict : Verdict} (h : Taken env node v r s verdict)
    (hverdict : verdict = .current) : s.filed v.ledgerId node = some v := by
  cases h with
  | ignored => cases hverdict
  | refused => exact absurd hverdict Verdict.ofRefused_ne_current
  | late => cases hverdict
  | installed _ _ _ _ hrecords =>
    have hbyLedger : s.byLedger = (r.file env node v).byLedger :=
      congrArg (fun records : Register Unit => records.byLedger) hrecords
    exact (filed_congr (by rw [hbyLedger]) node).trans
      ((filed_file r env node v v.ledgerId node).trans (if_pos ⟨rfl, rfl⟩))

/-- A set was last used at the time of a request, or before it. -/
theorem Refiled.used_cases (h : Refiled env r s request)
    (hlast : s.byLedger.touched? id = some last) :
    last = env.steady ∨ r.byLedger.touched? id = some last := by
  cases h with
  | same _ hbyLedger => exact Or.inr (hbyLedger ▸ hlast)
  | filed _ hbyLedger =>
    rw [hbyLedger] at hlast
    exact AgedMap.used_of_put hlast
  | expired htouched hbyLedger =>
    rw [hbyLedger] at hlast
    have hkept := AgedMap.touched?_of_fresh hlast
    rcases touchKept_eq htouched with rfl | ⟨_, _, ids, _, -, rfl⟩
    · exact Or.inr hkept
    · exact AgedMap.used_of_touchAll hkept
  | restamped hbyLedger =>
    rw [hbyLedger, AgedMap.touched?_map] at hlast
    exact Or.inr hlast
  | used _ hbyLedger =>
    rw [hbyLedger, AgedMap.touched?_touch] at hlast
    split at hlast
    · obtain ⟨_, -, hnow⟩ := Option.map_eq_some_iff.mp hlast
      exact Or.inl hnow.symm
    · exact Or.inr hlast

/-- What is filed in a set stays there when sets are kept, and the set is no less recent. -/
theorem touchKept_filed {touched : Register T} (h : r.touchKept env = .ok touched) (n : Nat)
    (hlast : r.byLedger.touched? id = some last) (hle : last ≤ env.steady) :
    touched.filed id n = r.filed id n ∧
      ∃ last', touched.byLedger.touched? id = some last' ∧ last ≤ last' := by
  rcases touchKept_eq h with rfl | ⟨_, _, ids, _, -, rfl⟩
  · exact ⟨rfl, last, hlast, Int.le_refl _⟩
  · exact ⟨filed_congr (AgedMap.get?_touchAll ids) n,
      AgedMap.exists_later_of_touchAll ids hlast (Int.le_refl _) hle⟩

/-- What is filed in a set stays there, and the set is no less recent, unless the set has not been used
for the expiry or the node files another validation in it. -/
theorem Refiled.filed_cases (h : Refiled env r s request) (n : Nat)
    (hlast : r.byLedger.touched? id = some last) (hle : last ≤ env.steady) :
    last.ns + r.timing.expiry.ns ≤ env.steady.ns ∨
      (∃ v guard, request = .receive n v ∧ v.ledgerId = id ∧
        Advanced r.timing env.steady v.seq (r.guardOf (some n)) true guard) ∨
      s.filed id n = (r.filed id n).map (request.stamp n) ∧
        ∃ last', s.byLedger.touched? id = some last' ∧ last ≤ last' := by
  have hstays (hstamp : request.stamp = fun _ v => v) (hfiled : s.filed id n = r.filed id n) :
      s.filed id n = (r.filed id n).map (request.stamp n) := by
    rw [hfiled, hstamp, Option.map_id']
  have hsame : last ≤ last := Int.le_refl _
  cases h with
  | same hstamp hbyLedger =>
    refine Or.inr (Or.inr ⟨hstays hstamp (filed_congr (by rw [hbyLedger]) n), last, ?_, hsame⟩)
    rw [hbyLedger, hlast]
  | @filed node v guard hadvanced hbyLedger =>
    have hfiled : s.filed id n = _ :=
      (filed_congr (by rw [hbyLedger]) n).trans (filed_file r env node v id n)
    by_cases hv : v.ledgerId = id ∧ node = n
    · obtain ⟨hid, rfl⟩ := hv
      exact Or.inr (Or.inl ⟨v, guard, rfl, hid, hadvanced⟩)
    · refine Or.inr (Or.inr ⟨hstays rfl (hfiled.trans (if_neg hv)), last, ?_, hsame⟩)
      rw [hbyLedger]
      exact AgedMap.touched?_put_of_some hlast
  | @expired touched htouched hbyLedger =>
    obtain ⟨hfiled, last', hlast', hlater⟩ := touchKept_filed htouched n hlast hle
    by_cases hlong : last'.ns + r.timing.expiry.ns ≤ env.steady.ns
    · rw [Time.le_iff] at hlater
      exact Or.inl (by omega)
    · obtain ⟨hget, htouch⟩ := AgedMap.fresh_of_lt hlast' (Int.not_le.mp hlong)
      refine Or.inr (Or.inr ⟨hstays rfl (Eq.trans ?_ hfiled), last', ?_, hlater⟩)
      · exact filed_congr (by rw [hbyLedger, hget]) n
      · rw [hbyLedger, htouch]
  | restamped hbyLedger =>
    refine Or.inr (Or.inr ⟨?_, last, ?_, hsame⟩)
    · rw [Register.filed, Register.filed, hbyLedger, AgedMap.member?_map]
      rfl
    · rw [hbyLedger, AgedMap.touched?_map, hlast]
  | @used _ id' hstamp hbyLedger =>
    have hfiled : s.filed id n = r.filed id n :=
      filed_congr (by rw [hbyLedger, AgedMap.get?_touch]) n
    refine Or.inr (Or.inr ⟨hstays hstamp hfiled, ?_⟩)
    rw [hbyLedger, AgedMap.touched?_touch, hlast]
    split
    · exact ⟨env.steady, rfl, hle⟩
    · exact ⟨last, rfl, hsame⟩

/-! ## Current validations are filed -/

/-- A validation can no longer be current. -/
def Lapsed (timing : Timing) (v : Validation) (now : Time) : Prop :=
  v.signed.ns + timing.early.ns ≤ now.ns

theorem Lapsed.later {timing : Timing} (h : Lapsed timing v last) (hle : last ≤ now) :
    Lapsed timing v now := Int.le_trans h hle

theorem Fresh.not_lapsed (h : s.Fresh now n v) : ¬ Lapsed s.timing v now :=
  Int.not_le.mpr (Timing.lt_of_isCurrent h.fresh)

/-- A validation is filed for its ledger, in a set that is kept for as long as the validation may be
current. For that long the guard of the node holds back other validations for the ledger. -/
structure Covered (n : Nat) (v : Validation) (now : Time) (s : Register T) : Prop where
  filed : s.filed v.ledgerId n = some v
  used : ∃ last, s.byLedger.touched? v.ledgerId = some last ∧
    v.signed.ns + s.timing.early.ns ≤ last.ns + s.timing.expiry.ns
  barred : ∃ since, since ≤ now ∧ Bars s.timing v.seq since now (s.guardOf (some n)) ∧
    v.signed.ns + s.timing.early.ns ≤ since.ns + s.timing.expiry.ns

/-- The current validations are covered, unless they have lapsed. The sequence number of a validation is
known from its ledger. -/
structure Covering (seqOf : Nat → Nat) (now : Time) (s : Register T) : Prop where
  used : ∀ id last, s.byLedger.touched? id = some last → last ≤ now
  named : ∀ (n : Nat) (v : Validation), s.current[n]? = some v → v.seq = seqOf v.ledgerId
  covered : ∀ (n : Nat) (v : Validation), s.current[n]? = some v → Lapsed s.timing v now ∨ Covered n v now s

theorem Covered.later (h : Covered n v last s) (hle : last ≤ now) : Covered n v now s := by
  obtain ⟨since, hsince, hbars, hguarded⟩ := h.barred
  exact ⟨h.filed, h.used, since, Int.le_trans hsince hle, hbars.later hle, hguarded⟩

theorem Covering.later {seqOf : Nat → Nat} (h : Covering seqOf last s) (hle : last ≤ now) :
    Covering seqOf now s where
  used id used hused := Int.le_trans (h.used id used hused) hle
  named := h.named
  covered n v hv := (h.covered n v hv).imp (·.later hle) (·.later hle)

/-- A request keeps a validation covered, with the trust that it changes, unless the validation has
lapsed. -/
theorem Covered.step {o : Outcome T Reply} (h : Covered n v now r)
    (hentered : Entered env r o.register request o.answer) (hnow : now ≤ env.steady)
    (hused : ∀ last, r.byLedger.touched? v.ledgerId = some last → last ≤ now)
    (hnamed : ∀ w, request = .receive n w → w.ledgerId = v.ledgerId → w.seq = v.seq) :
    Lapsed r.timing v env.steady ∨ Covered n (request.stamp n v) env.steady o.register := by
  obtain ⟨hfiled, ⟨last, hlast, hlong⟩, since, hsince, hbars, hguarded⟩ := h
  have hsteady : since ≤ env.steady := Int.le_trans hsince hnow
  have hbars := hbars.later hnow
  rcases hentered.refiled.filed_cases n hlast (Int.le_trans (hused last hlast) hnow) with
    hold | ⟨w, guard, hreceive, hid, hadvanced⟩ | ⟨hstays, last', hlast', hlater⟩
  · exact Or.inl (Int.le_trans hlong hold)
  · -- another validation for the ledger passes the guard only after the expiry
    refine Or.inl ?_
    rw [hnamed w hreceive hid] at hadvanced
    have hexpired := ((hbars.advance hsteady hadvanced).2 rfl).resolve_right (Nat.lt_irrefl _)
    rw [Timing.Expired] at hexpired
    rw [Lapsed]
    omega
  · refine Or.inr ?_
    rw [hfiled] at hstays
    rw [Time.le_iff] at hlater
    have htiming := hentered.timing
    refine ⟨by simpa using hstays, ⟨last', by simpa using hlast', ?_⟩, since, hsteady, ?_, ?_⟩
    · rw [htiming, Request.stamp_signed]
      omega
    · rw [htiming, Request.stamp_seq]
      exact hentered.bars hbars hsteady
    · rw [htiming, Request.stamp_signed]
      exact hguarded

variable [VoteTrie T] {o : Outcome T Reply} {seqOf : Nat → Nat}

/-- A validation is covered when it is accepted, if its set is kept. -/
theorem covered_of_accepted (hstep : r.step env (.receive n v) = pure o)
    (hanswer : o.answer = .verdict .current)
    (hkeeps : Event.Keeps r.timing ⟨env, .receive n v, o⟩)
    (hused : ∀ id last, o.register.byLedger.touched? id = some last → last ≤ env.steady) :
    Covered n v env.steady o.register := by
  have htaken := taken_of_step hstep hanswer
  have htiming : o.register.timing = r.timing := (step_enters _ _ _ _ hstep).timing
  obtain ⟨last, hlast, hlong⟩ := hkeeps n v ⟨rfl, hanswer⟩
  have hlater := hused _ last hlast
  rw [Time.le_iff] at hlater
  refine ⟨?_, ⟨last, hlast, by rw [htiming]; exact hlong⟩, env.steady, Int.le_refl _, ?_, ?_⟩
  · exact htaken.filed rfl
  · rcases htaken.guard with ⟨-, hrefused⟩ | ⟨b, guard, hadvanced, hguard, hb⟩
    · exact absurd rfl hrefused
    · obtain rfl := hb rfl
      rw [htiming, hguard, if_pos rfl]
      exact hadvanced.bars
  · rw [htiming]
    omega

/-- One more event keeps the current validations covered. -/
theorem Covering.step (h : Covering seqOf now r) (hstep : r.step env request = pure o)
    (hnow : now ≤ env.steady) (hnamed : ∀ n v, request = .receive n v → v.seq = seqOf v.ledgerId)
    (hkeeps : Event.Keeps r.timing ⟨env, request, o⟩) : Covering seqOf env.steady o.register := by
  have hentered : Entered env r o.register request o.answer := step_enters _ _ _ _ hstep
  have hused (id : Nat) (last : Time) (hlast : o.register.byLedger.touched? id = some last) :
      last ≤ env.steady := by
    rcases hentered.refiled.used_cases hlast with rfl | hbefore
    · exact Int.le_refl _
    · exact Int.le_trans (h.used id last hbefore) hnow
  refine ⟨hused, fun n v hv => ?_, fun n v hv => ?_⟩
  · rcases hentered.current hv with ⟨w, hw, rfl⟩ | ⟨rfl, -⟩
    · rw [Request.stamp_seq, Request.stamp_ledgerId]
      exact h.named n w hw
    · exact hnamed n v rfl
  · rcases hentered.current hv with ⟨w, hw, rfl⟩ | ⟨rfl, hanswer⟩
    · have hlapsed (hlapsed : Lapsed r.timing w env.steady) :
          Lapsed o.register.timing (request.stamp n w) env.steady := by
        rw [Lapsed, hentered.timing, Request.stamp_signed]
        exact hlapsed
      rcases h.covered n w hw with hold | hcovered
      · exact Or.inl (hlapsed (hold.later hnow))
      · refine (hcovered.step hentered hnow (h.used w.ledgerId) fun x hx hid => ?_).imp_left hlapsed
        rw [hnamed n x hx, hid, h.named n w hw]
    · exact Or.inr (covered_of_accepted hstep hanswer hkeeps hused)

/-- The current validations stay covered in any history in which the sets are kept. -/
theorem History.covering {timing : Timing} (h : History (empty timing) es s) (hclock : Clocked es)
    (hnamed : ∀ e ∈ es, ∀ n v, e.request = .receive n v → v.seq = seqOf v.ledgerId)
    (hkeeps : ∀ e ∈ es, e.Keeps timing) (hnow : ∀ e ∈ es, e.time ≤ now) :
    Covering seqOf now s := by
  induction h generalizing now with
  | nil =>
    refine ⟨fun id last hlast => ?_, fun n v hv => ?_, fun n v hv => ?_⟩
    · cases hlast
    · cases hv
    · cases hv
  | @snoc past s env request o before hstep ih =>
    obtain ⟨hclock, hpast⟩ := clocked_snoc.mp hclock
    have hmem : (⟨env, request, o⟩ : Event T) ∈ past ++ [⟨env, request, o⟩] :=
      List.mem_append_right _ (List.mem_singleton_self _)
    have hcovering := ih hclock (fun e he => hnamed e (List.mem_append_left _ he))
      (fun e he => hkeeps e (List.mem_append_left _ he)) hpast
    have hkeeps : Event.Keeps s.timing ⟨env, request, o⟩ := before.timing ▸ hkeeps _ hmem
    exact (hcovering.step hstep (Int.le_refl _) (hnamed _ hmem) hkeeps).later (hnow _ hmem)

omit [VoteTrie T] in
/-- A current validation is filed while it is fresh. -/
theorem Covering.filed (h : Covering seqOf now s) (hv : s.Fresh now n v) :
    s.filed v.ledgerId n = some v :=
  ((h.covered n v hv.current).resolve_left hv.not_lapsed).filed

/-! ## Counting what is filed -/

theorem subperm_map {α β : Type} {xs ys : List α} (f : α → β) (h : xs.Subperm ys) :
    (xs.map f).Subperm (ys.map f) := by
  obtain ⟨zs, hperm, hsub⟩ := h
  exact ⟨zs.map f, hperm.map f, hsub.map f⟩

omit [VoteTrie T] in
/-- The full current validations of trusted nodes for a ledger are among those that are filed for it,
if all current ones are filed. -/
theorem subperm_filedFor (h : ∀ (n : Nat) (v : Validation), s.current[n]? = some v →
    s.filed v.ledgerId n = some v) (id : Nat) :
    ((s.current.values.filter (·.counts)).filter (·.ledgerId == id)).Subperm (s.filedFor id) := by
  have hnodup : s.current.toList.Nodup := (nodup_entries s.current).of_map _
  have hfiled (e : Nat × Validation) (he : e ∈ (s.current.toList.filter (·.2.counts)).filter
      (·.2.ledgerId == id)) : s.filed id e.1 = some e.2 ∧ e.2.counts = true := by
    obtain ⟨he, hid⟩ := List.mem_filter.mp he
    obtain ⟨he, hcounts⟩ := List.mem_filter.mp he
    have hcurrent := Std.ExtTreeMap.mem_toList_iff_getElem?_eq_some.mp he
    exact ⟨beq_iff_eq.mp hid ▸ h e.1 e.2 hcurrent, hcounts⟩
  rw [values_eq, List.filter_map, List.filter_map]
  cases hset : s.byLedger.get? id with
  | none =>
    refine (List.map_eq_nil_iff.mpr (List.eq_nil_iff_forall_not_mem.mpr fun e he => ?_)).symm ▸
      List.nil_subperm
    have hnone := (hfiled e he).1
    rw [Register.filed, AgedMap.member?, hset] at hnone
    cases hnone
  | some set =>
    rw [filedFor, hset]
    dsimp only
    rw [values_eq, List.filter_map]
    refine subperm_map _ (List.subperm_of_subset ((hnodup.filter _).filter _) fun e he => ?_)
    obtain ⟨hmember, hcounts⟩ := hfiled e he
    rw [Register.filed, AgedMap.member?, hset] at hmember
    exact List.mem_filter.mpr
      ⟨Std.ExtTreeMap.mem_toList_iff_getElem?_eq_some.mpr hmember, hcounts⟩

/-- A sweep leaves the fresh validations, and nothing of what is filed. -/
theorem currentTrusted_counted (h : Covering seqOf now s) (hnow : env.now = .ok now) :
    Gives (s.step env .currentTrusted) fun o => ∃ vs, o.answer = .validations vs ∧
      ∀ id, (vs.filter (·.ledgerId == id)).Subperm (o.register.filedFor id) := by
  have hswept : Gives (s.sweep env) fun o => Purged now s o.register := by
    refine (sweep_records s env).imp fun o ho => ?_
    obtain ⟨now', hnow', hpurged⟩ := ho
    obtain rfl := Except.ok.inj (hnow.symm.trans hnow')
    exact hpurged
  refine Gives.map (P := fun o : Outcome T (List Validation) =>
    ∀ id, (o.answer.filter (·.ledgerId == id)).Subperm (o.register.filedFor id))
    (hswept.bind fun o ho => Gives.pure fun id => ?_) fun o ho => ⟨o.answer, rfl, ho⟩
  have hbyLedger : o.register.byLedger = s.byLedger :=
    congrArg (fun records : Register Unit => records.byLedger) ho.records
  refine subperm_filedFor (fun n v hv => ?_) id
  exact (filed_congr (by rw [hbyLedger]) n).trans (h.filed ((ho.current n v).mp hv))

/-- An expiry takes away a set that has not been used for the expiry, if no sets are kept. -/
theorem expire_sweeps (hkept : r.kept = none) (hlast : r.byLedger.touched? id = some last)
    (hlong : last.ns + r.timing.expiry.ns ≤ env.steady.ns) :
    ∃ o, r.step env .expire = pure o ∧ o.register.current = r.current ∧
      o.register.timing = r.timing ∧ o.register.filed id n = none := by
  have htouched : r.touchKept env = .ok r := by
    rw [touchKept, hkept]
  refine ⟨⟨.done, r.swept env.steady, []⟩, ?_, rfl, rfl, ?_⟩
  · rw [step, expire, htouched]
    rfl
  · show (r.byLedger.fresh env.steady r.timing.expiry).member? id n = none
    rw [AgedMap.member?, AgedMap.fresh_of_le hlast hlong]
    rfl

/-- After any history in which the set of every accepted validation is kept for as long as that may be
current, the current validations that are fresh are filed for their ledgers, with the same trust. So the
full ones of trusted nodes are all counted for their ledgers. A set that is not kept for so long is
swept out under a current validation. -/
theorem history_covers {timing : Timing} (env : Surroundings) (seqOf : Nat → Nat)
    (h : History (empty timing) es s) (hclock : Clocked es)
    (hnamed : ∀ e ∈ es, ∀ n v, e.request = .receive n v → v.seq = seqOf v.ledgerId)
    (hlast : ∀ e ∈ es, e.time ≤ env.steady) (hnow : env.now = .ok env.steady) :
    ((∀ e ∈ es, e.Keeps timing) →
      (∀ n v, s.Fresh env.steady n v → s.filed v.ledgerId n = some v) ∧
      Gives (s.step env .currentTrusted) fun o => ∃ vs, o.answer = .validations vs ∧
        ∀ env' id seq base,
          vs.countP (·.ledgerId == id) ≤ (o.register.countTrusted env' id).answer ∧
          ((vs.filter (·.ledgerId == id)).filter (·.seq == seq)).Subperm
            (o.register.trustedFor env' id seq).answer ∧
          ((vs.filter (·.ledgerId == id)).map (·.fee.getD base)).Subperm
            (o.register.fees env' id base).answer) ∧
    ∀ n v last, s.Fresh env.steady n v → s.kept = none →
      s.byLedger.touched? v.ledgerId = some last → last.ns + timing.expiry.ns ≤ env.steady.ns →
      ∃ o, s.step env .expire = pure o ∧ o.register.Fresh env.steady n v ∧
        o.register.filed v.ledgerId n = none := by
  refine ⟨fun hkeeps => ?_, fun n v last hv hkept hused hlong => ?_⟩
  · have hcovering := h.covering hclock hnamed hkeeps hlast
    refine ⟨fun n v => hcovering.filed, (currentTrusted_counted hcovering hnow).imp ?_⟩
    rintro o ⟨vs, hvs, hfiled⟩
    refine ⟨vs, hvs, fun env' id seq base => ⟨?_, ?_, ?_⟩⟩
    · rw [List.countP_eq_length_filter]
      exact (hfiled id).length_le
    · exact (hfiled id).filter _
    · exact subperm_map _ (hfiled id)
  · rw [← show s.timing = timing from h.timing] at hlong
    obtain ⟨o, ho, hcurrent, htiming, hfiled⟩ := expire_sweeps hkept hused hlong
    exact ⟨o, ho, ⟨hcurrent ▸ hv.current, htiming ▸ hv.fresh⟩, hfiled⟩

/-- A node validates the left side. -/
def solo : List Fork.Line :=
  [(Fork.early, [], .receive 1 (Fork.word 1 Fork.left Fork.early)),
    (Fork.soon, [], .currentTrusted)]

/-- The validation is filed and counted while it is current. -/
theorem history_covers_fork :
    ∃ (es : List (Event (ArenaTrie (Slots.numbered (Cell Nat)))))
      (s : Register (ArenaTrie (Slots.numbered (Cell Nat))))
      (o : Outcome (ArenaTrie (Slots.numbered (Cell Nat))) Reply), History (empty {}) es s ∧
        s.Fresh Fork.soon 1 (Fork.word 1 Fork.left Fork.early) ∧
        s.filed 2 1 = some (Fork.word 1 Fork.left Fork.early) ∧
        s.step (Fork.world Fork.soon []) .currentTrusted = pure o ∧
        1 ≤ (o.register.countTrusted (Fork.world Fork.soon []) 2).answer := by
  obtain ⟨outcomes, s, hs, hanswers, htest⟩ := Fork.exists_history (Slots.numbered (Cell Nat)) solo
    [.verdict .current, .validations [Fork.word 1 Fork.left Fork.early]]
    (fun records => (records.head?.map fun r => (r.byLedger.touched? 2, r.current[1]?)) ==
      some (some Fork.early, some (Fork.word 1 Fork.left Fork.early)))
    (by simp [solo, Request.Apt]) (by decide +kernel)
  simp only [List.map_eq_cons_iff, List.map_eq_nil_iff] at hanswers
  obtain ⟨o₁, _, rfl, -, o₂, _, rfl, hanswer, rfl⟩ := hanswers
  obtain ⟨hused, hcurrent⟩ := Prod.mk.inj (Option.some.inj (beq_iff_eq.mp htest))
  obtain ⟨s, hs, hstep, -⟩ := History.of_concat (events (Fork.script (solo.take 1)) [o₁]) hs
  obtain ⟨-, -, -, rfl⟩ := History.of_concat [] hs
  have htiming : o₁.register.timing = {} := hs.timing
  have hfresh : o₁.register.Fresh Fork.soon 1 (Fork.word 1 Fork.left Fork.early) :=
    ⟨hcurrent, by rw [htiming]; rfl⟩
  have hkeeps (e : Event (ArenaTrie (Slots.numbered (Cell Nat))))
      (he : e ∈ events (Fork.script (solo.take 1)) [o₁]) : e.Keeps {} := by
    obtain rfl := List.mem_singleton.mp he
    intro node v hv
    obtain ⟨rfl, rfl⟩ := Request.receive.inj hv.request
    exact ⟨Fork.early, hused, by decide⟩
  have hcovers := history_covers (Fork.world Fork.soon []) (fun _ => 2) hs
    (List.pairwise_singleton _ _) (fun e he n v hv => ?_) (fun e he => ?_) rfl
  · obtain ⟨hfiled, hcounted⟩ := hcovers.1 hkeeps
    obtain ⟨vs', hvs', hcounts⟩ := hcounted o₂ hstep
    obtain rfl := Reply.validations.inj (hanswer.symm.trans hvs')
    exact ⟨_, _, o₂, hs, hfresh, hfiled 1 _ hfresh, hstep,
      (hcounts (Fork.world Fork.soon []) 2 0 0).1⟩
  · obtain rfl := List.mem_singleton.mp he
    obtain ⟨rfl, rfl⟩ := Request.receive.inj hv
    rfl
  · obtain rfl := List.mem_singleton.mp he
    exact (by decide : Fork.early ≤ Fork.soon)

/-- A node validates the left side in part, and much later another node does so in full. Then sets are
swept out. -/
def eclipse : List Fork.Line :=
  [(Fork.early, [], .receive 2 { Fork.word 2 Fork.left Fork.early with full := false }),
    (Fork.second 1500, [], .receive 1 (Fork.word 1 Fork.left (Fork.second 1500))),
    (Fork.second 1600, [], .expire),
    (Fork.second 1600, [], .countTrusted 2)]

/-- The second validation is current and not counted, since the set did not become any younger when it
was filed there. -/
theorem history_covers_aged :
    ∃ (outcomes : List (Outcome (ArenaTrie (Slots.numbered (Cell Nat))) Reply))
      (s : Register (ArenaTrie (Slots.numbered (Cell Nat)))),
      History (empty {}) (events (Fork.script eclipse) outcomes) s ∧
        Clocked (events (Fork.script eclipse) outcomes) ∧
        outcomes.map (·.answer) = [.verdict .current, .verdict .current, .done, .count 0] ∧
        s.Fresh (Fork.second 1600) 1 (Fork.word 1 Fork.left (Fork.second 1500)) := by
  obtain ⟨outcomes, s, hs, hanswers, htest⟩ := Fork.exists_history (Slots.numbered (Cell Nat))
    eclipse [.verdict .current, .verdict .current, .done, .count 0]
    (fun records => (records.getLast?.bind (·.current[1]?)) ==
      some (Fork.word 1 Fork.left (Fork.second 1500)))
    (by simp [eclipse, Request.Apt]) (by decide +kernel)
  have hsplit := hanswers
  simp only [List.map_eq_cons_iff, List.map_eq_nil_iff] at hsplit
  obtain ⟨o₁, _, rfl, -, o₂, _, rfl, -, o₃, _, rfl, -, o₄, _, rfl, -, rfl⟩ := hsplit
  obtain ⟨-, -, -, rfl⟩ := History.of_concat
    (events (Fork.script (eclipse.take 3)) [o₁, o₂, o₃]) hs
  have htiming : o₄.register.timing = {} := hs.timing
  refine ⟨_, _, hs, clocked_events _ _ (by decide), hanswers, beq_iff_eq.mp htest, ?_⟩
  rw [htiming]
  rfl

end Register

end ForkChoice

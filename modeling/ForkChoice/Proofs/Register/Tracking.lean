import ForkChoice.Proofs.Register.History

/-!
# What is tracked by sequence number

A validation is held against the one that is tracked of its node for its sequence number. What is
tracked came from that node, whatever is swept out or refused in between, so a node is accused only of
what it has sent.

* `Register.tracked`: what is tracked of a node for a sequence number.
* `Register.Entered.bySeq`, `Register.Entered.tracked`: what a request does to it.
* `Register.History.sourced`: what is tracked was received from the node.
* `Register.History.keeps_tracked`: how long the set in which a validation is tracked is not swept out.
* `Register.accusations_sound`: a node that is accused has sent what contradicts its validation.
-/

namespace ForkChoice

namespace Register

variable {T : Type} {env : Surroundings} {r s : Register T} {es : List (Event T)} {node n seq : Nat}
  {v w : Validation} {request : Request} {answer : Reply} {time last : Time}

/-- What is tracked of a node for a sequence number. -/
def tracked (r : Register T) (seq node : Nat) : Option Validation :=
  r.bySeq.member? seq node

/-- The new validation is tracked if none is, or if the tracked one was signed more than the wall
before it. -/
theorem trackedFor_cases (r : Register T) (node : Nat) (v : Validation) :
    (r.trackedFor node v = v ∧ ∀ old, r.tracked v.seq node = some old →
        old.signed.ns + r.timing.wall.ns < v.signed.ns) ∨
      ∃ old, r.tracked v.seq node = some old ∧ r.trackedFor node v = old ∧
        v.signed.ns ≤ old.signed.ns + r.timing.wall.ns := by
  unfold trackedFor tracked AgedMap.member?
  cases (r.bySeq.get? v.seq).bind (·[node]?) with
  | none => exact Or.inl ⟨rfl, fun old h => by cases h⟩
  | some old =>
    have hgap : r.timing.wall < old.signed.gap v.signed ∧ old.signed < v.signed ↔
        old.signed.ns + r.timing.wall.ns < v.signed.ns := by
      show r.timing.wall.ns < (old.signed.ns - v.signed.ns).natAbs ∧
        old.signed.ns < v.signed.ns ↔ _
      omega
    dsimp only
    split
    · rename_i hlong
      refine Or.inl ⟨rfl, fun old' hold => ?_⟩
      obtain rfl := Option.some.inj hold
      exact hgap.mp hlong
    · rename_i hshort
      exact Or.inr ⟨old, rfl, rfl, Int.not_lt.mp (mt hgap.mpr hshort)⟩

theorem tracked_of_bySeq (h : s.bySeq = r.bySeq) (seq node : Nat) :
    s.tracked seq node = r.tracked seq node := by
  rw [tracked, tracked, h]

theorem tracked_track (r : Register T) (env : Surroundings) (node : Nat) (v : Validation)
    (seq n : Nat) : (r.track env node v).tracked seq n =
      if v.seq = seq ∧ node = n then some (r.trackedFor node v) else r.tracked seq n :=
  AgedMap.member?_put r.bySeq env.steady v.seq node (r.trackedFor node v) seq n

/-- A validation that is not stale on arrival is tracked, and an expiry takes whole sets away. No
other request changes what is tracked. -/
theorem Entered.bySeq (h : Entered env r s request answer) : s.bySeq = r.bySeq ∨
    (∃ node v, request = .receive node v ∧ s.bySeq = (r.track env node v).bySeq) ∨
    request = .expire ∧ ∃ touched, r.touchKept env = .ok touched ∧
      s.bySeq = touched.bySeq.fresh env.steady touched.timing.expiry := by
  have hsame {t : Register Unit} (ht : s.records = t) : s.bySeq = t.bySeq := by
    rw [← ht]
    rfl
  cases h with
  | received htaken =>
    cases htaken with
    | ignored _ _ hrecords => exact Or.inl (hsame hrecords)
    | refused _ _ _ hrecords => exact Or.inr (Or.inl ⟨_, _, rfl, hsame hrecords⟩)
    | late _ _ _ _ _ hrecords => exact Or.inr (Or.inl ⟨_, _, rfl, hsame hrecords⟩)
    | installed _ _ _ _ hrecords => exact Or.inr (Or.inl ⟨_, _, rfl, hsame hrecords⟩)
  | advanced _ hrecords => exact Or.inl (hsame hrecords)
  | expired htouched hrecords => exact Or.inr (Or.inr ⟨rfl, _, htouched, hsame hrecords⟩)
  | restamped hrestamped => exact Or.inl (hsame hrestamped.records)
  | minor _ _ _ hrecords => exact Or.inl (hsame hrecords)

/-- What is tracked of a node for a sequence number changes only with a validation of that node and
number, or goes away with the whole set. -/
theorem Entered.tracked (h : Entered env r s request answer) (seq node : Nat) :
    s.tracked seq node = r.tracked seq node ∨
      (∃ v, request = .receive node v ∧ v.seq = seq ∧
        s.tracked seq node = some (r.trackedFor node v)) ∨
      s.bySeq.get? seq = none := by
  rcases h.bySeq with hsame | ⟨n, v, rfl, htrack⟩ | ⟨-, touched, htouched, hfresh⟩
  · exact Or.inl (tracked_of_bySeq hsame seq node)
  · have htracked := (tracked_of_bySeq htrack seq node).trans (tracked_track r env n v seq node)
    by_cases hv : v.seq = seq ∧ n = node
    · obtain ⟨hseq, rfl⟩ := hv
      exact Or.inr (Or.inl ⟨v, rfl, hseq, htracked.trans (if_pos ⟨hseq, rfl⟩)⟩)
    · exact Or.inl (htracked.trans (if_neg hv))
  · have hkept : touched.bySeq.get? seq = r.bySeq.get? seq := by
      rcases touchKept_eq htouched with rfl | ⟨_, _, _, _, -, rfl⟩
      · rfl
      · exact AgedMap.get?_touchAll _
    cases hset : s.bySeq.get? seq with
    | none => exact Or.inr (Or.inr rfl)
    | some set =>
      refine Or.inl ?_
      have hbefore := AgedMap.get?_of_fresh (hfresh ▸ hset)
      rw [Register.tracked, Register.tracked, AgedMap.member?, AgedMap.member?, hset, ← hkept, hbefore]

theorem Taken.bySeq {verdict : Verdict} (h : Taken env node v r s verdict)
    (hverdict : verdict ≠ .stale) : s.bySeq = (r.track env node v).bySeq := by
  have hsame {t : Register Unit} (ht : s.records = t) : s.bySeq = t.bySeq := by
    rw [← ht]
    rfl
  cases h with
  | ignored | late => exact absurd rfl hverdict
  | refused _ _ _ hrecords => exact hsame hrecords
  | installed _ _ _ _ hrecords => exact hsame hrecords

theorem Taken.tracked {verdict : Verdict} (h : Taken env node v r s verdict)
    (hverdict : verdict ≠ .stale) : s.tracked v.seq node = some (r.trackedFor node v) :=
  (tracked_of_bySeq (h.bySeq hverdict) _ _).trans
    ((tracked_track r env node v v.seq node).trans (if_pos ⟨rfl, rfl⟩))

/-- The set in which a validation is tracked is as old as it was, or has just been made. -/
theorem Taken.used {verdict : Verdict} (h : Taken env node v r s verdict)
    (hverdict : verdict ≠ .stale) :
    s.bySeq.touched? v.seq = some ((r.bySeq.touched? v.seq).getD env.steady) := by
  rw [h.bySeq hverdict]
  exact (AgedMap.touched?_put r.bySeq env.steady v.seq ∅ _ v.seq).trans (if_pos rfl)

/-- A refusal that accuses the node is for another validation that is tracked. -/
theorem Taken.accuses {verdict : Verdict} (h : Taken env node v r s verdict)
    (haccuses : verdict = .conflicting ∨ verdict = .multiple) :
    ∃ old, r.tracked v.seq node = some old ∧ Verdict.ofRefused old v = verdict := by
  cases h with
  | ignored | late | installed =>
    rcases haccuses with h | h
    all_goals cases h
  | refused =>
    rcases trackedFor_cases r node v with ⟨hself, -⟩ | ⟨old, hold, hkept, -⟩
    · rw [hself] at haccuses
      rcases haccuses with h | h
      · exact absurd h fun h => (Verdict.ofRefused_eq_conflicting.mp h).elim (· rfl) (· rfl)
      · exact absurd rfl (Verdict.ofRefused_eq_multiple.mp h).2.2
    · exact ⟨old, hold, congrArg (Verdict.ofRefused · v) hkept.symm⟩

/-! ## Sets that are not swept out -/

/-- A set was last used at the time of a request, or before it. -/
theorem Entered.tracked_used (h : Entered env r s request answer)
    (hlast : s.bySeq.touched? seq = some last) :
    last = env.steady ∨ r.bySeq.touched? seq = some last := by
  rcases h.bySeq with hsame | ⟨node, v, -, htrack⟩ | ⟨-, touched, htouched, hfresh⟩
  · exact Or.inr (hsame ▸ hlast)
  · rw [htrack] at hlast
    exact AgedMap.used_of_put hlast
  · rw [hfresh] at hlast
    have hkept := AgedMap.touched?_of_fresh hlast
    rcases touchKept_eq htouched with rfl | ⟨_, _, _, seqs, -, rfl⟩
    · exact Or.inr hkept
    · exact AgedMap.used_of_touchAll hkept

/-- The set of a sequence number is there, and was last used at a time or after it. -/
def UsedSince (r : Register T) (seq : Nat) (time : Time) : Prop :=
  ∃ last, r.bySeq.touched? seq = some last ∧ time ≤ last

theorem UsedSince.touchKept {touched : Register T} (h : r.UsedSince seq time)
    (htouched : r.touchKept env = .ok touched) (hle : time ≤ env.steady) :
    touched.UsedSince seq time := by
  obtain ⟨last, hlast, hrecent⟩ := h
  rcases touchKept_eq htouched with rfl | ⟨_, _, _, seqs, -, rfl⟩
  · exact ⟨last, hlast, hrecent⟩
  · exact AgedMap.exists_later_of_touchAll seqs hlast hrecent hle

/-- A request leaves a set there and no older, unless it is an expiry and the set may have aged for so
long. -/
theorem UsedSince.step (h : r.UsedSince seq time) (hentered : Entered env r s request answer)
    (hle : time ≤ env.steady)
    (hexpire : request = .expire → env.steady.ns < time.ns + r.timing.expiry.ns) :
    s.UsedSince seq time := by
  rcases hentered.bySeq with hsame | ⟨node, v, -, htrack⟩ | ⟨hrequest, touched, htouched, hfresh⟩
  · rw [UsedSince, hsame]
    exact h
  · obtain ⟨last, hlast, hrecent⟩ := h
    rw [UsedSince, htrack]
    exact ⟨last, AgedMap.touched?_put_of_some hlast, hrecent⟩
  · obtain ⟨last, hlast, hrecent⟩ := h.touchKept htouched hle
    have hyoung : env.steady.ns < last.ns + touched.timing.expiry.ns := by
      have hearly := hexpire hrequest
      rw [Time.le_iff] at hrecent
      rw [(touchKept_others htouched).1]
      omega
    rw [UsedSince, hfresh]
    exact ⟨last, (AgedMap.fresh_of_lt hlast hyoung).2, hrecent⟩

/-! ## Histories -/

variable [VoteTrie T]

/-- What is tracked was received from its node, with the sequence number for which it is tracked. -/
theorem History.sourced {timing : Timing} (h : History (empty timing) es s)
    (hw : s.tracked seq node = some w) :
    w.seq = seq ∧ ∃ e ∈ es, e.request = .receive node w := by
  induction h generalizing seq node w with
  | nil =>
    cases hw
  | @snoc past s env request o before hstep ih =>
    have hearlier (hw : s.tracked seq node = some w) :
        w.seq = seq ∧ ∃ e ∈ past ++ [⟨env, request, o⟩], e.request = .receive node w := by
      obtain ⟨hseq, e, he, hrequest⟩ := ih hw
      exact ⟨hseq, e, List.mem_append_left _ he, hrequest⟩
    rcases (step_enters _ _ _ _ hstep).tracked seq node with hsame | ⟨v, rfl, rfl, hnew⟩ | hnone
    · exact hearlier (hsame ▸ hw)
    · have hw := Option.some.inj (hnew.symm.trans hw)
      rcases trackedFor_cases s node v with ⟨hself, -⟩ | ⟨old, hold, hkept, -⟩
      · rw [← hw, hself]
        exact ⟨rfl, _, List.mem_append_right _ (List.mem_singleton_self _), rfl⟩
      · exact hearlier (hold.trans (congrArg some (hkept.symm.trans hw)))
    · rw [tracked, AgedMap.member?, hnone] at hw
      cases hw

/-- A set was last used at the time of an event. -/
theorem History.tracked_used {timing : Timing} (h : History (empty timing) es s)
    (hlast : s.bySeq.touched? seq = some last) : ∃ e ∈ es, e.time = last := by
  induction h with
  | nil => cases hlast
  | @snoc past s env request o before hstep ih =>
    rcases (step_enters _ _ _ _ hstep).tracked_used hlast with rfl | hbefore
    · exact ⟨⟨env, request, o⟩, List.mem_append_right _ (List.mem_singleton_self _), rfl⟩
    · obtain ⟨e, he, htime⟩ := ih hbefore
      exact ⟨e, List.mem_append_left _ he, htime⟩

/-- A node is accused in any history only of what it has sent before. Conflicting is a validation if
an earlier one of the node for its sequence number names another ledger or was signed at another time,
and multiple if one agrees in both but not in the cookie. So a node whose validations for a sequence
number are all copies of one is not accused, whatever else happens. -/
theorem accusations_sound {timing : Timing} {o : Outcome T Reply} (h : History (empty timing) es r)
    (hstep : r.step env (.receive node v) = pure o) :
    (o.answer = .verdict .conflicting → ∃ e ∈ es, ∃ w, e.request = .receive node w ∧
      w.seq = v.seq ∧ (w.ledgerId ≠ v.ledgerId ∨ w.signed ≠ v.signed)) ∧
    (o.answer = .verdict .multiple → ∃ e ∈ es, ∃ w, e.request = .receive node w ∧
      w.seq = v.seq ∧ w.ledgerId = v.ledgerId ∧ w.signed = v.signed ∧ w.cookie ≠ v.cookie) ∧
    ((∀ e ∈ es, ∀ w, e.request = .receive node w → w.seq = v.seq →
        w.ledgerId = v.ledgerId ∧ w.signed = v.signed ∧ w.cookie = v.cookie) →
      o.answer ≠ .verdict .conflicting ∧ o.answer ≠ .verdict .multiple) := by
  have hconflicting (hanswer : o.answer = .verdict .conflicting) : ∃ e ∈ es, ∃ w,
      e.request = .receive node w ∧ w.seq = v.seq ∧
        (w.ledgerId ≠ v.ledgerId ∨ w.signed ≠ v.signed) := by
    obtain ⟨old, hold, hrefused⟩ := (taken_of_step hstep hanswer).accuses (Or.inl rfl)
    obtain ⟨hseq, e, he, hrequest⟩ := h.sourced hold
    exact ⟨e, he, old, hrequest, hseq, Verdict.ofRefused_eq_conflicting.mp hrefused⟩
  have hmultiple (hanswer : o.answer = .verdict .multiple) : ∃ e ∈ es, ∃ w,
      e.request = .receive node w ∧ w.seq = v.seq ∧ w.ledgerId = v.ledgerId ∧
        w.signed = v.signed ∧ w.cookie ≠ v.cookie := by
    obtain ⟨old, hold, hrefused⟩ := (taken_of_step hstep hanswer).accuses (Or.inr rfl)
    obtain ⟨hseq, e, he, hrequest⟩ := h.sourced hold
    exact ⟨e, he, old, hrequest, hseq, Verdict.ofRefused_eq_multiple.mp hrefused⟩
  refine ⟨hconflicting, hmultiple, fun hcopies => ⟨fun hanswer => ?_, fun hanswer => ?_⟩⟩
  · obtain ⟨e, he, w, hrequest, hseq, hdiffers⟩ := hconflicting hanswer
    obtain ⟨hledger, hsigned, -⟩ := hcopies e he w hrequest hseq
    exact hdiffers.elim (fun hne => hne hledger) fun hne => hne hsigned
  · obtain ⟨e, he, w, hrequest, hseq, -, -, hne⟩ := hmultiple hanswer
    exact hne (hcopies e he w hrequest hseq).2.2

/-- A node validates both sides of the fork at once. -/
def straddle : List Fork.Line :=
  [(Fork.early, [], .receive 1 (Fork.word 1 Fork.left Fork.early)),
    (Fork.early, [], .receive 1 (Fork.word 1 Fork.right Fork.early))]

/-- The second validation is conflicting, since the node has validated another ledger before. -/
theorem accusations_sound_fork :
    ∃ (es : List (Event (ArenaTrie (Slots.numbered (Cell Nat)))))
      (r : Register (ArenaTrie (Slots.numbered (Cell Nat))))
      (o : Outcome (ArenaTrie (Slots.numbered (Cell Nat))) Reply), History (empty {}) es r ∧
        r.step (Fork.world Fork.early []) (.receive 1 (Fork.word 1 Fork.right Fork.early)) =
          pure o ∧ o.answer = .verdict .conflicting ∧
        ∃ e ∈ es, ∃ w, e.request = .receive 1 w ∧ w.seq = 2 ∧
          (w.ledgerId ≠ Fork.right.id ∨ w.signed ≠ Fork.early) := by
  obtain ⟨outcomes, s, hs, hanswers, -⟩ := Fork.exists_history (Slots.numbered (Cell Nat)) straddle
    [.verdict .current, .verdict .conflicting] (fun _ => true)
    (by simp [straddle, Request.Apt]) (by decide +kernel)
  simp only [List.map_eq_cons_iff, List.map_eq_nil_iff] at hanswers
  obtain ⟨first, _, rfl, -, last, _, rfl, hanswer, rfl⟩ := hanswers
  obtain ⟨r, hr, hstep, -⟩ := History.of_concat (events (Fork.script straddle) [first]) hs
  exact ⟨_, r, last, hr, hstep, hanswer, (accusations_sound hr hstep).1 hanswer⟩

end Register

end ForkChoice

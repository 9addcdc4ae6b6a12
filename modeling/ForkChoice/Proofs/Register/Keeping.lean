import ForkChoice.Proofs.Register.Filing
import ForkChoice.Proofs.Register.Tracking

/-!
# Sets that are asked to be kept

Before old sets are swept out, those in the range that was last asked to be kept are touched, but not
again until shortly before they would have aged for the expiry. A set that was out of the range when
sets were last touched is therefore not protected before the next touch is due, though the range may be
another one by then or the set may hold other validations. No other set that is to be kept is swept out.

* `lastRange`, `Register.History.kept`: the range that was last asked to be kept.
* `Touch`, `Register.lastTouch`: the last time that the sets to keep were touched.
* `Register.Tended`: since then, only the sets that were skipped are older.
* `Register.history_keeps`: an expiry takes no set that is to be kept, but for a skipped one.
-/

namespace ForkChoice

variable {T : Type}

/-- The range that was last asked to be kept. -/
def lastRange (es : List (Event T)) : Option KeepRange :=
  es.reverse.findSome? (·.request.range?)

theorem lastRange_snoc (es : List (Event T)) (e : Event T) :
    lastRange (es ++ [e]) = e.request.range?.or (lastRange es) := by
  rw [lastRange, List.reverse_append, List.reverse_singleton, List.singleton_append,
    List.findSome?_cons, lastRange]
  cases e.request.range? <;> rfl

/-- The sets to keep are touched: the register before that, the time, and the range to keep. -/
structure Touch (T : Type) where
  before : Register T
  time : Time
  range : KeepRange

namespace Touch

/-- There was a set for a sequence number, which was out of the range. -/
structure Skips (touch : Touch T) (seq : Nat) : Prop where
  tracked : ∃ set, touch.before.bySeq.get? seq = some set
  outside : touch.range.contains seq = false

/-- There was a set for a ledger, with a validation that was out of the range. -/
def SkipsLedger (touch : Touch T) (id : Nat) : Prop :=
  ∃ n v, touch.before.filed id n = some v ∧ touch.range.contains v.seq = false

/-- A set has not been used for the expiry, and the next touch is not due. -/
structure Misses (touch : Touch T) (timing : Timing) (last now : Time) : Prop where
  old : last.ns + timing.expiry.ns ≤ now.ns
  early : now.ns + timing.freshness.ns < touch.time.ns + timing.expiry.ns

end Touch

namespace Register

variable {env : Surroundings} {r s : Register T} {es : List (Event T)} {e : Event T} {touch : Touch T}
  {range : KeepRange} {id seq n : Nat} {v : Validation} {set : ValidationSet} {request : Request}
  {answer : Reply} {now last : Time} {o : Outcome T Reply}

/-- What an event touches: an expiry touches the sets to keep when that is due. -/
def touchAt (r : Register T) (e : Event T) : Option (Touch T) :=
  match e.request, r.kept with
  | .expire, some range =>
    if r.keepRefresh.all (· ≤ e.time) then some ⟨r, e.time, range⟩ else none
  | _, _ => none

/-- The last time that the sets to keep were touched by these events. -/
def lastTouch (r : Register T) : List (Event T) → Option (Touch T)
  | [] => none
  | e :: rest => (lastTouch e.outcome.register rest).or (r.touchAt e)

theorem touchAt_eq_some : r.touchAt e = some touch ↔ e.request = .expire ∧
    r.keepRefresh.all (· ≤ e.time) = true ∧ ∃ range, r.kept = some range ∧ touch = ⟨r, e.time, range⟩ := by
  rw [touchAt]
  constructor
  · intro h
    split at h
    · rename_i range hrequest hkept
      split at h
      · rename_i hdue
        exact ⟨hrequest, hdue, range, hkept, (Option.some.inj h).symm⟩
      · cases h
    · cases h
  · rintro ⟨hrequest, hdue, range, hkept, rfl⟩
    rw [hrequest, hkept]
    exact if_pos hdue

/-! ## One step -/

theorem Entered.of_expire (h : Entered env r s .expire answer) : ∃ touched,
    r.touchKept env = .ok touched ∧ s.keepRefresh = touched.keepRefresh ∧
      s.byLedger = touched.byLedger.fresh env.steady r.timing.expiry ∧
      s.bySeq = touched.bySeq.fresh env.steady r.timing.expiry := by
  cases h with
  | @expired touched htouched hrecords =>
    have htiming := (touchKept_others htouched).1
    have hsame {α : Type} (f : Register Unit → α) : f s.records = f (touched.swept env.steady).records :=
      congrArg f hrecords
    refine ⟨touched, htouched, hsame (·.keepRefresh), ?_, ?_⟩
    · rw [← htiming]
      exact hsame (·.byLedger)
    · rw [← htiming]
      exact hsame (·.bySeq)
  | minor hminor => exact hminor.elim

/-- A touch sets the time of the next one, and makes the sets in its range young. -/
theorem Entered.touches (h : Entered env r s request answer)
    (htouch : r.touchAt ⟨env, request, o⟩ = some touch) :
    ∃ range next, touch = ⟨r, env.steady, range⟩ ∧ s.keepRefresh = some next ∧
      next.ns + r.timing.freshness.ns = env.steady.ns + r.timing.expiry.ns ∧
      s.byLedger = (r.renewed env range next).byLedger.fresh env.steady r.timing.expiry ∧
      s.bySeq = (r.renewed env range next).bySeq.fresh env.steady r.timing.expiry := by
  obtain ⟨rfl, hdue, range, hrange, rfl⟩ := touchAt_eq_some.mp htouch
  obtain ⟨touched, htouched, hrefresh, hbyLedger, hbySeq⟩ := h.of_expire
  rcases touchKept_renews htouched with ⟨range', next, hkept, -, hnext, rfl⟩ | ⟨-, hnone | hearly⟩
  · obtain rfl := Option.some.inj (hrange.symm.trans hkept)
    exact ⟨range, next, rfl, hrefresh, hnext, hbyLedger, hbySeq⟩
  · rw [hrange] at hnone
    cases hnone
  · obtain ⟨next, hnext, hlt⟩ := hearly
    rw [hnext, Option.all_some, decide_eq_true_eq] at hdue
    exact absurd hdue (Int.not_le.mpr hlt)

/-- The time of the next touch stays as it is if nothing is touched. -/
theorem Entered.keepRefresh (h : Entered env r s request answer)
    (hnone : r.touchAt ⟨env, request, o⟩ = none) : s.keepRefresh = r.keepRefresh := by
  obtain ⟨touched, htouched, -, -, hrefresh⟩ := h.standing
  rw [hrefresh]
  rcases htouched with rfl | ⟨rfl, htouched⟩
  · rfl
  · rcases touchKept_renews htouched with ⟨range, next, hkept, hdue, -, -⟩ | ⟨rfl, -⟩
    · have htouch : r.touchAt ⟨env, .expire, o⟩ = some ⟨r, env.steady, range⟩ :=
        touchAt_eq_some.mpr ⟨rfl, hdue, range, hkept, rfl⟩
      rw [htouch] at hnone
      cases hnone
    · rfl

/-! ## Sets are not empty -/

/-- A validation is filed in every set by ledger. -/
def Filled (r : Register T) : Prop :=
  ∀ (id : Nat) (set : ValidationSet), r.byLedger.get? id = some set →
    ∃ (n : Nat) (v : Validation), set[n]? = some v

theorem Refiled.filled (h : Refiled env r s request) (hr : r.Filled) : s.Filled := by
  intro id set hset
  cases h with
  | same _ hbyLedger => exact hr id set (hbyLedger ▸ hset)
  | @filed node v guard _ hbyLedger =>
    have hput : (r.file env node v).byLedger.get? id = _ :=
      AgedMap.get?_put r.byLedger env.steady v.ledgerId ∅ (·.insert node v) id
    rw [hbyLedger, hput] at hset
    split at hset
    · obtain rfl := Option.some.inj hset
      exact ⟨node, v, Std.ExtTreeMap.getElem?_insert_self⟩
    · exact hr id set hset
  | expired htouched hbyLedger =>
    have hbefore := AgedMap.get?_of_fresh (hbyLedger ▸ hset)
    rcases touchKept_eq htouched with rfl | ⟨_, _, ids, _, -, rfl⟩
    · exact hr id set hbefore
    · exact hr id set ((AgedMap.get?_touchAll ids).symm.trans hbefore)
  | restamped hbyLedger =>
    rw [hbyLedger, AgedMap.get?_map] at hset
    obtain ⟨old, hold, rfl⟩ := Option.map_eq_some_iff.mp hset
    obtain ⟨n, v, hv⟩ := hr id old hold
    exact ⟨n, _, Std.ExtTreeMap.getElem?_map.trans (congrArg _ hv)⟩
  | used _ hbyLedger =>
    rw [hbyLedger, AgedMap.get?_touch] at hset
    exact hr id set hset

/-- A ledger is in a range if all validations for it are, whichever is looked at. -/
theorem mem_ledgersIn (hset : r.byLedger.get? id = some set) (hn : set[n]? = some v)
    (hall : ∀ (n : Nat) (v : Validation), set[n]? = some v → range.contains v.seq = true) :
    id ∈ r.ledgersIn env range := by
  refine List.mem_map.mpr ⟨(id, set), List.mem_filter.mpr ⟨AgedMap.mem_toList hset, ?_⟩, rfl⟩
  dsimp only
  cases hfirst : (byRank (fun entry => env.order.filed id entry.1) set.toList).head? with
  | none =>
    have hmem : (n, v) ∈ byRank (fun entry => env.order.filed id entry.1) set.toList :=
      mem_byRank.mpr (Std.ExtTreeMap.mem_toList_iff_getElem?_eq_some.mpr hn)
    rw [List.head?_eq_none_iff.mp hfirst] at hmem
    cases hmem
  | some first =>
    have hmem := mem_byRank.mp (List.mem_of_head? hfirst)
    exact hall first.1 first.2 (Std.ExtTreeMap.mem_toList_iff_getElem?_eq_some.mp hmem)

/-- What is touched just before an expiry is kept: the sets in the range. -/
theorem renewed_keeps {next : Time} (hset : r.bySeq.get? seq = some set)
    (hseq : range.contains seq = true) (hage : 0 < r.timing.expiry.ns) :
    ((r.renewed env range next).bySeq.fresh env.steady r.timing.expiry).get? seq = some set := by
  obtain ⟨last, hlast⟩ := AgedMap.exists_touched? hset
  have hmem : seq ∈ r.bySeq.keys.filter range.contains :=
    List.mem_filter.mpr ⟨AgedMap.mem_keys_of_touched? hlast, hseq⟩
  exact AgedMap.fresh_touchAll_of_mem hmem hset hage

theorem renewed_keepsLedger {next : Time} (hfilled : r.Filled) (hset : r.byLedger.get? id = some set)
    (hall : ∀ (n : Nat) (v : Validation), set[n]? = some v → range.contains v.seq = true)
    (hage : 0 < r.timing.expiry.ns) :
    ((r.renewed env range next).byLedger.fresh env.steady r.timing.expiry).get? id = some set := by
  obtain ⟨n, v, hv⟩ := hfilled id set hset
  exact AgedMap.fresh_touchAll_of_mem (mem_ledgersIn hset hv hall) hset hage

/-! ## Since the last touch -/

/-- The next touch is due some time before what was touched is old. A set that has not been used since
the touch was skipped. -/
structure Tended (touch : Touch T) (now : Time) (s : Register T) : Prop where
  refresh : ∃ next, s.keepRefresh = some next ∧
    next.ns + s.timing.freshness.ns = touch.time.ns + s.timing.expiry.ns
  past : touch.time ≤ now
  skips : ∀ seq last, s.bySeq.touched? seq = some last → last < touch.time → touch.Skips seq
  skipsLedger : ∀ id last, s.byLedger.touched? id = some last → last < touch.time →
    touch.SkipsLedger id

theorem Tended.later (h : Tended touch last s) (hle : last ≤ now) : Tended touch now s :=
  { h with past := Int.le_trans h.past hle }

/-- Before the next touch is due, a set that has not been used for the expiry has not been used since the
last touch. -/
theorem Tended.misses (h : Tended touch now s) {next : Time} (hnext : s.keepRefresh = some next)
    (hearly : now < next) (hold : last.ns + s.timing.expiry.ns ≤ now.ns) :
    touch.Misses s.timing last now ∧ last < touch.time := by
  obtain ⟨next', hnext', hdue⟩ := h.refresh
  obtain rfl := Option.some.inj (hnext.symm.trans hnext')
  rw [Time.lt_iff] at hearly
  refine ⟨⟨hold, by omega⟩, ?_⟩
  rw [Time.lt_iff]
  omega

/-- A request that touches nothing leaves no set older. -/
theorem Tended.step (h : Tended touch now r) (hentered : Entered env r s request answer)
    (hnone : r.touchAt ⟨env, request, o⟩ = none) (hnow : now ≤ env.steady) :
    Tended touch env.steady s := by
  have hpast : touch.time ≤ env.steady := Int.le_trans h.past hnow
  refine ⟨?_, hpast, fun seq last hlast hlt => ?_, fun id last hlast hlt => ?_⟩
  · rw [hentered.keepRefresh hnone, hentered.timing]
    exact h.refresh
  · rcases hentered.tracked_used hlast with rfl | hbefore
    · exact absurd hpast (Int.not_le.mpr hlt)
    · exact h.skips seq last hbefore hlt
  · rcases hentered.refiled.used_cases hlast with rfl | hbefore
    · exact absurd hpast (Int.not_le.mpr hlt)
    · exact h.skipsLedger id last hbefore hlt

/-- After a touch, only what it has skipped is older. -/
theorem Entered.tended (hentered : Entered env r s request answer)
    (htouch : r.touchAt ⟨env, request, o⟩ = some touch) (hfilled : r.Filled) :
    Tended touch env.steady s := by
  obtain ⟨range, next, rfl, hrefresh, hnext, hbyLedger, hbySeq⟩ := hentered.touches htouch
  have hne {last : Time} (hlt : last < env.steady) : last ≠ env.steady := by
    rintro rfl
    exact Int.lt_irrefl _ hlt
  refine ⟨⟨next, hrefresh, ?_⟩, Int.le_refl _, fun seq last hlast hlt => ?_, fun id last hlast hlt => ?_⟩
  · rw [hentered.timing]
    exact hnext
  · rw [hbySeq] at hlast
    obtain ⟨hnot, hbefore⟩ :=
      AgedMap.not_mem_of_touchAll (AgedMap.touched?_of_fresh hlast) (hne hlt)
    refine ⟨AgedMap.exists_get? hbefore, ?_⟩
    rw [List.mem_filter, not_and] at hnot
    exact Bool.eq_false_iff.mpr (hnot (AgedMap.mem_keys_of_touched? hbefore))
  · rw [hbyLedger] at hlast
    obtain ⟨hnot, hbefore⟩ :=
      AgedMap.not_mem_of_touchAll (AgedMap.touched?_of_fresh hlast) (hne hlt)
    obtain ⟨set, hset⟩ := AgedMap.exists_get? hbefore
    obtain ⟨n, v, hv⟩ := hfilled id set hset
    by_contra hskips
    apply hnot
    apply mem_ledgersIn hset hv
    intro n' v' hv'
    by_contra houtside
    refine hskips ⟨n', v', ?_, Bool.eq_false_iff.mpr houtside⟩
    rw [filed, AgedMap.member?, hset]
    exact hv'

/-! ## Histories -/

variable [VoteTrie T] {timing : Timing}

theorem History.filled (h : History (empty timing) es s) : s.Filled := by
  induction h with
  | nil => exact fun _ _ hset => by cases hset
  | snoc _ hstep ih => exact (step_enters _ _ _ _ hstep).refiled.filled ih

/-- The range to keep is the one that was last asked for. -/
theorem History.kept (h : History (empty timing) es s) : s.kept = lastRange es := by
  induction h with
  | nil => rfl
  | snoc _ hstep ih => rw [(step_enters _ _ _ _ hstep).kept, lastRange_snoc, ih]

theorem History.lastTouch_snoc (h : History r es s) (e : Event T) :
    r.lastTouch (es ++ [e]) = (s.touchAt e).or (r.lastTouch es) := by
  induction es generalizing r with
  | nil =>
    rw [h.of_nil, List.nil_append, lastTouch, lastTouch, lastTouch, Option.none_or, Option.or_none]
  | cons first rest ih =>
    rw [List.cons_append, lastTouch, ih h.of_cons.2, Option.or_assoc, lastTouch]

/-- The time of the next touch is known only since the last one. -/
theorem History.exists_lastTouch (h : History (empty timing) es s) {next : Time}
    (hnext : s.keepRefresh = some next) : ∃ touch, (empty timing).lastTouch es = some touch := by
  induction h with
  | nil => cases hnext
  | @snoc past s env request o before hstep ih =>
    rw [before.lastTouch_snoc]
    cases htouch : s.touchAt ⟨env, request, o⟩ with
    | some touch => exact ⟨touch, rfl⟩
    | none =>
      rw [(step_enters _ _ _ _ hstep).keepRefresh htouch] at hnext
      exact ih hnext

/-- Since the last touch, only what it has skipped is older. -/
theorem History.tended (h : History (empty timing) es s) (hclock : Clocked es)
    (hnow : ∀ e ∈ es, e.time ≤ now) (htouch : (empty timing).lastTouch es = some touch) :
    Tended touch now s := by
  induction h generalizing now with
  | nil => cases htouch
  | @snoc past s env request o before hstep ih =>
    obtain ⟨hclock, hpast⟩ := clocked_snoc.mp hclock
    have hentered := step_enters _ _ _ _ hstep
    have hlater : env.steady ≤ now :=
      hnow ⟨env, request, o⟩ (List.mem_append_right _ (List.mem_singleton_self _))
    rw [before.lastTouch_snoc, Option.or_eq_some_iff] at htouch
    rcases htouch with htouch | ⟨hnone, htouch⟩
    · exact (hentered.tended htouch before.filled).later hlater
    · exact ((ih hclock hpast htouch).step hentered hnone (Int.le_refl _)).later hlater

/-- After any history, an expiry keeps the sets in the range that was last asked to be kept: those by
sequence number, and those by ledger if all validations in them are in the range. It takes away only
those that the last touch has skipped, which have not been used for the expiry while no other touch was
due. -/
theorem history_keeps (h : History (empty timing) es s) (hclock : Clocked es)
    (hlast : ∀ e ∈ es, e.time ≤ env.steady) (hvalid : timing.flaw? = none)
    (hrange : lastRange es = some range) (hstep : s.step env .expire = pure o) :
    (∀ seq set, s.bySeq.get? seq = some set → range.contains seq = true →
      o.register.bySeq.get? seq = some set ∨
        o.register.bySeq.get? seq = none ∧ ∃ touch last, (empty timing).lastTouch es = some touch ∧
          touch.Skips seq ∧ s.bySeq.touched? seq = some last ∧ touch.Misses timing last env.steady) ∧
    ∀ id set, s.byLedger.get? id = some set →
      (∀ (n : Nat) (v : Validation), set[n]? = some v → range.contains v.seq = true) →
      o.register.byLedger.get? id = some set ∨
        o.register.byLedger.get? id = none ∧ ∃ touch last, (empty timing).lastTouch es = some touch ∧
          touch.SkipsLedger id ∧ s.byLedger.touched? id = some last ∧
          touch.Misses timing last env.steady := by
  have htiming : s.timing = timing := h.timing
  have hentered : Entered env s o.register .expire o.answer := step_enters _ _ _ _ hstep
  obtain ⟨touched, htouched, -, hbyLedger, hbySeq⟩ := hentered.of_expire
  rw [hbyLedger, hbySeq]
  rcases touchKept_renews htouched with ⟨range', next, hkept, -, -, rfl⟩ | ⟨rfl, hidle⟩
  · obtain rfl : range' = range := Option.some.inj (hkept.symm.trans (h.kept.trans hrange))
    have hage : 0 < s.timing.expiry.ns := htiming ▸ Timing.pos_of_flaw? hvalid .expiry
    refine ⟨fun seq set hset hseq => Or.inl ?_, fun id set hset hall => Or.inl ?_⟩
    · exact renewed_keeps hset hseq hage
    · exact renewed_keepsLedger h.filled hset hall hage
  · obtain ⟨next, hnext, hearly⟩ := hidle.resolve_left fun hnone => by
      rw [h.kept, hrange] at hnone
      cases hnone
    obtain ⟨touch, htouch⟩ := h.exists_lastTouch hnext
    have htended := h.tended hclock hlast htouch
    refine ⟨fun seq set hset _ => ?_, fun id set hset _ => ?_⟩
    · refine (AgedMap.fresh_cases hset).imp_right ?_
      rintro ⟨hgone, last, hused, hold⟩
      obtain ⟨hmiss, hlt⟩ := htended.misses hnext hearly hold
      exact ⟨hgone, touch, last, htouch, htended.skips seq last hused hlt, hused, htiming ▸ hmiss⟩
    · refine (AgedMap.fresh_cases hset).imp_right ?_
      rintro ⟨hgone, last, hused, hold⟩
      obtain ⟨hmiss, hlt⟩ := htended.misses hnext hearly hold
      exact ⟨hgone, touch, last, htouch, htended.skipsLedger id last hused hlt, hused, htiming ▸ hmiss⟩

/-- A node validates the left side. Its sequence number is kept for longer than the expiry. -/
def upkeep : List Fork.Line :=
  [(Fork.second 1000, [], .receive 1 (Fork.word 1 Fork.left (Fork.second 1000))),
    (Fork.second 1000, [], .keep 1 3),
    (Fork.second 1590, [], .expire),
    (Fork.second 2200, [], .expire)]

/-- The sets are still there, since the next touch is due when the sets are to be swept out. -/
theorem history_keeps_fork :
    ∃ (es : List (Event (ArenaTrie (Slots.numbered (Cell Nat)))))
      (s : Register (ArenaTrie (Slots.numbered (Cell Nat))))
      (o : Outcome (ArenaTrie (Slots.numbered (Cell Nat))) Reply), History (empty {}) es s ∧
        Clocked es ∧ lastRange es = some ⟨1, 3, by decide⟩ ∧
        s.step (Fork.world (Fork.second 2200) []) .expire = pure o ∧
        o.register.tracked 2 1 = some (Fork.word 1 Fork.left (Fork.second 1000)) ∧
        o.register.filed 2 1 = some (Fork.word 1 Fork.left (Fork.second 1000)) := by
  obtain ⟨outcomes, s, hs, hanswers, htest⟩ := Fork.exists_history (Slots.numbered (Cell Nat)) upkeep
    [.verdict .current, .done, .done, .done]
    (fun records => (records[2]?.map fun r =>
        ((r.bySeq.get? 2).map (·.toList), (r.byLedger.get? 2).map (·.toList))) ==
      some (some [(1, Fork.word 1 Fork.left (Fork.second 1000))],
        some [(1, Fork.word 1 Fork.left (Fork.second 1000))]))
    (by simp [upkeep, Request.Apt]) (by decide +kernel)
  simp only [List.map_eq_cons_iff, List.map_eq_nil_iff] at hanswers
  obtain ⟨o₁, _, rfl, -, o₂, _, rfl, -, o₃, _, rfl, -, o₄, _, rfl, -, rfl⟩ := hanswers
  obtain ⟨s, hs, hstep, -⟩ := History.of_concat (events (Fork.script (upkeep.take 3)) [o₁, o₂, o₃]) hs
  obtain ⟨-, -, -, rfl⟩ := History.of_concat (events (Fork.script (upkeep.take 2)) [o₁, o₂]) hs
  obtain ⟨hbySeq, hbyLedger⟩ := Prod.mk.inj (Option.some.inj (beq_iff_eq.mp htest))
  obtain ⟨tracked, htracked, htracks⟩ := Option.map_eq_some_iff.mp hbySeq
  obtain ⟨filed, hfiled, hfiles⟩ := Option.map_eq_some_iff.mp hbyLedger
  have hmember {set : ValidationSet} (hset : set.toList =
      [(1, Fork.word 1 Fork.left (Fork.second 1000))]) (n : Nat) (v : Validation) :
      set[n]? = some v ↔ n = 1 ∧ v = Fork.word 1 Fork.left (Fork.second 1000) := by
    rw [← Std.ExtTreeMap.mem_toList_iff_getElem?_eq_some, hset, List.mem_singleton, Prod.mk.injEq]
  have hclock : Clocked (events (Fork.script (upkeep.take 3)) [o₁, o₂, o₃]) :=
    clocked_events _ _ (by decide)
  have hearlier : ∀ q ∈ Fork.script (upkeep.take 3), q.1.steady ≤ Fork.second 1590 := by decide
  have hpast (e : Event (ArenaTrie (Slots.numbered (Cell Nat))))
      (he : e ∈ events (Fork.script (upkeep.take 3)) [o₁, o₂, o₃]) : e.time ≤ Fork.second 1590 :=
    hearlier _ (mem_events he)
  have hdue {touch : Touch (ArenaTrie (Slots.numbered (Cell Nat)))} {last : Time}
      (htouch : (empty {}).lastTouch (events (Fork.script (upkeep.take 3)) [o₁, o₂, o₃]) = some touch)
      (hmisses : touch.Misses {} last (Fork.second 2200)) : False := by
    have hold : touch.time ≤ Fork.second 1590 := (hs.tended hclock hpast htouch).past
    have hearly : (2220000000000 : Int) < touch.time.ns + 600000000000 := hmisses.early
    rw [Time.le_iff, show (Fork.second 1590).ns = 1590000000000 from rfl] at hold
    omega
  have hlater : Fork.second 1590 ≤ Fork.second 2200 := by decide
  have hrange : lastRange (events (Fork.script (upkeep.take 3)) [o₁, o₂, o₃]) =
      some ⟨1, 3, by decide⟩ := rfl
  obtain ⟨hbySeq, hbyLedger⟩ := history_keeps hs hclock
    (fun e he => Int.le_trans (hpast e he) hlater) (by decide) hrange hstep
  refine ⟨_, _, o₄, hs, hclock, hrange, hstep, ?_, ?_⟩
  · rcases hbySeq 2 tracked htracked rfl with hkept | ⟨-, touch, last, htouch, -, -, hmisses⟩
    · rw [Register.tracked, AgedMap.member?, hkept]
      exact (hmember htracks 1 _).mpr ⟨rfl, rfl⟩
    · exact (hdue htouch hmisses).elim
  · have hall (n : Nat) (v : Validation) (hv : filed[n]? = some v) :
        (⟨1, 3, by decide⟩ : KeepRange).contains v.seq = true := by
      obtain ⟨-, rfl⟩ := (hmember hfiles n v).mp hv
      rfl
    rcases hbyLedger 2 filed hfiled hall with hkept | ⟨-, touch, last, htouch, -, -, hmisses⟩
    · rw [Register.filed, AgedMap.member?, hkept]
      exact (hmember hfiles 1 _).mpr ⟨rfl, rfl⟩
    · exact (hdue htouch hmisses).elim

/-- Another range is kept, then the range of the validation, and then sets are swept out. -/
def widening : List Fork.Line :=
  [(Fork.second 1000, [], .receive 1 (Fork.word 1 Fork.left (Fork.second 1000))),
    (Fork.second 1000, [], .keep 5 10),
    (Fork.second 1590, [], .expire),
    (Fork.second 1590, [], .keep 1 3),
    (Fork.second 1610, [], .expire)]

/-- The sets are to be kept and are swept out, since no touch is due so soon after the last one. -/
theorem history_keeps_late :
    ∃ (es : List (Event (ArenaTrie (Slots.numbered (Cell Nat)))))
      (s : Register (ArenaTrie (Slots.numbered (Cell Nat))))
      (o : Outcome (ArenaTrie (Slots.numbered (Cell Nat))) Reply), History (empty {}) es s ∧
        Clocked es ∧ lastRange es = some ⟨1, 3, by decide⟩ ∧
        s.step (Fork.world (Fork.second 1610) []) .expire = pure o ∧
        (s.bySeq.get? 2).map (·.toList) =
          some [(1, Fork.word 1 Fork.left (Fork.second 1000))] ∧
        (s.byLedger.get? 2).map (·.toList) =
          some [(1, Fork.word 1 Fork.left (Fork.second 1000))] ∧
        o.register.bySeq.get? 2 = none ∧ o.register.byLedger.get? 2 = none := by
  obtain ⟨outcomes, s, hs, hanswers, htest⟩ := Fork.exists_history (Slots.numbered (Cell Nat)) widening
    [.verdict .current, .done, .done, .done, .done]
    (fun records => (records.drop 3).map (fun r =>
        ((r.bySeq.get? 2).map (·.toList), (r.byLedger.get? 2).map (·.toList))) ==
      [(some [(1, Fork.word 1 Fork.left (Fork.second 1000))],
        some [(1, Fork.word 1 Fork.left (Fork.second 1000))]), (none, none)])
    (by simp [widening, Request.Apt]) (by decide +kernel)
  simp only [List.map_eq_cons_iff, List.map_eq_nil_iff] at hanswers
  obtain ⟨o₁, _, rfl, -, o₂, _, rfl, -, o₃, _, rfl, -, o₄, _, rfl, -, o₅, _, rfl, -, rfl⟩ := hanswers
  obtain ⟨s, hs, hstep, -⟩ :=
    History.of_concat (events (Fork.script (widening.take 4)) [o₁, o₂, o₃, o₄]) hs
  obtain ⟨-, -, -, rfl⟩ := History.of_concat (events (Fork.script (widening.take 3)) [o₁, o₂, o₃]) hs
  obtain ⟨hbefore, hafter⟩ := List.cons.inj (beq_iff_eq.mp htest)
  obtain ⟨hbySeq, hbyLedger⟩ := Prod.mk.inj hbefore
  obtain ⟨htracked, hfiled⟩ := Prod.mk.inj (List.cons.inj hafter).1
  exact ⟨_, _, o₅, hs, clocked_events _ _ (by decide), rfl, hstep, hbySeq, hbyLedger,
    Option.map_eq_none_iff.mp htracked, Option.map_eq_none_iff.mp hfiled⟩

end Register

end ForkChoice

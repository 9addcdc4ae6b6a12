import ForkChoice.Proofs.Register.Freshness

/-!
# A register that is up to date

A question to the trie brings the register up to date first. To do so twice at one time is the same
as to do it once, so two questions asked in a row are answered from one state.

* `Register.UpToDate`: no validation is stale, and no ledger at hand is awaited.
* `Register.Refreshed.upToDate`: a register is so after it was brought up to date.
* `Register.UpToDate.refresh_eq`: it stays as it is when this is done again.
* `Register.Timely`: the votes stay as they are when a register is brought up to date.
* `exists_upToDate`: a run to a register that is up to date is followed by computation.
-/

namespace ForkChoice

namespace Register

variable {T : Type} {env : Surroundings} {r s : Register T} {now : Time}

/-- All current validations are current at a time, and no ledger that is at hand is awaited. -/
structure UpToDate (env : Surroundings) (now : Time) (r : Register T) : Prop where
  fresh : ∀ (n : Nat) v, r.current[n]? = some v → r.Fresh now n v
  away : ∀ mark ∈ r.awaited, env.acquire mark.id = none

/-- A register is up to date after it was brought so. -/
theorem Refreshed.upToDate (hs : Refreshed env now r s) (h : s.Awaited) : s.UpToDate env now := by
  obtain ⟨swept, hswept, hsettled⟩ := hs
  have htiming : s.timing = r.timing :=
    (timing_of_records hsettled.records).trans hswept.timing
  have hcurrent : s.current = swept.current := current_of_records hsettled.records
  refine ⟨fun n v hv => ⟨hv, ?_⟩, fun mark hmark => ?_⟩
  · rw [htiming]
    apply Fresh.fresh
    apply (hswept.current n v).mp
    rwa [← hcurrent]
  · obtain ⟨n, hn⟩ := h mark hmark
    simpa using ((hsettled.waits n mark).mp hn).2

namespace UpToDate

variable (h : r.UpToDate env now)

include h

/-- No entry is stale. -/
theorem staleAmong_eq : staleAmong r.timing now (r.entries env) = .ok [] := by
  have hfresh : ∀ e ∈ r.entries env, r.timing.isCurrent now e.2.signed e.2.seen = .ok true := by
    intro e he
    have hentry := Std.ExtTreeMap.mem_toList_iff_getElem?_eq_some.mp (mem_byRank.mp he)
    exact (h.fresh e.1 e.2 hentry).fresh
  rw [staleAmong_eq_ok]
  refine ⟨fun e he => ⟨true, hfresh e he⟩, ?_⟩
  symm
  rw [List.filter_eq_nil_iff]
  intro e he
  simp [lapsed, hfresh e he]

variable [VoteTrie T]

/-- No ledger that is awaited has come. -/
theorem settle_eq : r.settle env = pure r := by
  have hstays : ∀ marks : List Mark, (∀ mark ∈ marks, mark ∈ r.awaited) →
      marks.foldlM (settleAt env) r = pure r := by
    intro marks
    induction marks with
    | nil => exact fun _ => rfl
    | cons mark rest ih =>
      intro hmarks
      have hnone := h.away mark (hmarks mark List.mem_cons_self)
      have hlook : settleAt env r mark = pure r := by
        rw [settleAt.eq_def, hnone]
      rw [List.foldlM_cons, hlook, pure_bind]
      exact ih fun m hm => hmarks m (List.mem_cons_of_mem _ hm)
  apply hstays
  intro mark hmark
  exact Std.ExtTreeMap.mem_keys.mp (mem_byRank.mp hmark)

/-- A register that is up to date is not changed by being brought up to date. -/
theorem refresh_eq (hnow : env.now = .ok now) : r.refresh env = pure ⟨(), r, []⟩ := by
  have hsweep : r.sweep env = pure ⟨(), r, []⟩ := by
    rw [sweep, hnow, show (liftM (Except.ok now) : Computation Time) = pure now from rfl, pure_bind,
      h.staleAmong_eq]
    rfl
  rw [refresh, hsweep, pure_bind, h.settle_eq, pure_bind]

end UpToDate

/-! ## Votes that stay as they are -/

/-- No vote is for the ledger of a stale validation, and no ledger that is at hand is awaited but for a
stale validation. -/
structure Timely (env : Surroundings) (now : Time) (r : Register T) : Prop where
  votes : ∀ n l v, r.votes[n]? = some l → r.Stale now n v → l.id ≠ v.ledgerId
  waits : ∀ n m, r.Waits n m → (env.acquire m.id).isSome → ∃ v, r.Stale now n v ∧ m = v.mark

theorem UpToDate.timely (h : r.UpToDate env now) : r.Timely env now where
  votes n l v _ hv := absurd hv (h.fresh n v hv.current).not_stale
  waits n m hm hhand := by
    rw [h.away m hm.mem_awaited] at hhand
    cases hhand

/-- The votes stay as they are when they are timely. -/
theorem Refreshed.votes_eq (hs : Refreshed env now r s) (h : r.Timely env now) :
    s.votes = r.votes := by
  obtain ⟨swept, hswept, hsettled⟩ := hs
  have hkept (n : Nat) : swept.votes[n]? = r.votes[n]? := by
    refine Option.ext fun l => ?_
    rw [hswept.votes n l, and_iff_left_iff_imp]
    exact fun hl v => h.votes n l v hl
  refine Std.ExtTreeMap.ext_getElem? fun n => ?_
  rcases hsettled.votes n with ⟨hsame, -⟩ | ⟨m, l, hm, hl, -⟩
  · rw [hsame, hkept n]
  · obtain ⟨hm, hgone⟩ := (hswept.waits n m).mp hm.1
    obtain ⟨v, hv, hmark⟩ := h.waits n m hm (Option.isSome_iff_exists.mpr ⟨l, hl⟩)
    exact absurd hmark (hgone v hv)

end Register

/-! ## Runs on a fork -/

namespace Fork

open Register in
/-- What is found by following a script to a register that is up to date is so over an arena. -/
theorem exists_upToDate (lines : List Line) (ids : List Nat) (test : Register Trie → Bool)
    (hlines : ∀ line ∈ lines, line.2.2.Apt archive Set.univ)
    (h : yields ((empty {} : Register Trie).after (script lines)) fun s =>
      (s.current.toList.all fun e => s.timing.isCurrent soon e.2.signed e.2.seen == .ok true) &&
        (s.awaited.keys.all fun m => (world soon ids).acquire m.id == none) && test s) :
    ∃ (r : Register (ArenaTrie (Slots.numbered (Cell Nat)))) (t : Trie),
      (empty {}).after (script lines) = pure r ∧ r.Sound archive Set.univ ∧
        r.UpToDate (world soon ids) soon ∧ test (r.withTrie t) = true := by
  have ha := archive_reachable.sound
  obtain ⟨r, s, hr, ⟨-, -, t, rfl, -⟩, htest⟩ := exists_after (Slots.numbered _) lines _ hlines h
  simp only [Bool.and_eq_true, List.all_eq_true, beq_iff_eq] at htest
  obtain ⟨⟨hcurrent, hawaited⟩, htest⟩ := htest
  refine ⟨r, t, hr, ?_, ⟨fun n v hv => ⟨hv, ?_⟩, fun mark hmark => ?_⟩, htest⟩
  · exact ((sound_empty ha {}).after ha (fun _ => Or.inl) (room_bounded _)
      (orderly_script lines hlines)).result hr
  · exact hcurrent (n, v) (Std.ExtTreeMap.mem_toList_iff_getElem?_eq_some.mpr hv)
  · exact hawaited mark (Std.ExtTreeMap.mem_keys.mpr hmark)

end Fork

end ForkChoice

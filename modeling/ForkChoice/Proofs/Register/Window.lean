import ForkChoice.Proofs.Register.Assessment
import ForkChoice.Proofs.Register.Pending
import ForkChoice.Proofs.Register.Tracking

/-!
# The window of times that are taken

Signing times come from other nodes and can be any times at all. Whether a validation lies in the
window, and whether the one that is tracked for its sequence number can be disregarded, is decided as
it is by whole numbers of nanoseconds, whatever the times are.

* `Register.tracked_enter`: what of a validation is tracked, by how far it comes.
* `Register.Assessed.inWindow_iff`: a validation is looked at if it lies in the window.
* `Register.receive_tracks`: what is tracked after a validation.
* `Register.run_windows`: the window, and what is tracked, after any run.
-/

namespace ForkChoice

namespace Register

variable {T : Type} {a : Archive} {env : Surroundings} {r : Register T} {node : Nat}
  {v : Validation} {now signed seen : Time} {stage : Stage}

/-! ## One validation -/

/-- What is tracked gives way to a validation that was signed more than the wall after it. -/
theorem trackedFor_eq (r : Register T) (node : Nat) (v : Validation) :
    r.trackedFor node v = (r.tracked v.seq node).elim v fun old =>
      if old.signed.ns + r.timing.wall.ns < v.signed.ns then v else old := by
  rcases trackedFor_cases r node v with ⟨hself, hlong⟩ | ⟨old, hold, hkept, hshort⟩
  · rw [hself]
    cases hold : r.tracked v.seq node with
    | none => rfl
    | some old => exact (if_pos (hlong old hold)).symm
  · rw [hkept, hold]
    exact (if_neg (by omega)).symm

/-- A validation is tracked unless it is ignored. -/
theorem tracked_enter (r : Register T) (env : Surroundings) (node : Nat) (v : Validation)
    (hstage : stage ≠ .ignored) :
    (r.enter env node v stage).tracked v.seq node = some (r.trackedFor node v) := by
  have htrack := tracked_track r env node v v.seq node
  rw [if_pos ⟨rfl, rfl⟩] at htrack
  cases stage with
  | ignored => exact absurd rfl hstage
  | refused | late | installed => exact htrack

/-- A validation is looked at exactly if it lies in the window. -/
theorem Assessed.inWindow_iff (h : Assessed env node v r stage) (hnow : env.now = .ok now)
    (hwall : (now.later? r.timing.wall).isSome) (hsight : (now.later? r.timing.sight).isSome) :
    r.timing.InWindow now v.signed v.seen ↔ stage ≠ .ignored := by
  have hcurrent := Timing.isCurrent_eq hwall hsight v.signed v.seen
  have hanswer {now' : Time} {b : Bool} (hclock : env.now = .ok now')
      (hfresh : r.timing.isCurrent now' v.signed v.seen = .ok b) :
      decide (r.timing.InWindow now v.signed v.seen) = b := by
    obtain rfl : now = now' := Except.ok.inj (hnow.symm.trans hclock)
    exact Except.ok.inj (hcurrent.symm.trans hfresh)
  cases h with
  | ignored hclock hstale =>
    exact iff_of_false (of_decide_eq_false (hanswer hclock hstale)) (not_not.mpr rfl)
  | refused hclock hfresh | late hclock hfresh | installed hclock hfresh =>
    exact iff_of_true (of_decide_eq_true (hanswer hclock hfresh)) Stage.noConfusion

variable [VoteTrie T]

/-- A validation in the window is tracked, or held against what is tracked of its node. One outside
changes nothing there. -/
theorem receive_tracks (hnow : env.now = .ok now) (hwall : (now.later? r.timing.wall).isSome)
    (hsight : (now.later? r.timing.sight).isSome) :
    Gives (r.step env (.receive node v)) fun o => o.register.tracked v.seq node =
      if r.timing.InWindow now v.signed v.seen then some (r.trackedFor node v)
      else r.tracked v.seq node := by
  intro o ho
  obtain ⟨stage, s, hstage, hs, rfl⟩ := step_receive.mp ho
  have hassessed := assess_eq_ok.mp hstage
  have hrecords : s.records.bySeq = (r.enter env node v stage).records.bySeq := by
    rw [adopt_records r env node v stage s hs]
  have hentered : s.tracked v.seq node = (r.enter env node v stage).tracked v.seq node :=
    tracked_of_bySeq hrecords v.seq node
  refine hentered.trans ?_
  by_cases hignored : stage = .ignored
  · rw [if_neg fun h => (hassessed.inWindow_iff hnow hwall hsight).mp h hignored, hignored]
    rfl
  · rw [if_pos ((hassessed.inWindow_iff hnow hwall hsight).mpr hignored)]
    exact tracked_enter r env node v hignored

/-! ## After a run -/

variable {requests : List (Surroundings × Request)}

/-- A run leaves the timing as it is. -/
theorem after_timing (r : Register T) (requests : List (Surroundings × Request)) :
    Gives (r.after requests) fun s => s.timing = r.timing := by
  unfold after
  refine Gives.foldlM (I := fun _ (s : Register T) => s.timing = r.timing) rfl
    fun request _ s hs => ?_
  exact (step_enters s request.1 request.2).map fun _ ho => ho.timing.trans hs

/-- As long as the ends of the window are representable, a validation is current exactly if its times
lie in the window, whatever they are and also when the window has no first moment. And after any run
a validation in the window takes the place of the one that is tracked of its node and sequence number
exactly if it was signed more than the wall after it. One outside changes nothing there. -/
theorem run_windows {Slot : Type} [DecidableEq Slot] (A : Slots Slot (Cell Slot))
    (ha : a.Reachable) (timing : Timing) (hwall : (now.later? timing.wall).isSome)
    (hsight : (now.later? timing.sight).isSome) (signed seen : Time) :
    timing.isCurrent now signed seen = .ok (decide (timing.InWindow now signed seen)) ∧
      ∀ requests, Orderly a Set.univ requests →
        Ends Bounded ((empty timing : Register (ArenaTrie A)).after requests) fun r =>
          ∀ env node v, env.Honest a → env.now = .ok now → v.signed = signed → v.seen = seen →
            Ends Bounded (r.step env (.receive node v)) fun o =>
              o.register.tracked v.seq node =
                if timing.InWindow now signed seen then
                  some ((r.tracked v.seq node).elim v fun old =>
                    if old.signed.ns + timing.wall.ns < signed.ns then v else old)
                else r.tracked v.seq node := by
  refine ⟨Timing.isCurrent_eq hwall hsight signed seen, fun requests h => ?_⟩
  have hafter := (sound_empty ha.sound timing : (empty timing : Register (ArenaTrie A)).Sound a
    Set.univ).after ha.sound (fun _ => Or.inl) (room_bounded _) h
  refine hafter.self.imp ?_
  rintro r ⟨hr, hsound⟩ env node v henv hnow rfl rfl
  obtain rfl : r.timing = timing := after_timing _ requests r hr
  have hstep := step_ends ha.sound henv (fun _ => Or.inl) (room_bounded _) hsound
    (show (Request.receive node v).Apt a Set.univ from trivial)
  refine hstep.self.imp fun o ho => ?_
  rw [receive_tracks hnow hwall hsight o ho.1, trackedFor_eq]

/-- A validation of the left side that was signed 600 seconds ago gives way to a new one. -/
theorem run_windows_fork :
    (Fork.late.later? ({} : Timing).wall).isSome ∧ (Fork.late.later? ({} : Timing).sight).isSome ∧
      ({} : Timing).isCurrent Fork.late Fork.late Fork.late = .ok true ∧
      ∃ (r : Register (ArenaTrie (Slots.numbered (Cell Nat))))
        (o : Outcome (ArenaTrie (Slots.numbered (Cell Nat))) Reply),
        r.tracked 2 1 = some (Fork.word 1 Fork.left Fork.early) ∧
        r.step (Fork.world Fork.late []) (.receive 1 (Fork.word 1 Fork.left Fork.late)) = pure o ∧
        o.register.tracked 2 1 = some (Fork.word 1 Fork.left Fork.late) := by
  have hwall : (Fork.late.later? ({} : Timing).wall).isSome := by decide
  have hsight : (Fork.late.later? ({} : Timing).sight).isSome := by decide
  let lines : List Fork.Line := [(Fork.early, [], .receive 1 (Fork.word 1 Fork.left Fork.early))]
  have hlines : ∀ line ∈ lines, line.2.2.Apt Fork.archive Set.univ := by simp [lines, Request.Apt]
  obtain ⟨hcurrent, htracks⟩ := run_windows (Slots.numbered (Cell Nat)) Fork.archive_reachable {}
    hwall hsight Fork.late Fork.late
  obtain ⟨r, o, s, o', hr, ho, ⟨-, -, t, rfl, -⟩, -, htest⟩ :=
    Fork.exists_step (Slots.numbered (Cell Nat)) lines
      (Fork.late, [], .receive 1 (Fork.word 1 Fork.left Fork.late))
      (fun s _ => s.tracked 2 1 == some (Fork.word 1 Fork.left Fork.early)) hlines trivial
      (by decide +kernel)
  have hold : r.tracked 2 1 = some (Fork.word 1 Fork.left Fork.early) := beq_iff_eq.mp htest
  have hnew := (((htracks _ (Fork.orderly_script lines hlines)).result hr) _ 1
    (Fork.word 1 Fork.left Fork.late) (Fork.honest Fork.late []) rfl rfl rfl).result ho
  have hseq : (Fork.word 1 Fork.left Fork.late).seq = 2 := rfl
  rw [hseq, hold, if_pos (by decide)] at hnew
  refine ⟨hwall, hsight, hcurrent.trans ?_, r, o, hold, ho, hnew.trans ?_⟩
  · exact congrArg Except.ok (by decide)
  · rw [Option.elim_some, if_pos (by decide)]

end Register

end ForkChoice

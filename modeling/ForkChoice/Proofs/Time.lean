import ForkChoice.Timing
import Mathlib.Tactic.Basic

/-!
# Times apart

A sum of a time and a duration is taken in whole nanoseconds, and has no other way to fail than to
leave the range. So what the program decides with such sums is decided by the numbers themselves.

* `Time.add_eq_ok`, `Time.sub_eq_ok`, `Time.before?_eq_some`: sums and differences that are representable.
* `Timing.flaw?_eq_none`: the timings without flaws.
* `Timing.isRecent_iff`: when a validation was signed late enough.
* `Timing.isCurrent_eq`: a validation is current exactly in the window.
* `Timing.Expired`: more than the expiry lies between two times.
* `SequenceGuard.Advanced`: what a guard makes of one more sequence number.
* `SequenceGuard.Bars`: a guard does not let a sequence number pass again before it has expired.
-/

namespace ForkChoice

namespace Time

variable {t u : Time} {d : Duration}

theorem le_iff : t ≤ u ↔ t.ns ≤ u.ns := Iff.rfl

theorem lt_iff : t < u ↔ t.ns < u.ns := Iff.rfl

theorem ofNanos?_eq_some {ns : Int} : ofNanos? ns = some u ↔ u.ns = ns := by
  unfold ofNanos?
  split
  · rw [Option.some.injEq]
    exact ⟨fun h => h ▸ rfl, fun h => Time.ext h.symm⟩
  · rename_i hrange
    constructor
    · intro h
      cases h
    · rintro rfl
      exact absurd ⟨u.lower, u.upper⟩ hrange

theorem before?_eq_some : t.before? d = some u ↔ u.ns = t.ns - d.ns := ofNanos?_eq_some

theorem later?_eq_some : t.later? d = some u ↔ u.ns = t.ns + d.ns := ofNanos?_eq_some

theorem add_eq_ok : t.add d = .ok u ↔ u.ns = t.ns + d.ns := by
  unfold add
  rw [← ofNanos?_eq_some, ← later?]
  cases t.later? d with
  | some v => simp
  | none => simp

/-- A sum leaves the range at its upper end alone. -/
theorem isSome_later? :
    (t.later? d).isSome ↔ t.ns + d.ns < 0x8000000000000000 * nanosPerSecond := by
  constructor
  · intro h
    obtain ⟨u, hu⟩ := Option.isSome_iff_exists.mp h
    rw [← later?_eq_some.mp hu]
    exact u.upper
  · intro hupper
    have hlower := t.lower
    rw [later?, ofNanos?, dif_pos ⟨by omega, hupper⟩]
    rfl

/-- What fits after a time fits after an earlier one. -/
theorem isSome_later?_of_le (hle : t ≤ u) (h : (u.later? d).isSome) : (t.later? d).isSome := by
  rw [isSome_later?] at h ⊢
  rw [le_iff] at hle
  omega

/-- A sum is a time when it is representable. -/
theorem exists_add (h : (t.later? d).isSome) : ∃ u, t.add d = .ok u ∧ u.ns = t.ns + d.ns := by
  obtain ⟨u, hu⟩ := Option.isSome_iff_exists.mp h
  have hns := later?_eq_some.mp hu
  exact ⟨u, add_eq_ok.mpr hns, hns⟩

theorem add_cases (t : Time) (d : Duration) :
    (∃ u, t.add d = .ok u) ∨ t.add d = .error .timeOverflow := by
  unfold add
  cases t.later? d with
  | some u => exact Or.inl ⟨u, rfl⟩
  | none => exact Or.inr rfl

theorem sub_eq_ok : t.sub d = .ok u ↔ u.ns = t.ns - d.ns := by
  unfold sub
  rw [← before?_eq_some]
  cases t.before? d with
  | some v => simp
  | none => simp

/-- A difference leaves the range at its lower end alone. -/
theorem exists_sub (h : -(0x8000000000000000 * nanosPerSecond) ≤ t.ns - d.ns) :
    ∃ u, t.sub d = .ok u := by
  have hupper := t.upper
  exact ⟨⟨t.ns - d.ns, h, by omega⟩, sub_eq_ok.mpr rfl⟩

theorem sub_cases (t : Time) (d : Duration) :
    (∃ u, t.sub d = .ok u) ∨ t.sub d = .error .timeUnderflow := by
  unfold sub
  cases t.before? d with
  | some u => exact Or.inl ⟨u, rfl⟩
  | none => exact Or.inr rfl

/-- A difference fails only below the first representable time. -/
theorem lt_of_before?_eq_none (h : t.before? d = none) (u : Time) : t.ns - d.ns < u.ns := by
  refine Int.not_le.mp fun hle => ?_
  have hlower := u.lower
  have hupper := t.upper
  have hrange : -(0x8000000000000000 * nanosPerSecond) ≤ t.ns - d.ns ∧
      t.ns - d.ns < 0x8000000000000000 * nanosPerSecond := by omega
  rw [before?, ofNanos?, dif_pos hrange] at h
  cases h

end Time

/-! ## Timings -/

namespace Timing

variable {timing : Timing} {now signed seen : Time}

theorem Field.mem_all (f : Field) : f ∈ all := by
  cases f
  all_goals decide

/-- No duration of a timing without flaws is zero, and no window is longer than the expiry. -/
theorem flaw?_eq_none : timing.flaw? = none ↔
    (∀ f, timing.get f ≠ .zero) ∧ ∀ f ∈ Field.windows, timing.get f ≤ timing.expiry := by
  unfold flaw?
  split
  · rename_i f hzero
    have hf := List.find?_some hzero
    refine iff_of_false (fun h => by cases h) fun h => h.1 f ?_
    exact of_decide_eq_true hf
  · rename_i hpositive
    have hpositive : ∀ f, timing.get f ≠ .zero := by
      intro f hzero
      exact List.find?_eq_none.mp hpositive f f.mem_all (decide_eq_true hzero)
    rw [and_iff_right hpositive, Option.map_eq_none_iff, List.find?_eq_none]
    refine forall₂_congr fun f _ => ?_
    rw [decide_eq_true_iff]
    exact Nat.not_lt

theorem pos_of_flaw? (hflaw : timing.flaw? = none) (f : Field) : 0 < (timing.get f).ns :=
  Nat.pos_of_ne_zero fun hzero => (flaw?_eq_none.mp hflaw).1 f (Duration.ext hzero)

/-! ## Current validations -/

theorem isCurrent_cases (timing : Timing) (now signed seen : Time) :
    (∃ b, timing.isCurrent now signed seen = .ok b) ∨
      timing.isCurrent now signed seen = .error .timeOverflow := by
  unfold isCurrent
  split
  · unfold isDue
    rcases now.add_cases timing.wall with ⟨latest, hlatest⟩ | hfault
    · simp only [hlatest, bind, Except.bind]
      split
      · split
        · exact Or.inl ⟨true, rfl⟩
        · rcases now.add_cases timing.sight with ⟨horizon, hhorizon⟩ | hfault
          · exact Or.inl ⟨_, by rw [hhorizon]⟩
          · exact Or.inr (by rw [hfault])
      · exact Or.inl ⟨false, rfl⟩
    · exact Or.inr (by simp only [hfault, bind, Except.bind])
  · exact Or.inl ⟨false, rfl⟩

theorem isRecent_iff : timing.isRecent now signed = true ↔ now.ns < signed.ns + timing.early.ns := by
  unfold isRecent
  cases h : now.before? timing.early with
  | some earliest =>
    have hns := Time.before?_eq_some.mp h
    rw [Option.all_some, decide_eq_true_iff, Time.lt_iff]
    omega
  | none =>
    have hlt := Time.lt_of_before?_eq_none h signed
    rw [Option.all_none]
    exact iff_of_true rfl (by omega)

/-- A current validation was signed less than the early window ago. -/
theorem lt_of_isCurrent (h : timing.isCurrent now signed seen = .ok true) :
    now.ns < signed.ns + timing.early.ns := by
  unfold isCurrent at h
  split at h
  · rename_i hrecent
    exact isRecent_iff.mp hrecent
  · cases h

/-- A validation lies in the window at a time: it was signed after the time less the early window
and before the time and the wall, and if it was ever seen, it was seen before the time and the
sight. -/
def InWindow (timing : Timing) (now signed seen : Time) : Prop :=
  now.ns - timing.early.ns < signed.ns ∧ signed.ns < now.ns + timing.wall.ns ∧
    (seen = .epoch ∨ seen.ns < now.ns + timing.sight.ns)

instance (timing : Timing) (now signed seen : Time) :
    Decidable (timing.InWindow now signed seen) :=
  inferInstanceAs (Decidable (_ ∧ _ ∧ _))

theorem isDue_eq (hwall : (now.later? timing.wall).isSome) (hsight : (now.later? timing.sight).isSome)
    (signed seen : Time) : timing.isDue now signed seen =
      .ok (decide (signed.ns < now.ns + timing.wall.ns ∧
        (seen = .epoch ∨ seen.ns < now.ns + timing.sight.ns))) := by
  obtain ⟨latest, hlatest, hlatestNs⟩ := Time.exists_add hwall
  obtain ⟨horizon, hhorizon, hhorizonNs⟩ := Time.exists_add hsight
  rw [isDue, hlatest, ← hlatestNs, ← hhorizonNs]
  simp only [bind, Except.bind, hhorizon, Time.lt_iff]
  by_cases hsigned : signed.ns < latest.ns
  · by_cases hseen : seen = .epoch
    · simp [hsigned, hseen]
    · simp [hsigned, hseen]
  · simp [hsigned]

/-- When the ends of the window are representable, a validation is current exactly if it lies in it,
whenever it says that it was signed and wherever the window begins. -/
theorem isCurrent_eq (hwall : (now.later? timing.wall).isSome)
    (hsight : (now.later? timing.sight).isSome) (signed seen : Time) :
    timing.isCurrent now signed seen = .ok (decide (timing.InWindow now signed seen)) := by
  rw [isCurrent, isDue_eq hwall hsight]
  have hrecent : timing.isRecent now signed = true ↔ now.ns - timing.early.ns < signed.ns := by
    rw [isRecent_iff]
    omega
  by_cases hearly : now.ns - timing.early.ns < signed.ns
  · rw [if_pos (hrecent.mpr hearly)]
    simp only [InWindow, hearly, true_and]
  · rw [if_neg (mt hrecent.mp hearly)]
    simp [InWindow, hearly]

/-- More than the expiry lies between two times. -/
def Expired (timing : Timing) (since now : Time) : Prop :=
  since.ns + timing.expiry.ns < now.ns

theorem Expired.later {since now' : Time} (h : timing.Expired since now) (hle : now ≤ now') :
    timing.Expired since now' := Int.lt_of_lt_of_le h hle

end Timing

/-! ## Guards -/

namespace SequenceGuard

variable {timing : Timing} {now now' since : Time} {seq s : Nat} {g g' : SequenceGuard} {b : Bool}

theorem advance_cases (g : SequenceGuard) (timing : Timing) (now : Time) (seq : Nat) :
    (∃ answer, g.advance timing now seq = .ok answer) ∨
      g.advance timing now seq = .error .timeOverflow := by
  unfold advance
  rcases g.since.add_cases timing.expiry with ⟨limit, hlimit⟩ | hfault
  · exact Or.inl ⟨_, by rw [hlimit]; rfl⟩
  · exact Or.inr (by simp only [hfault, bind, Except.bind])

/-- What a guard makes of a sequence number: it lets a larger one pass, or any but zero when it has
expired, and no other. What has expired is forgotten after a refusal as well. -/
inductive Advanced (timing : Timing) (now : Time) (seq : Nat) (g : SequenceGuard) :
    Bool → SequenceGuard → Prop
  | passed (h : timing.Expired g.since now ∧ 0 < seq ∨ g.largest < seq) :
    Advanced timing now seq g true ⟨seq, now⟩
  | held (h : ¬ timing.Expired g.since now) (hle : seq ≤ g.largest) :
    Advanced timing now seq g false g
  | forgot (h : timing.Expired g.since now) (hzero : seq = 0) :
    Advanced timing now seq g false { g with largest := 0 }

theorem advance_spec (h : g.advance timing now seq = .ok (b, g')) :
    Advanced timing now seq g b g' := by
  unfold advance at h
  rcases g.since.add_cases timing.expiry with ⟨limit, hlimit⟩ | hfault
  · have hns := Time.add_eq_ok.mp hlimit
    have hexpired : limit < now ↔ timing.Expired g.since now := by
      rw [Time.lt_iff, hns, Timing.Expired]
    simp only [hlimit, bind, Except.bind, Except.ok.injEq] at h
    by_cases hlapsed : timing.Expired g.since now
    · rw [if_pos (hexpired.mpr hlapsed)] at h
      by_cases hseq : 0 < seq
      · rw [if_pos hseq] at h
        cases h
        exact .passed (Or.inl ⟨hlapsed, hseq⟩)
      · rw [if_neg hseq] at h
        cases h
        exact .forgot hlapsed (Nat.eq_zero_of_not_pos hseq)
    · rw [if_neg (mt hexpired.mp hlapsed)] at h
      by_cases hseq : g.largest < seq
      · rw [if_pos hseq] at h
        cases h
        exact .passed (Or.inr hseq)
      · rw [if_neg hseq] at h
        cases h
        exact .held hlapsed (Nat.le_of_not_lt hseq)
  · simp only [hfault, bind, Except.bind] at h
    cases h

theorem advance_error {fault : Fault} (h : g.advance timing now seq = .error fault) :
    g.since.add timing.expiry = .error fault := by
  unfold advance at h
  cases hlimit : g.since.add timing.expiry with
  | ok limit =>
    rw [hlimit] at h
    cases h
  | error fault' =>
    rw [hlimit] at h
    cases h
    rfl

theorem Advanced.since_le (h : Advanced timing now seq g b g') (hle : g.since ≤ now) :
    g'.since ≤ now := by
  cases h with
  | passed => exact Int.le_refl _
  | held => exact hle
  | forgot => exact hle

/-- A guard that let a sequence number pass at a time holds it back now, and all smaller ones, unless
it has expired since. -/
def Bars (timing : Timing) (seq : Nat) (since now : Time) (g : SequenceGuard) : Prop :=
  timing.Expired since now ∨ since ≤ g.since ∧ seq ≤ g.largest

theorem Bars.later (h : Bars timing seq since now g) (hle : now ≤ now') :
    Bars timing seq since now' g := h.imp_left fun hexpired => hexpired.later hle

theorem Advanced.bars (h : Advanced timing now seq g true g') : Bars timing seq now now g' := by
  cases h
  exact Or.inr ⟨Int.le_refl _, Nat.le_refl _⟩

/-- What passes is larger, and after it both are held back. -/
theorem Bars.advance (h : Bars timing seq since now g) (hsince : since ≤ now)
    (hadvanced : Advanced timing now s g b g') :
    Bars timing seq since now g' ∧ (b = true → timing.Expired since now ∨ seq < s) := by
  by_cases hexpired : timing.Expired since now
  · exact ⟨Or.inl hexpired, fun _ => Or.inl hexpired⟩
  · obtain ⟨hle, hseq⟩ := h.resolve_left hexpired
    -- what the guard has seen last is no older, so it has not expired either
    have hfresh : ¬ timing.Expired g.since now := by
      rw [Timing.Expired] at hexpired ⊢
      rw [Time.le_iff] at hle
      omega
    cases hadvanced with
    | passed hpassed =>
      have hlt := hpassed.resolve_left fun h => hfresh h.1
      have hrises : seq < s := Nat.lt_of_le_of_lt hseq hlt
      exact ⟨Or.inr ⟨hsince, Nat.le_of_lt hrises⟩, fun _ => Or.inr hrises⟩
    | held => exact ⟨Or.inr ⟨hle, hseq⟩, fun hfalse => by cases hfalse⟩
    | forgot hlapsed => exact absurd hlapsed hfresh

end SequenceGuard

end ForkChoice

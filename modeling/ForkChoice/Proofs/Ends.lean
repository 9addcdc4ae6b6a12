import ForkChoice.Loop
import Mathlib.Tactic.Basic

/-!
# How computations end

What is known of a computation is mostly that it comes to an end, that its result has a property,
and that only certain faults can occur in place of a result.

* `Ends`: a computation ends so.
* `Gives`: what holds of the result, if there is one.
* `yields`: whether the result of a computation passes a test.
* `Ends.bind`, `Ends.map`, `Ends.foldlM`: one computation after another.
* `Spared`: faults that do not occur.
* `EndAlike`: two computations end alike.
* `Follows`: each result of one computation goes with a result of another one.
-/

namespace ForkChoice

variable {α β σ : Type} {E E' : Fault → Prop} {P : α → Prop} {Q : β → Prop}

/-- A computation comes to an end, with a result that has a property or with a fault that may
occur. -/
def Ends (E : Fault → Prop) (x : Computation α) (P : α → Prop) : Prop :=
  (∃ v, x = pure v ∧ P v) ∨ ∃ fault, x = throw fault ∧ E fault

theorem pure_ne_throw (v : α) (fault : Fault) : (pure v : Computation α) ≠ throw fault := by
  intro h
  cases Option.some.inj h

theorem pure_inj {v w : α} (h : (pure v : Computation α) = pure w) : v = w :=
  Except.ok.inj (Option.some.inj h)

theorem throw_inj {fault fault' : Fault}
    (h : (throw fault : Computation α) = throw fault') : fault = fault' :=
  Except.error.inj (Option.some.inj h)

/-- Whether a computation has a result that passes a test. -/
def yields (x : Computation α) (test : α → Bool) : Bool :=
  match x.run with
  | some (.ok v) => test v
  | _ => false

theorem exists_of_yields {x : Computation α} {test : α → Bool} (h : yields x test = true) :
    ∃ v, x = pure v ∧ test v = true := by
  unfold yields at h
  split at h
  · rename_i v hv
    exact ⟨v, hv, h⟩
  · cases h

namespace Ends

theorem pure {v : α} (h : P v) : Ends E (Pure.pure v) P := Or.inl ⟨v, rfl, h⟩

theorem throw {fault : Fault} (h : E fault) : Ends E (MonadExcept.throw fault) P :=
  Or.inr ⟨fault, rfl, h⟩

theorem result {x : Computation α} {v : α} (h : Ends E x P) (hx : x = Pure.pure v) : P v := by
  subst hx
  rcases h with ⟨w, hw, hP⟩ | ⟨fault, hfault, -⟩
  · exact pure_inj hw ▸ hP
  · exact absurd hfault (pure_ne_throw v fault)

/-- The result, if there is one, is the result of this computation. -/
theorem self {x : Computation α} (h : Ends E x P) : Ends E x fun v => x = Pure.pure v ∧ P v := by
  rcases h with ⟨v, rfl, hv⟩ | ⟨fault, rfl, hfault⟩
  · exact pure ⟨rfl, hv⟩
  · exact throw hfault

theorem mono {x : Computation α} {P' : α → Prop} (h : Ends E x P) (hE : ∀ f, E f → E' f)
    (hP : ∀ v, P v → P' v) : Ends E' x P' := by
  rcases h with ⟨v, hx, hv⟩ | ⟨fault, hx, hfault⟩
  · exact Or.inl ⟨v, hx, hP v hv⟩
  · exact Or.inr ⟨fault, hx, hE fault hfault⟩

theorem imp {x : Computation α} {P' : α → Prop} (h : Ends E x P) (hP : ∀ v, P v → P' v) :
    Ends E x P' := h.mono (fun _ => id) hP

theorem bind {x : Computation α} {f : α → Computation β} (hx : Ends E x P)
    (hf : ∀ v, P v → Ends E (f v) Q) : Ends E (x >>= f) Q := by
  rcases hx with ⟨v, rfl, hv⟩ | ⟨fault, rfl, hfault⟩
  · rw [pure_bind]
    exact hf v hv
  · exact Or.inr ⟨fault, rfl, hfault⟩

theorem map {x : Computation α} {f : α → β} (hx : Ends E x P) (hf : ∀ v, P v → Q (f v)) :
    Ends E (f <$> x) Q := by
  rw [map_eq_pure_bind]
  exact hx.bind fun v hv => pure (hf v hv)

theorem liftM {x : Except Fault α} (hok : ∀ v, x = .ok v → P v)
    (herror : ∀ fault, x = .error fault → E fault) : Ends E (MonadLiftT.monadLift x) P := by
  cases x with
  | ok v => exact Or.inl ⟨v, rfl, hok v rfl⟩
  | error fault => exact Or.inr ⟨fault, rfl, herror fault rfl⟩

/-- A property of the elements that are still to come and of the state goes along a list. -/
theorem foldlM {f : σ → α → Computation σ} {I : List α → σ → Prop} {xs : List α} {s : σ}
    (hs : I xs s) (hf : ∀ x rest s, I (x :: rest) s → Ends E (f s x) (I rest)) :
    Ends E (xs.foldlM f s) (I []) := by
  induction xs generalizing s with
  | nil => exact pure hs
  | cons x rest ih =>
    rw [List.foldlM_cons]
    exact (hf x rest s hs).bind fun s' hs' => ih hs'

end Ends

/-! ## Results alone -/

/-- Every result of a computation has a property. Of one that fails or never ends nothing is said. -/
def Gives (x : Computation α) (P : α → Prop) : Prop := ∀ v, x = pure v → P v

namespace Gives

theorem pure {v : α} (h : P v) : Gives (Pure.pure v) P := fun _ hw => pure_inj hw ▸ h

theorem throw (fault : Fault) : Gives (MonadExcept.throw fault) P :=
  fun v hv => absurd hv.symm (pure_ne_throw v fault)

theorem imp {x : Computation α} {P' : α → Prop} (h : Gives x P) (hP : ∀ v, P v → P' v) :
    Gives x P' := fun v hv => hP v (h v hv)

theorem trivial (x : Computation α) : Gives x fun _ => True := fun _ _ => True.intro

theorem bind {x : Computation α} {f : α → Computation β} (hx : Gives x P)
    (hf : ∀ v, P v → Gives (f v) Q) : Gives (x >>= f) Q := by
  intro w hw
  -- a result of the whole is one of the second part, after one of the first
  match hrun : x.run with
  | none =>
    obtain rfl : x = ExceptT.mk none := hrun
    cases hw
  | some (.error fault) =>
    obtain rfl : x = MonadExcept.throw fault := hrun
    exact absurd hw.symm (pure_ne_throw w fault)
  | some (.ok v) =>
    obtain rfl : x = Pure.pure v := hrun
    exact hf v (hx v rfl) w (by rwa [pure_bind] at hw)

theorem map {x : Computation α} {f : α → β} (hx : Gives x P) (hf : ∀ v, P v → Q (f v)) :
    Gives (f <$> x) Q := by
  rw [map_eq_pure_bind]
  exact hx.bind fun v hv => pure (hf v hv)

theorem liftM {x : Except Fault α} (h : ∀ v, x = .ok v → P v) :
    Gives (MonadLiftT.monadLift x) P := by
  cases x with
  | ok v => exact pure (h v rfl)
  | error fault => exact throw fault

/-- A property of the elements that are still to come and of the state goes along a list. -/
theorem foldlM {f : σ → α → Computation σ} {I : List α → σ → Prop} {xs : List α} {s : σ}
    (hs : I xs s) (hf : ∀ x rest s, I (x :: rest) s → Gives (f s x) (I rest)) :
    Gives (xs.foldlM f s) (I []) := by
  induction xs generalizing s with
  | nil => exact pure hs
  | cons x rest ih =>
    rw [List.foldlM_cons]
    exact (hf x rest s hs).bind fun s' hs' => ih hs'

end Gives

/-! ## Faults that do not occur -/

/-- A computation does not end with any of these faults. Whether it ends at all is not said. -/
def Spared (F : Fault → Prop) (x : Computation α) : Prop := ∀ fault, F fault → x ≠ throw fault

namespace Spared

variable {F : Fault → Prop}

theorem pure (v : α) : Spared F (Pure.pure v) := fun fault _ => pure_ne_throw v fault

theorem of_ends {x : Computation α} (h : Ends E x P) (hE : ∀ fault, F fault → ¬ E fault) :
    Spared F x := by
  intro fault hF hx
  rcases h with ⟨v, hv, -⟩ | ⟨fault', hfault, hE'⟩
  · exact pure_ne_throw v fault (hv.symm.trans hx)
  · obtain rfl := throw_inj (hfault.symm.trans hx)
    exact hE _ hF hE'

theorem liftM {x : Except Fault α} (h : ∀ fault, F fault → x ≠ .error fault) :
    Spared F (MonadLiftT.monadLift x) := by
  cases x with
  | ok v => exact pure v
  | error fault' =>
    intro fault hF hx
    obtain rfl := throw_inj hx
    exact h _ hF rfl

theorem bind {x : Computation α} {f : α → Computation β} (hx : Spared F x)
    (hf : ∀ v, x = Pure.pure v → Spared F (f v)) : Spared F (x >>= f) := by
  intro fault hF hw
  -- a fault of the whole is one of the first part, or of the second after a result of the first
  match hrun : x.run with
  | none =>
    obtain rfl : x = ExceptT.mk none := hrun
    cases hw
  | some (.error fault') =>
    obtain rfl : x = MonadExcept.throw fault' := hrun
    have hfault : (MonadExcept.throw fault' : Computation β) = MonadExcept.throw fault := hw
    obtain rfl := throw_inj hfault
    exact hx _ hF rfl
  | some (.ok v) =>
    obtain rfl : x = Pure.pure v := hrun
    exact hf v rfl fault hF (by rwa [pure_bind] at hw)

theorem map {x : Computation α} (hx : Spared F x) (f : α → β) : Spared F (f <$> x) := by
  rw [map_eq_pure_bind]
  exact hx.bind fun v _ => pure (f v)

end Spared

/-- What is spared some faults ends without them. -/
theorem Ends.spared {F : Fault → Prop} {x : Computation α} (h : Ends E x P) (hx : Spared F x) :
    Ends (fun fault => E fault ∧ ¬ F fault) x P := by
  rcases h with ⟨v, rfl, hv⟩ | ⟨fault, rfl, hE⟩
  · exact pure hv
  · exact throw ⟨hE, fun hF => hx fault hF rfl⟩

/-! ## Two computations -/

/-- Two computations come to an end alike: with results that are related, or with the same fault. -/
def EndAlike (x : Computation α) (y : Computation β) (R : α → β → Prop) : Prop :=
  (∃ v w, x = pure v ∧ y = pure w ∧ R v w) ∨ ∃ fault, x = throw fault ∧ y = throw fault

namespace EndAlike

variable {γ δ τ : Type} {x : Computation α} {y : Computation β} {R : α → β → Prop}
  {S : γ → δ → Prop}

theorem pure {v : α} {w : β} (h : R v w) : EndAlike (Pure.pure v) (Pure.pure w) R :=
  Or.inl ⟨v, w, rfl, rfl, h⟩

theorem throw (fault : Fault) :
    EndAlike (MonadExcept.throw fault) (MonadExcept.throw fault) R :=
  Or.inr ⟨fault, rfl, rfl⟩

theorem liftM_self (x : Except Fault α) :
    EndAlike (MonadLiftT.monadLift x) (MonadLiftT.monadLift x) fun v w => v = w := by
  cases x with
  | ok v => exact pure rfl
  | error fault => exact throw fault

theorem bind {f : α → Computation γ} {g : β → Computation δ} (hxy : EndAlike x y R)
    (hfg : ∀ v w, R v w → EndAlike (f v) (g w) S) : EndAlike (x >>= f) (y >>= g) S := by
  rcases hxy with ⟨v, w, rfl, rfl, hR⟩ | ⟨fault, rfl, rfl⟩
  · rw [pure_bind, pure_bind]
    exact hfg v w hR
  · exact Or.inr ⟨fault, rfl, rfl⟩

theorem map {f : α → γ} {g : β → δ} (hxy : EndAlike x y R) (hfg : ∀ v w, R v w → S (f v) (g w)) :
    EndAlike (f <$> x) (g <$> y) S := by
  rw [map_eq_pure_bind, map_eq_pure_bind]
  exact hxy.bind fun v w h => pure (hfg v w h)

/-- What relates two states goes along a list. -/
theorem foldlM {ι : Type} {f : α → ι → Computation α} {g : β → ι → Computation β} {xs : List ι}
    {v : α} {w : β} (h : R v w)
    (hfg : ∀ i ∈ xs, ∀ v w, R v w → EndAlike (f v i) (g w i) R) :
    EndAlike (xs.foldlM f v) (xs.foldlM g w) R := by
  induction xs generalizing v w with
  | nil => exact pure h
  | cons i rest ih =>
    rw [List.foldlM_cons, List.foldlM_cons]
    exact (hfg i List.mem_cons_self v w h).bind fun v' w' h' =>
      ih h' fun j hj => hfg j (List.mem_cons_of_mem _ hj)

/-- The result of the one computation is known when that of the other is. -/
theorem result {w : β} (hxy : EndAlike x y R) (hy : y = Pure.pure w) :
    ∃ v, x = Pure.pure v ∧ R v w := by
  rcases hxy with ⟨v, w', hx, hw', hR⟩ | ⟨fault, -, hfault⟩
  · exact ⟨v, hx, pure_inj (hw'.symm.trans hy) ▸ hR⟩
  · exact absurd (hy.symm.trans hfault) (pure_ne_throw w fault)

end EndAlike

/-- If the one computation has a result, so has the other, and the results are related. Of one that fails
or never ends nothing is said. -/
def Follows (x : Computation α) (y : Computation β) (R : α → β → Prop) : Prop :=
  Gives x fun v => ∃ w, y = pure w ∧ R v w

namespace Follows

variable {γ δ : Type} {x : Computation α} {y : Computation β} {R : α → β → Prop}
  {S : γ → δ → Prop}

theorem pure {v : α} {w : β} (h : R v w) : Follows (Pure.pure v) (Pure.pure w) R :=
  Gives.pure ⟨w, rfl, h⟩

theorem bind {f : α → Computation γ} {g : β → Computation δ} (hxy : Follows x y R)
    (hfg : ∀ v w, R v w → Follows (f v) (g w) S) : Follows (x >>= f) (y >>= g) S := by
  refine Gives.bind hxy ?_
  rintro v ⟨w, rfl, hR⟩
  rw [pure_bind]
  exact hfg v w hR

theorem map {f : α → γ} {g : β → δ} (hxy : Follows x y R) (hfg : ∀ v w, R v w → S (f v) (g w)) :
    Follows (f <$> x) (g <$> y) S := by
  rw [map_eq_pure_bind, map_eq_pure_bind]
  exact hxy.bind fun v w h => pure (hfg v w h)

/-- A computation goes with itself in another form. -/
theorem map_self {x : Computation α} {P : α → Prop} {f : α → β} (hx : Gives x P)
    (h : ∀ v, P v → R v (f v)) : Follows x (f <$> x) R :=
  fun v hv => ⟨f v, by rw [hv, map_pure], h v (hx v hv)⟩

theorem refl (x : Computation α) : Follows x x fun v w => v = w := fun v hv => ⟨v, hv, rfl⟩

theorem liftM {x : Except Fault α} {y : Except Fault β} (h : ∀ v, x = .ok v → ∃ w, y = .ok w ∧ R v w) :
    Follows (MonadLiftT.monadLift x) (MonadLiftT.monadLift y) R :=
  Gives.liftM fun v hv =>
    have ⟨w, hw, hR⟩ := h v hv
    ⟨w, by rw [hw]; rfl, hR⟩

/-- What relates two states goes along a list and along the part of it that matters, if the rest
changes the one state alone. -/
theorem foldlM_filter {ι : Type} {f : α → ι → Computation α} {g : β → ι → Computation β}
    {p : ι → Bool} {xs : List ι} {v : α} {w : β} (h : R v w)
    (hin : ∀ i ∈ xs, p i = true → ∀ v w, R v w → Follows (f v i) (g w i) R)
    (hout : ∀ i ∈ xs, p i = false → ∀ v w, R v w → Gives (f v i) fun v' => R v' w) :
    Follows (xs.foldlM f v) ((xs.filter p).foldlM g w) R := by
  induction xs generalizing v w with
  | nil => exact pure h
  | cons i rest ih =>
    have hrest {v : α} {w : β} (h : R v w) :=
      ih h (fun j hj => hin j (List.mem_cons_of_mem _ hj))
        (fun j hj => hout j (List.mem_cons_of_mem _ hj))
    rw [List.foldlM_cons, List.filter_cons]
    cases hp : p i with
    | true =>
      rw [if_pos rfl, List.foldlM_cons]
      exact (hin i List.mem_cons_self hp v w h).bind fun _ _ h => hrest h
    | false =>
      rw [if_neg Bool.false_ne_true]
      exact (hout i List.mem_cons_self hp v w h).bind fun _ h => hrest h

end Follows

end ForkChoice

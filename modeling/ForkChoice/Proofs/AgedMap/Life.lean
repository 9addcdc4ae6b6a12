import ForkChoice.Proofs.AgedMap
import Mathlib.Data.List.Basic
import Mathlib.Data.List.Induction

/-!
# Lives of entries

A map is used over some time: entries are made, read, changed, touched and swept. How long an entry
lives is decided by the sweeps and by the moments at which it was made or touched, and by nothing
else that is done with the map meanwhile.

* `AgedMap.Call`, `AgedMap.after`: what can be done with a map, and what a history of it leaves.
* `AgedMap.Call.Renews`: the calls that make an entry or touch it.
* `AgedMap.touched?_apply`: the age of a key after a call depends on its age before, not on the map.
* `AgedMap.LatestRenewal`: the last moment at which an entry was made or touched.
* `AgedMap.aging`: what a sweep removes, and what has no part in it.
-/

namespace ForkChoice.AgedMap

variable {κ α : Type} [Ord κ] [Std.TransOrd κ]

/-- What can be done with a map. -/
inductive Call (κ α : Type) where
  /-- Changes a value, of an entry that is made if the key has none. -/
  | update (k : κ) (f : α → α)
  | read (k : κ)
  | list
  | updateAll (f : κ → α → α)
  | touch (k : κ)
  | expire (age : Duration)

/-- What a call leaves of a map. New entries start with the initial value. -/
def Call.apply (initial : α) (now : Time) (m : AgedMap κ α) : Call κ α → AgedMap κ α
  | update k f => m.put now k initial f
  | read _ => m
  | list => m
  | updateAll f => m.mapAll f
  | touch k => m.touch now k
  | expire age => (m.expire now age).2

/-- Carries out calls, each at its time. -/
def applyAll (initial : α) (m : AgedMap κ α) (calls : List (Time × Call κ α)) : AgedMap κ α :=
  calls.foldl (fun m e => e.2.apply initial e.1 m) m

/-- What a history of calls leaves of a map that is empty at first. -/
def after (initial : α) (history : List (Time × Call κ α)) : AgedMap κ α :=
  applyAll initial .empty history

section Calls

omit [Ord κ] [Std.TransOrd κ]

/-- A call makes the entry of a key, or touches it; `since` is the age that it has before. -/
def Call.Renews (k : κ) (since : Option Time) : Call κ α → Prop
  | update k' _ => k' = k ∧ since = none
  | touch k' => k' = k ∧ since ≠ none
  | read _ | list | updateAll _ | expire _ => False

variable [DecidableEq κ] {k : κ} {now t : Time} {since : Option Time} {c : Call κ α}

/-- What a call makes of the age of a key. -/
def Call.age (now : Time) (k : κ) (since : Option Time) : Call κ α → Option Time
  | update k' _ => if k' = k then some (since.getD now) else since
  | touch k' => if k' = k then since.map fun _ => now else since
  | expire age => since.filter fun t => now.ns - age.ns < t.ns
  | read _ | list | updateAll _ => since

theorem Call.age_of_renews (h : c.Renews k since) : c.age now k since = some now := by
  cases c with
  | update k' f =>
    obtain ⟨hk, hnone⟩ := h
    rw [age, if_pos hk, hnone, Option.getD_none]
  | touch k' =>
    obtain ⟨hk, hsome⟩ := h
    obtain ⟨t, rfl⟩ := Option.ne_none_iff_exists'.mp hsome
    rw [age, if_pos hk, Option.map_some]
  | _ => cases h

/-- A call that does not renew an entry leaves its age alone, unless it is a sweep. -/
theorem Call.age_of_not_renews (h : ¬ c.Renews k since) (hsweep : ∀ d, c ≠ .expire d) :
    c.age now k since = since := by
  cases c with
  | update k' f =>
    rw [age]
    split
    · rename_i hk
      obtain ⟨t, rfl⟩ := Option.ne_none_iff_exists'.mp fun hnone => h ⟨hk, hnone⟩
      rfl
    · rfl
  | touch k' =>
    rw [age]
    split
    · rename_i hk
      rw [Classical.not_not.mp fun hsome => h ⟨hk, hsome⟩]
      rfl
    · rfl
  | expire d => exact absurd rfl (hsweep d)
  | _ => rfl

/-- An entry that is there after a call is renewed by it, or is as old as before. -/
theorem Call.age_cases (h : c.age now k since = some t) :
    c.Renews k since ∧ t = now ∨ ¬ c.Renews k since ∧ since = some t := by
  by_cases hrenews : c.Renews k since
  · rw [age_of_renews hrenews] at h
    exact Or.inl ⟨hrenews, (Option.some.inj h).symm⟩
  · refine Or.inr ⟨hrenews, ?_⟩
    by_cases hsweep : ∃ d, c = .expire d
    · obtain ⟨d, rfl⟩ := hsweep
      exact (Option.filter_eq_some_iff.mp h).1
    · rw [age_of_not_renews hrenews fun d hd => hsweep ⟨d, hd⟩] at h
      exact h

end Calls

variable [Std.LawfulEqOrd κ] [DecidableEq κ] {m m' : AgedMap κ α} {k : κ} {now since u : Time}
  {x initial : α} {age : Duration} {c : Call κ α} {calls history : List (Time × Call κ α)}

/-! ## One call -/

omit [DecidableEq κ] in
theorem touched?_fresh (m : AgedMap κ α) (now : Time) (age : Duration) (k : κ) :
    (m.fresh now age).touched? k =
      (m.touched? k).filter fun t => now.ns - age.ns < t.ns := by
  rw [touched?, touched?, getElem?_fresh]
  cases m.entries[k]? with
  | none => rfl
  | some e =>
    rw [Option.map_some, Option.filter_some, Option.filter_some]
    split <;> rfl

/-- What a call makes of the age of a key depends on its age alone. -/
theorem touched?_apply (initial : α) (now : Time) (m : AgedMap κ α) (k : κ) (c : Call κ α) :
    (c.apply initial now m).touched? k = c.age now k (m.touched? k) := by
  cases c with
  | update k' f =>
    rw [Call.apply, Call.age, touched?_put]
    by_cases hk : k' = k
    · rw [if_pos hk, if_pos hk, hk]
    · rw [if_neg hk, if_neg hk]
  | updateAll f => exact touched?_mapAll f
  | touch k' => exact touched?_touch m now k' k
  | expire age => exact touched?_fresh m now age k
  | _ => rfl

/-! ## A history of calls -/

omit [Std.LawfulEqOrd κ] [DecidableEq κ] in
theorem after_concat (initial : α) (history : List (Time × Call κ α)) (now : Time)
    (c : Call κ α) : after initial (history ++ [(now, c)]) =
      c.apply initial now (after initial history) := by
  rw [after, applyAll, List.foldl_append]
  rfl

omit [Std.LawfulEqOrd κ] [DecidableEq κ] in
theorem after_append (initial : α) (before later : List (Time × Call κ α)) :
    after initial (before ++ later) = applyAll initial (after initial before) later := by
  rw [after, applyAll, List.foldl_append]
  rfl

/-- What becomes of the age of a key depends on its age alone. -/
theorem touched?_applyAll (h : m.touched? k = m'.touched? k) :
    (applyAll initial m calls).touched? k = (applyAll initial m' calls).touched? k := by
  induction calls generalizing m m' with
  | nil => exact h
  | cons e rest ih =>
    apply ih
    rw [touched?_apply, touched?_apply, h]

omit [Std.LawfulEqOrd κ] [DecidableEq κ] in
/-- The entry of a key was made or touched at a moment of a history. -/
def RenewedAt (initial : α) (history : List (Time × Call κ α)) (k : κ) (t : Time) : Prop :=
  ∃ before c later, history = before ++ (t, c) :: later ∧
    c.Renews k ((after initial before).touched? k)

/-- The last moment of a history at which the entry of a key was made or touched. -/
structure LatestRenewal (initial : α) (history : List (Time × Call κ α)) (k : κ) (t : Time) :
    Prop where
  renewed : RenewedAt initial history k t
  latest : ∀ u, RenewedAt initial history k u → u ≤ t

section Renewals

omit [Std.LawfulEqOrd κ] [DecidableEq κ]

theorem RenewedAt.exists_mem (h : RenewedAt initial history k u) : ∃ e ∈ history, e.1 = u := by
  obtain ⟨before, c, later, rfl, -⟩ := h
  exact ⟨(u, c), by simp, rfl⟩

theorem renewedAt_concat : RenewedAt initial (history ++ [(now, c)]) k u ↔
    RenewedAt initial history k u ∨
      u = now ∧ c.Renews k ((after initial history).touched? k) := by
  constructor
  · rintro ⟨before, d, later, hsplit, hrenews⟩
    rcases List.eq_nil_or_concat later with rfl | ⟨rest, e, rfl⟩
    · obtain ⟨rfl, hlast⟩ := List.append_inj' hsplit rfl
      cases hlast
      exact Or.inr ⟨rfl, hrenews⟩
    · rw [List.concat_eq_append, ← List.cons_append, ← List.append_assoc] at hsplit
      obtain ⟨rfl, -⟩ := List.append_inj' hsplit rfl
      exact Or.inl ⟨before, d, rest, rfl, hrenews⟩
  · rintro (⟨before, d, later, rfl, hrenews⟩ | ⟨rfl, hrenews⟩)
    · exact ⟨before, d, later ++ [(now, c)], by simp, hrenews⟩
    · exact ⟨history, c, [], rfl, hrenews⟩

end Renewals

/-- The clock of a history does not go back. -/
def Timely (history : List (Time × Call κ α)) : Prop := history.Pairwise fun e e' => e.1 ≤ e'.1

/-- An entry that is there is as old as the last moment at which it was made or touched. -/
theorem latestRenewal_of_touched? (hclock : Timely history)
    (h : (after initial history).touched? k = some since) :
    LatestRenewal initial history k since := by
  induction history using List.reverseRecOn generalizing since with
  | nil => cases h
  | append_singleton history e ih =>
    obtain ⟨now, c⟩ := e
    obtain ⟨hbefore, -, hlast⟩ := List.pairwise_append.mp hclock
    rw [after_concat, touched?_apply] at h
    rcases Call.age_cases h with ⟨hrenews, rfl⟩ | ⟨hkept, hold⟩
    · refine ⟨renewedAt_concat.mpr (Or.inr ⟨rfl, hrenews⟩), fun u hu => ?_⟩
      rcases renewedAt_concat.mp hu with hu | ⟨rfl, -⟩
      · obtain ⟨e, he, rfl⟩ := hu.exists_mem
        exact hlast e he (since, c) List.mem_cons_self
      · exact Int.le_refl _
    · have hlatest := ih hbefore hold
      refine ⟨renewedAt_concat.mpr (Or.inl hlatest.renewed), fun u hu => ?_⟩
      rcases renewedAt_concat.mp hu with hu | ⟨-, hrenews⟩
      · exact hlatest.latest u hu
      · exact absurd hrenews hkept

/-! ## Sweeps -/

section Sweeps

omit [DecidableEq κ]

/-- A sweep removes an entry exactly if it is at least so old, and that none is when the time so
long ago is not representable. -/
theorem expire_removes_iff (h : m.touched? k = some since) :
    (m.expire now age).2.get? k = none ↔ since.ns ≤ now.ns - age.ns := by
  constructor
  · intro hnone
    by_contra hyoung
    obtain ⟨x, hx⟩ := exists_get? h
    rw [expire, (fresh_of_lt h (by omega)).1, hx] at hnone
    cases hnone
  · intro hold
    exact fresh_of_le h (by omega)

theorem expire_keeps (h : (m.expire now age).2.get? k ≠ none) :
    (m.expire now age).2.entries[k]? = m.entries[k]? := by
  obtain ⟨x, hx⟩ := Option.ne_none_iff_exists'.mp h
  obtain ⟨e, he, -⟩ := Option.map_eq_some_iff.mp hx
  have hbefore := he
  rw [expire, getElem?_fresh, Option.filter_eq_some_iff] at hbefore
  exact he.trans hbefore.1.symm

theorem mem_keys_iff : k ∈ m.keys ↔ (m.get? k).isSome := by
  rw [keys, Std.ExtTreeMap.mem_keys, Std.ExtTreeMap.mem_iff_isSome_getElem?, get?,
    Option.isSome_map]

omit [Std.LawfulEqOrd κ] in
theorem nodup_keys (m : AgedMap κ α) : m.keys.Nodup := Std.ExtTreeMap.nodup_keys

/-- A sweep tells how many entries it removes. -/
theorem expire_count (m : AgedMap κ α) (now : Time) (age : Duration) : (m.expire now age).1 =
    (m.keys.filter fun k => ((m.expire now age).2.get? k).isNone).length := by
  have hleft : (m.fresh now age).keys.Perm
      (m.keys.filter fun k => !((m.fresh now age).get? k).isNone) := by
    refine (List.perm_ext_iff_of_nodup (nodup_keys _) ((nodup_keys m).filter _)).mpr fun k => ?_
    rw [List.mem_filter, mem_keys_iff, mem_keys_iff, Option.not_isNone]
    refine ⟨fun hk => ⟨?_, hk⟩, And.right⟩
    obtain ⟨x, hx⟩ := Option.isSome_iff_exists.mp hk
    rw [get?_of_fresh hx]
    rfl
  have hlength : (m.fresh now age).size = _ :=
    Std.ExtTreeMap.length_keys.symm.trans hleft.length_eq
  have hall : m.size = _ := Std.ExtTreeMap.length_keys.symm.trans
    (List.length_eq_length_filter_add fun k => ((m.fresh now age).get? k).isNone)
  rw [expire, hlength, hall]
  exact Nat.add_sub_cancel _ _

end Sweeps

/-- A call that neither renews an entry nor sweeps might as well not have been made, as far as the
age of the entry goes. -/
theorem touched?_without (before later : List (Time × Call κ α))
    (h : ¬ c.Renews k ((after initial before).touched? k)) (hsweep : ∀ d, c ≠ .expire d) :
    (after initial (before ++ (now, c) :: later)).touched? k =
      (after initial (before ++ later)).touched? k := by
  rw [after_append, after_append]
  refine touched?_applyAll (m := c.apply initial now (after initial before)) ?_
  rw [touched?_apply, Call.age_of_not_renews h hsweep]

/-- After every history with a clock that does not go back, a sweep removes the entries whose last
making or touch lies back by the age at least, and tells how many; the others stay as they are. A
call that does not make or touch an entry and is not a sweep might as well not have been made, as
far as the age of the entry goes. An update of a key without an entry starts from the initial value
with a new age, and one of a key with an entry changes the value alone. -/
theorem aging (initial : α) (hclock : Timely history) :
    (∀ now age, let swept := (after initial history).expire now age
      (∀ k x, (after initial history).get? k = some x → ∃ since,
        LatestRenewal initial history k since ∧
          (swept.2.get? k = none ↔ since.ns ≤ now.ns - age.ns)) ∧
      (∀ k, swept.2.get? k ≠ none →
        swept.2.entries[k]? = (after initial history).entries[k]?) ∧
      swept.1 = ((after initial history).keys.filter fun k => (swept.2.get? k).isNone).length) ∧
    (∀ before now c later, history = before ++ (now, c) :: later → ∀ k,
      ¬ c.Renews k ((after initial before).touched? k) → (∀ age, c ≠ .expire age) →
      (after initial history).touched? k = (after initial (before ++ later)).touched? k) ∧
    ∀ now k f, let updated := (after initial (history ++ [(now, .update k f)])).entries[k]?
      ((after initial history).get? k = none → updated = some ⟨f initial, now⟩) ∧
      ∀ x since, (after initial history).entries[k]? = some ⟨x, since⟩ →
        updated = some ⟨f x, since⟩ := by
  refine ⟨fun now age => ⟨fun k x hx => ?_, fun k hk => expire_keeps hk,
    expire_count _ now age⟩, ?_, fun now k f => ⟨fun hnone => ?_, fun x since hentry => ?_⟩⟩
  · obtain ⟨since, hsince⟩ := exists_touched? hx
    exact ⟨since, latestRenewal_of_touched? hclock hsince, expire_removes_iff hsince⟩
  · rintro before now c later rfl k hkept hsweep
    exact touched?_without before later hkept hsweep
  · have hnew := Option.map_eq_none_iff.mp hnone
    rw [after_concat, Call.apply, getElem?_put, if_pos rfl, hnone, touched?, hnew]
    rfl
  · rw [after_concat, Call.apply, getElem?_put, if_pos rfl, get?, touched?, hentry]
    rfl

/-- A touch keeps an entry alive, a repeated update does not. -/
theorem aging_touched :
    let five : Time := ⟨5, by decide, by decide⟩
    let nine : Time := ⟨9, by decide, by decide⟩
    let history : List (Time × Call Nat Nat) := [(.epoch, .update 7 (· + 1)),
      (.epoch, .update 8 (· + 1)), (five, .touch 7), (five, .update 8 (· + 1))]
    let swept := (after 0 history).expire nine ⟨6, by decide⟩
    Timely history ∧ swept.1 = 1 ∧
      (∃ since, LatestRenewal 0 history 7 since ∧ 3 < since.ns) ∧
      (∃ since, LatestRenewal 0 history 8 since ∧ since.ns ≤ 3) ∧
      swept.2.entries[7]? = (after 0 history).entries[7]? := by
  intro five nine history swept
  have hclock : Timely history := by
    show history.Pairwise fun e e' => e.1 ≤ e'.1
    decide
  obtain ⟨hages, hkept, hcount⟩ := (aging 0 hclock).1 nine ⟨6, by decide⟩
  have h7 : swept.2.get? 7 = some 1 := by decide +kernel
  have h8 : swept.2.get? 8 = none := by decide +kernel
  refine ⟨hclock, hcount.trans (by decide +kernel), ?_, ?_, hkept 7 (by rw [h7]; simp)⟩
  · obtain ⟨since, hlatest, hiff⟩ := hages 7 1 (by decide +kernel)
    refine ⟨since, hlatest, Int.not_le.mp fun hold => ?_⟩
    rw [hiff.mpr hold] at h7
    cases h7
  · obtain ⟨since, hlatest, hiff⟩ := hages 8 2 (by decide +kernel)
    exact ⟨since, hlatest, hiff.mp h8⟩

end ForkChoice.AgedMap

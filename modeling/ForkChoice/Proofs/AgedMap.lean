import ForkChoice.AgedMap
import ForkChoice.Proofs.Time

/-!
# Maps whose entries age

What an operation does to a map is said key by key, of the value and of the time of last use apart.
Values change without a change of age, and ages without a change of value; only an expiry takes both
away.

* `AgedMap.put`: a value changed, of an entry that is made if there is none.
* `AgedMap.mapAll`: all values changed, each in its own way.
* `AgedMap.get?_put`, `AgedMap.touched?_put` and the like: one law for each operation and view.
* `AgedMap.member?`: a value in a map of maps, with the same laws.
* `AgedMap.fresh_of_lt`, `AgedMap.fresh_of_le`, `AgedMap.fresh_cases`: what an expiry leaves, and
  what it takes.
-/

namespace ForkChoice.AgedMap

variable {κ α : Type} [Ord κ] [Std.TransOrd κ] {m : AgedMap κ α} {k k' : κ} {now since : Time}
  {x : α} {age : Duration}

/-- Changes the value of a key. An entry is made if there is none, and keeps its age if there is. -/
def put (m : AgedMap κ α) (now : Time) (k : κ) (initial : α) (f : α → α) : AgedMap κ α :=
  (m.ensure now k initial).modify k f

/-- Changes all values, each in its own way. -/
def mapAll (m : AgedMap κ α) (f : κ → α → α) : AgedMap κ α :=
  ⟨m.entries.map fun k e => { e with value := f k e.value }⟩

omit [Std.TransOrd κ] in
/-- A change of all values alike, which is all that a register makes, is one of these. -/
theorem map_eq_mapAll (m : AgedMap κ α) (f : α → α) : m.map f = m.mapAll fun _ => f := rfl

variable [Std.LawfulEqOrd κ] [DecidableEq κ]

theorem getElem?_put (m : AgedMap κ α) (now : Time) (k : κ) (initial : α) (f : α → α) (k' : κ) :
    (m.put now k initial f).entries[k']? = if k = k' then
        some ⟨f ((m.get? k).getD initial), (m.touched? k).getD now⟩
      else m.entries[k']? := by
  rw [put, ensure, modify, Std.ExtTreeMap.getElem?_modify, Std.ExtTreeMap.getElem?_insertIfNew,
    Std.ExtTreeMap.getElem?_insertIfNew]
  simp only [Std.ExtTreeMap.mem_iff_isSome_getElem?, Std.compare_eq_iff_eq]
  by_cases hk : k = k'
  · rw [if_pos hk, if_pos hk, get?, touched?]
    cases m.entries[k]? with
    | none => simp
    | some e => simp
  · rw [if_neg hk, if_neg hk, if_neg fun h => hk h.1]

theorem get?_put (m : AgedMap κ α) (now : Time) (k : κ) (initial : α) (f : α → α) (k' : κ) :
    (m.put now k initial f).get? k' =
      if k = k' then some (f ((m.get? k).getD initial)) else m.get? k' := by
  rw [get?, getElem?_put]
  split <;> rfl

theorem touched?_put (m : AgedMap κ α) (now : Time) (k : κ) (initial : α) (f : α → α) (k' : κ) :
    (m.put now k initial f).touched? k' =
      if k = k' then some ((m.touched? k).getD now) else m.touched? k' := by
  rw [touched?, getElem?_put]
  split <;> rfl

/-- Values can be changed in any order, those of one key if the changes can. -/
theorem put_comm (m : AgedMap κ α) (now : Time) (initial : α) {f g : α → α}
    (hfg : k = k' → ∀ x, g (f x) = f (g x)) :
    (m.put now k initial f).put now k' initial g = (m.put now k' initial g).put now k initial f := by
  have hentries : ((m.put now k initial f).put now k' initial g).entries =
      ((m.put now k' initial g).put now k initial f).entries := by
    refine Std.ExtTreeMap.ext_getElem? fun j => ?_
    simp only [getElem?_put, get?_put, touched?_put]
    by_cases hk : k = k'
    · subst hk
      simp only [if_true, Option.getD_some, hfg rfl]
      split <;> rfl
    · rw [if_neg hk, if_neg hk, if_neg (Ne.symm hk), if_neg (Ne.symm hk)]
      by_cases hj : k' = j
      · rw [if_pos hj, if_neg (hj ▸ hk), if_pos hj]
      · rw [if_neg hj, if_neg hj]
  exact congrArg AgedMap.mk hentries

omit [DecidableEq κ] in
theorem get?_mapAll (f : κ → α → α) : (m.mapAll f).get? k = (m.get? k).map (f k) := by
  rw [mapAll, get?, get?, Std.ExtTreeMap.getElem?_map, Option.map_map, Option.map_map]
  rfl

omit [DecidableEq κ] in
theorem touched?_mapAll (f : κ → α → α) : (m.mapAll f).touched? k = m.touched? k := by
  rw [mapAll, touched?, touched?, Std.ExtTreeMap.getElem?_map, Option.map_map]
  rfl

omit [DecidableEq κ] in
theorem get?_map (f : α → α) : (m.map f).get? k = (m.get? k).map f := by
  rw [map_eq_mapAll, get?_mapAll]

omit [DecidableEq κ] in
theorem touched?_map (f : α → α) : (m.map f).touched? k = m.touched? k := by
  rw [map_eq_mapAll, touched?_mapAll]

omit [DecidableEq κ] in
theorem get?_touch : (m.touch now k).get? k' = m.get? k' := by
  simp only [touch, get?, Std.ExtTreeMap.getElem?_modify]
  split
  · rename_i hk
    rw [Std.compare_eq_iff_eq.mp hk, Option.map_map]
    rfl
  · rfl

theorem touched?_touch (m : AgedMap κ α) (now : Time) (k k' : κ) : (m.touch now k).touched? k' =
    if k = k' then (m.touched? k').map fun _ => now else m.touched? k' := by
  simp only [touch, touched?, Std.ExtTreeMap.getElem?_modify, Std.compare_eq_iff_eq]
  split
  · rename_i hk
    rw [hk, Option.map_map, Option.map_map]
    rfl
  · rfl

omit [DecidableEq κ] in
theorem get?_touchAll (ks : List κ) : (m.touchAll now ks).get? k = m.get? k := by
  induction ks generalizing m with
  | nil => rfl
  | cons k' rest ih => exact (ih (m := m.touch now k')).trans get?_touch

/-- An entry is as old as before, or used at this moment. -/
theorem touched?_touchAll (m : AgedMap κ α) (now : Time) (ks : List κ) (k : κ) :
    (m.touchAll now ks).touched? k = m.touched? k ∨
      (m.touchAll now ks).touched? k = (m.touched? k).map fun _ => now := by
  induction ks generalizing m with
  | nil => exact Or.inl rfl
  | cons k' rest ih =>
    have hrest := ih (m.touch now k')
    rw [touched?_touch] at hrest
    by_cases hk : k' = k
    · rw [if_pos hk, Option.map_map] at hrest
      exact Or.inr (hrest.elim id id)
    · rw [if_neg hk] at hrest
      exact hrest

/-- An entry that is touched is used at this moment, if there is one. -/
theorem touched?_touchAll_of_mem {ks : List κ} (hk : k ∈ ks) (m : AgedMap κ α) (now : Time) :
    (m.touchAll now ks).touched? k = (m.touched? k).map fun _ => now := by
  induction ks generalizing m with
  | nil => cases hk
  | cons k' rest ih =>
    show ((m.touch now k').touchAll now rest).touched? k = _
    rcases List.mem_cons.mp hk with rfl | hrest
    · have hnow := touched?_touch m now k k
      rw [if_pos rfl] at hnow
      rcases (m.touch now k).touched?_touchAll now rest k with hsame | htouched
      · rw [hsame, hnow]
      · rw [htouched, hnow, Option.map_map]
        rfl
    · rw [ih hrest, touched?_touch]
      split
      · rw [Option.map_map]
        rfl
      · rfl

/-- An entry that was last used at a time or after it is no older when entries are touched since. -/
theorem exists_later_of_touchAll {time : Time} (ks : List κ) (h : m.touched? k = some since)
    (hsince : time ≤ since) (hnow : time ≤ now) :
    ∃ last, (m.touchAll now ks).touched? k = some last ∧ time ≤ last := by
  rcases m.touched?_touchAll now ks k with hsame | htouched
  · exact ⟨since, hsame.trans h, hsince⟩
  · exact ⟨now, htouched.trans (by rw [h]; rfl), hnow⟩

/-- An entry was last used when it was before, or at this moment. -/
theorem used_of_touchAll {ks : List κ} (h : (m.touchAll now ks).touched? k = some since) :
    since = now ∨ m.touched? k = some since := by
  rcases m.touched?_touchAll now ks k with hsame | htouched
  · exact Or.inr (hsame.symm.trans h)
  · obtain ⟨_, -, hnow⟩ := Option.map_eq_some_iff.mp (htouched.symm.trans h)
    exact Or.inl hnow.symm

/-- An entry that was last used at another moment was not touched. -/
theorem not_mem_of_touchAll {ks : List κ} (h : (m.touchAll now ks).touched? k = some since)
    (hne : since ≠ now) : k ∉ ks ∧ m.touched? k = some since := by
  have hbefore := (used_of_touchAll h).resolve_left hne
  refine ⟨fun hk => hne ?_, hbefore⟩
  rw [touched?_touchAll_of_mem hk, hbefore] at h
  exact (Option.some.inj h).symm

/-- A change of a value leaves the age of an entry alone. -/
theorem touched?_put_of_some {f : α → α} (h : m.touched? k' = some since) :
    (m.put now k x f).touched? k' = some since := by
  rw [touched?_put]
  split
  · rename_i hk
    rw [hk, h]
    rfl
  · exact h

theorem used_of_put {f : α → α} (h : (m.put now k x f).touched? k' = some since) :
    since = now ∨ m.touched? k' = some since := by
  rw [touched?_put] at h
  split at h
  · rename_i hk
    subst hk
    cases hbefore : m.touched? k with
    | none =>
      rw [hbefore] at h
      exact Or.inl (Option.some.inj h).symm
    | some before =>
      rw [hbefore] at h
      exact Or.inr h
  · exact Or.inr h

section Keys

omit [DecidableEq κ]

omit [Std.LawfulEqOrd κ] in
theorem exists_touched? (h : m.get? k = some x) : ∃ since, m.touched? k = some since := by
  obtain ⟨e, he, rfl⟩ := Option.map_eq_some_iff.mp h
  exact ⟨e.touched, by rw [touched?, he]; rfl⟩

omit [Std.LawfulEqOrd κ] in
theorem exists_get? (h : m.touched? k = some since) : ∃ x, m.get? k = some x := by
  obtain ⟨e, he, rfl⟩ := Option.map_eq_some_iff.mp h
  exact ⟨e.value, by rw [get?, he]; rfl⟩

theorem mem_keys_of_touched? (h : m.touched? k = some since) : k ∈ m.keys := by
  obtain ⟨e, he, rfl⟩ := Option.map_eq_some_iff.mp h
  rw [keys, Std.ExtTreeMap.mem_keys, Std.ExtTreeMap.mem_iff_isSome_getElem?, he]
  rfl

theorem mem_toList (h : m.get? k = some x) : (k, x) ∈ m.toList := by
  obtain ⟨e, he, rfl⟩ := Option.map_eq_some_iff.mp h
  exact List.mem_map.mpr ⟨(k, e), Std.ExtTreeMap.mem_toList_iff_getElem?_eq_some.mpr he, rfl⟩

end Keys

/-! ## Expiry -/

section Expiry

omit [DecidableEq κ]

theorem getElem?_fresh (m : AgedMap κ α) (now : Time) (age : Duration) (k : κ) :
    (m.fresh now age).entries[k]? =
      m.entries[k]?.filter fun e => now.ns - age.ns < e.touched.ns := by
  unfold fresh
  cases hcut : now.before? age with
  | some cut =>
    rw [Std.ExtTreeMap.getElem?_filter', ← Time.before?_eq_some.mp hcut]
    rfl
  | none =>
    cases m.entries[k]? with
    | none => rfl
    | some e =>
      rw [Option.filter_some, if_pos]
      exact decide_eq_true (Time.lt_of_before?_eq_none hcut e.touched)

/-- An entry that was last used less than the age ago stays as it is. -/
theorem fresh_of_lt (h : m.touched? k = some since) (hlt : now.ns < since.ns + age.ns) :
    (m.fresh now age).get? k = m.get? k ∧ (m.fresh now age).touched? k = some since := by
  obtain ⟨e, he, rfl⟩ := Option.map_eq_some_iff.mp h
  have hkept : (m.fresh now age).entries[k]? = some e := by
    rw [getElem?_fresh, he, Option.filter_some, if_pos]
    exact decide_eq_true (by omega)
  rw [get?, get?, touched?, hkept, he]
  exact ⟨rfl, rfl⟩

/-- An entry that was last used no less than the age ago is gone. -/
theorem fresh_of_le (h : m.touched? k = some since) (hle : since.ns + age.ns ≤ now.ns) :
    (m.fresh now age).get? k = none := by
  obtain ⟨e, he, rfl⟩ := Option.map_eq_some_iff.mp h
  rw [get?, getElem?_fresh, he, Option.filter_some, if_neg]
  · rfl
  · exact fun hlt => absurd (of_decide_eq_true hlt) (by omega)

/-- An entry that is there is kept, or was last used no less than the age ago and is gone. -/
theorem fresh_cases (h : m.get? k = some x) : (m.fresh now age).get? k = some x ∨
    (m.fresh now age).get? k = none ∧
      ∃ since, m.touched? k = some since ∧ since.ns + age.ns ≤ now.ns := by
  obtain ⟨since, hsince⟩ := exists_touched? h
  by_cases hold : since.ns + age.ns ≤ now.ns
  · exact Or.inr ⟨fresh_of_le hsince hold, since, hsince, hold⟩
  · exact Or.inl ((fresh_of_lt hsince (Int.not_le.mp hold)).1.trans h)

/-- An entry that is touched first is kept. -/
theorem fresh_touchAll_of_mem [DecidableEq κ] {ks : List κ} (hk : k ∈ ks) (h : m.get? k = some x)
    (hage : 0 < age.ns) : ((m.touchAll now ks).fresh now age).get? k = some x := by
  obtain ⟨since, hsince⟩ := exists_touched? h
  have hnow : (m.touchAll now ks).touched? k = some now := by
    rw [touched?_touchAll_of_mem hk, hsince]
    rfl
  rw [(fresh_of_lt hnow (by omega)).1, get?_touchAll, h]

theorem get?_of_fresh (h : (m.fresh now age).get? k = some x) : m.get? k = some x := by
  obtain ⟨e, he, rfl⟩ := Option.map_eq_some_iff.mp h
  rw [getElem?_fresh, Option.filter_eq_some_iff] at he
  rw [get?, he.1]
  rfl

theorem touched?_of_fresh (h : (m.fresh now age).touched? k = some since) :
    m.touched? k = some since := by
  obtain ⟨e, he, rfl⟩ := Option.map_eq_some_iff.mp h
  rw [getElem?_fresh, Option.filter_eq_some_iff] at he
  rw [touched?, he.1]
  rfl

end Expiry

/-! ## Maps of maps -/

section Members

variable {β : Type} {m : AgedMap κ (Std.ExtTreeMap Nat β)} {n n' : Nat} {y : β}

omit [Std.LawfulEqOrd κ] [DecidableEq κ] in
/-- The value under a second key in the map under a first one. -/
def member? (m : AgedMap κ (Std.ExtTreeMap Nat β)) (k : κ) (n : Nat) : Option β :=
  (m.get? k).bind (·[n]?)

theorem member?_put (m : AgedMap κ (Std.ExtTreeMap Nat β)) (now : Time) (k : κ) (n : Nat) (y : β)
    (k' : κ) (n' : Nat) : (m.put now k ∅ (·.insert n y)).member? k' n' =
      if k = k' ∧ n = n' then some y else m.member? k' n' := by
  rw [member?, member?, get?_put]
  by_cases hk : k = k'
  · subst hk
    rw [if_pos rfl, Option.bind_some, Std.ExtTreeMap.getElem?_insert]
    by_cases hn : n = n'
    · rw [if_pos (Nat.compare_eq_eq.mpr hn), if_pos ⟨rfl, hn⟩]
    · rw [if_neg (mt Nat.compare_eq_eq.mp hn), if_neg fun h => hn h.2]
      cases m.get? k with
      | some inner => rfl
      | none => exact Std.ExtTreeMap.getElem?_empty
  · rw [if_neg hk, if_neg fun h => hk h.1]

omit [DecidableEq κ] in
theorem member?_map (f : Nat → β → β) :
    (m.map (·.map f)).member? k n = (m.member? k n).map (f n) := by
  rw [member?, member?, get?_map]
  cases m.get? k with
  | none => rfl
  | some inner => exact Std.ExtTreeMap.getElem?_map

omit [DecidableEq κ] in
theorem member?_of_fresh (h : (m.fresh now age).member? k n = some y) :
    m.member? k n = some y := by
  obtain ⟨inner, hinner, hy⟩ := Option.bind_eq_some_iff.mp h
  rw [member?, get?_of_fresh hinner]
  exact hy

end Members

end ForkChoice.AgedMap

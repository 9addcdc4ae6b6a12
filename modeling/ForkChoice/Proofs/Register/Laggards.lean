import ForkChoice.Proofs.Register.Punctual

/-!
# Who is online and who is behind

A question for laggards goes through the current validations in an order that nothing fixes, and takes
the key of each one that was seen lately off the keys that it was asked about. As long as no two nodes
have a validation under one key, each key is taken off for one validation at most, so neither the
keys that are left nor the number of those that are behind depend on the order.

* `Timing.SeenLately`: a validation was seen less than the freshness ago.
* `Register.sortKeys_eq`: what is left of the keys, and how many are counted.
* `Register.sortKeys_perm`: the order of the validations does not matter.
* `Register.Online`: a node is online under the key of its validation.
* `Register.run_tells_laggards`: the answer after any run.
-/

namespace ForkChoice

/-- A validation was seen less than the freshness ago. -/
def Timing.SeenLately (timing : Timing) (now seen : Time) : Prop :=
  now.ns < seen.ns + timing.freshness.ns

instance (timing : Timing) (now seen : Time) : Decidable (timing.SeenLately now seen) :=
  inferInstanceAs (Decidable (_ < _))

namespace Register

variable {T : Type} {a : Archive} {env : Surroundings} {r : Register T} {nodes : Set Nat}
  {timing : Timing} {now : Time} {seq behind : Nat} {key : Key} {keys : Std.ExtTreeSet Key}
  {v : Validation} {vs vs' : List Validation}

/-! ## Keys and validations -/

/-- A validation takes its key off some keys, and is behind a sequence number. -/
def CountsAmong (timing : Timing) (now : Time) (seq : Nat) (keys : Std.ExtTreeSet Key)
    (v : Validation) : Prop :=
  timing.SeenLately now v.seen ∧ v.key ∈ keys ∧ v.seq < seq

instance (timing : Timing) (now : Time) (seq : Nat) (keys : Std.ExtTreeSet Key)
    (v : Validation) : Decidable (CountsAmong timing now seq keys v) :=
  inferInstanceAs (Decidable (_ ∧ _ ∧ _))

theorem mem_erase_iff {key' : Key} : key' ∈ keys.erase key ↔ key' ∈ keys ∧ key ≠ key' := by
  rw [Std.ExtTreeSet.mem_erase, ne_eq, Std.compare_eq_iff_eq, and_comm]

theorem countsAmong_erase (hne : key ≠ v.key) :
    CountsAmong timing now seq (keys.erase key) v ↔ CountsAmong timing now seq keys v := by
  rw [CountsAmong, CountsAmong, mem_erase_iff, and_iff_left hne]

/-- When no two validations have the same key, each key is taken off for one of them at most. -/
theorem sortKeys_eq (hadd : ∀ v ∈ vs, (v.seen.later? timing.freshness).isSome)
    (hkeys : (vs.map (·.key)).Nodup) (now : Time) (seq behind : Nat) (keys : Std.ExtTreeSet Key) :
    ∃ left, sortKeys timing now seq vs behind keys =
        .ok (behind + vs.countP (CountsAmong timing now seq keys), left) ∧
      ∀ key, key ∈ left ↔ key ∈ keys ∧ ∀ v ∈ vs, timing.SeenLately now v.seen → v.key ≠ key := by
  induction vs generalizing behind keys with
  | nil => exact ⟨keys, rfl, by simp⟩
  | cons v rest ih =>
    rw [List.forall_mem_cons] at hadd
    rw [List.map_cons, List.nodup_cons] at hkeys
    obtain ⟨limit, hlimit, hns⟩ := Time.exists_add hadd.1
    have hlt : now < limit ↔ timing.SeenLately now v.seen := by
      rw [Time.lt_iff, hns]
      rfl
    rw [sortKeys, hlimit]
    dsimp only [bind, Except.bind]
    by_cases htaken : timing.SeenLately now v.seen ∧ v.key ∈ keys
    · -- the validations behind have other keys, so nothing changes for them
      have hrest : rest.countP (CountsAmong timing now seq (keys.erase v.key)) =
          rest.countP (CountsAmong timing now seq keys) := by
        refine List.countP_congr fun w hw => ?_
        rw [decide_eq_true_iff, decide_eq_true_iff, countsAmong_erase]
        exact fun heq => hkeys.1 (heq ▸ List.mem_map_of_mem hw)
      obtain ⟨left, hleft, hmem⟩ := ih hadd.2 hkeys.2
        (if v.seq < seq then behind + 1 else behind) (keys.erase v.key)
      refine ⟨left, ?_, fun key => ?_⟩
      · have hcounts : CountsAmong timing now seq keys v ↔ v.seq < seq := by
          simp only [CountsAmong, htaken.1, htaken.2, true_and]
        rw [if_pos ⟨hlt.mpr htaken.1, htaken.2⟩, hleft, hrest, List.countP_cons]
        simp only [hcounts, decide_eq_true_eq, Except.ok.injEq, Prod.mk.injEq, and_true]
        split <;> omega
      · rw [hmem, mem_erase_iff, List.forall_mem_cons, and_assoc]
        simp only [htaken.1, true_implies]
    · obtain ⟨left, hleft, hmem⟩ := ih hadd.2 hkeys.2 behind keys
      refine ⟨left, ?_, fun key => ?_⟩
      · rw [if_neg fun h => htaken ⟨hlt.mp h.1, h.2⟩, hleft, List.countP_cons_of_neg]
        exact fun h => htaken ⟨(of_decide_eq_true h).1, (of_decide_eq_true h).2.1⟩
      · rw [hmem, List.forall_mem_cons]
        refine and_congr_right fun hkey => (and_iff_right ?_).symm
        rintro hseen rfl
        exact htaken ⟨hseen, hkey⟩

/-- The order in which the validations come up does not matter. -/
theorem sortKeys_perm (hperm : vs.Perm vs')
    (hadd : ∀ v ∈ vs, (v.seen.later? timing.freshness).isSome) (hkeys : (vs.map (·.key)).Nodup) :
    sortKeys timing now seq vs behind keys = sortKeys timing now seq vs' behind keys := by
  obtain ⟨left, hleft, hmem⟩ := sortKeys_eq hadd hkeys now seq behind keys
  obtain ⟨left', hleft', hmem'⟩ := sortKeys_eq (fun v hv => hadd v (hperm.mem_iff.mpr hv))
    ((hperm.map _).nodup_iff.mp hkeys) now seq behind keys
  have hsame : left = left' := by
    refine Std.ExtTreeSet.ext_mem fun key => ?_
    rw [hmem, hmem']
    simp only [hperm.mem_iff]
  rw [hleft, hleft', hsame, hperm.countP_eq]

/-! ## Current validations -/

/-- No two nodes have a current validation under one key. -/
def KeysApart (r : Register T) : Prop :=
  ∀ (n n' : Nat) (v v' : Validation), r.current[n]? = some v → r.current[n']? = some v' →
    v.key = v'.key → n = n'

/-- The sums that are made with the times of the current validations are representable. -/
structure Summable (r : Register T) (now : Time) : Prop where
  judged : ∀ (n : Nat) (v : Validation), r.current[n]? = some v →
    ∃ current, r.timing.isCurrent now v.signed v.seen = .ok current
  seen : ∀ n v, r.Fresh now n v → (v.seen.later? r.timing.freshness).isSome

/-- A node is online: its validation is current, and was seen less than the freshness ago. -/
structure Online (r : Register T) (now : Time) (node : Nat) (v : Validation) : Prop where
  fresh : r.Fresh now node v
  lately : r.timing.SeenLately now v.seen

/-- The validations that are current at a time, in whatever order, under keys that are all
different. -/
structure Lists (r : Register T) (now : Time) (vs : List Validation) : Prop where
  keys : (vs.map (·.key)).Nodup
  mem : ∀ v, v ∈ vs ↔ ∃ n, r.Fresh now n v

namespace Lists

theorem perm (h : r.Lists now vs) (h' : r.Lists now vs') : vs.Perm vs' := by
  refine (List.perm_ext_iff_of_nodup h.keys.of_map h'.keys.of_map).mpr fun v => ?_
  rw [h.mem, h'.mem]

theorem of_entries {entries : List (Nat × Validation)} (hapart : r.KeysApart)
    (hnodup : (entries.map (·.1)).Nodup) (hmem : ∀ n v, (n, v) ∈ entries ↔ r.Fresh now n v) :
    r.Lists now (entries.map (·.2)) := by
  constructor
  · rw [List.map_map]
    refine hnodup.of_map.map_on ?_
    rintro ⟨n, v⟩ he ⟨n', v'⟩ he' hkey
    have hv := ((hmem n v).mp he).current
    have hv' := ((hmem n' v').mp he').current
    obtain rfl := hapart n n' v v' hv hv' hkey
    obtain rfl := Option.some.inj (hv.symm.trans hv')
    rfl
  · intro v
    rw [List.mem_map]
    constructor
    · rintro ⟨⟨n, w⟩, he, rfl⟩
      exact ⟨n, (hmem n w).mp he⟩
    · rintro ⟨n, hv⟩
      exact ⟨(n, v), (hmem n v).mpr hv, rfl⟩

end Lists

theorem KeysApart.exists_lists (h : r.KeysApart) (now : Time) : ∃ vs, r.Lists now vs := by
  classical
  have hmem : ∀ n v, (n, v) ∈ r.current.toList.filter (fun e => r.Fresh now e.1 e.2) ↔
      r.Fresh now n v := by
    intro n v
    rw [List.mem_filter, decide_eq_true_iff, Std.ExtTreeMap.mem_toList_iff_getElem?_eq_some]
    exact ⟨And.right, fun hv => ⟨hv.current, hv⟩⟩
  exact ⟨_, .of_entries h ((nodup_entries r.current).sublist (List.filter_sublist.map _)) hmem⟩

/-- Once a register is swept, its entries list the validations that are current. -/
theorem Swept.lists {s : Register T} (h : Swept now r s) (hapart : r.KeysApart)
    (env : Surroundings) : r.Lists now ((s.entries env).map (·.2)) := by
  refine .of_entries hapart ?_ fun n v => ?_
  · exact ((byRank_perm _ s.current.toList).map _).nodup_iff.mpr (nodup_entries s.current)
  · rw [← h.current]
    exact mem_byRank.trans Std.ExtTreeMap.mem_toList_iff_getElem?_eq_some

/-! ## The answer -/

section Answer

variable [VoteTrie T] [LawfulVoteTrie T] (ha : a.Sound) (h : r.Sound a nodes)
  (hapart : r.KeysApart) (hsums : r.Summable now)

include ha h hapart hsums

/-- The keys are sorted by the validations that are current, listed in whatever order. -/
theorem exists_laggards (henv : env.Honest a) (hnow : env.now = .ok now) (hlists : r.Lists now vs)
    {n : Nat} {left : Std.ExtTreeSet Key}
    (hsorted : sortKeys r.timing now seq vs 0 keys = .ok (n, left)) :
    ∃ o, r.step env (.laggards seq keys) = pure o ∧ o.answer = .laggards n left := by
  obtain ⟨o, ho, -, hswept⟩ := exists_sweep ha henv h hnow fun n v hv => by
    obtain ⟨current, hcurrent⟩ := hsums.judged n v hv
    cases current with
    | true => exact Or.inl ⟨hv, hcurrent⟩
    | false => exact Or.inr ⟨hv, hcurrent⟩
  have hentries := hswept.lists hapart env
  have hsame : sortKeys r.timing now seq ((o.register.entries env).map (·.2)) 0 keys =
      .ok (n, left) := by
    rw [← hsorted]
    refine sortKeys_perm (hentries.perm hlists) (fun v hv => ?_) hentries.keys
    obtain ⟨n, hfresh⟩ := (hentries.mem v).mp hv
    exact hsums.seen n v hfresh
  refine ⟨⟨.laggards n left, o.register, o.retired⟩, ?_, rfl⟩
  rw [step, laggards_eq hnow ho, hsame]
  rfl

/-- The keys that are left are those under which no node is online. Those of the others are counted
whose validation is behind. -/
theorem exists_laggards_answer (seq : Nat) (keys : Std.ExtTreeSet Key) :
    ∃ (left : Std.ExtTreeSet Key) (behind : List Key), behind.Nodup ∧
      (∀ key, key ∈ left ↔ key ∈ keys ∧ ¬ ∃ n v, r.Online now n v ∧ v.key = key) ∧
      (∀ key, key ∈ behind ↔ key ∈ keys ∧ ∃ n v, r.Online now n v ∧ v.key = key ∧ v.seq < seq) ∧
      ∀ env : Surroundings, env.Honest a → env.now = .ok now → ∃ o,
        r.step env (.laggards seq keys) = pure o ∧ o.answer = .laggards behind.length left := by
  obtain ⟨vs, hlists⟩ := hapart.exists_lists now
  obtain ⟨left, hleft, hmem⟩ := sortKeys_eq (fun v hv => by
    obtain ⟨n, hfresh⟩ := (hlists.mem v).mp hv
    exact hsums.seen n v hfresh) hlists.keys now seq 0 keys
  refine ⟨left, (vs.filter (CountsAmong r.timing now seq keys)).map (·.key),
    hlists.keys.sublist (List.filter_sublist.map _), fun key => ?_, fun key => ?_,
    fun env henv hnow => ?_⟩
  · rw [hmem]
    refine and_congr_right fun _ => ⟨?_, ?_⟩
    · rintro hnone ⟨n, v, honline, hkey⟩
      exact hnone v ((hlists.mem v).mpr ⟨n, honline.fresh⟩) honline.lately hkey
    · intro hnone v hv hlately hkey
      obtain ⟨n, hfresh⟩ := (hlists.mem v).mp hv
      exact hnone ⟨n, v, ⟨hfresh, hlately⟩, hkey⟩
  · rw [List.mem_map]
    constructor
    · rintro ⟨v, hv, rfl⟩
      obtain ⟨hv, hcounts⟩ := List.mem_filter.mp hv
      obtain ⟨hlately, hkey, hseq⟩ := of_decide_eq_true hcounts
      obtain ⟨n, hfresh⟩ := (hlists.mem v).mp hv
      exact ⟨hkey, n, v, ⟨hfresh, hlately⟩, rfl, hseq⟩
    · rintro ⟨hkey, n, v, honline, rfl, hseq⟩
      exact ⟨v, List.mem_filter.mpr ⟨(hlists.mem v).mpr ⟨n, honline.fresh⟩,
        decide_eq_true ⟨honline.lately, hkey, hseq⟩⟩, rfl⟩
  · apply exists_laggards ha h hapart hsums henv hnow hlists
    rw [hleft, List.length_map, ← List.countP_eq_length_filter, Nat.zero_add]

end Answer

/-- After any run, as long as no two nodes have a current validation under one key and no sum of
times fails, a question for laggards takes those keys off under which a node is online, that is, has
a validation that is still current and was seen less than the freshness ago; and it counts those of
them whose validation is behind. In whatever order the validations come up, the answer is the same. -/
theorem run_tells_laggards {Slot : Type} [DecidableEq Slot] (A : Slots Slot (Cell Slot))
    (ha : a.Reachable) {requests : List (Surroundings × Request)}
    (h : Orderly a Set.univ requests) (timing : Timing) :
    Ends Bounded ((empty timing : Register (ArenaTrie A)).after requests) fun r =>
      r.KeysApart → ∀ now, r.Summable now → ∀ seq keys,
        ∃ (left : Std.ExtTreeSet Key) (behind : List Key), behind.Nodup ∧
          (∀ key, key ∈ left ↔ key ∈ keys ∧ ¬ ∃ n v, r.Online now n v ∧ v.key = key) ∧
          (∀ key, key ∈ behind ↔
            key ∈ keys ∧ ∃ n v, r.Online now n v ∧ v.key = key ∧ v.seq < seq) ∧
          ∀ env : Surroundings, env.Honest a → env.now = .ok now → ∃ o,
            r.step env (.laggards seq keys) = pure o ∧
              o.answer = .laggards behind.length left := by
  refine ((sound_empty ha.sound timing).after ha.sound (fun _ => Or.inl) (room_bounded _) h).imp
    fun r hr hapart now hsums seq keys => ?_
  exact exists_laggards_answer ha.sound hr hapart hsums seq keys

/-- Two of three validators are online a second after they signed, and one of the two is behind. -/
theorem run_tells_laggards_fork :
    let asked : Std.ExtTreeSet Key := {⟨1, 0⟩, ⟨2, 0⟩, ⟨3, 0⟩}
    ∃ (r : Register (ArenaTrie (Slots.numbered (Cell Nat)))) (o : Outcome _ Reply)
      (left : Std.ExtTreeSet Key), r.KeysApart ∧ r.Summable Fork.soon ∧
        r.step (Fork.world Fork.soon []) (.laggards 2 asked) = pure o ∧
        o.answer = .laggards 1 left ∧ Key.mk 2 0 ∉ left ∧ Key.mk 3 0 ∈ left := by
  intro asked
  let ahead := Fork.word 1 Fork.left Fork.early
  let slow := Fork.word 2 Fork.trunk Fork.early
  let lines : List Fork.Line := [(Fork.early, [], .receive 1 ahead), (Fork.early, [], .receive 2 slow)]
  have hlines : ∀ line ∈ lines, line.2.2.Apt Fork.archive Set.univ := by simp [lines, Request.Apt]
  obtain ⟨r, s, hr, ⟨-, -, t, rfl, -⟩, htest⟩ := Fork.exists_after (Slots.numbered (Cell Nat)) lines
    (fun s => s.current.toList == [(1, ahead), (2, slow)] && s.timing == {}) hlines
    (by decide +kernel)
  obtain ⟨hlist, htiming⟩ := (Bool.and_eq_true _ _).mp htest
  have hlist : r.current.toList = [(1, ahead), (2, slow)] := beq_iff_eq.mp hlist
  have htiming : r.timing = {} := beq_iff_eq.mp htiming
  have hcurrent : ∀ (n : Nat) v, r.current[n]? = some v ↔ n = 1 ∧ v = ahead ∨ n = 2 ∧ v = slow := by
    intro n v
    rw [← Std.ExtTreeMap.mem_toList_iff_getElem?_eq_some, hlist]
    simp
  have honline : ∀ n v, r.current[n]? = some v → r.Online Fork.soon n v := by
    intro n v hv
    refine ⟨⟨hv, ?_⟩, ?_⟩
    all_goals
      rw [htiming]
      obtain ⟨-, rfl⟩ | ⟨-, rfl⟩ := (hcurrent n v).mp hv
      all_goals decide
  have hapart : r.KeysApart := by
    intro n n' v v' hv hv' hkey
    obtain ⟨rfl, rfl⟩ | ⟨rfl, rfl⟩ := (hcurrent n v).mp hv <;>
      obtain ⟨rfl, rfl⟩ | ⟨rfl, rfl⟩ := (hcurrent n' v').mp hv'
    all_goals first | rfl | cases hkey
  have hsums : r.Summable Fork.soon := by
    refine ⟨fun n v hv => ⟨true, (honline n v hv).fresh.fresh⟩, fun n v hv => ?_⟩
    rw [htiming]
    obtain ⟨-, rfl⟩ | ⟨-, rfl⟩ := (hcurrent n v).mp hv.current
    all_goals decide
  obtain ⟨left, behind, hnodup, hleft, hbehind, hall⟩ :=
    ((run_tells_laggards (Slots.numbered (Cell Nat)) Fork.archive_reachable
      (Fork.orderly_script lines hlines) {}).result hr) hapart Fork.soon hsums 2 asked
  have hslow := honline 2 slow ((hcurrent 2 slow).mpr (Or.inr ⟨rfl, rfl⟩))
  have hone : behind.Perm [⟨2, 0⟩] := by
    refine (List.perm_ext_iff_of_nodup hnodup (List.nodup_singleton _)).mpr fun key => ?_
    rw [hbehind, List.mem_singleton]
    constructor
    · rintro ⟨-, n, v, hv, rfl, hseq⟩
      obtain ⟨-, rfl⟩ | ⟨-, rfl⟩ := (hcurrent n v).mp hv.fresh.current
      · exact absurd hseq (by decide)
      · rfl
    · rintro rfl
      exact ⟨by decide +kernel, 2, slow, hslow, rfl, by decide⟩
  obtain ⟨o, ho, hanswer⟩ := hall _ (Fork.honest Fork.soon []) rfl
  rw [hone.length_eq] at hanswer
  refine ⟨r, o, left, hapart, hsums, ho, hanswer, ?_, ?_⟩
  · intro hoffline
    exact ((hleft _).mp hoffline).2 ⟨2, slow, hslow, rfl⟩
  · refine (hleft _).mpr ⟨by decide +kernel, ?_⟩
    rintro ⟨n, v, hv, hkey⟩
    obtain ⟨-, rfl⟩ | ⟨-, rfl⟩ := (hcurrent n v).mp hv.fresh.current
    all_goals cases hkey

end Register

end ForkChoice

import ForkChoice.Proofs.Register.Filing
import ForkChoice.Proofs.Register.Pending
import Mathlib.Algebra.BigOperators.Group.Finset.Basic

/-!
# Trust that is written down

A validation bears the trust in its node. It is written down when the validation comes, in each
table by itself, and rewritten there when the trust changes. So nobody who counts by it has to ask
who is trusted.

* `Vouched`: validations come with the trust that there is in their nodes.
* `Register.Stamped`: each validation that is held bears the trust in its node.
* `Register.Stamped.step`, `Register.History.stamped`: a request preserves it, and so does a history.
* `Roll`: the full validations of trusted nodes, by node.
* `Register.AnsweredBy`, `Register.ListsFresh`: what is counted and listed by trust.
* `Register.history_stamps`: what is counted after a history.
-/

namespace ForkChoice

variable {T : Type} {trusted : Set Nat} {es : List (Event T)} {e : Event T}

/-- A validation, if the request brings one, comes with the trust in its node. -/
def Request.Vouches (trusted : Set Nat) (request : Request) : Prop :=
  ∀ node v, request = .receive node v → (v.trusted = true ↔ node ∈ trusted)

/-- The nodes that are trusted after some events. -/
def trustAlong (trusted : Set Nat) (es : List (Event T)) : Set Nat :=
  es.foldl (fun trusted e => e.request.trustedAfter trusted) trusted

/-- Validations come with the trust that there is in their nodes at that moment. -/
def Vouched : Set Nat → List (Event T) → Prop
  | _, [] => True
  | trusted, e :: es =>
    e.request.Vouches trusted ∧ Vouched (e.request.trustedAfter trusted) es

theorem trustAlong_snoc : trustAlong trusted (es ++ [e]) =
    e.request.trustedAfter (trustAlong trusted es) := by
  rw [trustAlong, List.foldl_concat, trustAlong]

theorem vouched_snoc : Vouched trusted (es ++ [e]) ↔
    Vouched trusted es ∧ e.request.Vouches (trustAlong trusted es) := by
  induction es generalizing trusted with
  | nil => exact ⟨fun h => ⟨trivial, h.1⟩, fun h => ⟨h.2, trivial⟩⟩
  | cons first rest ih =>
    rw [List.cons_append, Vouched, Vouched, ih, and_assoc]
    rfl

namespace Register

variable {env : Surroundings} {r s q : Register T} {request : Request} {answer : Reply}
  {n id : Nat} {v w : Validation} {now : Time}

/-! ## What bears the trust -/

/-- Each validation that is held bears the trust in its node. -/
structure Stamped (trusted : Set Nat) (r : Register T) : Prop where
  current : ∀ (n : Nat) (v : Validation), r.current[n]? = some v → (v.trusted = true ↔ n ∈ trusted)
  filed : ∀ (id n : Nat) (v : Validation), r.filed id n = some v → (v.trusted = true ↔ n ∈ trusted)

theorem stamped_empty [VoteTrie T] (timing : Timing) (trusted : Set Nat) :
    Stamped trusted (empty timing : Register T) where
  current n v hv := by cases hv
  filed id n v hv := by cases hv

/-- A request stamps a validation as it changes the trust in the node. -/
theorem stamp_trusted (request : Request) (h : v.trusted = true ↔ n ∈ trusted) :
    (request.stamp n v).trusted = true ↔ n ∈ request.trustedAfter trusted := by
  cases request with
  | changeTrust added removed =>
    show (restamp added removed n v).trusted = true ↔ n ∈ added ∨ n ∈ trusted ∧ n ∉ removed
    rcases trustAfter_cases added removed n with
      ⟨hafter, hadded⟩ | ⟨hafter, hadded, hremoved⟩ | ⟨hafter, hadded, hremoved⟩
    · rw [restamp, hafter]
      exact iff_of_true rfl (Or.inl hadded)
    · rw [restamp, hafter]
      apply iff_of_false Bool.false_ne_true
      rintro (hmem | ⟨-, hmem⟩)
      · exact hadded hmem
      · exact hmem hremoved
    · rw [restamp, hafter, or_iff_right hadded, and_iff_left hremoved]
      exact h
  | _ => exact h

/-- What is filed was filed before, or has just come. -/
theorem Refiled.filed_of (h : Refiled env r s request) (hv : s.filed id n = some v) :
    (∃ w, r.filed id n = some w ∧ request.stamp n w = v) ∨ request = .receive n v := by
  have hstays (hstamp : request.stamp = fun _ v => v) (hfiled : r.filed id n = some v) :
      ∃ w, r.filed id n = some w ∧ request.stamp n w = v :=
    ⟨v, hfiled, by rw [hstamp]⟩
  cases h with
  | same hstamp hbyLedger =>
    have hsame : s.filed id n = r.filed id n := filed_congr (by rw [hbyLedger]) n
    exact Or.inl (hstays hstamp (hsame ▸ hv))
  | @filed node w guard _ hbyLedger =>
    have hfile : s.filed id n = (r.file env node w).filed id n :=
      filed_congr (by rw [hbyLedger]) n
    rw [hfile, filed_file] at hv
    split at hv
    · rename_i hnew
      obtain rfl := Option.some.inj hv
      rw [hnew.2]
      exact Or.inr rfl
    · exact Or.inl (hstays rfl hv)
  | @expired touched htouched hbyLedger =>
    apply Or.inl
    apply hstays rfl
    have hkept : touched.filed id n = some v := by
      rw [Register.filed, hbyLedger] at hv
      exact AgedMap.member?_of_fresh hv
    rcases touchKept_eq htouched with rfl | ⟨_, _, ids, _, -, rfl⟩
    · exact hkept
    · rw [← hkept]
      exact (filed_congr (AgedMap.get?_touchAll ids) n).symm
  | restamped hbyLedger =>
    rw [Register.filed, hbyLedger, AgedMap.member?_map] at hv
    exact Or.inl (Option.map_eq_some_iff.mp hv)
  | used hstamp hbyLedger =>
    have hsame : s.filed id n = r.filed id n :=
      filed_congr (by rw [hbyLedger, AgedMap.get?_touch]) n
    exact Or.inl (hstays hstamp (hsame ▸ hv))

/-- A request leaves each validation with the trust that there is in its node then. -/
theorem Stamped.step (h : Stamped trusted r) (hentered : Entered env r s request answer)
    (hvouches : request.Vouches trusted) : Stamped (request.trustedAfter trusted) s := by
  constructor
  · intro n v hv
    rcases hentered.current hv with ⟨w, hw, rfl⟩ | ⟨rfl, -⟩
    · exact stamp_trusted request (h.current n w hw)
    · exact hvouches n v rfl
  · intro id n v hv
    rcases hentered.refiled.filed_of hv with ⟨w, hw, rfl⟩ | rfl
    · exact stamp_trusted request (h.filed id n w hw)
    · exact hvouches n v rfl

theorem History.stamped [VoteTrie T] {timing : Timing} (h : History (empty timing) es s)
    (hvouched : Vouched trusted es) : Stamped (trustAlong trusted es) s := by
  induction h with
  | nil => exact stamped_empty timing trusted
  | snoc before hstep ih =>
    obtain ⟨hpast, hlast⟩ := vouched_snoc.mp hvouched
    rw [trustAlong_snoc]
    exact (ih hpast).step (step_enters _ _ _ _ hstep) hlast

end Register

/-! ## Counting by trust -/

/-- The full ones of the validations that are held, of trusted nodes, one entry for each node. -/
structure Roll (trusted : Set Nat) (held : Nat → Validation → Prop)
    (entries : List (Nat × Validation)) : Prop where
  nodup : (entries.map (·.1)).Nodup
  mem_iff : ∀ n v, (n, v) ∈ entries ↔ n ∈ trusted ∧ held n v ∧ v.full = true

/-- In a set whose validations bear the trust in their nodes, those that count are the full ones of
trusted nodes. -/
theorem exists_roll (set : ValidationSet)
    (h : ∀ (n : Nat) (v : Validation), set[n]? = some v → (v.trusted = true ↔ n ∈ trusted)) :
    ∃ entries, Roll trusted (fun n v => set[n]? = some v) entries ∧
      set.values.filter (·.counts) = entries.map (·.2) := by
  refine ⟨set.toList.filter (·.2.counts), ⟨?_, fun n v => ?_⟩, ?_⟩
  · exact (nodup_entries set).sublist (List.filter_sublist.map _)
  · rw [List.mem_filter, Std.ExtTreeMap.mem_toList_iff_getElem?_eq_some, Validation.counts,
      Bool.and_eq_true]
    constructor
    · rintro ⟨hv, htrust, hfull⟩
      exact ⟨(h n v hv).mp htrust, hv, hfull⟩
    · rintro ⟨hn, hv, hfull⟩
      exact ⟨hv, (h n v hv).mpr hn, hfull⟩
  · rw [values_eq, List.filter_map]
    rfl

namespace Register

variable {env : Surroundings} {r s q : Register T} {n id : Nat} {v w : Validation} {now : Time}
  {a : Archive}

/-- What is filed for a ledger and counts are the full validations of trusted nodes. -/
theorem Stamped.exists_filedFor (h : Stamped trusted s) (id : Nat) :
    ∃ entries, Roll trusted (fun n v => s.filed id n = some v) entries ∧
      s.filedFor id = entries.map (·.2) := by
  have hfiled := h.filed id
  unfold filedFor
  unfold Register.filed AgedMap.member? at hfiled ⊢
  cases hset : s.byLedger.get? id with
  | none => exact ⟨[], ⟨List.nodup_nil, by simp⟩, rfl⟩
  | some set =>
    rw [hset] at hfiled
    exact exists_roll set hfiled

/-- The current validations that are left and count are the full ones of trusted nodes. -/
theorem Stamped.exists_current (h : Stamped trusted s)
    (hcurrent : ∀ (n : Nat) (v : Validation), q.current[n]? = some v ↔ s.Fresh now n v) :
    ∃ entries, Roll trusted (s.Fresh now) entries ∧
      q.current.values.filter (·.counts) = entries.map (·.2) := by
  have hstamped : ∀ (n : Nat) (v : Validation), q.current[n]? = some v →
      (v.trusted = true ↔ n ∈ trusted) := by
    intro n v hv
    exact h.current n v ((hcurrent n v).mp hv).current
  obtain ⟨entries, hroll, hvalues⟩ := exists_roll q.current hstamped
  refine ⟨entries, ⟨hroll.nodup, fun n v => ?_⟩, hvalues⟩
  rw [hroll.mem_iff, hcurrent]

/-- The answer is the full validations of trusted nodes that are fresh at the time of the network. -/
def ListsFresh (trusted : Set Nat) (s : Register T) (env : Surroundings)
    (o : Outcome T (List Validation)) : Prop :=
  ∃ now, env.now = .ok now ∧
    ∃ entries, Roll trusted (s.Fresh now) entries ∧ o.answer = entries.map (·.2)

theorem Stamped.currentTrusted [VoteTrie T] (h : Stamped trusted s) (env : Surroundings) :
    Gives (s.currentTrusted env) (ListsFresh trusted s env) := by
  rw [Register.currentTrusted]
  refine (sweep_records s env).bind ?_
  rintro o ⟨now, hnow, hpurged⟩
  exact Gives.pure ⟨now, hnow, h.exists_current hpurged.current⟩

/-- In a world without other ledgers than those of an archive, a history keeps the register sound. -/
theorem History.sound [VoteTrie T] [LawfulVoteTrie T] {timing : Timing} (ha : a.Sound)
    (h : History (empty timing) es s)
    (horderly : Orderly a Set.univ (es.map fun e => (e.env, e.request))) :
    s.Sound a Set.univ := by
  induction h with
  | nil => exact sound_empty ha timing
  | snoc before hstep ih =>
    rw [List.map_append] at horderly
    obtain ⟨henv, hapt⟩ := horderly _ (List.mem_append_right _ (List.mem_singleton_self _))
    have hbefore := ih fun request hmem => horderly request (List.mem_append_left _ hmem)
    exact ((step_ends ha henv (fun _ => Or.inl) (room_bounded _) hbefore hapt).result hstep).1

theorem Stamped.currentTrusted_ends [VoteTrie T] [LawfulVoteTrie T] (h : Stamped trusted s)
    (ha : a.Sound) (henv : env.Honest a) (hs : s.Sound a Set.univ) :
    Ends Fault.External (s.currentTrusted env) (ListsFresh trusted s env) := by
  rw [Register.currentTrusted]
  refine (sweep_ends ha henv (fun _ => id) hs).bind ?_
  rintro o ⟨-, now, hnow, hswept⟩
  exact Ends.pure ⟨now, hnow, h.exists_current hswept.current⟩

/-- The parts of a list by sequence number make up the whole. -/
theorem sum_length_filter_seq (vs : List Validation) (seqs : Finset Nat)
    (h : ∀ v ∈ vs, v.seq ∈ seqs) :
    ∑ seq ∈ seqs, (vs.filter (·.seq == seq)).length = vs.length := by
  have hsum := Multiset.sum_count_eq_card (s := seqs) (m := (vs.map (·.seq) : Multiset Nat))
    (by simpa using h)
  simp only [Multiset.coe_count, Multiset.coe_card, List.length_map] at hsum
  rw [← hsum]
  refine Finset.sum_congr rfl fun seq _ => ?_
  rw [List.count, List.countP_map, List.countP_eq_length_filter]
  rfl

/-- The questions about what is filed for a ledger are answered from these entries. The answers for all
sequence numbers together make up as many. -/
structure AnsweredBy (s : Register T) (id : Nat) (entries : List (Nat × Validation)) : Prop where
  count : ∀ env, (s.countTrusted env id).answer = entries.length
  fees : ∀ env base, (s.fees env id base).answer = entries.map fun e => e.2.fee.getD base
  bySeq : ∀ env seq,
    (s.trustedFor env id seq).answer = (entries.filter (·.2.seq == seq)).map (·.2)
  union : ∀ env (seqs : Finset Nat), (∀ e ∈ entries, e.2.seq ∈ seqs) →
    ∑ seq ∈ seqs, (s.trustedFor env id seq).answer.length = entries.length

theorem answeredBy_of_filedFor {entries : List (Nat × Validation)}
    (h : s.filedFor id = entries.map (·.2)) : s.AnsweredBy id entries where
  count env := by
    show (s.filedFor id).length = _
    rw [h, List.length_map]
  fees env base := by
    show (s.filedFor id).map _ = _
    rw [h, List.map_map]
    rfl
  bySeq env seq := by
    show (s.filedFor id).filter _ = _
    rw [h, List.filter_map]
    rfl
  union env seqs hseqs := by
    show ∑ seq ∈ seqs, ((s.filedFor id).filter (·.seq == seq)).length = _
    rw [sum_length_filter_seq, h, List.length_map]
    intro v hv
    rw [h] at hv
    obtain ⟨e, he, rfl⟩ := List.mem_map.mp hv
    exact hseqs e he

/-- After every history in which validations come with the trust in their nodes, each validation that
is held bears the trust in its node. So those that count for a ledger, the fees in them and those at
all its sequence numbers together are as many as there are trusted nodes whose validation for it is
full, and the current validations that count are the full ones of trusted nodes that are fresh. -/
theorem history_stamps [VoteTrie T] [LawfulVoteTrie T] {timing : Timing}
    (h : History (empty timing) es s) (hvouched : Vouched trusted es) :
    (∀ n v, s.current[n]? = some v → (v.trusted = true ↔ n ∈ trustAlong trusted es)) ∧
    (∀ id n v, s.filed id n = some v → (v.trusted = true ↔ n ∈ trustAlong trusted es)) ∧
    (∀ id, ∃ entries, Roll (trustAlong trusted es) (fun n v => s.filed id n = some v) entries ∧
      s.AnsweredBy id entries) ∧
    ∀ env, Gives (s.currentTrusted env) (ListsFresh (trustAlong trusted es) s env) ∧
      ∀ a : Archive, a.Reachable → Orderly a Set.univ (es.map fun e => (e.env, e.request)) →
        env.Honest a →
          Ends Fault.External (s.currentTrusted env) (ListsFresh (trustAlong trusted es) s env) := by
  have hstamped := h.stamped hvouched
  refine ⟨hstamped.current, hstamped.filed, fun id => ?_, fun env => ⟨?_, ?_⟩⟩
  · obtain ⟨entries, hroll, hfiled⟩ := hstamped.exists_filedFor id
    exact ⟨entries, hroll, answeredBy_of_filedFor hfiled⟩
  · exact hstamped.currentTrusted env
  · intro a ha horderly henv
    exact hstamped.currentTrusted_ends ha.sound henv (h.sound ha.sound horderly)

/-- A node validates the left side before it is trusted in place of another one, which does so after
that. -/
def succession : List Fork.Line :=
  [(Fork.early, [], .receive 2 { Fork.word 2 Fork.left Fork.early with trusted := false }),
    (Fork.soon, [], .changeTrust ((∅ : NodeSet).insert 2) ((∅ : NodeSet).insert 1)),
    (Fork.soon, [], .receive 1 { Fork.word 1 Fork.left Fork.soon with trusted := false })]

/-- Both validations are filed, and that of the first node alone counts. -/
theorem history_stamps_fork :
    ∃ (outcomes : List (Outcome (ArenaTrie (Slots.numbered (Cell Nat))) Reply))
      (s : Register (ArenaTrie (Slots.numbered (Cell Nat))))
      (entries : List (Nat × Validation)),
      History (empty {}) (events (Fork.script succession) outcomes) s ∧
        Vouched {1} (events (Fork.script succession) outcomes) ∧
        (s.filed 2 1).isSome ∧
        (s.countTrusted (Fork.world Fork.soon []) 2).answer = entries.length ∧
        (2, Fork.word 2 Fork.left Fork.early) ∈ entries ∧ ∀ v, (1, v) ∉ entries := by
  obtain ⟨outcomes, s, hs, hanswers, htest⟩ := Fork.exists_history (Slots.numbered (Cell Nat))
    succession [.verdict .current, .done, .verdict .current]
    (fun records => (records.getLast?.map fun r => (r.filed 2 2, (r.filed 2 1).isSome)) ==
      some (some (Fork.word 2 Fork.left Fork.early), true))
    (by simp [succession, Request.Apt]) (by decide +kernel)
  simp only [List.map_eq_cons_iff, List.map_eq_nil_iff] at hanswers
  obtain ⟨o₁, _, rfl, -, o₂, _, rfl, -, o₃, _, rfl, -, rfl⟩ := hanswers
  obtain ⟨hword, hother⟩ := Prod.mk.inj (Option.some.inj (beq_iff_eq.mp htest))
  obtain ⟨-, -, -, rfl⟩ := History.of_concat
    (events (Fork.script (succession.take 2)) [o₁, o₂]) hs
  have hvouched : Vouched {1} (events (Fork.script succession) [o₁, o₂, o₃]) := by
    refine ⟨?_, ?_, ?_, trivial⟩
    · rintro node v ⟨⟩
      simp
    · rintro node v ⟨⟩
    · rintro node v ⟨⟩
      simp [Request.trustedAfter]
  obtain ⟨-, -, hcounts, -⟩ := history_stamps hs hvouched
  obtain ⟨entries, hroll, hanswered⟩ := hcounts 2
  refine ⟨_, _, entries, hs, hvouched, hother, hanswered.count _, ?_, ?_⟩
  · apply (hroll.mem_iff 2 _).mpr
    refine ⟨Or.inl ?_, hword, rfl⟩
    simp
  · intro v hv
    rcases ((hroll.mem_iff 1 v).mp hv).1 with hadded | ⟨-, hkept⟩
    · simp at hadded
    · simp at hkept

end Register

end ForkChoice

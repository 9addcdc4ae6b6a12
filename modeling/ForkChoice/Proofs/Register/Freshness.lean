import ForkChoice.Proofs.Register.Revocation

/-!
# Stale votes

When the trie is asked, the stale validations have been swept out, and the votes and waits for their
ledgers with them. So the voters that are left have a trusted validation that is current, if the vote
and the waits of every other node were those of a stale validation, and only then.

* `Register.Confirmed`: a node has a trusted current validation at a time.
* `Register.Lapses`: the vote of a node goes with its stale validation.
* `Register.Refreshed.confirmed_iff`: when all voters are confirmed.
* `Register.run_confirms`: the voters and the answers after any run.
-/

namespace ForkChoice

/-- An answer in which no ledger is preferred and no node is counted. -/
def Reply.Void : Reply → Prop
  | .choice mark => mark = none
  | .count n => n = 0
  | _ => True

namespace Register

variable {T : Type} {a : Archive} {E : Fault → Prop} {nodes : Set Nat} {env : Surroundings}
  {r s : Register T} {node : Nat} {now : Time} {request : Request}

/-- A node has a trusted validation that is current at a time. -/
def Confirmed (r : Register T) (now : Time) (node : Nat) : Prop :=
  ∃ v, v.trusted = true ∧ r.Fresh now node v

/-- The vote of a node, and its waits for ledgers at hand, are those of its stale validation. -/
structure Lapses (env : Surroundings) (r : Register T) (now : Time) (node : Nat) : Prop where
  votes : ∀ l, r.votes[node]? = some l → ∃ v, r.Stale now node v ∧ l.id = v.ledgerId
  waits : ∀ m, r.Waits node m → (env.acquire m.id).isSome →
    ∃ v, r.Stale now node v ∧ m = v.mark

/-! ## Bringing the register up to date -/

theorem Swept.vote_eq_none_iff (hs : Swept now r s) : s.votes[node]? = none ↔
    ∀ l, r.votes[node]? = some l → ∃ v, r.Stale now node v ∧ l.id = v.ledgerId := by
  rw [Option.eq_none_iff_forall_not_mem]
  refine forall_congr' fun l => ?_
  rw [Option.mem_def, hs.votes node l, not_and]
  refine imp_congr_right fun _ => ?_
  push Not
  rfl

theorem Swept.timing (hs : Swept now r s) : s.timing = r.timing := by
  have htiming : s.records.timing = r.records.timing := by rw [hs.records]
  exact htiming

/-- A node has no vote left just when its vote lapses. -/
theorem Refreshed.vote_eq_none_iff (hs : Refreshed env now r s) :
    s.votes[node]? = none ↔ Lapses env r now node := by
  obtain ⟨swept, hswept, hsettled⟩ := hs
  have hwaits : (∀ m, swept.Waits node m → env.acquire m.id = none) ↔
      ∀ m, r.Waits node m → (env.acquire m.id).isSome →
        ∃ v, r.Stale now node v ∧ m = v.mark := by
    refine forall_congr' fun m => ?_
    rw [hswept.waits node m, and_imp]
    refine imp_congr_right fun _ => ?_
    rw [← not_imp_not, ← ne_eq, ← Option.isSome_iff_ne_none]
    refine imp_congr_right fun _ => ?_
    push Not
    rfl
  have hturned : Turned env (swept.Waits node) swept.votes[node]? s.votes[node]? := by
    simpa using hsettled.votes node
  constructor
  · intro hnone
    rcases hturned with ⟨hsame, hstays⟩ | ⟨m, l, -, -, hmoved⟩
    · exact ⟨hswept.vote_eq_none_iff.mp (hsame ▸ hnone), hwaits.mp hstays⟩
    · rw [hnone] at hmoved
      cases hmoved
  · rintro ⟨hvotes, hgone⟩
    rcases hturned with ⟨hsame, -⟩ | ⟨m, l, hm, hl, -⟩
    · exact hsame.trans (hswept.vote_eq_none_iff.mpr hvotes)
    · rw [hwaits.mpr hgone m hm] at hl
      cases hl

theorem Refreshed.confirmed (hs : Refreshed env now r s) :
    s.Confirmed now node ↔ r.Confirmed now node := by
  obtain ⟨swept, hswept, hsettled⟩ := hs
  have htiming : s.timing = r.timing :=
    (timing_of_records hsettled.records).trans hswept.timing
  have hcurrent : s.current = swept.current := current_of_records hsettled.records
  refine exists_congr fun v => and_congr_right fun _ => ?_
  rw [← hswept.current node v, ← hcurrent]
  refine ⟨Fresh.current, fun hv => ⟨hv, ?_⟩⟩
  rw [htiming]
  exact ((hswept.current node v).mp (hcurrent ▸ hv)).fresh

/-- All voters have a trusted current validation just when the vote of every other node lapses. -/
theorem Refreshed.confirmed_iff (hs : Refreshed env now r s) :
    (∀ n ∈ s.voters fun _ => true, s.Confirmed now n) ↔
      ∀ n, r.Confirmed now n ∨ Lapses env r now n := by
  refine forall_congr' fun n => ?_
  have hvoter : n ∈ s.voters (fun _ => true) ↔ ¬ Lapses env r now n := by
    rw [← hs.vote_eq_none_iff, voters, mem_votersIn, ← ne_eq, Option.ne_none_iff_exists']
    simp
  rw [hvoter, hs.confirmed, or_iff_not_imp_right]

/-- Nobody is left with a vote or a wait when all validations are stale and all votes and waits are
for their ledgers. -/
theorem Refreshed.silent_of_stale (hs : Refreshed env now r s)
    (hstale : ∀ v, r.current[node]? = some v → r.Stale now node v) (h : Traced r node) :
    s.Silent node := by
  obtain ⟨swept, hswept, hsettled⟩ := hs
  refine (hsettled.bystander node).silent ⟨hswept.vote_eq_none_iff.mpr fun l hl => ?_, ?_⟩
  · obtain ⟨v, hv, hid⟩ := h.votes l hl
    exact ⟨v, hstale v hv, hid⟩
  · intro m hm
    obtain ⟨hm, hgone⟩ := (hswept.waits node m).mp hm
    obtain ⟨v, hv, hmark⟩ := h.waits m hm
    exact hgone v (hstale v hv) hmark

/-! ## Answers -/

variable [VoteTrie T] [LawfulVoteTrie T]

/-- A question to the trie is answered after the register was brought up to date. Without votes and
waits there is no answer to give. -/
theorem consult_ends (ha : a.Sound) (henv : env.Honest a) (hE : ∀ fault, fault.External → E fault)
    (hroom : Room E nodes) (h : r.Sound a nodes) (hconsults : request.Consults a) :
    Ends E (r.step env request) fun o => o.register.Sound a nodes ∧
      (∃ now, env.now = .ok now ∧ Refreshed env now r o.register) ∧
      ((∀ n, o.register.Silent n) → o.answer.Void) := by
  cases request with
  | preferred curr => exact (preferred_ends ha henv hE hroom h curr).map fun _ => id
  | preferredId curr least =>
    exact ((preferred_ends ha henv hE hroom h curr).bind fun _ ho =>
      Ends.pure ⟨ho.1, ho.2.1, fun _ => trivial⟩).map fun _ => id
  | preferredClosed closed least counts =>
    exact ((preferred_ends ha henv hE hroom h closed).bind fun _ ho =>
      Ends.pure ⟨ho.1, ho.2.1, fun _ => trivial⟩).map fun _ => id
  | nodesAfter l id =>
    obtain ⟨hl, rfl⟩ := hconsults
    refine (nodesAfter_ends ha henv hE hroom h hl).map fun o ho => ⟨ho.1, ho.2.1, fun hsilent => ?_⟩
    have hnobody : o.register.voters (·.leadsTo l) = ∅ :=
      Finset.eq_empty_of_forall_notMem fun n => (hsilent n).not_mem_voters _
    have hzero : o.answer = 0 := by rw [ho.2.2, hnobody, Finset.card_empty, Nat.zero_sub]
    exact hzero
  | _ => exact hconsults.elim

/-- After any run a question to the trie counts only nodes with a trusted validation that is current
at that time, if the vote of every other node lapses then, and only if so. When all validations are
stale and all votes and waits are for their ledgers, no ledger is preferred and no node counted. -/
theorem run_confirms {Slot : Type} [DecidableEq Slot] (A : Slots Slot (Cell Slot))
    (ha : a.Reachable) {requests : List (Surroundings × Request)}
    (h : Orderly a Set.univ requests) (timing : Timing) (henv : env.Honest a)
    (hconsults : request.Consults a) :
    Ends Bounded ((empty timing : Register (ArenaTrie A)).after requests) fun r =>
      Ends Bounded (r.step env request) fun o => ∃ now, env.now = .ok now ∧
        ((∀ n ∈ o.register.voters fun _ => true, o.register.Confirmed now n) ↔
          ∀ n, r.Confirmed now n ∨ Lapses env r now n) ∧
        ((∀ n v, r.current[n]? = some v → r.Stale now n v) → (∀ n, Traced r n) →
          o.answer.Void) := by
  refine ((sound_empty ha.sound timing).after ha.sound (fun _ => Or.inl) (room_bounded _) h).imp
    fun r hr => ?_
  refine (consult_ends ha.sound henv (fun _ => Or.inl) (room_bounded _) hr hconsults).imp ?_
  rintro o ⟨-, ⟨now, hnow, hfresh⟩, hvoid⟩
  exact ⟨now, hnow, hfresh.confirmed_iff, fun hstale htraced =>
    hvoid fun n => hfresh.silent_of_stale (hstale n) (htraced n)⟩

omit [VoteTrie T] [LawfulVoteTrie T] in
theorem getElem?_of_toList {β : Type} {table : Std.ExtTreeMap Nat β} {k n : Nat} {v w : β}
    (h : table.toList = [(k, v)]) : table[n]? = some w ↔ n = k ∧ w = v := by
  rw [← Std.ExtTreeMap.mem_toList_iff_getElem?_eq_some, h]
  simp

/-- No ledger is preferred when the only vote is for the ledger of a stale validation. -/
theorem run_confirms_fork :
    ∃ r o, (empty {} : Register (ArenaTrie (Slots.numbered (Cell Nat)))).after
        (Fork.script pledge) = pure r ∧ r.votes[1]? = some Fork.left ∧
      r.step (Fork.world Fork.late []) (.preferred .genesis) = pure o ∧ o.answer = .choice none := by
  obtain ⟨r, o, s, o', hr, ho, ⟨-, -, t, rfl, -⟩, ⟨hanswer, -, -⟩, htest⟩ :=
    Fork.exists_step (Slots.numbered (Cell Nat)) pledge (Fork.late, [], .preferred .genesis)
      (fun s o => s.timing == {} && s.current.toList == [(1, Fork.word 1 Fork.left Fork.early)] &&
        s.votes.toList == [(1, Fork.left)] && s.awaited.isEmpty &&
        match o.answer with
        | .choice _ => true
        | _ => false)
      (by simp [pledge, Request.Apt]) trivial (by decide +kernel)
  simp only [Bool.and_eq_true, beq_iff_eq] at htest
  obtain ⟨⟨⟨⟨htiming, hcurrent⟩, hvotes⟩, hawaited⟩, hchoice⟩ := htest
  have hword (n : Nat) (v : Validation) :
      r.current[n]? = some v ↔ n = 1 ∧ v = Fork.word 1 Fork.left Fork.early :=
    getElem?_of_toList hcurrent
  have hvote (n : Nat) (l : Ledger) : r.votes[n]? = some l ↔ n = 1 ∧ l = Fork.left :=
    getElem?_of_toList hvotes
  have hstale (n : Nat) (v : Validation) (hv : r.current[n]? = some v) :
      r.Stale Fork.late n v := by
    obtain ⟨rfl, rfl⟩ := (hword n v).mp hv
    refine ⟨hv, ?_⟩
    rw [show r.timing = {} from htiming]
    rfl
  have htraced (n : Nat) : Traced r n := by
    refine ⟨fun l hl => ?_, fun m hm => ?_⟩
    · obtain ⟨rfl, rfl⟩ := (hvote n l).mp hl
      exact ⟨_, (hword 1 _).mpr ⟨rfl, rfl⟩, rfl⟩
    · exact absurd hm (not_waits_of_isEmpty hawaited)
  obtain ⟨now, hnow, -, hvoid⟩ := ((run_confirms (Slots.numbered (Cell Nat))
    Fork.archive_reachable (Fork.orderly_script pledge (by simp [pledge, Request.Apt])) {}
    (Fork.honest Fork.late []) (show (Request.preferred .genesis).Consults Fork.archive from
      trivial)).result hr).result ho
  obtain rfl : Fork.late = now := Except.ok.inj hnow
  have hanswer : o.answer.Void := hvoid hstale htraced
  refine ⟨r, o, hr, (hvote 1 _).mpr ⟨rfl, rfl⟩, ho, ?_⟩
  cases h : o.answer with
  | choice mark => rw [show mark = none by simpa [h, Reply.Void] using hanswer]
  | _ => simp_all

/-- A vote that lags behind is still counted when all validations are stale. -/
theorem run_confirms_lagging :
    ∃ r o, (empty {} : Register (ArenaTrie (Slots.numbered (Cell Nat)))).after
        (Fork.script lagging) = pure r ∧
      r.step (Fork.world Fork.late [1]) (.nodesAfter .genesis 0) = pure o ∧
      o.answer = .count 1 ∧ o.register.current[1]? = none ∧
      o.register.votes[1]? = some Fork.trunk := by
  obtain ⟨r, o, s, o', hr, ho, -, ⟨hanswer, ⟨-, -, t, hs, -⟩, -⟩, htest⟩ :=
    Fork.exists_step (Slots.numbered (Cell Nat)) lagging (Fork.late, [1], .nodesAfter .genesis 0)
      (fun _ o => o.register.current[1]? == none && o.register.votes[1]? == some Fork.trunk &&
        match o.answer with
        | .count n => n == 1
        | _ => false)
      (by simp [lagging, Request.Apt]) (show Ledger.genesis ∈ Fork.archive.ledgers by decide)
      (by decide +kernel)
  simp only [Bool.and_eq_true, beq_iff_eq, hs, hanswer] at htest
  obtain ⟨⟨hcurrent, hvotes⟩, hcount⟩ := htest
  refine ⟨r, o, hr, ho, ?_, hcurrent, hvotes⟩
  cases h : o.answer with
  | count n => rw [show n = 1 by simpa [h] using hcount]
  | _ => simp_all

end Register

end ForkChoice

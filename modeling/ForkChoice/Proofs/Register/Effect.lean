import ForkChoice.Proofs.Register.Sweep

/-!
# What a request does

Each request either leaves current validations, votes and waits alone, or changes them by sweeping,
looking through the ledgers at hand, voting for a validation and taking it back. What it does to the
register is said as a relation between the states before and after.

* `Register.Effect`: the relation, for each request.
* `Register.TrustChanged.of_node`: a change of trust looks at each node once.
* `Register.receive_ends`, `Register.changeTrust_ends`: these computations keep a register sound, do
  no more than their effect says, and fail only for a time that is not representable or a lack of
  room for votes.
* `Register.preferred_ends`, `Register.nodesAfter_ends`: the answers that come from the trie.
-/

namespace ForkChoice

namespace Register

variable {T : Type} {a : Archive} {E : Fault → Prop} {nodes : Set Nat} {env : Surroundings}
  {r s : Register T} {node n : Nat} {v : Validation} {now : Time} {added removed : NodeSet}

/-- Current validations, votes and waits are the same. -/
structure Untouched (r s : Register T) : Prop where
  timing : s.timing = r.timing
  current : s.current = r.current
  trie : s.trie = r.trie
  votes : s.votes = r.votes
  awaited : s.awaited = r.awaited

theorem Untouched.waits (h : Untouched r s) {mark : Mark} : s.Waits n mark ↔ r.Waits n mark := by
  rw [Waits, Waits, h.awaited]

theorem trustAfter_cases (added removed : NodeSet) (node : Nat) :
    trustAfter added removed node = some true ∧ node ∈ added ∨
    trustAfter added removed node = some false ∧ node ∉ added ∧ node ∈ removed ∨
    trustAfter added removed node = none ∧ node ∉ added ∧ node ∉ removed := by
  unfold trustAfter
  simp only [Std.ExtTreeSet.contains_iff_mem]
  by_cases hadded : node ∈ added
  · simp [hadded]
  · by_cases hremoved : node ∈ removed
    · simp [hadded, hremoved]
    · simp [hadded, hremoved]

theorem Untouched.bystander (h : Untouched r s) (env : Surroundings) (node : Nat) :
    Bystander env node r s :=
  .unmoved (by rw [h.current]) (fun _ => h.waits) (by rw [h.votes])

/-- What becomes of a register that takes in a validation: nothing but what is filed, or the
validation becomes the current one of its node and is voted for if it is trusted. -/
def Received (env : Surroundings) (node : Nat) (v : Validation) (r s : Register T) : Prop :=
  Untouched r s ∨ ∃ installed,
    Untouched { r with current := r.current.insert node v } installed ∧
      if v.trusted then Enrolled env node v (r.current[node]?.map (·.mark)) installed s
      else s = installed

/-- What becomes of a register when the trust in the node of one entry changes. -/
def TrustChangedIn (env : Surroundings) (added removed : NodeSet) (entry : Nat × Validation)
    (r s : Register T) : Prop :=
  let v := restamp added removed entry.1 entry.2
  let changed := { r with current := r.current.insert entry.1 v }
  match trustAfter added removed entry.1 with
  | some true => Enrolled env entry.1 v none changed s
  | some false => Dismissed entry.1 v changed s
  | none => s = r

theorem TrustChangedIn.bystander (hs : TrustChangedIn env added removed (n, v) r s)
    (hn : n ≠ node) : Bystander env node r s := by
  unfold TrustChangedIn at hs
  dsimp only at hs
  split at hs
  · exact (hs.bystander hn).of_insertCurrent hn
  · exact (hs.bystander hn).of_insertCurrent hn
  · exact .unmoved (by rw [hs]) (fun m => by rw [hs]) (by rw [hs])

/-- What becomes of a register when the trust in the nodes of several entries changes, one after
another. -/
inductive TrustChangedAlong (env : Surroundings) (added removed : NodeSet) :
    List (Nat × Validation) → Register T → Register T → Prop
  | nil (r : Register T) : TrustChangedAlong env added removed [] r r
  | cons {entry : Nat × Validation} {rest : List (Nat × Validation)} {r s s' : Register T} :
    TrustChangedIn env added removed entry r s → TrustChangedAlong env added removed rest s s' →
      TrustChangedAlong env added removed (entry :: rest) r s'

/-- What becomes of a register when the trust in nodes changes. -/
def TrustChanged (env : Surroundings) (added removed : NodeSet) (r s : Register T) : Prop :=
  ∃ entries changed, (entries.map (·.1)).Nodup ∧
    (∀ n v, (n, v) ∈ entries ↔ r.current[n]? = some v) ∧
    TrustChangedAlong env added removed entries r changed ∧ Untouched changed s

section Node

variable {P Q : Register T → Prop} {entries : List (Nat × Validation)}
  (hP : ∀ {r s}, Bystander env node r s → P r → P s)
  (hQ : ∀ {r s}, Bystander env node r s → Q r → Q s)
  (hturn : ∀ {v r s}, TrustChangedIn env added removed (node, v) r s →
    r.current[node]? = some v → P r → Q s)

include hP hQ hturn

/-- A node is looked at once: before that the one property holds of it, after that the other. -/
theorem TrustChangedAlong.of_node (hs : TrustChangedAlong env added removed entries r s)
    (hnodup : (entries.map (·.1)).Nodup)
    (hcurrent : ∀ v, (node, v) ∈ entries → r.current[node]? = some v)
    (hin : node ∈ entries.map (·.1) → P r) (hout : node ∉ entries.map (·.1) → Q r) : Q s := by
  induction hs with
  | nil r => exact hout List.not_mem_nil
  | @cons entry rest r s s' hentry _ ih =>
    obtain ⟨n, v⟩ := entry
    obtain ⟨hn, hnodup⟩ := List.nodup_cons.mp hnodup
    by_cases hnode : n = node
    · subst hnode
      have hlast := hturn hentry (hcurrent v List.mem_cons_self) (hin List.mem_cons_self)
      refine ih hnodup (fun w hw => ?_) (fun hmem => absurd hmem hn) fun _ => hlast
      exact absurd (List.mem_map.mpr ⟨(n, w), hw, rfl⟩) hn
    · have hother := hentry.bystander hnode
      refine ih hnodup (fun w hw => ?_) (fun hmem => ?_) fun hmem => ?_
      · exact hother.current.trans (hcurrent w (List.mem_cons_of_mem _ hw))
      · exact hP hother (hin (List.mem_cons_of_mem _ hmem))
      · refine hQ hother (hout fun hcons => ?_)
        exact (List.mem_cons.mp hcons).elim (fun h => hnode h.symm) hmem

theorem TrustChanged.of_node (hs : TrustChanged env added removed r s)
    (hnone : r.current[node]? = none → P r → Q r) (h : P r) : Q s := by
  obtain ⟨entries, changed, hnodup, hentries, hchanged, huntouched⟩ := hs
  refine hQ (huntouched.bystander env node) (hchanged.of_node hP hQ hturn hnodup
    (fun v hv => (hentries node v).mp hv) (fun _ => h) fun hout => hnone ?_ h)
  cases hv : r.current[node]? with
  | none => rfl
  | some v => exact absurd (List.mem_map.mpr ⟨(node, v), (hentries node v).mpr hv, rfl⟩) hout

end Node

/-- What becomes of a register in a request. -/
def Effect (env : Surroundings) (r s : Register T) : Request → Prop
  | .receive node v => Received env node v r s
  | .changeTrust added removed => TrustChanged env added removed r s
  | .preferred _ | .preferredId _ _ | .preferredClosed _ _ _ =>
    ∃ now, env.now = .ok now ∧ Refreshed env now r s
  | .nodesAfter l id => if l.id = id then ∃ now, env.now = .ok now ∧ Refreshed env now r s else s = r
  | .currentTrusted | .currentNodes | .laggards _ _ => ∃ now, env.now = .ok now ∧ Swept now r s
  | .flush => s = { r with current := ∅ }
  | .mayValidate _ | .keep _ _ | .expire | .countTrusted _ | .trustedFor _ _ | .fees _ _ =>
    Untouched r s

end Register

/-- A request about the nodes and ledgers that there are. -/
def Request.Apt (a : Archive) (nodes : Set Nat) : Request → Prop
  | .receive node _ => node ∈ nodes
  | .nodesAfter l _ => l ∈ a.ledgers
  | _ => True

/-- The ledger to work on can be told when the tip does not lie above its backing ledger. -/
theorem Register.choose_ok {tip : Tip} (h : tip.seq ≤ tip.backing.seq) (curr : Ledger) :
    ∃ mark, choose curr tip = .ok mark := by
  have hlast (isParent : Bool) : ∃ mark, (if isParent then Except.ok curr.mark
      else if curr.seq < tip.seq then .ok tip.mark
      else do
        let id ← curr.ancestor tip.seq
        .ok (if id = tip.id then curr.mark else tip.mark)) = Except.ok (ε := Fault) mark := by
    split
    · exact ⟨_, rfl⟩
    · split
      · exact ⟨_, rfl⟩
      · rename_i hlt
        rw [Ledger.ancestor, dif_pos (Nat.le_of_not_lt hlt)]
        exact ⟨_, rfl⟩
  rw [choose]
  split
  · rename_i hseq
    rw [Tip.ancestor, Ledger.ancestor, dif_pos (by omega)]
    exact hlast _
  · exact hlast false

namespace Register

variable {T : Type} {a : Archive} {E : Fault → Prop} {nodes : Set Nat} {env : Surroundings}
  {r s : Register T} {node n : Nat} {v : Validation} {now : Time} {added removed : NodeSet}
  [VoteTrie T] [LawfulVoteTrie T]

theorem Sound.untouched (h : r.Sound a nodes) (hs : Untouched r s) : s.Sound a nodes where
  holds := by
    rw [hs.votes, hs.trie]
    exact h.holds
  drawn := by
    rw [hs.votes]
    exact h.drawn
  awaited mark hmark := by
    obtain ⟨n, hn⟩ := h.awaited mark (hs.awaited ▸ hmark)
    exact ⟨n, hs.waits.mpr hn⟩
  voting := by
    rw [voters, hs.votes]
    exact h.voting
  waiting n mark hn := h.waiting n mark (hs.waits.mp hn)
  current := by
    rw [hs.current]
    exact h.current

theorem Sound.insertCurrent (h : r.Sound a nodes) (hnode : node ∈ nodes) (v : Validation) :
    ({ r with current := r.current.insert node v } : Register T).Sound a nodes where
  holds := h.holds
  drawn := h.drawn
  awaited := h.awaited
  voting := h.voting
  waiting := h.waiting
  current n hn := by
    rcases Std.ExtTreeMap.mem_insert.mp hn with hn | hn
    · exact Nat.compare_eq_eq.mp hn ▸ hnode
    · exact h.current n hn

variable (ha : a.Sound) (henv : env.Honest a) (hE : ∀ fault, fault.External → E fault)
  (hroom : Room E nodes)

include ha henv

/-! ## Receiving -/

include hE hroom in
theorem receive_ends (h : r.Sound a nodes) (hnode : node ∈ nodes) (v : Validation) :
    Ends E (r.receive env node v) fun o =>
      o.register.Sound a nodes ∧ Received env node v r o.register := by
  -- a validation is filed before it is installed, which leaves the votes alone
  have hinstall {filed : Register T} (hfiled : Untouched r filed) :
      Ends E (filed.install env node v r.current[node]?) fun o =>
        o.register.Sound a nodes ∧ Received env node v r o.register := by
    have huntouched : Untouched { r with current := r.current.insert node v }
        { filed with current := filed.current.insert node v } :=
      ⟨hfiled.timing, congrArg (·.insert node v) hfiled.current, hfiled.trie, hfiled.votes,
        hfiled.awaited⟩
    have hsound := (h.insertCurrent hnode v).untouched huntouched
    rw [install]
    dsimp only
    by_cases htrusted : v.trusted = true
    · simp only [htrusted, if_true]
      refine (enroll_ends ha henv hroom hsound hnode v _).bind ?_
      rintro s ⟨hs, henrolled⟩
      refine Ends.pure ⟨hs, Or.inr ⟨_, huntouched, ?_⟩⟩
      rw [if_pos htrusted]
      exact henrolled
    · simp only [if_neg htrusted]
      refine Ends.pure ⟨hsound, Or.inr ⟨_, huntouched, ?_⟩⟩
      rw [if_neg htrusted]
  have hkeep {o : Outcome T Verdict} (hs : Untouched r o.register) :
      o.register.Sound a nodes ∧ Received env node v r o.register :=
    ⟨h.untouched hs, Or.inl hs⟩
  rw [receive]
  refine Ends.bind (P := fun _ => True)
    (Ends.liftM (fun _ _ => trivial) fun fault hfault => hE _ (henv.clock fault hfault)) fun now _ => ?_
  refine Ends.bind (P := fun _ => True) ?_ fun current _ => ?_
  · rcases r.timing.isCurrent_cases now v.signed v.seen with ⟨b, hb⟩ | hfault
    · exact hb ▸ Ends.pure trivial
    · exact hfault ▸ Ends.throw (hE _ .timeOverflow)
  cases current with
  | false => exact Ends.pure (hkeep ⟨rfl, rfl, rfl, rfl, rfl⟩)
  | true =>
    simp only [if_true]
    refine Ends.bind (P := fun _ => True) ?_ fun answer _ => ?_
    · rcases ((r.track env node v).guards.getD node {}).advance_cases (r.track env node v).timing
        env.steady v.seq with ⟨answer, hanswer⟩ | hfault
      · exact hanswer ▸ Ends.pure trivial
      · exact hfault ▸ Ends.throw (hE _ .timeOverflow)
    obtain ⟨rising, guard⟩ := answer
    cases rising with
    | false => exact Ends.pure (hkeep ⟨rfl, rfl, rfl, rfl, rfl⟩)
    | true =>
      simp only [if_true]
      split
      · rename_i hnone
        have hnone : r.current[node]? = none := hnone
        rw [← hnone]
        exact hinstall ⟨rfl, rfl, rfl, rfl, rfl⟩
      · rename_i old hold
        have hold : r.current[node]? = some old := hold
        split
        · rw [← hold]
          exact hinstall ⟨rfl, rfl, rfl, rfl, rfl⟩
        · exact Ends.pure (hkeep ⟨rfl, rfl, rfl, rfl, rfl⟩)

/-! ## Trust -/

include hroom in
theorem changeTrustIn_ends (h : r.Sound a nodes) (added removed : NodeSet)
    {entry : Nat × Validation} (hnode : entry.1 ∈ nodes) :
    Ends E (changeTrustIn env added removed r entry) fun s =>
      s.Sound a nodes ∧ TrustChangedIn env added removed entry r s := by
  have hchanged := h.insertCurrent hnode (restamp added removed entry.1 entry.2)
  rw [changeTrustIn]
  unfold TrustChangedIn
  dsimp only
  cases trustAfter added removed entry.1 with
  | none => exact Ends.pure ⟨h, rfl⟩
  | some trusted =>
    cases trusted with
    | true => exact enroll_ends ha henv hroom hchanged hnode _ _
    | false => exact dismiss_ends ha hchanged entry.1 _

include hroom in
theorem changeTrustAlong_end (added removed : NodeSet) (entries : List (Nat × Validation))
    (hnodes : ∀ e ∈ entries, e.1 ∈ nodes) (h : r.Sound a nodes) :
    Ends E (entries.foldlM (changeTrustIn env added removed) r) fun s =>
      s.Sound a nodes ∧ TrustChangedAlong env added removed entries r s := by
  induction entries generalizing r with
  | nil => exact Ends.pure ⟨h, .nil r⟩
  | cons entry rest ih =>
    rw [List.foldlM_cons]
    refine (changeTrustIn_ends ha henv hroom h added removed
      (hnodes entry List.mem_cons_self)).bind ?_
    rintro s ⟨hs, hentry⟩
    exact (ih (fun e he => hnodes e (List.mem_cons_of_mem _ he)) hs).imp fun s' hs' =>
      ⟨hs'.1, .cons hentry hs'.2⟩

include hroom in
theorem changeTrust_ends (h : r.Sound a nodes) (added removed : NodeSet) :
    Ends E (r.changeTrust env added removed) fun o =>
      o.register.Sound a nodes ∧ TrustChanged env added removed r o.register := by
  have hentries : ∀ n v, (n, v) ∈ r.entries env ↔ r.current[n]? = some v := fun n v =>
    mem_byRank.trans Std.ExtTreeMap.mem_toList_iff_getElem?_eq_some
  have hnodup : ((r.entries env).map (·.1)).Nodup :=
    ((byRank_perm _ r.current.toList).map _).nodup_iff.mpr (nodup_entries r.current)
  rw [changeTrust]
  refine (changeTrustAlong_end ha henv hroom added removed _ (fun e he => ?_) h).bind ?_
  · refine h.current e.1 ?_
    rw [Std.ExtTreeMap.mem_iff_isSome_getElem?, (hentries e.1 e.2).mp he]
    rfl
  · rintro s ⟨hs, hchanged⟩
    have huntouched : Untouched s
        { s with byLedger := s.byLedger.map (·.map (restamp added removed)) } :=
      ⟨rfl, rfl, rfl, rfl, rfl⟩
    exact Ends.pure ⟨hs.untouched huntouched, _, s, hnodup, hentries, hchanged, huntouched⟩

/-! ## Questions to the trie -/

include hE hroom in
/-- The ledger to work on is told after the register was brought up to date. Without votes and waits
there is none. -/
theorem preferred_ends (h : r.Sound a nodes) (curr : Ledger) :
    Ends E (r.preferred env curr) fun o => o.register.Sound a nodes ∧
      (∃ now, env.now = .ok now ∧ Refreshed env now r o.register) ∧
      ((∀ n, o.register.Silent n) → o.answer = none) := by
  rw [preferred]
  refine (refresh_ends ha henv hE hroom h).bind ?_
  rintro fresh ⟨hs, hfresh⟩
  obtain ⟨answer, hanswer, hnone, htip⟩ :=
    LawfulVoteTrie.preferred fresh.register.own.largest ha hs.holds
  dsimp only
  rw [hanswer, pure_bind]
  cases answer with
  | none =>
    refine Ends.pure ⟨hs, hfresh, fun hsilent => ?_⟩
    have hempty : fresh.register.awaited.toList = [] := by
      rw [Std.ExtTreeMap.toList_eq_nil_iff, Std.ExtTreeMap.eq_empty_iff_forall_not_mem]
      intro mark hmark
      obtain ⟨n, hn⟩ := hs.awaited mark hmark
      exact (hsilent n).waits mark hn
    rw [hempty, (byRank_perm _ []).eq_nil]
    rfl
  | some tip =>
    obtain ⟨mark, hmark⟩ := choose_ok (htip tip rfl).1.reached curr
    dsimp only
    rw [hmark]
    refine Ends.pure ⟨hs, hfresh, fun hsilent => ?_⟩
    have := hnone.mpr (ballots_eq_zero hsilent)
    cases this

include hE hroom in
/-- The voters for a descendant of a ledger are counted after the register was brought up to
date. -/
theorem nodesAfter_ends (h : r.Sound a nodes) {l : Ledger} (hl : l ∈ a.ledgers) :
    Ends E (r.nodesAfter env l l.id) fun o => o.register.Sound a nodes ∧
      (∃ now, env.now = .ok now ∧ Refreshed env now r o.register) ∧
      o.answer = (o.register.voters (·.leadsTo l)).card - (o.register.voters (· == l)).card := by
  rw [nodesAfter, if_pos rfl]
  refine (refresh_ends ha henv hE hroom h).bind ?_
  rintro fresh ⟨hs, hfresh⟩
  have hle : (fresh.register.voters (· == l)).card ≤
      (fresh.register.voters (·.leadsTo l)).card := by
    refine Finset.card_le_card fun n hn => ?_
    obtain ⟨m, hm, hml⟩ := mem_votersIn.mp hn
    refine mem_votersIn.mpr ⟨m, hm, ?_⟩
    rw [Ledger.leadsTo, hml, Bool.true_or]
  rw [hs.branchSupport ha hl, pure_bind, hs.tipSupport ha hl, pure_bind, debit, if_pos hle]
  exact Ends.pure ⟨hs, hfresh, rfl⟩

end Register

end ForkChoice

import ForkChoice.Proofs.Trie.Arena.Stability

/-!
# Counts and places of 32 bits

Votes and places in a history are numbers of 32 bits. A trie that was reached without a fault has
room for every sum and difference that a call or a question makes, but for the one that takes the
count of all votes out of its range.

* `Uncommitted.advanceNarrow`, `ArenaTrie.preferredNarrow`: the walk to the preferred ledger with
  the places next to one another as sums of 32 bits.
* `ArenaTrie.descend`, `ArenaTrie.preferredStep_eq`: what a step does at the end of a segment.
* `Node.Held.preferredNarrow_eq`: the same walk, when all segments end in range.
* `ArenaTrie.run_exact`: what overflows after a run, and what does not.
-/

namespace ForkChoice

namespace Uncommitted

/-- Goes along a segment as `advance` does. The place behind a sequence number is a checked sum. -/
def advanceNarrow (stop branch next votes : Nat) : Tally → Except Fault (Nat × Uncommitted)
  | [] =>
    if next < stop ∧ votes < branch then .ok (stop, ⟨votes, []⟩) else .ok (next, ⟨votes, []⟩)
  | (seq, more) :: ahead =>
    if next < stop ∧ votes < branch then
      if seq < stop then do
        let next ← credit seq 1
        let votes ← credit votes more
        advanceNarrow stop branch next votes ahead
      else .ok (stop, ⟨votes, (seq, more) :: ahead⟩)
    else .ok (next, ⟨votes, (seq, more) :: ahead⟩)

/-- A sequence number before the end of a segment has a place behind it. -/
theorem credit_one {seq stop : Nat} (hstop : stop ≤ maxSupport) (hseq : seq < stop) :
    credit seq 1 = .ok (seq + 1) := by
  rw [credit, if_pos (by omega)]

theorem advanceNarrow_eq {stop : Nat} (hstop : stop ≤ maxSupport) (branch next votes : Nat)
    (ahead : Tally) :
    advanceNarrow stop branch next votes ahead = advance stop branch next votes ahead := by
  induction ahead generalizing next votes with
  | nil => rfl
  | cons entry ahead ih =>
    obtain ⟨seq, more⟩ := entry
    rw [advanceNarrow, advance]
    by_cases hseq : seq < stop
    · rw [credit_one hstop hseq]
      simp only [ih]
      rfl
    · simp only [hseq, if_false]

end Uncommitted

variable {Slot : Type} {A : Slots Slot (Cell Slot)} {s : A.Store}

namespace ArenaTrie

/-- Where a walk goes from a place of a segment: to the favourite branch, if it has come to the end
and the uncommitted votes cannot overturn it. -/
def descend (s : A.Store) (c : Cell Slot) (next : Nat) (u : Uncommitted) :
    Except Fault ((Slot × Nat × Tally) ⊕ Option Tip) := do
  if next < c.segment.stop then return .inr ((c.segment.before next).map (·.tip))
  let children ← c.children.mapM (A.read s)
  match ← Node.favorite (children.map (·.bare)) with
  | none => return .inr (some c.segment.tip)
  | some (place, margin) =>
    if u.votes < margin ∨ u.votes = 0 then
      match c.children[place]? with
      | some k => return .inl (k, u.votes, u.ahead)
      | none => return .inr (some c.segment.tip)
    else return .inr (some c.segment.tip)

/-- Goes along one segment as `preferredStep` does. The places behind a sequence number are checked
sums. -/
def preferredStepNarrow (s : A.Store) (largestIssued : Nat) :
    Slot × Nat × Tally → Except Fault ((Slot × Nat × Tally) ⊕ Option Tip)
  | (i, votes, ahead) => do
    let c ← A.read s i
    let next ← credit c.segment.start 1
    let u ← Uncommitted.absorb (max next largestIssued) votes ahead
    let arrival ← Uncommitted.advanceNarrow c.segment.stop c.branchSupport next u.votes u.ahead
    descend s c arrival.1 arrival.2

/-- The preferred tip, found with checked sums alone. -/
def preferredNarrow (t : ArenaTrie A) (largestIssued : Nat) : Computation (Option Tip) := do
  if ← t.isEmpty then return none
  loop (preferredStepNarrow t.store largestIssued) (t.root, 0, t.seqSupport.toList)

variable {c : Cell Slot} {i k : Slot} {largestIssued votes votes' : Nat} {ahead ahead' : Tally}

theorem preferredStep_eq (s : A.Store) (largestIssued : Nat) (i : Slot) (votes : Nat)
    (ahead : Tally) : preferredStep s largestIssued (i, votes, ahead) = (do
      let c ← A.read s i
      let u ← Uncommitted.absorb (max (c.segment.start + 1) largestIssued) votes ahead
      let arrival ← Uncommitted.advance c.segment.stop c.branchSupport (c.segment.start + 1)
        u.votes u.ahead
      descend s c arrival.1 arrival.2) := rfl

theorem preferredStepNarrow_eq (hread : A.read s i = .ok c) (hstop : c.segment.stop ≤ maxSupport) :
    preferredStepNarrow s largestIssued (i, votes, ahead) =
      preferredStep s largestIssued (i, votes, ahead) := by
  have hstart := Uncommitted.credit_one hstop c.segment.start_lt_stop
  rw [preferredStepNarrow, preferredStep_eq, hread]
  simp only [bind, Except.bind, hstart, Uncommitted.advanceNarrow_eq hstop]

theorem mem_children_of_descend {next : Nat} {u : Uncommitted}
    (h : descend s c next u = .ok (.inl (k, votes', ahead'))) : k ∈ c.children := by
  unfold descend at h
  split at h
  · cases h
  · simp only [bind, Except.bind] at h
    cases hcells : c.children.mapM (A.read s) with
    | error fault => simp [hcells] at h
    | ok cells =>
      simp only [hcells] at h
      cases hfavorite : Node.favorite (cells.map (·.bare)) with
      | error fault => simp [hfavorite] at h
      | ok best =>
        simp only [hfavorite] at h
        cases best with
        | none => cases h
        | some best =>
          dsimp only at h
          split at h
          · cases hchild : c.children[best.1]? with
            | none =>
              rw [hchild] at h
              cases h
            | some child =>
              rw [hchild] at h
              cases h
              exact List.mem_of_getElem? hchild
          · cases h

/-- The walk goes on to a child. -/
theorem mem_children_of_preferredStep (hread : A.read s i = .ok c)
    (hstep : preferredStep s largestIssued (i, votes, ahead) = .ok (.inl (k, votes', ahead'))) :
    k ∈ c.children := by
  rw [preferredStep_eq, hread] at hstep
  simp only [bind, Except.bind] at hstep
  cases habsorb : Uncommitted.absorb (max (c.segment.start + 1) largestIssued) votes ahead with
  | error fault => simp [habsorb] at hstep
  | ok u =>
    simp only [habsorb] at hstep
    cases hadvance : Uncommitted.advance c.segment.stop c.branchSupport (c.segment.start + 1)
        u.votes u.ahead with
    | error fault => simp [hadvance] at hstep
    | ok arrival =>
      simp only [hadvance] at hstep
      exact mem_children_of_descend hstep

end ArenaTrie

namespace Node

variable {parent : Option Slot} {i : Slot} {n : Node} {slots : List Slot}
  {largestIssued votes : Nat} {ahead : Tally}

/-- Checked sums make no difference to a walk through segments that end in range. -/
theorem Held.preferredNarrow_eq (h : Held (A.get s) parent i n slots)
    (hstop : ∀ m ∈ n.nodes, m.segment.stop ≤ maxSupport) :
    loop (ArenaTrie.preferredStepNarrow s largestIssued) (i, votes, ahead) =
      loop (ArenaTrie.preferredStep s largestIssued) (i, votes, ahead) := by
  induction n using below_induction generalizing parent i slots votes ahead with
  | node n ih =>
    obtain ⟨kids, below, -, hread, hbelow⟩ := h.read_eq
    rw [loop_eq, loop_eq (ArenaTrie.preferredStep s largestIssued),
      ArenaTrie.preferredStepNarrow_eq hread (hstop n n.self_mem_nodes)]
    cases hstep : ArenaTrie.preferredStep s largestIssued (i, votes, ahead) with
    | error fault => rfl
    | ok next =>
      rcases next with ⟨k, votes', ahead'⟩ | answer
      · obtain ⟨place, hplace⟩ :=
          List.mem_iff_getElem?.mp (ArenaTrie.mem_children_of_preferredStep hread hstep)
        rcases hbelow.getElem? place with ⟨hnone, -⟩ | ⟨k', c, others, hkid, hchild, hheld⟩
        · rw [show kids[place]? = some k from hplace] at hnone
          cases hnone
        · obtain rfl : k' = k := Option.some.inj (hkid.symm.trans hplace)
          have hc := List.mem_of_getElem? hchild
          exact ih c hc hheld fun m hm => hstop m (mem_nodes_of_child hc hm)
      · rfl

end Node

namespace ArenaTrie

variable [DecidableEq Slot] {a : Archive} {t : ArenaTrie A} {V : Multiset Ledger} {l : Ledger}
  {changes : List Change}

/-! ## A trie that holds votes -/

/-- The root counts all votes. -/
theorem holds_root (h : Holds a V t) :
    ∃ root, A.get t.store t.root = some root ∧ root.branchSupport = V.card := by
  obtain ⟨S, ht, hS, -⟩ := h
  obtain ⟨slots, hheld, -⟩ := ht.held
  obtain ⟨kids, hroot⟩ := hheld.get_eq
  exact ⟨_, hroot, hS.branchSupport_root⟩

/-- Votes can be cast exactly as long as the count of all votes stays in range. -/
theorem holds_insert (ha : a.Sound) (h : Holds a V t) (hl : l ∈ a.ledgers) (votes : Nat) :
    (t.insert l votes = throw .supportOverflow ↔ maxSupport < V.card + votes) ∧
      ((∃ t', t.insert l votes = pure t') ↔ V.card + votes ≤ maxSupport) := by
  have hcard : (V + Multiset.replicate votes l).card = V.card + votes := by
    rw [Multiset.card_add, Multiset.card_replicate]
  have hinsert : t.insert l votes = VoteTrie.insert t l votes := rfl
  rw [hinsert, ← hcard]
  rcases LawfulVoteTrie.insert votes ha h hl with ⟨t', ht', hholds⟩ | ⟨fault, hthrow, rfl, hover⟩
  · have hle := LawfulVoteTrie.card_le hholds
    rw [ht']
    refine ⟨⟨fun h => absurd h (pure_ne_throw _ _), fun h => ?_⟩, fun _ => hle, fun _ => ⟨t', rfl⟩⟩
    omega
  · rw [hthrow]
    refine ⟨⟨fun _ => hover, fun _ => rfl⟩, ?_, fun h => ?_⟩
    · rintro ⟨t', ht'⟩
      exact absurd ht'.symm (pure_ne_throw _ _)
    · omega

/-- Withdrawing votes always comes to an end. -/
theorem holds_withdraw (ha : a.Sound) (h : Holds a V t) (hl : l ∈ a.ledgers)
    (votes : Nat) : ∃ answer, t.withdraw l votes = pure answer := by
  by_cases hmem : l ∈ V
  · obtain ⟨t', hwithdraw, -⟩ := LawfulVoteTrie.withdraw votes ha h hl hmem
    exact ⟨_, hwithdraw⟩
  · obtain ⟨S, ht, hS, -⟩ := h
    have htip : S.tipSupport l = 0 := by
      rw [hS.tipSupport_eq ha hl, Multiset.count_eq_zero_of_notMem hmem]
    exact ⟨_, ht.withdraw_absent ha hl hS.toRooted htip⟩

/-- A ledger has no more votes of its own than its branch has. -/
theorem holds_debit (ha : a.Sound) (h : Holds a V t) (hl : l ∈ a.ledgers) :
    ∃ tip branch, t.tipSupport l = pure tip ∧ t.branchSupport l = pure branch ∧
      debit branch tip = .ok (branch - tip) := by
  have hle : V.count l ≤ V.countP (·.leadsTo l) := by
    have hown := Multiset.countP_le_of_le (fun m : Ledger => m.leadsTo l = true)
      (Multiset.le_count_iff_replicate_le.mp (le_refl (V.count l)))
    rwa [countP_replicate, if_pos l.leadsTo_refl] at hown
  refine ⟨_, _, LawfulVoteTrie.tipSupport ha h hl, LawfulVoteTrie.branchSupport ha h hl, ?_⟩
  rw [debit, if_pos hle]

/-- The walk to the preferred ledger comes to an end, also with checked sums. -/
theorem holds_preferredNarrow (ha : a.Sound) (hseq : ∀ l ∈ a.ledgers, l.seq < maxSupport)
    (h : Holds a V t) (largestIssued : Nat) : ∃ answer,
      t.preferred largestIssued = pure answer ∧ t.preferredNarrow largestIssued = pure answer := by
  obtain ⟨answer, hanswer, -⟩ := LawfulVoteTrie.preferred largestIssued ha h
  obtain ⟨S, ht, hS, -⟩ := h
  obtain ⟨slots, hheld, -⟩ := ht.held
  -- a segment reaches at most one place past a ledger of the archive
  have hstop : ∀ m ∈ S.root.nodes, m.segment.stop ≤ maxSupport := by
    intro m hm
    have := m.segment.stop_le
    have := hseq _ (hS.formed m hm).backed
    omega
  have hnarrow : t.preferredNarrow largestIssued = t.preferred largestIssued := by
    rw [preferredNarrow, preferred, hheld.preferredNarrow_eq hstop]
  exact ⟨answer, hanswer, hnarrow.trans hanswer⟩

/-! ## After a run -/

/-- After any run without a fault, on ledgers whose places fit in 32 bits, casting votes overflows
exactly when the count of all votes would. No other call or question overflows or underflows, the
places that the walk to the preferred ledger comes to included, and no ledger has more votes of its
own than its branch has. -/
theorem run_exact (ha : a.Reachable) (hseq : ∀ l ∈ a.ledgers, l.seq < maxSupport)
    (hdrawn : ∀ c ∈ changes, c.ledger ∈ a.ledgers) (hrun : run A changes = pure t) :
    ∃ root, A.get t.store t.root = some root ∧
      (∀ l ∈ a.ledgers, ∀ count : Option Nat,
        credit l.seq 1 = .ok (Segment.ofLedger l).stop ∧
        (t.insert l (count.getD 1) = throw .supportOverflow ↔
          maxSupport < root.branchSupport + count.getD 1) ∧
        ((∃ t', t.insert l (count.getD 1) = pure t') ↔
          root.branchSupport + count.getD 1 ≤ maxSupport) ∧
        (∃ answer, t.withdraw l (count.getD 1) = pure answer) ∧
        ∃ tip branch, t.tipSupport l = pure tip ∧ t.branchSupport l = pure branch ∧
          debit branch tip = .ok (branch - tip)) ∧
      t.check = pure true ∧
      ∀ largestIssued, ∃ answer, t.preferred largestIssued = pure answer ∧
        t.preferredNarrow largestIssued = pure answer := by
  have hholds := holds_run A ha.sound hdrawn t hrun
  obtain ⟨root, hroot, hbranch⟩ := holds_root hholds
  refine ⟨root, hroot, fun l hl count => ?_, ?_, holds_preferredNarrow ha.sound hseq hholds⟩
  · obtain ⟨hover, hfits⟩ := holds_insert ha.sound hholds hl (count.getD 1)
    rw [hbranch]
    refine ⟨Uncommitted.credit_one (hseq l hl) (Nat.lt_succ_self _), hover, hfits, ?_, ?_⟩
    · exact holds_withdraw ha.sound hholds hl _
    · exact holds_debit ha.sound hholds hl
  · obtain ⟨S, ht, hS, hV⟩ := hholds
    exact ht.check_eq hS hV

/-- With five votes in the trie, one more vote than there is room for overflows. -/
theorem run_exact_fork :
    Fork.archive.Reachable ∧ (∀ l ∈ Fork.archive.ledgers, l.seq < maxSupport) ∧
      (∀ c ∈ leaning, c.ledger ∈ Fork.archive.ledgers) ∧
      ∃ t, run (Slots.numbered _) leaning = pure t ∧
        (∃ t', t.insert Fork.left (maxSupport - 5) = pure t') ∧
        t.insert Fork.left (maxSupport - 4) = throw .supportOverflow ∧ t.check = pure true ∧
        ∃ answer, t.preferredNarrow 3 = pure answer := by
  have hseq : ∀ l ∈ Fork.archive.ledgers, l.seq < maxSupport := by decide
  have hdrawn := leaning_admissible.drawn
  obtain ⟨t, hrun, -⟩ := exists_run_leaning (Slots.numbered _)
  have hholds := holds_run _ Fork.archive_reachable.sound hdrawn t hrun
  obtain ⟨root, hroot, hledgers, hcheck, hpreferred⟩ :=
    run_exact Fork.archive_reachable hseq hdrawn hrun
  have hbranch : root.branchSupport = 5 := by
    obtain ⟨root', hroot', hbranch⟩ := holds_root hholds
    obtain rfl : root = root' := Option.some.inj (hroot.symm.trans hroot')
    exact hbranch.trans (by decide)
  refine ⟨Fork.archive_reachable, hseq, hdrawn, t, hrun, ?_, ?_, hcheck, ?_⟩
  · apply (hledgers Fork.left (by decide) (some (maxSupport - 5))).2.2.1.mpr
    rw [hbranch]
    decide
  · apply (hledgers Fork.left (by decide) (some (maxSupport - 4))).2.1.mpr
    rw [hbranch]
    decide
  · obtain ⟨answer, -, hanswer⟩ := hpreferred 3
    exact ⟨answer, hanswer⟩

end ArenaTrie

end ForkChoice

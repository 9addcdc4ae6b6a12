import ForkChoice.Proofs.Register.Tables
import ForkChoice.Proofs.Trie.Lawful

/-!
# What becomes of votes and waits

The trie of a register holds the votes of its table, and every way to change a vote keeps it so. What
else changes is said node by node: the vote of a node, and the ledgers that it waits for.

* `Register.Kept`, `Register.Sound`: the trie holds the votes, and no ledger is awaited by nobody.
* `Register.turned`: the vote of a node after all awaited ledgers were looked at.
* `Register.Settled`, `Register.Enrolled`, `Register.Dismissed`: what becomes of votes and waits when
  awaited ledgers come, when a validation is voted for and when it is taken back.
* `Register.vote_kept`, `Register.settle_ends`, `Register.enroll_ends`, `Register.dismiss_ends`: these
  computations keep a register sound, and end so.
-/

namespace ForkChoice

variable {T : Type} {a : Archive} {E : Fault → Prop} {nodes : Set Nat} {env : Surroundings}

/-- The faults that do not come from votes: a time that is not representable, or an empty range of
sequence numbers to keep. -/
inductive Fault.External : Fault → Prop
  | timeOverflow : External .timeOverflow
  | timeUnderflow : External .timeUnderflow
  | emptyKeepRange : External .emptyKeepRange

/-- A ledger that is at hand is the one of the archive that has the identifier. -/
structure Surroundings.Honest (a : Archive) (env : Surroundings) : Prop where
  drawn : ∀ {id l}, env.acquire id = some l → l ∈ a.ledgers
  id_eq : ∀ {id l}, env.acquire id = some l → l.id = id
  clock : ∀ fault, env.now = .error fault → fault.External

/-- The votes of some nodes fit in a count, unless the fault that they do not may occur. -/
def Room (E : Fault → Prop) (nodes : Set Nat) : Prop :=
  ∀ s : Finset Nat, (∀ n ∈ s, n ∈ nodes) → maxSupport < s.card → E .supportOverflow

/-- What becomes of the vote of a node when ledgers come: it stays if the node waits for none of
them, else it is for one of them. -/
def Turned (env : Surroundings) (waits : Mark → Prop) (old new : Option Ledger) : Prop :=
  (new = old ∧ ∀ mark, waits mark → env.acquire mark.id = none) ∨
    ∃ mark l, waits mark ∧ env.acquire mark.id = some l ∧ new = some l

namespace Register

variable {r s : Register T} {node : Nat} {mark : Mark} {l : Ledger} {v : Validation}

/-- A register without its votes and waits. -/
def records (r : Register T) : Register Unit :=
  { r with trie := (), votes := ∅, awaited := ∅ }

/-- A register with other votes. -/
def withVotes (r : Register T) (trie : T) (votes : Votes) : Register T := { r with trie, votes }

/-- A register in which a node no longer waits for a ledger that it may have waited for. -/
def release (r : Register T) (prior : Option Mark) (node : Nat) : Register T :=
  match prior with
  | some mark => r.stopWaiting mark node
  | none => r

/-- The trie holds the votes of the table, no ledger is awaited by nobody, and all voters are among the
nodes given. -/
structure Kept [VoteTrie T] [LawfulVoteTrie T] (a : Archive) (voters : Set Nat)
    (r : Register T) : Prop where
  holds : Holds a (ballots r.votes) r.trie
  drawn : ∀ l ∈ ballots r.votes, l ∈ a.ledgers
  awaited : r.Awaited
  voting : ∀ n ∈ r.voters fun _ => true, n ∈ voters

/-- The trie holds the votes of the table, no ledger is awaited by nobody, and all nodes are among
those given. -/
structure Sound [VoteTrie T] [LawfulVoteTrie T] (a : Archive) (nodes : Set Nat)
    (r : Register T) : Prop where
  holds : Holds a (ballots r.votes) r.trie
  drawn : ∀ l ∈ ballots r.votes, l ∈ a.ledgers
  awaited : r.Awaited
  voting : ∀ n ∈ r.voters fun _ => true, n ∈ nodes
  waiting : ∀ n mark, r.Waits n mark → n ∈ nodes
  current : ∀ n ∈ r.current, n ∈ nodes

instance : Decidable (r.Waits node mark) :=
  decidable_of_iff (r.awaited[mark]?.any (·.contains node) = true) (by
    unfold Waits
    cases r.awaited[mark]? <;> simp)

/-- A node waits for a ledger that is at hand. -/
def due (r : Register T) (env : Surroundings) (node : Nat) (mark : Mark) : Bool :=
  r.Waits node mark && (env.acquire mark.id).isSome

/-- The vote of a node after some ledgers were looked at in turn: it is for the last of them that the
node waits for and that is at hand. -/
def turnedAlong (r : Register T) (env : Surroundings) (node : Nat) (marks : List Mark)
    (vote : Option Ledger) : Option Ledger :=
  marks.foldl (fun vote mark => if r.due env node mark then env.acquire mark.id else vote) vote

/-- The vote of a node after all awaited ledgers were looked at. -/
def turned (r : Register T) (env : Surroundings) (node : Nat) : Option Ledger :=
  r.turnedAlong env node (byRank env.order.marks r.awaited.keys) r.votes[node]?

/-- What becomes of a register when the votes for one ledger are made, if it is at hand. -/
structure SettledAt (env : Surroundings) (mark : Mark) (r s : Register T) : Prop where
  records : s.records = r.records
  waits : ∀ n m, s.Waits n m ↔ r.Waits n m ∧ (m = mark → env.acquire m.id = none)
  moved : ∀ n l, r.Waits n mark → env.acquire mark.id = some l → s.votes[n]? = some l
  kept : ∀ n, (r.Waits n mark → env.acquire mark.id = none) → s.votes[n]? = r.votes[n]?

/-- What becomes of a register when the ledgers at hand are looked through, those of `rest` being
left out. -/
structure SettledBut (env : Surroundings) (rest : List Mark) (r s : Register T) : Prop where
  records : s.records = r.records
  waits : ∀ n m, s.Waits n m ↔ r.Waits n m ∧ (env.acquire m.id = none ∨ m ∈ rest)
  votes : ∀ n, Turned env (fun m => r.Waits n m ∧ m ∉ rest) r.votes[n]? s.votes[n]?

/-- What becomes of a register when the ledgers at hand are looked through. -/
abbrev Settled (env : Surroundings) : Register T → Register T → Prop := SettledBut env []

/-- What becomes of a register when a validation of a node is voted for. -/
structure Enrolled (env : Surroundings) (node : Nat) (v : Validation) (prior : Option Mark)
    (r s : Register T) : Prop where
  records : s.records = r.records
  waits : ∀ n m, s.Waits n m ↔
    (r.Waits n m ∧ ¬ (n = node ∧ prior = some m)) ∧ env.acquire m.id = none ∨
      (n = node ∧ m = v.mark) ∧ env.acquire v.ledgerId = none
  voted : ∀ l, env.acquire v.ledgerId = some l → s.votes[node]? = some l
  votes : ∀ n, ¬ (n = node ∧ (env.acquire v.ledgerId).isSome) →
    Turned env (fun m => r.Waits n m ∧ ¬ (n = node ∧ prior = some m)) r.votes[n]? s.votes[n]?

/-- What becomes of a register when a validation of a node is taken back. -/
structure Dismissed (node : Nat) (v : Validation) (r s : Register T) : Prop where
  records : s.records = r.records
  waits : ∀ n m, s.Waits n m ↔ r.Waits n m ∧ ¬ (n = node ∧ m = v.mark)
  votes : ∀ n l, s.votes[n]? = some l ↔ r.votes[n]? = some l ∧ ¬ (n = node ∧ l.id = v.ledgerId)

/-- What becomes of a node while something is done about another one: nothing, or ledgers come that it
waits for. -/
inductive Bystander (env : Surroundings) (node : Nat) (r s : Register T) : Prop
  | unmoved (current : s.current[node]? = r.current[node]?)
    (waits : ∀ m, s.Waits node m ↔ r.Waits node m) (votes : s.votes[node]? = r.votes[node]?)
  | served (current : s.current[node]? = r.current[node]?)
    (waits : ∀ m, s.Waits node m ↔ r.Waits node m ∧ env.acquire m.id = none)
    (votes : Turned env (r.Waits node) r.votes[node]? s.votes[node]?)

@[simp] theorem votes_stopWaiting (r : Register T) (mark : Mark) (node : Nat) :
    (r.stopWaiting mark node).votes = r.votes := rfl

theorem current_of_records (h : s.records = r.records) : s.current = r.current := by
  have hcurrent : s.records.current = r.records.current := by rw [h]
  exact hcurrent

theorem timing_of_records (h : s.records = r.records) : s.timing = r.timing := by
  have htiming : s.records.timing = r.records.timing := by rw [h]
  exact htiming

@[simp] theorem votes_withVotes (r : Register T) (trie : T) (votes : Votes) :
    (r.withVotes trie votes).votes = votes := rfl

@[simp] theorem votes_release (r : Register T) (prior : Option Mark) (node : Nat) :
    (r.release prior node).votes = r.votes := by
  cases prior <;> rfl

theorem waits_release {prior : Option Mark} {n : Nat} {m : Mark} :
    (r.release prior node).Waits n m ↔ r.Waits n m ∧ ¬ (n = node ∧ prior = some m) := by
  cases prior with
  | none => simp [release]
  | some mark => rw [release, waits_stopWaiting, Option.some.injEq, eq_comm (a := mark)]

theorem due_iff : r.due env node mark = true ↔ r.Waits node mark ∧ ∃ l, env.acquire mark.id = some l := by
  rw [due, Bool.and_eq_true, decide_eq_true_iff, Option.isSome_iff_exists]

/-! ## Bystanders -/

section Bystander

variable {n : Nat} {prior : Option Mark}

theorem Settled.bystander (hs : Settled env r s) (node : Nat) : Bystander env node r s := by
  refine .served (by rw [current_of_records hs.records]) (fun m => ?_) ?_
  · rw [hs.waits]
    simp
  · have := hs.votes node
    simpa using this

theorem Enrolled.bystander (hs : Enrolled env n v prior r s) (hn : n ≠ node) :
    Bystander env node r s := by
  refine .served (by rw [current_of_records hs.records]) (fun m => ?_) ?_
  · rw [hs.waits]
    simp [Ne.symm hn]
  · have := hs.votes node fun hself => hn hself.1.symm
    simpa [Ne.symm hn] using this

theorem Dismissed.bystander (hs : Dismissed n v r s) (hn : n ≠ node) :
    Bystander env node r s := by
  refine .unmoved (by rw [current_of_records hs.records]) (fun m => ?_) (Option.ext fun l => ?_)
  · rw [hs.waits]
    simp [Ne.symm hn]
  · rw [hs.votes]
    simp [Ne.symm hn]

/-- The current validation of another node does not matter. -/
theorem Bystander.of_insertCurrent
    (h : Bystander env node { r with current := r.current.insert n v } s) (hn : n ≠ node) :
    Bystander env node r s := by
  have hcurrent : (r.current.insert n v)[node]? = r.current[node]? :=
    Std.ExtTreeMap.getElem?_insert.trans (if_neg (Nat.compare_eq_eq.not.mpr hn))
  cases h with
  | unmoved current waits votes => exact .unmoved (current.trans hcurrent) waits votes
  | served current waits votes => exact .served (current.trans hcurrent) waits votes

namespace Bystander

variable (h : Bystander env node r s)

include h

theorem current : s.current[node]? = r.current[node]? := by
  cases h with
  | unmoved current => exact current
  | served current => exact current

theorem of_waits {m : Mark} (hm : s.Waits node m) : r.Waits node m := by
  cases h with
  | unmoved _ waits => exact (waits m).mp hm
  | served _ waits => exact ((waits m).mp hm).1

/-- A vote is an old one, or for a ledger that the node waited for. -/
theorem of_votes (hl : s.votes[node]? = some l) :
    r.votes[node]? = some l ∨ ∃ m, r.Waits node m ∧ env.acquire m.id = some l := by
  cases h with
  | unmoved _ _ votes => exact Or.inl (votes ▸ hl)
  | served _ _ votes =>
    rcases votes with ⟨hsame, -⟩ | ⟨m, l', hm, hl', hmoved⟩
    · exact Or.inl (hsame ▸ hl)
    · obtain rfl := Option.some.inj (hmoved.symm.trans hl)
      exact Or.inr ⟨m, hm, hl'⟩

/-- A node that neither votes nor waits goes on so. -/
theorem silent (hsilent : r.Silent node) : s.Silent node where
  votes := by
    cases hl : s.votes[node]? with
    | none => rfl
    | some l =>
      rcases h.of_votes hl with hl | ⟨m, hm, -⟩
      · rw [hsilent.votes] at hl
        cases hl
      · exact absurd hm (hsilent.waits m)
  waits m hm := hsilent.waits m (h.of_waits hm)

end Bystander

end Bystander

/-! ## Soundness -/

section Sound

variable [VoteTrie T] [LawfulVoteTrie T]

theorem withdraw_ballot {t : T} {votes : Votes} (ha : a.Sound) (h : Holds a (ballots votes) t)
    (hl : votes[node]? = some l) (hmem : l ∈ a.ledgers) : ∃ t',
      VoteTrie.withdraw t l 1 = pure (true, t') ∧ Holds a (ballots (votes.erase node)) t' := by
  have hballots := ballots_of_getElem? hl
  obtain ⟨t', hwithdraw, ht'⟩ := LawfulVoteTrie.withdraw 1 ha h hmem
    (hballots ▸ Multiset.mem_cons_self l _)
  refine ⟨t', hwithdraw, ?_⟩
  rwa [Multiset.replicate_one, Multiset.sub_singleton, hballots, Multiset.erase_cons_head] at ht'

theorem sound_empty (ha : a.Sound) (timing : Timing) :
    (empty timing : Register T).Sound a nodes := by
  have hwaits : ∀ n mark, ¬ (empty timing : Register T).Waits n mark := by
    rintro n mark ⟨nodes, hnodes, -⟩
    simp [empty] at hnodes
  have hvotes : ∀ l, l ∉ ballots (empty timing : Register T).votes := by
    rw [empty, ballots_empty]
    exact Multiset.notMem_zero
  refine ⟨?_, fun l hl => absurd hl (hvotes l), ?_, ?_, fun n mark h => absurd h (hwaits n mark), ?_⟩
  · rw [empty, ballots_empty]
    exact LawfulVoteTrie.empty ha
  · intro mark hmark
    simp [empty] at hmark
  · intro n hn
    obtain ⟨l, hl, -⟩ := mem_votersIn.mp hn
    exact absurd (mem_ballots.mpr ⟨n, hl⟩) (hvotes l)
  · intro n hn
    simp [empty] at hn

namespace Kept

variable (h : r.Kept a nodes)

include h

theorem voting_of_getElem? (hl : r.votes[node]? = some l) : node ∈ nodes :=
  h.voting node (mem_votersIn.mpr ⟨l, hl, rfl⟩)

/-- Votes stay as they are, while waits may change. -/
theorem of_votes (htrie : s.trie = r.trie) (hvotes : s.votes = r.votes) (hawaited : s.Awaited) :
    s.Kept a nodes := by
  refine ⟨?_, ?_, hawaited, ?_⟩
  · rw [hvotes, htrie]
    exact h.holds
  · rw [hvotes]
    exact h.drawn
  · rw [voters, hvotes]
    exact h.voting

theorem stopWaiting (mark : Mark) (node : Nat) : (r.stopWaiting mark node).Kept a nodes :=
  h.of_votes rfl rfl (h.awaited.stopWaiting mark node)

theorem startWaiting (mark : Mark) (node : Nat) : (r.startWaiting mark node).Kept a nodes :=
  h.of_votes rfl rfl (h.awaited.startWaiting mark node)

theorem release (prior : Option Mark) (node : Nat) : (r.release prior node).Kept a nodes := by
  cases prior with
  | none => exact h
  | some mark => exact h.stopWaiting mark node

theorem sound (hwaiting : ∀ n mark, r.Waits n mark → n ∈ nodes)
    (hcurrent : ∀ n ∈ r.current, n ∈ nodes) : r.Sound a nodes :=
  ⟨h.holds, h.drawn, h.awaited, h.voting, hwaiting, hcurrent⟩

end Kept

namespace Sound

variable (h : r.Sound a nodes)

include h

theorem kept : r.Kept a nodes := ⟨h.holds, h.drawn, h.awaited, h.voting⟩

theorem voting_of_getElem? (hl : r.votes[node]? = some l) : node ∈ nodes :=
  h.voting node (mem_votersIn.mpr ⟨l, hl, rfl⟩)

theorem drawn_of_getElem? (hl : r.votes[node]? = some l) : l ∈ a.ledgers :=
  h.drawn l (mem_ballots.mpr ⟨node, hl⟩)

theorem stopWaiting (mark : Mark) (node : Nat) : (r.stopWaiting mark node).Sound a nodes where
  holds := h.holds
  drawn := h.drawn
  awaited := h.awaited.stopWaiting mark node
  voting := h.voting
  waiting n m hn := h.waiting n m (waits_stopWaiting.mp hn).1
  current := h.current

theorem tipSupport (ha : a.Sound) (hl : l ∈ a.ledgers) :
    VoteTrie.tipSupport r.trie l = pure (r.voters (· == l)).card := by
  rw [LawfulVoteTrie.tipSupport ha h.holds hl, count_ballots, voters]

theorem branchSupport (ha : a.Sound) (hl : l ∈ a.ledgers) :
    VoteTrie.branchSupport r.trie l = pure (r.voters (·.leadsTo l)).card := by
  rw [LawfulVoteTrie.branchSupport ha h.holds hl, countP_ballots, voters]

/-- A vote that is in the table can be withdrawn. -/
theorem withdraw (ha : a.Sound) (hl : r.votes[node]? = some l) : ∃ t,
    VoteTrie.withdraw r.trie l 1 = pure (true, t) ∧ Holds a (ballots (r.votes.erase node)) t :=
  withdraw_ballot ha h.holds hl (h.drawn_of_getElem? hl)

end Sound

end Sound

/-! ## Moving a vote -/

variable [VoteTrie T] [LawfulVoteTrie T]

theorem vote_kept (ha : a.Sound) (hE : Room E nodes) (h : r.Kept a nodes) (hl : l ∈ a.ledgers)
    (hnode : node ∈ nodes) :
    Ends E (r.vote node l) fun s => s.Kept a nodes ∧
      ∃ trie, s = r.withVotes trie (r.votes.insert node l) := by
  have hballots := ballots_insert_eq_add r.votes node l
  have hvoting : ∀ n ∈ votersIn (r.votes.insert node l) fun _ => true, n ∈ nodes := by
    intro n hn
    obtain ⟨m, hm, -⟩ := mem_votersIn.mp hn
    by_cases hnn : node = n
    · exact hnn ▸ hnode
    · rw [Std.ExtTreeMap.getElem?_insert, if_neg (Nat.compare_eq_eq.not.mpr hnn)] at hm
      exact h.voting_of_getElem? hm
  have hinsert {t : T} (ht : Holds a (ballots (r.votes.erase node)) t) :
      Ends E (VoteTrie.insert t l 1 >>= fun trie =>
          pure (r.withVotes trie (r.votes.insert node l)))
        fun s => s.Kept a nodes ∧ ∃ trie, s = r.withVotes trie (r.votes.insert node l) := by
    refine Ends.bind ((LawfulVoteTrie.insert 1 ha ht hl).mono ?_ fun _ => id) fun t' ht' => ?_
    · rintro fault ⟨rfl, hcard⟩
      rw [← hballots, card_ballots] at hcard
      exact hE _ hvoting hcard
    · refine Ends.pure ⟨⟨?_, fun m hm => ?_, h.awaited, hvoting⟩, t', rfl⟩
      · rw [votes_withVotes, hballots]
        exact ht'
      · rcases Multiset.mem_add.mp (hballots ▸ hm) with hm | hm
        · exact h.drawn m (mem_ballots_of_erase hm)
        · exact Multiset.eq_of_mem_replicate hm ▸ hl
  cases hold : r.votes[node]? with
  | none =>
    simp only [vote, hold, pure_bind]
    exact hinsert (by rw [erase_of_getElem? hold]; exact h.holds)
  | some old =>
    obtain ⟨t, hwithdraw, ht⟩ := withdraw_ballot ha h.holds hold
      (h.drawn old (mem_ballots.mpr ⟨node, hold⟩))
    simp only [vote, hold, hwithdraw, map_pure, pure_bind]
    exact hinsert ht

/-- The votes of several nodes go to one ledger. -/
theorem votes_kept (ha : a.Sound) (hE : Room E nodes) (hl : l ∈ a.ledgers) (ns : List Nat)
    (hns : ∀ n ∈ ns, n ∈ nodes) (h : r.Kept a nodes) :
    Ends E (ns.foldlM (fun r n => r.vote n l) r) fun s => s.Kept a nodes ∧
      ∃ trie votes, s = r.withVotes trie votes ∧
        (∀ n ∈ ns, votes[n]? = some l) ∧ ∀ n, n ∉ ns → votes[n]? = r.votes[n]? := by
  induction ns generalizing r with
  | nil => exact Ends.pure ⟨h, r.trie, r.votes, rfl, by simp, by simp⟩
  | cons node rest ih =>
    rw [List.foldlM_cons]
    refine (vote_kept ha hE h hl (hns node List.mem_cons_self)).bind ?_
    rintro _ ⟨hs, t, rfl⟩
    refine (ih (fun n hn => hns n (List.mem_cons_of_mem _ hn)) hs).imp ?_
    rintro _ ⟨hs', t', votes, rfl, hin, hout⟩
    refine ⟨hs', t', votes, rfl, fun n hn => ?_, fun n hn => ?_⟩
    · by_cases hrest : n ∈ rest
      · exact hin n hrest
      · obtain rfl := (List.mem_cons.mp hn).resolve_right hrest
        rw [hout n hrest, votes_withVotes, Std.ExtTreeMap.getElem?_insert_self]
    · obtain ⟨hne, hrest⟩ := not_or.mp (List.mem_cons.not.mp hn)
      rw [hout n hrest, votes_withVotes, Std.ExtTreeMap.getElem?_insert,
        if_neg (Nat.compare_eq_eq.not.mpr (Ne.symm hne))]

/-! ## Looking through the ledgers at hand -/

theorem settleAt_kept (ha : a.Sound) (henv : env.Honest a) (hE : Room E nodes)
    (h : r.Kept a nodes) (mark : Mark) (hdue : ∀ n, r.due env n mark = true → n ∈ nodes) :
    Ends E (settleAt env r mark) fun s => s.Kept a nodes ∧ SettledAt env mark r s := by
  have hstay (hnone : ∀ n, r.Waits n mark → env.acquire mark.id = none) :
      SettledAt env mark r r := by
    refine ⟨rfl, fun n m => ⟨fun hm => ⟨hm, ?_⟩, And.left⟩, fun n l hn hl => ?_, fun _ _ => rfl⟩
    · rintro rfl
      exact hnone n hm
    · rw [hnone n hn] at hl
      cases hl
  rw [settleAt.eq_def]
  cases hl : env.acquire mark.id with
  | none => exact Ends.pure ⟨h, hstay fun _ _ => hl⟩
  | some l =>
    cases hns : r.awaited[mark]? with
    | none =>
      refine Ends.pure ⟨h, hstay fun n hn => ?_⟩
      obtain ⟨ns, hns', -⟩ := hn
      rw [hns] at hns'
      cases hns'
    | some ns =>
      have hwaits : ∀ n, n ∈ byRank (env.order.waiting mark) ns.toList ↔ r.Waits n mark := by
        intro n
        rw [mem_byRank, Std.ExtTreeSet.mem_toList, Waits, hns]
        simp
      have hkept : (r.withoutMark mark).Kept a nodes := h.of_votes rfl rfl (h.awaited.withoutMark mark)
      refine (votes_kept ha hE (henv.drawn hl) _ (fun n hn => ?_) hkept).imp ?_
      · exact hdue n (due_iff.mpr ⟨(hwaits n).mp hn, l, hl⟩)
      · rintro _ ⟨hs, t, votes, rfl, hin, hout⟩
        refine ⟨hs, rfl, fun n m => waits_withoutMark.trans (and_congr_right fun _ => ?_),
          fun n l' hn hl' => ?_, fun n hn => ?_⟩
        · constructor
          · exact fun hne hm => absurd hm hne
          · rintro hnone rfl
            have := hnone rfl
            rw [hl] at this
            cases this
        · obtain rfl := Option.some.inj (hl.symm.trans hl')
          exact hin n ((hwaits n).mpr hn)
        · refine hout n fun hmem => ?_
          have := hn ((hwaits n).mp hmem)
          rw [hl] at this
          cases this

omit [VoteTrie T] [LawfulVoteTrie T] in
theorem SettledAt.votes_eq {rest : List Mark} (hs : SettledBut env (mark :: rest) r s)
    {s' : Register T} (h : SettledAt env mark s s') (n : Nat) :
    s'.votes[n]? = if r.due env n mark then env.acquire mark.id else s.votes[n]? := by
  have hwaits : s.Waits n mark ↔ r.Waits n mark := by
    rw [hs.waits n mark]
    simp
  split
  · rename_i hdue
    obtain ⟨hn, l, hl⟩ := due_iff.mp hdue
    rw [hl, h.moved n l (hwaits.mpr hn) hl]
  · rename_i hdue
    refine h.kept n fun hn => Option.eq_none_iff_forall_ne_some.mpr fun l hl => ?_
    exact hdue (due_iff.mpr ⟨hwaits.mp hn, l, hl⟩)

omit [VoteTrie T] [LawfulVoteTrie T] in
/-- One more ledger is looked at. -/
theorem SettledBut.next {rest : List Mark} {s' : Register T}
    (hs : SettledBut env (mark :: rest) r s) (hmark : mark ∉ rest)
    (h : SettledAt env mark s s') : SettledBut env rest r s' := by
  refine ⟨h.records.trans hs.records, fun n m => ?_, fun n => ?_⟩
  · rw [h.waits n m, hs.waits n m, List.mem_cons]
    by_cases hm : m = mark
    · subst hm
      simp [hmark]
    · simp [hm]
  · have hwaits : s.Waits n mark ↔ r.Waits n mark := by
      rw [hs.waits n mark]
      simp
    by_cases hn : r.Waits n mark → env.acquire mark.id = none
    · rw [h.kept n (hn ∘ hwaits.mp)]
      rcases hs.votes n with ⟨hvotes, hstays⟩ | ⟨m, l, hm, hl, hvotes⟩
      · refine Or.inl ⟨hvotes, fun m hm => ?_⟩
        by_cases hmm : m = mark
        · exact hmm ▸ hn (hmm ▸ hm.1)
        · exact hstays m ⟨hm.1, by simp [hmm, hm.2]⟩
      · exact Or.inr ⟨m, l, ⟨hm.1, fun hm' => hm.2 (List.mem_cons_of_mem _ hm')⟩, hl, hvotes⟩
    · obtain ⟨hn, hl⟩ := Classical.not_imp.mp hn
      obtain ⟨l, hl⟩ := Option.ne_none_iff_exists'.mp hl
      exact Or.inr ⟨mark, l, ⟨hn, hmark⟩, hl, h.moved n l (hwaits.mpr hn) hl⟩

theorem settle_kept (ha : a.Sound) (henv : env.Honest a) (hE : Room E nodes)
    (h : r.Kept a nodes) (hdue : ∀ n m, r.due env n m = true → n ∈ nodes) :
    Ends E (r.settle env) fun s =>
      s.Kept a nodes ∧ Settled env r s ∧ ∀ n, s.votes[n]? = r.turned env n := by
  -- each ledger comes up once, so the ones still to come are none of those looked at
  refine (Ends.foldlM (I := fun rest s => rest.Nodup ∧ s.Kept a nodes ∧ SettledBut env rest r s ∧
      ∀ n, r.turnedAlong env n rest s.votes[n]? = r.turned env n)
    ⟨nodup_byRank Std.ExtTreeMap.nodup_keys, h, ⟨rfl, fun n m => ?_, fun n => ?_⟩, fun n => rfl⟩
    ?_).imp fun s hs => hs.2
  · refine ⟨fun hm => ⟨hm, Or.inr ?_⟩, And.left⟩
    exact mem_byRank.mpr (Std.ExtTreeMap.mem_keys.mpr hm.mem_awaited)
  · exact Or.inl ⟨rfl, fun m hm =>
      absurd (mem_byRank.mpr (Std.ExtTreeMap.mem_keys.mpr hm.1.mem_awaited)) hm.2⟩
  · rintro mark rest s ⟨hnodup, hkept, hs, hturned⟩
    obtain ⟨hmark, hnodup⟩ := List.nodup_cons.mp hnodup
    refine (settleAt_kept ha henv hE hkept mark fun n hn => ?_).imp fun s' h' =>
      ⟨hnodup, h'.1, hs.next hmark h'.2, fun n => ?_⟩
    · obtain ⟨hn, l, hl⟩ := due_iff.mp hn
      exact hdue n mark (due_iff.mpr ⟨((hs.waits n mark).mp hn).1, l, hl⟩)
    · rw [h'.2.votes_eq hs, ← hturned n]
      rfl

theorem settle_ends (ha : a.Sound) (henv : env.Honest a) (hE : Room E nodes)
    (h : r.Sound a nodes) :
    Ends E (r.settle env) fun s => s.Sound a nodes ∧ Settled env r s := by
  refine (settle_kept ha henv hE h.kept fun n m hn => h.waiting n m (due_iff.mp hn).1).imp ?_
  rintro s ⟨hs, hsettled, -⟩
  refine ⟨hs.sound (fun n m hn => ?_) fun n hn => ?_, hsettled⟩
  · exact h.waiting n m ((hsettled.waits n m).mp hn).1
  · exact h.current n (current_of_records hsettled.records ▸ hn)

/-! ## Voting for a validation and taking it back -/

omit [LawfulVoteTrie T] in
theorem enroll_eq (r : Register T) (env : Surroundings) (node : Nat) (v : Validation)
    (prior : Option Mark) : r.enroll env node v prior = (r.release prior node).settle env >>= fun s =>
      if s.awaited.contains v.mark then pure (s.startWaiting v.mark node)
      else match env.acquire v.ledgerId with
        | some l => s.vote node l
        | none => pure (s.startWaiting v.mark node) := by
  cases prior <;> rfl

section Enrolled

omit [VoteTrie T] [LawfulVoteTrie T]

variable {prior : Option Mark}

/-- The ledgers at hand are looked through after a wait was given up. -/
theorem SettledBut.released (h : Settled env (r.release prior node) s) : s.records = r.records ∧
    (∀ n m, s.Waits n m ↔
      (r.Waits n m ∧ ¬ (n = node ∧ prior = some m)) ∧ env.acquire m.id = none) ∧
    ∀ n, Turned env (fun m => r.Waits n m ∧ ¬ (n = node ∧ prior = some m)) r.votes[n]? s.votes[n]? := by
  have hrecords : (r.release prior node).records = r.records := by
    cases prior <;> rfl
  have hvotes := votes_release r prior node
  refine ⟨h.records.trans hrecords, fun n m => ?_, fun n => ?_⟩
  · rw [h.waits n m, waits_release]
    simp
  · have := h.votes n
    simpa [hvotes, waits_release] using this

/-- The new ledger of the node is not at hand. -/
theorem SettledBut.enrolled_waiting (h : Settled env (r.release prior node) s)
    (hnone : env.acquire v.ledgerId = none) :
    Enrolled env node v prior r (s.startWaiting v.mark node) := by
  obtain ⟨hrecords, hwaits, hturned⟩ := h.released
  refine ⟨hrecords, fun n m => ?_, fun l hl => ?_, fun n _ => hturned n⟩
  · rw [waits_startWaiting, hwaits n m, hnone]
    simp
  · rw [hnone] at hl
    cases hl

/-- The new ledger of the node is at hand. -/
theorem SettledBut.enrolled_voting (h : Settled env (r.release prior node) s)
    (hl : env.acquire v.ledgerId = some l) (trie : T) :
    Enrolled env node v prior r (s.withVotes trie (s.votes.insert node l)) := by
  obtain ⟨hrecords, hwaits, hturned⟩ := h.released
  refine ⟨hrecords, fun n m => ?_, fun l' hl' => ?_, fun n hn => ?_⟩
  · rw [hl]
    exact (hwaits n m).trans (by simp)
  · obtain rfl := Option.some.inj (hl.symm.trans hl')
    exact Std.ExtTreeMap.getElem?_insert_self
  · have hne : node ≠ n := fun hn' => hn ⟨hn'.symm, by rw [hl]; rfl⟩
    rw [votes_withVotes, Std.ExtTreeMap.getElem?_insert, if_neg (Nat.compare_eq_eq.not.mpr hne)]
    exact hturned n

end Enrolled

theorem enroll_kept (ha : a.Sound) (henv : env.Honest a) (hE : Room E nodes)
    (h : r.Kept a nodes) (v : Validation) (prior : Option Mark)
    (hdue : ∀ n m, (r.release prior node).due env n m = true → n ∈ nodes)
    (hnode : (env.acquire v.ledgerId).isSome → node ∈ nodes) :
    Ends E (r.enroll env node v prior) fun s => s.Kept a nodes ∧ Enrolled env node v prior r s ∧
      ∀ n, s.votes[n]? = if n = node ∧ (env.acquire v.ledgerId).isSome then env.acquire v.ledgerId
        else (r.release prior node).turned env n := by
  rw [enroll_eq]
  refine (settle_kept ha henv hE (h.release prior node) hdue).bind ?_
  rintro s ⟨hs, hsettled, hturns⟩
  have hstart (hnone : env.acquire v.ledgerId = none) :
      (s.startWaiting v.mark node).Kept a nodes ∧
        Enrolled env node v prior r (s.startWaiting v.mark node) ∧
        ∀ n, (s.startWaiting v.mark node).votes[n]? =
          if n = node ∧ (env.acquire v.ledgerId).isSome then env.acquire v.ledgerId
          else (r.release prior node).turned env n := by
    refine ⟨hs.startWaiting _ _, hsettled.enrolled_waiting hnone, fun n => ?_⟩
    rw [hnone, if_neg fun hn => by simp at hn]
    exact hturns n
  split
  · rename_i hcontains
    obtain ⟨n, hn⟩ := hs.awaited v.mark hcontains
    exact Ends.pure (hstart ((hsettled.released.2.1 n v.mark).mp hn).2)
  · cases hl : env.acquire v.ledgerId with
    | none => exact Ends.pure (hl ▸ hstart hl)
    | some l =>
      refine (vote_kept ha hE hs (henv.drawn hl) (hnode (by rw [hl]; rfl))).imp ?_
      rintro _ ⟨hs', t, rfl⟩
      refine ⟨hs', hsettled.enrolled_voting hl t, fun n => ?_⟩
      rw [votes_withVotes, Std.ExtTreeMap.getElem?_insert]
      by_cases hn : n = node
      · rw [if_pos (Nat.compare_eq_eq.mpr hn.symm), if_pos ⟨hn, rfl⟩]
      · rw [if_neg (Nat.compare_eq_eq.not.mpr (Ne.symm hn)), if_neg fun h => hn h.1]
        exact hturns n

theorem enroll_ends (ha : a.Sound) (henv : env.Honest a) (hE : Room E nodes)
    (h : r.Sound a nodes) (hnode : node ∈ nodes) (v : Validation) (prior : Option Mark) :
    Ends E (r.enroll env node v prior) fun s =>
      s.Sound a nodes ∧ Enrolled env node v prior r s := by
  refine (enroll_kept ha henv hE h.kept v prior (fun n m hn => ?_) fun _ => hnode).imp ?_
  · exact h.waiting n m (waits_release.mp (due_iff.mp hn).1).1
  · rintro s ⟨hs, henrolled, -⟩
    refine ⟨hs.sound (fun n m hn => ?_) fun n hn => ?_, henrolled⟩
    · rcases (henrolled.waits n m).mp hn with hn | hn
      · exact h.waiting n m hn.1.1
      · exact hn.1.1 ▸ hnode
    · exact h.current n (current_of_records henrolled.records ▸ hn)

theorem dismiss_ends (ha : a.Sound) (h : r.Sound a nodes) (node : Nat) (v : Validation) :
    Ends E (r.dismiss node v) fun s => s.Sound a nodes ∧ Dismissed node v r s := by
  have hstop := h.stopWaiting v.mark node
  have hkeep (hne : ∀ l, r.votes[node]? = some l → l.id ≠ v.ledgerId) :
      Dismissed node v r (r.stopWaiting v.mark node) := by
    refine ⟨rfl, fun n m => waits_stopWaiting, fun n l => ⟨fun hl => ⟨hl, ?_⟩, And.left⟩⟩
    rintro ⟨rfl, hid⟩
    exact hne l hl hid
  rw [dismiss]
  dsimp only
  cases hl : (r.stopWaiting v.mark node).votes[node]? with
  | none =>
    refine Ends.pure ⟨hstop, hkeep fun l hl' => ?_⟩
    rw [votes_stopWaiting, hl'] at hl
    cases hl
  | some l =>
    dsimp only
    split
    · rename_i hid
      obtain ⟨t, hwithdraw, ht⟩ := hstop.withdraw ha hl
      rw [hwithdraw, pure_bind]
      refine Ends.pure ⟨⟨ht, fun m hm => ?_, hstop.awaited, fun n hn => ?_, hstop.waiting,
        hstop.current⟩, rfl, fun n m => waits_stopWaiting, fun n m => ⟨fun hm => ⟨getElem?_of_erase hm, ?_⟩,
        fun ⟨hm, hne⟩ => ?_⟩⟩
      · exact h.drawn m (mem_ballots_of_erase hm)
      · obtain ⟨m, hm, -⟩ := mem_votersIn.mp hn
        exact h.voting_of_getElem? (getElem?_of_erase hm)
      · rintro ⟨rfl, -⟩
        have hm : (r.votes.erase n)[n]? = some m := hm
        simp at hm
      · have hnode : node ≠ n := by
          rintro rfl
          obtain rfl := Option.some.inj (hl.symm.trans hm)
          exact hne ⟨rfl, hid⟩
        exact (Std.ExtTreeMap.getElem?_erase.trans
          (if_neg (Nat.compare_eq_eq.not.mpr hnode))).trans hm
    · rename_i hid
      refine Ends.pure ⟨hstop, hkeep fun l' hl' => ?_⟩
      rw [votes_stopWaiting, hl'] at hl
      exact Option.some.inj hl ▸ hid

end Register

end ForkChoice

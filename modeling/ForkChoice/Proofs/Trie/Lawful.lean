import ForkChoice.Proofs.Ends
import ForkChoice.Proofs.Trie.Arena.Run
import ForkChoice.Trie.Interface

/-!
# Structures that keep votes as they should

What a structure of votes has to do is said by the multiset of its votes alone. The trie as a tree
and the trie in an arena both do it, and so does either of them with a record of what it answered.

* `Tip.Drawn`: a tip is a place in the history of an archived ledger.
* `LawfulVoteTrie`: the laws of a structure that keeps votes.
* `Recorded`: a structure of votes with the answers it gave when votes were withdrawn.
* `Recorded.all_found`: a lawful structure has never been asked for a vote that was not there.
-/

namespace ForkChoice

/-- A tip is a place in the history of a ledger of an archive. -/
structure Tip.Drawn (a : Archive) (tip : Tip) : Prop where
  backed : tip.backing ∈ a.ledgers
  reached : tip.seq ≤ tip.backing.seq
  id_eq : tip.id = tip.backing.idAt tip.seq reached

theorem Segment.tip_drawn {a : Archive} {g : Segment} (h : g.backing ∈ a.ledgers) :
    g.tip.Drawn a := ⟨h, g.tip_le_seq, rfl⟩

/-- Two tips with the same sequence number and identifier have the same history. -/
theorem Tip.Drawn.ancestor_eq {a : Archive} (ha : a.Sound) {tip other : Tip} (h : tip.Drawn a)
    (h' : other.Drawn a) (hseq : other.seq = tip.seq) (hid : other.id = tip.id) {s : Nat}
    (hs : s ≤ tip.seq) : other.ancestor s = tip.ancestor s := by
  have hreached := h.reached
  have hreached' := h'.reached
  have htake := (ha.idAt_eq_idAt h'.backed h.backed hreached' hreached).mp
    (h'.id_eq.symm.trans (hid.trans h.id_eq))
  have hshort : other.backing.txs.take s = tip.backing.txs.take s := by
    have := congrArg (List.take s) htake
    rwa [List.take_take, List.take_take, hseq, Nat.min_eq_left hs] at this
  rw [Tip.ancestor, Tip.ancestor, Ledger.ancestor, Ledger.ancestor, dif_pos (by omega),
    dif_pos (by omega), (ha.idAt_eq_idAt h'.backed h.backed _ _).mpr hshort]

/-- A structure of votes that holds a multiset of ledgers of an archive. Votes can be added as long
as all of them fit in a count, votes that are there can be taken away, and the questions are answered
by the multiset. -/
class LawfulVoteTrie (T : Type) [VoteTrie T] where
  Holds : Archive → Multiset Ledger → T → Prop
  empty {a : Archive} : a.Sound → Holds a 0 VoteTrie.empty
  card_le {a : Archive} {V : Multiset Ledger} {t : T} : Holds a V t → V.card ≤ maxSupport
  insert {a : Archive} {V : Multiset Ledger} {t : T} {l : Ledger} (votes : Nat) :
    a.Sound → Holds a V t → l ∈ a.ledgers →
      Ends (fun fault => fault = .supportOverflow ∧
          maxSupport < (V + Multiset.replicate votes l).card)
        (VoteTrie.insert t l votes) (Holds a (V + Multiset.replicate votes l))
  withdraw {a : Archive} {V : Multiset Ledger} {t : T} {l : Ledger} (votes : Nat) :
    a.Sound → Holds a V t → l ∈ a.ledgers → l ∈ V → ∃ t',
      VoteTrie.withdraw t l votes = pure (true, t') ∧ Holds a (V - Multiset.replicate votes l) t'
  tipSupport {a : Archive} {V : Multiset Ledger} {t : T} {l : Ledger} :
    a.Sound → Holds a V t → l ∈ a.ledgers → VoteTrie.tipSupport t l = pure (V.count l)
  branchSupport {a : Archive} {V : Multiset Ledger} {t : T} {l : Ledger} :
    a.Sound → Holds a V t → l ∈ a.ledgers →
      VoteTrie.branchSupport t l = pure (V.countP (·.leadsTo l))
  preferred {a : Archive} {V : Multiset Ledger} {t : T} (largestIssued : Nat) :
    a.Sound → Holds a V t → ∃ answer, VoteTrie.preferred t largestIssued = pure answer ∧
      (answer = none ↔ V = 0) ∧ ∀ tip, answer = some tip →
        tip.Drawn a ∧ tip.StandsFor (a.walk V largestIssued .genesis)

export LawfulVoteTrie (Holds)

namespace Trie

variable {a : Archive} {V : Multiset Ledger} {t : Trie} {l : Ledger} {votes : Nat}

theorem Counts.insert_overflow (ha : a.Sound) (h : Counts a V t) (hl : l ∈ a.ledgers)
    (hvotes : votes ≠ 0) (hcard : maxSupport < (V + Multiset.replicate votes l).card) :
    t.insert l votes = .error .supportOverflow := by
  have hgrow := h.grow ha hl hvotes
  rw [Trie.insert, if_neg hvotes, if_neg fun hrange => ?_]
  rw [Trie.inRange, Bool.and_eq_true, Node.inRange_iff] at hrange
  have hroot := (hrange.1 _ (Node.self_mem_nodes _)).2
  rw [hgrow.branchSupport_root] at hroot
  omega

theorem ne_zero_of_overflow (hV : V.card ≤ maxSupport)
    (hcard : maxSupport < (V + Multiset.replicate votes l).card) : votes ≠ 0 := by
  rintro rfl
  rw [Multiset.replicate_zero, add_zero] at hcard
  omega

/-- The answer of a trie that holds votes, by the walk from genesis. -/
theorem Counts.exists_preferred (ha : a.Sound) (h : Counts a V t) (hcard : V.card ≤ maxSupport)
    (largestIssued : Nat) : ∃ answer, t.preferred largestIssued = .ok answer ∧
      (answer = none ↔ V = 0) ∧ ∀ tip, answer = some tip →
        tip.Drawn a ∧ tip.StandsFor (a.walk V largestIssued .genesis) := by
  rcases h.preferred_eq ha hcard largestIssued with ⟨hempty, hnone⟩ | ⟨hvotes, tip, hsome, htip⟩
  · exact ⟨none, hnone, by simp [hempty], by simp⟩
  · refine ⟨some tip, hsome, by simp [hvotes], ?_⟩
    rintro _ ⟨⟩
    rw [preferred, if_neg (h.isEmpty_iff.not.mpr hvotes)] at hsome
    obtain ⟨g, rfl, m, hm, hbacking⟩ := Node.exists_segment_of_preferred hsome
    exact ⟨Segment.tip_drawn (hbacking ▸ (h.formed m hm).backed), htip⟩

instance : LawfulVoteTrie Trie where
  Holds a V t := Counts a V t ∧ V.card ≤ maxSupport
  empty ha := ⟨counts_empty ha, by decide⟩
  card_le h := h.2
  insert {a V t l} votes ha h hl := by
    obtain ⟨h, hV⟩ := h
    rcases Nat.lt_or_ge maxSupport (V + Multiset.replicate votes l).card with hover | hcard
    · refine Or.inr ⟨_, ?_, rfl, hover⟩
      exact congrArg liftM (h.insert_overflow ha hl (ne_zero_of_overflow hV hover) hover)
    · obtain ⟨t', hinsert, h'⟩ := h.insert ha hl hcard
      exact Or.inl ⟨t', congrArg liftM hinsert, h', hcard⟩
  withdraw {a V t l} votes ha h hl hmem := by
    obtain ⟨t', hwithdraw, h'⟩ :=
      h.1.withdraw (v := votes) ha hl (Multiset.count_ne_zero.mpr hmem)
    exact ⟨t', congrArg liftM hwithdraw, h',
      (Multiset.card_le_card (Multiset.sub_le_self _ _)).trans h.2⟩
  tipSupport ha h hl := congrArg pure (h.1.tipSupport_eq ha hl)
  branchSupport ha h hl := congrArg pure (h.1.branchSupport_eq ha hl)
  preferred largestIssued ha h := by
    obtain ⟨answer, hanswer, hlaws⟩ := h.1.exists_preferred ha h.2 largestIssued
    exact ⟨answer, congrArg liftM hanswer, hlaws⟩

end Trie

namespace ArenaTrie

variable {Slot : Type} [DecidableEq Slot] {A : Slots Slot (Cell Slot)}

instance : LawfulVoteTrie (ArenaTrie A) where
  Holds a V t := ∃ S : Trie, t.Shows S ∧ S.Counts a V ∧ V.card ≤ maxSupport
  empty ha := ⟨.empty, shows_empty A, Trie.counts_empty ha, by decide⟩
  card_le h := by
    obtain ⟨-, -, -, hV⟩ := h
    exact hV
  insert {a V t l} votes ha h hl := by
    obtain ⟨S, ht, hS, hV⟩ := h
    rcases Nat.lt_or_ge maxSupport (V + Multiset.replicate votes l).card with hover | hcard
    · refine Or.inr ⟨_, ?_, rfl, hover⟩
      refine ht.insert_overflow hS.toRooted (Trie.ne_zero_of_overflow hV hover) ?_
      rwa [Multiset.card_add, Multiset.card_replicate, ← hS.branchSupport_root] at hover
    · obtain ⟨S', hinsert, hS'⟩ := hS.insert ha hl hcard
      obtain ⟨t', hinsert', ht'⟩ := ht.insert_eq hS.toRooted hinsert
      exact Or.inl ⟨t', hinsert', S', ht', hS', hcard⟩
  withdraw {a V t l} votes ha h hl hmem := by
    obtain ⟨S, ht, hS, hV⟩ := h
    obtain ⟨S', hwithdraw, hS'⟩ :=
      hS.withdraw (v := votes) ha hl (Multiset.count_ne_zero.mpr hmem)
    obtain ⟨t', hwithdraw', ht'⟩ := ht.withdraw_eq ha hl hS.toRooted hwithdraw
    exact ⟨t', hwithdraw', S', ht', hS',
      (Multiset.card_le_card (Multiset.sub_le_self _ _)).trans hV⟩
  tipSupport {a V t l} ha h hl := by
    obtain ⟨S, ht, hS, -⟩ := h
    exact (ht.tipSupport_eq ha hS.toRooted hl).trans (congrArg pure (hS.tipSupport_eq ha hl))
  branchSupport {a V t l} ha h hl := by
    obtain ⟨S, ht, hS, -⟩ := h
    exact (ht.branchSupport_eq ha hS.toRooted hl).trans (congrArg pure (hS.branchSupport_eq ha hl))
  preferred {a V t} largestIssued ha h := by
    obtain ⟨S, ht, hS, hV⟩ := h
    obtain ⟨answer, hanswer, hlaws⟩ := hS.exists_preferred ha hV largestIssued
    refine ⟨answer, ?_, hlaws⟩
    rw [show VoteTrie.preferred t largestIssued = t.preferred largestIssued from rfl,
      ht.preferred_eq, hanswer]
    rfl

end ArenaTrie

/-! ## A record of withdrawals -/

/-- A structure of votes that remembers what it answered when votes were withdrawn, the last answer
first. -/
structure Recorded (T : Type) where
  trie : T
  found : List Bool := []

namespace Recorded

variable {T : Type} [VoteTrie T]

instance : VoteTrie (Recorded T) where
  empty := ⟨VoteTrie.empty, []⟩
  insert t l votes := ({ t with trie := · }) <$> VoteTrie.insert t.trie l votes
  withdraw t l votes := (fun answer => (answer.1, ⟨answer.2, answer.1 :: t.found⟩)) <$>
    VoteTrie.withdraw t.trie l votes
  tipSupport t := VoteTrie.tipSupport t.trie
  branchSupport t := VoteTrie.branchSupport t.trie
  preferred t := VoteTrie.preferred t.trie

instance [LawfulVoteTrie T] : LawfulVoteTrie (Recorded T) where
  Holds a V t := Holds a V t.trie ∧ ∀ answer ∈ t.found, answer = true
  empty ha := ⟨LawfulVoteTrie.empty ha, by simp [VoteTrie.empty]⟩
  card_le h := LawfulVoteTrie.card_le h.1
  insert votes ha h hl := (LawfulVoteTrie.insert votes ha h.1 hl).map fun _ ht => ⟨ht, h.2⟩
  withdraw votes ha h hl hmem := by
    obtain ⟨t', hwithdraw, h'⟩ := LawfulVoteTrie.withdraw votes ha h.1 hl hmem
    refine ⟨_, (congrArg _ hwithdraw).trans (map_pure _ _), h', fun answer hanswer => ?_⟩
    rcases List.mem_cons.mp hanswer with rfl | hanswer
    · rfl
    · exact h.2 answer hanswer
  tipSupport ha h := LawfulVoteTrie.tipSupport (T := T) ha h.1
  branchSupport ha h := LawfulVoteTrie.branchSupport (T := T) ha h.1
  preferred largestIssued ha h := LawfulVoteTrie.preferred (T := T) largestIssued ha h.1

/-- A lawful structure has never been asked for a vote that was not there. -/
theorem all_found [LawfulVoteTrie T] {a : Archive} {V : Multiset Ledger} {t : Recorded T}
    (h : Holds a V t) : ∀ answer ∈ t.found, answer = true := by
  have hrecord : Holds a V t.trie ∧ ∀ answer ∈ t.found, answer = true := h
  exact hrecord.2

end Recorded

end ForkChoice

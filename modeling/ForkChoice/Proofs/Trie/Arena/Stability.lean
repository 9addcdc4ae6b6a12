import ForkChoice.Proofs.Ledger.Path
import ForkChoice.Proofs.Trie.Lawful

/-!
# How far the preferred ledger can move

The preferred ledger answers for its whole branch. What is still uncommitted cannot make another
branch the better one, a larger sequence number of this node's own only takes it back along its
branch, and new votes for the branch leave it there.

* `ArenaTrie.Prefers`: the ledger that a trie prefers.
* `ArenaTrie.holds_run`: a run that comes to an end leaves a trie that holds the votes.
* `ArenaTrie.preferred_upheld`: votes that are moved or dropped.
* `ArenaTrie.preferred_retreats`: two sequence numbers.
* `ArenaTrie.preferred_supported`: votes for the preferred ledger or one before it.
-/

namespace ForkChoice

namespace ArenaTrie

variable {Slot : Type} [DecidableEq Slot] {A : Slots Slot (Cell Slot)} {a : Archive}
  {t : ArenaTrie A} {V : Multiset Ledger} {changes : List Change} {c : Change}
  {L L₁ L₂ : Nat} {l p q : Ledger} {tip : Tip}

/-! ## A run that comes to an end -/

/-- A call that comes to an end does to the trie what it does to the votes. -/
theorem holds_change (ha : a.Sound) (h : Holds a V t) (hc : c.ledger ∈ a.ledgers) :
    Gives (t.change c) (Holds a (c.apply V)) := by
  cases c with
  | cast l count =>
    intro t' ht'
    exact (LawfulVoteTrie.insert (count.getD 1) ha h hc).result ht'
  | withdraw l count =>
    obtain ⟨S, ht, hS, hV⟩ := h
    have hcard : (Change.apply V (.withdraw l count)).card ≤ maxSupport := by
      apply le_trans _ hV
      exact Multiset.card_le_card (Multiset.sub_le_self _ _)
    obtain ⟨S', hchange, hS'⟩ := hS.change ha (.withdraw l count) hc hcard
    obtain ⟨t', hchange', ht'⟩ := ht.change ha hS.toRooted hc hchange
    rw [hchange']
    exact Gives.pure ⟨S', ht', hS', hcard⟩

/-- A run that comes to an end leaves a trie that holds the votes. -/
theorem holds_run (A : Slots Slot (Cell Slot)) (ha : a.Sound)
    (hdrawn : ∀ c ∈ changes, c.ledger ∈ a.ledgers) :
    Gives (run A changes) (Holds a (votesAfter changes)) := by
  induction changes using List.reverseRecOn with
  | nil =>
    apply Gives.pure
    exact LawfulVoteTrie.empty ha
  | append_singleton changes c ih =>
    rw [run, List.foldlM_append, votesAfter_concat]
    refine Gives.bind (ih fun d hd => hdrawn d (List.mem_append_left _ hd)) fun t ht => ?_
    rw [List.foldlM_cons]
    exact Gives.bind (holds_change ha ht (hdrawn c (by simp))) fun t' ht' => Gives.pure ht'

/-! ## The preferred ledger -/

/-- The trie prefers a ledger, for the largest sequence number that this node has issued. -/
def Prefers (t : ArenaTrie A) (L : Nat) (l : Ledger) : Prop :=
  ∃ tip, t.preferred L = pure (some tip) ∧ tip.StandsFor l

omit [DecidableEq Slot] in
theorem Prefers.eq (ha : a.Sound) (hp : p ∈ a.ledgers) (hq : q ∈ a.ledgers)
    (h : t.preferred L = pure (some tip)) (hstands : tip.StandsFor p) (hprefers : t.Prefers L q) :
    p = q := by
  obtain ⟨other, hother, hq'⟩ := hprefers
  obtain rfl : tip = other := Option.some.inj (pure_inj (h.symm.trans hother))
  exact ha.eq_of_id hp hq (hstands.id.symm.trans hq'.id)

theorem prefers_walk (ha : a.Sound) (h : Holds a V t) (hV : V ≠ 0) (L : Nat) :
    t.Prefers L (a.walk V L .genesis) := by
  obtain ⟨answer, hanswer, hnone, htip⟩ := LawfulVoteTrie.preferred L ha h
  cases answer with
  | none => exact absurd (hnone.mp rfl) hV
  | some tip => exact ⟨tip, hanswer, (htip tip rfl).2⟩

theorem standsFor_walk (ha : a.Sound) (h : Holds a V t)
    (hpreferred : t.preferred L = pure (some tip)) :
    V ≠ 0 ∧ tip.StandsFor (a.walk V L .genesis) := by
  obtain ⟨answer, hanswer, hnone, htip⟩ := LawfulVoteTrie.preferred L ha h
  obtain rfl : answer = some tip := pure_inj (hanswer.symm.trans hpreferred)
  refine ⟨fun hempty => ?_, (htip tip rfl).2⟩
  cases hnone.mpr hempty

/-- On a fork most votes are for the left side, one for the right and one for the trunk alone. -/
def leaning : List Change :=
  [.cast Fork.left (some 3), .cast Fork.right none, .cast Fork.trunk none]

theorem leaning_admissible : Admissible Fork.archive leaning := ⟨by decide, by decide⟩

/-- The left side is preferred at first, and genesis alone when this node has issued the sequence
number 3. -/
theorem exists_run_leaning (A : Slots Slot (Cell Slot)) :
    ∃ t, run A leaning = pure t ∧ t.Prefers 0 Fork.left ∧ t.Prefers 3 .genesis := by
  have ha := Fork.archive_reachable.sound
  obtain ⟨t, T, hrun, -, ht, hT⟩ := shows_run A ha leaning_admissible
  have hprefers : ∀ L, t.Prefers L (Fork.archive.walk (votesAfter leaning) L .genesis) :=
    prefers_walk ha ⟨T, ht, hT, leaning_admissible.card_le⟩ (by decide)
  have hleft := hprefers 0
  have hgenesis := hprefers 3
  rw [Archive.walk_of_some (m := Fork.trunk) (by decide),
    Archive.walk_of_some (m := Fork.left) (by decide), Archive.walk_of_none (by decide)] at hleft
  rw [Archive.walk_of_none (by decide)] at hgenesis
  exact ⟨t, hrun, hleft, hgenesis⟩

/-! ## Votes that are moved or dropped -/

/-- The preferred branch cannot be overturned by uncommitted votes: each ledger on the way to the
preferred one, from the sequence number of this node's own on, stays the best of those right after
the same ledger, wherever the votes below it go. -/
theorem preferred_upheld (ha : a.Reachable) (hdrawn : ∀ c ∈ changes, c.ledger ∈ a.ledgers)
    (hrun : run A changes = pure t) (htip : t.preferred L = pure (some tip)) :
    ∃ p ∈ a.ledgers, tip.StandsFor p ∧
      ∀ q ∈ a.ledgers, q ≠ .genesis → p.leadsTo q = true → L ≤ q.seq →
        ∃ parent ∈ a.ledgers, q.ChildOf parent ∧
          ∀ W, Shifted q.seq (votesAfter changes) W →
            ∀ m ∈ a.ledgers, m.ChildOf parent → m.rank W ≤ q.rank W := by
  have hholds := holds_run A ha.sound hdrawn t hrun
  refine ⟨a.walk (votesAfter changes) L .genesis, Archive.walk_genesis_mem ha.sound,
    (standsFor_walk ha.sound hholds htip).2, fun q hq hne hpath hL => ?_⟩
  obtain ⟨parent, hparent, hchild, hsecure⟩ :=
    Archive.exists_secure_of_walk ha.sound hq hne hpath
  refine ⟨parent, hparent, hchild, fun W hshift m hm hmchild => ?_⟩
  apply hsecure.upheld _ hshift hm hmchild
  rw [uncommitted, Nat.max_eq_left hL]

/-- The votes of `leaning` after the one for the trunk has gone over to the right side. -/
def swung : Multiset Ledger := {Fork.left, Fork.left, Fork.left, Fork.right, Fork.right}

/-- The left side is still ahead of the right one then. -/
theorem preferred_upheld_fork :
    Fork.archive.Reachable ∧
      ∃ t : ArenaTrie (Slots.numbered (Cell Nat)), run (Slots.numbered _) leaning = pure t ∧
        t.Prefers 0 Fork.left ∧ Shifted 2 (votesAfter leaning) swung ∧
        Fork.right.rank swung ≤ Fork.left.rank swung := by
  obtain ⟨t, hrun, hleft, -⟩ := exists_run_leaning (Slots.numbered (Cell Nat))
  obtain ⟨tip, htip, -⟩ := id hleft
  obtain ⟨p, hp, hstands, hupheld⟩ :=
    preferred_upheld Fork.archive_reachable leaning_admissible.drawn hrun htip
  obtain rfl := Prefers.eq Fork.archive_reachable.sound hp (by decide) htip hstands hleft
  obtain ⟨parent, hparent, hchild, hbest⟩ :=
    hupheld Fork.left (by decide) (by decide) (by decide) (by decide)
  have hshifted : Shifted 2 (votesAfter leaning) swung :=
    .keep _ (.keep _ (.keep _ (.keep _ (.move _ (by decide) .nil))))
  have hsibling : ∀ parent ∈ Fork.archive.ledgers, Fork.left.ChildOf parent →
      Fork.right.ChildOf parent := by decide
  exact ⟨Fork.archive_reachable, t, hrun, hleft, hshifted,
    hbest _ hshifted Fork.right (by decide) (hsibling parent hparent hchild)⟩

/-! ## A larger sequence number of this node's own -/

/-- With a larger sequence number of this node's own, the trie prefers the same ledger or one before
it. -/
theorem preferred_retreats (ha : a.Reachable) (hdrawn : ∀ c ∈ changes, c.ledger ∈ a.ledgers)
    (hrun : run A changes = pure t) (hvotes : votesAfter changes ≠ 0) (hL : L₁ ≤ L₂) :
    ∃ p ∈ a.ledgers, ∃ q ∈ a.ledgers,
      t.Prefers L₁ p ∧ t.Prefers L₂ q ∧ p.leadsTo q = true := by
  have hholds := holds_run A ha.sound hdrawn t hrun
  refine ⟨_, Archive.walk_genesis_mem ha.sound, _, Archive.walk_genesis_mem ha.sound,
    prefers_walk ha.sound hholds hvotes L₁, prefers_walk ha.sound hholds hvotes L₂, ?_⟩
  exact Archive.walk_retreats ha.sound ha.sound.genesis_mem hL

/-- From the left side the preference goes all the way back to genesis. -/
theorem preferred_retreats_fork :
    Fork.archive.Reachable ∧ votesAfter leaning ≠ 0 ∧
      ∃ t : ArenaTrie (Slots.numbered (Cell Nat)), run (Slots.numbered _) leaning = pure t ∧
        t.Prefers 0 Fork.left ∧ t.Prefers 3 .genesis ∧
        ∃ p ∈ Fork.archive.ledgers, ∃ q ∈ Fork.archive.ledgers,
          t.Prefers 0 p ∧ t.Prefers 3 q ∧ p.leadsTo q = true := by
  have hvotes : votesAfter leaning ≠ 0 := by decide
  obtain ⟨t, hrun, hleft, hgenesis⟩ := exists_run_leaning (Slots.numbered (Cell Nat))
  exact ⟨Fork.archive_reachable, hvotes, t, hrun, hleft, hgenesis,
    preferred_retreats Fork.archive_reachable leaning_admissible.drawn hrun hvotes (by decide)⟩

/-! ## Votes for the preferred branch -/

/-- Votes for the preferred ledger or one before it never move the preference to another branch: the
trie then prefers that ledger or one between it and the ledger preferred before. -/
theorem preferred_supported (ha : a.Reachable) (hdrawn : ∀ c ∈ changes, c.ledger ∈ a.ledgers)
    (hrun : run A changes = pure t) (htip : t.preferred L = pure (some tip)) :
    ∃ p ∈ a.ledgers, tip.StandsFor p ∧
      ∀ l ∈ a.ledgers, p.leadsTo l = true → ∀ count : Option Nat,
        (votesAfter changes).card + count.getD 1 ≤ maxSupport →
          ∃ t', t.insert l (count.getD 1) = pure t' ∧
            ∃ q ∈ a.ledgers, t'.Prefers L q ∧ q.leadsTo l = true ∧ p.leadsTo q = true ∧
              (l = p → q = p) := by
  have hholds := holds_run A ha.sound hdrawn t hrun
  obtain ⟨hvotes, hstands⟩ := standsFor_walk ha.sound hholds htip
  have hp : a.walk (votesAfter changes) L .genesis ∈ a.ledgers :=
    Archive.walk_genesis_mem ha.sound
  refine ⟨_, hp, hstands, fun l hl hpath count hcard => ?_⟩
  have hinsert := LawfulVoteTrie.insert (count.getD 1) ha.sound hholds hl
  rw [Multiset.card_add, Multiset.card_replicate] at hinsert
  rcases hinsert with ⟨t', hinsert, hholds'⟩ | ⟨fault, -, -, hover⟩
  · have hvotes' : votesAfter changes + Multiset.replicate (count.getD 1) l ≠ 0 := by
      intro hempty
      apply hvotes
      rw [← Multiset.le_zero, ← hempty]
      exact Multiset.le_add_right _ _
    have hq : a.walk (votesAfter changes + Multiset.replicate (count.getD 1) l) L .genesis ∈
        a.ledgers := Archive.walk_genesis_mem ha.sound
    obtain ⟨hql, hpq⟩ := Archive.walk_cast ha.sound hl (count.getD 1) hpath
    refine ⟨t', hinsert, _, hq, prefers_walk ha.sound hholds' hvotes' L, hql, hpq, ?_⟩
    rintro rfl
    exact Ledger.leadsTo_antisymm ha.sound hq hp hql hpq
  · omega

/-- Another vote for the trunk leaves the preference on the way from the trunk to the left side. -/
theorem preferred_supported_fork :
    Fork.archive.Reachable ∧
      ∃ t t' : ArenaTrie (Slots.numbered (Cell Nat)), run (Slots.numbered _) leaning = pure t ∧
        t.Prefers 0 Fork.left ∧ t.insert Fork.trunk 1 = pure t' ∧
        ∃ q ∈ Fork.archive.ledgers, t'.Prefers 0 q ∧ q.leadsTo Fork.trunk = true ∧
          Fork.left.leadsTo q = true := by
  obtain ⟨t, hrun, hleft, -⟩ := exists_run_leaning (Slots.numbered (Cell Nat))
  obtain ⟨tip, htip, -⟩ := id hleft
  obtain ⟨p, hp, hstands, hsupported⟩ :=
    preferred_supported Fork.archive_reachable leaning_admissible.drawn hrun htip
  obtain rfl := Prefers.eq Fork.archive_reachable.sound hp (by decide) htip hstands hleft
  obtain ⟨t', hinsert, q, hq, hprefers, hql, hpq, -⟩ :=
    hsupported Fork.trunk (by decide) (by decide) none (by decide)
  exact ⟨Fork.archive_reachable, t, t', hrun, hleft, hinsert, q, hq, hprefers, hql, hpq⟩

end ArenaTrie

end ForkChoice

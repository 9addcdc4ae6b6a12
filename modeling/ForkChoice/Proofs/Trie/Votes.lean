import ForkChoice.Proofs.Trie.Withdraw

/-!
# The trie as a multiset of votes

A trie stands for the multiset of the ledgers that were voted for. Casting votes adds copies of a
ledger, withdrawing takes copies away, and as long as all votes together fit in a count neither
fails.

* `Trie.Counts`: a well-formed trie holds the votes of a multiset.
* `Trie.Counts.insert`, `Trie.Counts.withdraw`, `Trie.Counts.withdraw_absent`: what the two
  operations do to the multiset.
* `Trie.Counts.tipSupport_eq`, `Trie.Counts.branchSupport_eq`, `Trie.Counts.isEmpty_iff`: what the
  queries answer.
-/

namespace ForkChoice

/-- A count as an entry of a table that has no zero entries. -/
def entryOf (votes : Nat) : Option Nat := if votes = 0 then none else some votes

theorem entryOf_of_ne {votes : Nat} (h : votes ≠ 0) : entryOf votes = some votes := if_neg h

theorem getD_entryOf (votes : Nat) : (entryOf votes).getD 0 = votes := by
  unfold entryOf
  split
  · simp_all
  · rfl

/-- An entry that falls to zero goes away. -/
theorem entryOf_sub (held votes : Nat) :
    (match (entryOf held).map (· - votes) with
      | some 0 => none
      | left => left) = entryOf (held - votes) := by
  unfold entryOf
  by_cases hheld : held = 0
  · simp [hheld]
  · rw [if_neg hheld, Option.map_some]
    cases held - votes <;> rfl

theorem countP_replicate {α : Type} (P : α → Prop) [DecidablePred P] (n : Nat) (x : α) :
    (Multiset.replicate n x).countP P = if P x then n else 0 := by
  rw [← Multiset.coe_replicate, Multiset.coe_countP, List.countP_replicate]
  simp

/-- A table has the number of elements with each value, and no zero entries. -/
def Tallies {α : Type} (f : α → Nat) (table : Std.ExtTreeMap Nat Nat) (W : Multiset α) : Prop :=
  ∀ s, table[s]? = entryOf (W.countP (f · = s))

namespace Tallies

variable {α : Type} {f : α → Nat} {table : Std.ExtTreeMap Nat Nat} {W : Multiset α}

theorem getD_eq (h : Tallies f table W) (s : Nat) :
    table.getD s 0 = W.countP (f · = s) := by
  rw [Std.ExtTreeMap.getD_eq_getD_getElem?, h, getD_entryOf]

theorem add (h : Tallies f table W) {v : Nat} (hv : v ≠ 0) (x : α) :
    Tallies f (table.insert (f x) (table.getD (f x) 0 + v)) (W + Multiset.replicate v x) := by
  intro s
  rw [Multiset.countP_add, countP_replicate]
  by_cases hs : f x = s
  · subst hs
    rw [Std.ExtTreeMap.getElem?_insert_self, if_pos rfl, h.getD_eq, entryOf_of_ne (by omega)]
  · rw [Std.ExtTreeMap.getElem?_insert, if_neg (Nat.compare_eq_eq.not.mpr hs), if_neg hs, h,
      Nat.add_zero]

end Tallies

/-! ## Votes as ledgers and as transactions -/

namespace Archive.Sound

variable {a : Archive} {V : Multiset Ledger} {l : Ledger}

theorem count_txs (ha : a.Sound) (hV : ∀ m ∈ V, m ∈ a.ledgers) (hl : l ∈ a.ledgers) :
    (V.map (·.txs)).count l.txs = V.count l := by
  rw [Multiset.count_map, ← Multiset.countP_eq_card_filter]
  refine Multiset.countP_congr rfl fun m hm => ?_
  exact propext ⟨fun h => ha.eq_of_txs hl (hV m hm) h, fun h => by rw [h]⟩

theorem countP_txs (ha : a.Sound) (hV : ∀ m ∈ V, m ∈ a.ledgers) (hl : l ∈ a.ledgers) :
    (V.map (·.txs)).countP (l.txs <+: ·) = V.countP (·.leadsTo l) := by
  rw [Multiset.countP_map, ← Multiset.countP_eq_card_filter]
  refine Multiset.countP_congr rfl fun m hm => ?_
  exact propext (Ledger.leadsTo_iff ha hl (hV m hm)).symm

end Archive.Sound

theorem Node.inRangeAll_iff {children : List Node} :
    Node.inRangeAll children = true ↔ ∀ c ∈ children, c.inRange = true := by
  induction children with
  | nil => simp [Node.inRangeAll]
  | cons child rest ih => simp [Node.inRangeAll, ih]

theorem Node.inRange_iff {n : Node} :
    n.inRange = true ↔
      ∀ m ∈ n.nodes, m.tipSupport ≤ maxSupport ∧ m.branchSupport ≤ maxSupport := by
  induction n using Node.below_induction with
  | node n ih =>
    have hn : n.inRange = true ↔ (n.tipSupport ≤ maxSupport ∧ n.branchSupport ≤ maxSupport) ∧
        ∀ c ∈ n.children, c.inRange = true := by
      cases n with
      | mk g tip branch children => simp [Node.inRange, Node.inRangeAll_iff]
    rw [hn, forall₂_congr ih]
    constructor
    · rintro ⟨hself, hbelow⟩ m hm
      rcases Node.mem_nodes.mp hm with rfl | ⟨c, hc, hm⟩
      · exact hself
      · exact hbelow c hc m hm
    · intro h
      exact ⟨h n n.self_mem_nodes, fun c hc m hm => h m (Node.mem_nodes_of_child hc hm)⟩

namespace Trie

variable {a : Archive} {V : Multiset Ledger} {t : Trie} {l : Ledger} {v : Nat}

/-- A well-formed trie that holds the votes of a multiset of archived ledgers. -/
structure Counts (a : Archive) (V : Multiset Ledger) (t : Trie) : Prop extends t.Rooted a where
  drawn : ∀ m ∈ V, m ∈ a.ledgers
  votes : t.root.votes = V.map (·.txs)
  bySeq : ∀ s, t.seqSupport[s]? = entryOf (V.countP (·.seq = s))

theorem formed_genesis (ha : a.Sound) : Rooted a .empty := by
  refine ⟨rfl, rfl, Node.formed_leaf ?_ 0⟩
  exact ha.genesis_mem

theorem counts_empty (ha : a.Sound) : Counts a 0 .empty where
  toRooted := formed_genesis ha
  drawn := by simp
  votes := by simp [empty, Node.votes_leaf]
  bySeq := by simp [empty, entryOf]

namespace Counts

theorem branchSupport_root (h : Counts a V t) : t.root.branchSupport = V.card := by
  rw [← h.formed.card_votes, h.votes, Multiset.card_map]

/-! ## Queries -/

theorem isEmpty_iff (h : Counts a V t) : t.isEmpty = true ↔ V = 0 := by
  rw [isEmpty, beq_iff_eq, h.branchSupport_root, Multiset.card_eq_zero]

theorem tipSupport_eq (ha : a.Sound) (h : Counts a V t) (hl : l ∈ a.ledgers) :
    t.tipSupport l = V.count l := by
  rw [h.toRooted.tipSupport_eq ha hl, h.votes, ha.count_txs h.drawn hl]

theorem branchSupport_eq (ha : a.Sound) (h : Counts a V t) (hl : l ∈ a.ledgers) :
    t.branchSupport l = V.countP (·.leadsTo l) := by
  rw [h.toRooted.branchSupport_eq ha hl, h.votes, ha.countP_txs h.drawn hl]

theorem tallies (h : Counts a V t) : Tallies Ledger.seq t.seqSupport V := h.bySeq

/-! ## Casting votes -/

theorem grow (ha : a.Sound) (h : Counts a V t) (hl : l ∈ a.ledgers) (hv : v ≠ 0) :
    Counts a (V + Multiset.replicate v l) (t.grow l v) := by
  have hroot : t.root.path <+: l.txs := h.path_root ▸ List.nil_prefix
  obtain ⟨hreplaces, hvotes, -⟩ := h.formed.insert_spec ha hl hv
    (fun hne => absurd h.path_root hne) (h.entry_prefix l.txs)
  have hsegment := h.formed.segment_insert (v := v) ha hl hroot
  refine ⟨⟨?_, ?_, hreplaces.formed⟩, ?_, ?_, ?_⟩
  · exact hreplaces.start.trans h.start
  · simp only [Trie.grow, hsegment, h.stop]
  · intro m hm
    rcases Multiset.mem_add.mp hm with hm | hm
    · exact h.drawn m hm
    · exact Multiset.eq_of_mem_replicate hm ▸ hl
  · rw [Trie.grow, hvotes, h.votes, Multiset.map_add, Multiset.map_replicate]
  · exact h.tallies.add hv l

/-- When all votes together fit in a count, so does every count of the trie. -/
theorem inRange (h : Counts a V t) (hcard : V.card ≤ maxSupport) : t.inRange = true := by
  rw [Trie.inRange, Bool.and_eq_true, Node.inRange_iff, List.all_eq_true]
  refine ⟨fun m hm => ?_, fun ⟨s, votes⟩ hentry => ?_⟩
  · have hle := h.formed.branchSupport_le hm
    have htip := h.formed.tipSupport_le_of_mem hm
    rw [h.branchSupport_root] at hle htip
    exact ⟨htip.trans hcard, hle.trans hcard⟩
  · have hget := Std.ExtTreeMap.mem_toList_iff_getElem?_eq_some.mp hentry
    rw [h.bySeq, entryOf] at hget
    split at hget
    · cases hget
    · have hle := Multiset.countP_le_card (·.seq = s) V
      rw [Option.some.inj hget] at hle
      simpa using hle.trans hcard

/-- Casting votes adds them, as long as all votes together fit in a count. -/
theorem insert (ha : a.Sound) (h : Counts a V t) (hl : l ∈ a.ledgers)
    (hcard : (V + Multiset.replicate v l).card ≤ maxSupport) :
    ∃ t', t.insert l v = .ok t' ∧ Counts a (V + Multiset.replicate v l) t' := by
  unfold Trie.insert
  by_cases hv : v = 0
  · subst hv
    exact ⟨t, if_pos rfl, by simpa using h⟩
  · have hgrow := h.grow ha hl hv
    rw [if_neg hv, if_pos (hgrow.inRange hcard)]
    exact ⟨t.grow l v, rfl, hgrow⟩

/-! ## Withdrawing votes -/

theorem withdraw_absent (ha : a.Sound) (h : Counts a V t) (hl : l ∈ a.ledgers)
    (hcount : V.count l = 0) : t.withdraw l v = .ok (false, t) := by
  rw [Trie.withdraw, if_pos (by rw [h.tipSupport_eq ha hl, hcount])]

/-- No branch on the way to a tip has fewer votes than the tip. -/
theorem tipSupport_le_of_mem_pathTo (ha : a.Sound) (h : Counts a V t) (hl : l ∈ a.ledgers)
    {k : Node} (hk : k ∈ t.root.pathTo l.id) : V.count l ≤ k.branchSupport := by
  obtain ⟨m, hm, -, hmid, hall⟩ := Node.getLast?_pathTo (List.ne_nil_of_mem hk)
  obtain ⟨hk, hmk⟩ := hall k hk
  have hml : m.path = l.txs := (Segment.tip_id_eq ha (h.formed m hm).backed hl).mp hmid
  rw [← ha.count_txs h.drawn hl, ← h.votes, ← hml, h.formed.count_votes_node hm]
  exact (h.formed.of_mem hk).tipSupport_le_of_mem hmk

theorem shrink (ha : a.Sound) (h : Counts a V t) (hl : l ∈ a.ledgers) (hv : v ≤ V.count l)
    (hcount : V.count l ≠ 0) : Counts a (V - Multiset.replicate v l) (t.shrink l v) := by
  have hle : Multiset.replicate v l ≤ V := Multiset.le_count_iff_replicate_le.mp hv
  have hmem : l.txs ∈ t.root.votes := by
    rw [h.votes]
    exact Multiset.mem_map_of_mem _ (Multiset.count_ne_zero.mp hcount)
  obtain ⟨m, hm, hml, -⟩ := Node.exists_node_of_mem_votes hmem
  have htip : v ≤ m.tipSupport := by
    rwa [← h.formed.count_votes_node hm, hml, h.votes, ha.count_txs h.drawn hl]
  obtain ⟨n, hwithdraw, hsegment, hformed, hvotes⟩ := h.formed.withdraw_spec ha hl hm hml htip
  have hroot : (t.shrink l v).root = n := by rw [Trie.shrink, hwithdraw, Option.getD_some]
  refine ⟨⟨?_, ?_, ?_⟩, fun k hk => h.drawn k (Multiset.mem_of_le (Multiset.sub_le_self _ _) hk), ?_, ?_⟩
  · rw [hroot, hsegment, h.start]
  · rw [hroot, hsegment, h.stop]
  · rw [hroot]
    exact hformed
  · rw [hroot]
    refine add_right_cancel (b := Multiset.replicate v l.txs) ?_
    rw [hvotes, h.votes, ← Multiset.map_replicate (fun m : Ledger => m.txs), ← Multiset.map_add,
      Multiset.sub_add_cancel hle]
  · intro s
    simp only [Trie.shrink]
    rw [Multiset.countP_sub hle, countP_replicate]
    by_cases hs : l.seq = s
    · subst hs
      rw [Std.ExtTreeMap.getElem?_alter_self, if_pos rfl, h.bySeq]
      exact entryOf_sub _ _
    · rw [Std.ExtTreeMap.getElem?_alter, if_neg (Nat.compare_eq_eq.not.mpr hs), if_neg hs,
        h.bySeq, Nat.sub_zero]

/-- Withdrawing votes takes away as many as there are, when there are any. -/
theorem withdraw (ha : a.Sound) (h : Counts a V t) (hl : l ∈ a.ledgers)
    (hcount : V.count l ≠ 0) :
    ∃ t', t.withdraw l v = .ok (true, t') ∧ Counts a (V - Multiset.replicate v l) t' := by
  have htip := h.tipSupport_eq ha hl
  have htaken : V - Multiset.replicate (min v (V.count l)) l = V - Multiset.replicate v l := by
    ext m
    rw [Multiset.count_sub, Multiset.count_sub, Multiset.count_replicate,
      Multiset.count_replicate]
    by_cases hm : l = m
    · subst hm
      rw [if_pos rfl, if_pos rfl]
      omega
    · rw [if_neg hm, if_neg hm]
  have hpath : (t.root.pathTo l.id).all fun node =>
      min v (V.count l) ≤ node.branchSupport := by
    rw [List.all_eq_true]
    intro k hk
    have := h.tipSupport_le_of_mem_pathTo ha hl hk
    simp only [decide_eq_true_eq]
    omega
  rw [Trie.withdraw, if_neg (by rw [htip]; exact hcount), htip]
  simp only [hpath, if_true]
  exact ⟨_, rfl, htaken ▸ h.shrink ha hl (Nat.min_le_right _ _) hcount⟩

end Counts

end Trie

end ForkChoice

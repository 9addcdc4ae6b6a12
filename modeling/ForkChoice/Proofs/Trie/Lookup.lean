import ForkChoice.Proofs.Trie.Nodes

/-!
# Looking up ledgers

A ledger is looked up in two ways: by the identifier of a tip, and along its history as far as the
trie goes. Both answer what the votes say.

* `Node.Formed.locate_spec`: the walk along a history ends where no branch goes on with it.
* `Node.getLast?_pathTo_eq_some`, `Node.pathTo_eq_nil_iff`: the path to a tip, and when there is none.
* `Trie.tipSupport_eq`: the votes for a ledger.
* `Trie.branchSupport_eq`: the votes for a ledger and its descendants, wherever it lies.
-/

namespace ForkChoice

namespace Node

variable {a : Archive} {l : Ledger}

/-! ## Agreement at nodes -/

/-- A ledger that has come to a node agrees with it as far as the transactions go. -/
theorem Fits.agreement_eq (ha : a.Sound) {n : Node} (hn : n.Fits a) (hl : l ∈ a.ledgers)
    (hentry : n.entry <+: l.txs) :
    n.segment.agreement l = commonLength n.path l.txs + 1 := by
  refine Segment.agreement_eq ha hn.backed hl (List.IsPrefix.trans ?_ hentry)
  exact List.take_prefix_take_left (Nat.sub_le _ _)

theorem Fits.agreement_eq_stop_iff (ha : a.Sound) {n : Node} (hn : n.Fits a)
    (hl : l ∈ a.ledgers) (hentry : n.entry <+: l.txs) :
    n.segment.agreement l = n.segment.stop ↔ n.path <+: l.txs := by
  have hle := commonLength_le_left n.path l.txs
  rw [hn.agreement_eq ha hl hentry, Segment.stop_eq, prefix_iff_length_le]
  simp only [path] at *
  omega

/-- A branch agrees with a ledger past the tip it leaves exactly when the ledger enters it. -/
theorem Continues.lt_agreement_iff (ha : a.Sound) {p : List Nat} {c : Node} (hc : c.Continues p)
    (hbacked : c.segment.backing ∈ a.ledgers) (hl : l ∈ a.ledgers) (hp : p <+: l.txs) :
    p.length + 1 < c.segment.agreement l ↔ c.entry <+: l.txs := by
  have hpast : c.segment.path.take (c.segment.start - 1) <+: l.txs := by
    have htake : c.segment.path.take p.length = p := (List.prefix_iff_eq_take.mp hc.path).symm
    rw [hc.start, Nat.add_sub_cancel, htake]
    exact hp
  have hlength : p.length + 1 ≤ c.segment.path.length := hc.length_lt
  rw [Segment.agreement_eq ha hbacked hl hpast, entry, Segment.entry, hc.start,
    take_prefix_iff hlength]
  omega

theorem Formed.stop_lt_agreement_iff (ha : a.Sound) {n c : Node} (hn : n.Formed a)
    (hc : c ∈ n.children) (hl : l ∈ a.ledgers) (hp : n.path <+: l.txs) :
    n.segment.stop < c.segment.agreement l ↔ c.entry <+: l.txs := by
  rw [Segment.stop_eq]
  exact (hn.fits.continues c hc).lt_agreement_iff ha (hn.child hc).fits.backed hl hp

/-! ## Along a history -/

theorem locateIn_eq (l : Ledger) (place : Nat) (children : List Node) :
    locateIn l place children =
      (children.find? fun c => place < c.segment.agreement l).map (·.locate l) := by
  induction children with
  | nil => rfl
  | cons child rest ih =>
    rw [locateIn, List.find?_cons]
    by_cases h : place < child.segment.agreement l
    · simp [h]
    · simp [h, ih]

theorem locate_eq (l : Ledger) (n : Node) :
    n.locate l =
      if n.segment.agreement l = n.segment.stop then
        ((n.children.find? fun c => n.segment.stop < c.segment.agreement l).map
          (·.locate l)).getD (n, n.segment.stop)
      else (n, n.segment.agreement l) := by
  cases n with
  | mk g tip branch children =>
    rw [locate, locateIn_eq]
    split
    · rename_i h
      rw [h]
    · rfl

/-- Where a ledger leaves the trie: the node is the last one that the ledger has come to, and the
place is the first one that the two do not share. -/
structure Leaves (n : Node) (l : Ledger) (m : Node) (place : Nat) : Prop where
  mem : m ∈ n.nodes
  entry : m.entry <+: l.txs
  place : place = commonLength m.path l.txs + 1
  last : m.path <+: l.txs → ∀ c ∈ m.children, ¬ c.entry <+: l.txs

theorem Formed.locate_spec (ha : a.Sound) {n : Node} (hn : n.Formed a) (hl : l ∈ a.ledgers)
    (hentry : n.entry <+: l.txs) : n.Leaves l (n.locate l).1 (n.locate l).2 := by
  induction n using below_induction with
  | node n ih =>
    have hagree := hn.fits.agreement_eq ha hl hentry
    have hiff := hn.fits.agreement_eq_stop_iff ha hl hentry
    rw [locate_eq]
    by_cases hstop : n.segment.agreement l = n.segment.stop
    · rw [if_pos hstop]
      have hpath := hiff.mp hstop
      cases hfind : n.children.find? fun c => n.segment.stop < c.segment.agreement l with
      | none =>
        refine ⟨n.self_mem_nodes, hentry, hstop ▸ hagree, fun _ c hc hcl => ?_⟩
        have := List.find?_eq_none.mp hfind c hc
        simp [hn.stop_lt_agreement_iff ha hc hl hpath, hcl] at this
      | some c =>
        have hc := List.mem_of_find?_eq_some hfind
        have hlt := List.find?_some hfind
        rw [decide_eq_true_eq, hn.stop_lt_agreement_iff ha hc hl hpath] at hlt
        have h := ih c hc (hn.child hc) hlt
        exact ⟨mem_nodes_of_child hc h.mem, h.entry, h.place, h.last⟩
    · rw [if_neg hstop]
      exact ⟨n.self_mem_nodes, hentry, hagree, fun hpath => absurd (hiff.mpr hpath) hstop⟩

/-- A ledger in the part of a node that it shares has the votes of the node. -/
theorem Formed.countP_prefix_of_shared {n m : Node} (hn : n.Formed a) (hm : m ∈ n.nodes)
    {q : List Nat} (hentry : m.entry <+: q) (hpath : q <+: m.path) :
    n.votes.countP (q <+: ·) = m.branchSupport := by
  rw [hn.countP_votes_node hm fun p hp => hentry.trans hp, ← (hn.of_mem hm).card_votes]
  exact Multiset.countP_eq_card.mpr fun p hp =>
    hpath.trans ((hn.of_mem hm).path_prefix_of_mem_votes hp)

/-- A ledger that leaves the trie before its end has no votes. -/
theorem Leaves.countP_prefix_eq_zero {n m : Node} {place : Nat} (h : n.Leaves l m place)
    (hn : n.Formed a) (hpath : ¬ l.txs <+: m.path) : n.votes.countP (l.txs <+: ·) = 0 := by
  rw [hn.countP_votes_node h.mem fun q hq => h.entry.trans hq, Multiset.countP_eq_zero]
  intro q hq hlq
  have hm := hn.of_mem h.mem
  rcases List.prefix_or_prefix_of_prefix hlq (hm.path_prefix_of_mem_votes hq) with hml | hml
  · exact hpath hml
  · rcases mem_votes.mp hq with ⟨-, rfl⟩ | ⟨c, hc, hqc⟩
    · exact hpath hlq
    · refine h.last hml c hc (List.prefix_of_prefix_length_le
        ((hm.child hc).entry_prefix_of_mem_votes hqc) hlq ?_)
      have hne : m.path.length ≠ l.txs.length := fun hlen =>
        hpath (hml.eq_of_length hlen ▸ List.prefix_rfl)
      have := hml.length_le
      rw [(hm.fits.continues c hc).length_entry]
      omega

/-! ## By the identifier of a tip -/

theorem pathTo_eq (id : Nat) (n : Node) :
    n.pathTo id = if n.segment.tip.id = id then [n]
      else match pathToIn id n.children with
        | [] => []
        | path => n :: path := by
  cases n with
  | mk g tip branch children => rfl

theorem pathToIn_eq_nil_iff {id : Nat} {children : List Node} :
    pathToIn id children = [] ↔ ∀ c ∈ children, c.pathTo id = [] := by
  induction children with
  | nil => simp [pathToIn]
  | cons child rest ih =>
    rw [pathToIn]
    cases h : child.pathTo id with
    | nil => simp [ih, h]
    | cons m path => simp [h]

theorem pathTo_eq_nil_iff {id : Nat} {n : Node} :
    n.pathTo id = [] ↔ ∀ m ∈ n.nodes, m.segment.tip.id ≠ id := by
  induction n using below_induction with
  | node n ih =>
    rw [pathTo_eq]
    by_cases hid : n.segment.tip.id = id
    · simp only [hid, if_true, List.cons_ne_nil, false_iff, not_forall]
      exact ⟨n, n.self_mem_nodes, fun h => h hid⟩
    · rw [if_neg hid]
      have hbelow : pathToIn id n.children = [] ↔
          ∀ c ∈ n.children, ∀ m ∈ c.nodes, m.segment.tip.id ≠ id := by
        rw [pathToIn_eq_nil_iff]
        exact forall₂_congr ih
      constructor
      · intro h m hm
        rcases mem_nodes.mp hm with rfl | ⟨c, hc, hm⟩
        · exact hid
        · refine hbelow.mp ?_ c hc m hm
          cases hpath : pathToIn id n.children with
          | nil => rfl
          | cons k path => simp [hpath] at h
      · intro h
        rw [hbelow.mpr fun c hc m hm => h m (mem_nodes_of_child hc hm)]

theorem exists_pathToIn {id : Nat} {children : List Node} (h : pathToIn id children ≠ []) :
    ∃ c ∈ children, pathToIn id children = c.pathTo id ∧ c.pathTo id ≠ [] := by
  induction children with
  | nil => simp [pathToIn] at h
  | cons child rest ih =>
    rw [pathToIn] at h ⊢
    cases hchild : child.pathTo id with
    | nil =>
      simp only [hchild] at h ⊢
      obtain ⟨c, hc, heq⟩ := ih h
      exact ⟨c, List.mem_cons_of_mem _ hc, heq⟩
    | cons m path => exact ⟨child, List.mem_cons_self, by simp [hchild]⟩

/-- The path to a tip ends with its node, which lies at or below every node of the path. -/
theorem getLast?_pathTo {id : Nat} {n : Node} (h : n.pathTo id ≠ []) :
    ∃ m ∈ n.nodes, (n.pathTo id).getLast? = some m ∧ m.segment.tip.id = id ∧
      ∀ k ∈ n.pathTo id, k ∈ n.nodes ∧ m ∈ k.nodes := by
  induction n using below_induction with
  | node n ih =>
    rw [pathTo_eq] at h ⊢
    by_cases hid : n.segment.tip.id = id
    · refine ⟨n, n.self_mem_nodes, ?_⟩
      simp [hid, n.self_mem_nodes]
    · simp only [hid, if_false] at h ⊢
      have hin : pathToIn id n.children ≠ [] := by
        intro hnil
        simp [hnil] at h
      obtain ⟨c, hc, heq, hne⟩ := exists_pathToIn hin
      obtain ⟨m, hm, hlast, hmid, hall⟩ := ih c hc hne
      rw [heq]
      cases hpath : c.pathTo id with
      | nil => exact absurd hpath hne
      | cons k path =>
        rw [hpath] at hlast hall
        refine ⟨m, mem_nodes_of_child hc hm, ?_, hmid, ?_⟩
        · rw [List.getLast?_cons_cons, hlast]
        · intro x hx
          rcases List.mem_cons.mp hx with rfl | hx
          · exact ⟨x.self_mem_nodes, mem_nodes_of_child hc hm⟩
          · exact ⟨mem_nodes_of_child hc (hall x hx).1, (hall x hx).2⟩

end Node

/-! ## Support -/

namespace Trie

variable {a : Archive} {l : Ledger} {t : Trie}

/-- The root holds genesis, and every history comes to it. -/
structure Rooted (a : Archive) (t : Trie) : Prop where
  start : t.root.segment.start = 0
  stop : t.root.segment.stop = 1
  formed : t.root.Formed a

theorem Rooted.path_root (h : t.Rooted a) : t.root.path = [] := by
  have := t.root.segment.length_path
  rw [h.stop] at this
  exact List.eq_nil_of_length_eq_zero this

theorem Rooted.entry_root (h : t.Rooted a) : t.root.entry = [] := by
  rw [Node.entry, Segment.entry, h.start, List.take_zero]

theorem Rooted.entry_prefix (h : t.Rooted a) (q : List Nat) : t.root.entry <+: q := by
  rw [h.entry_root]
  exact List.nil_prefix

/-- The search by identifier finds the node whose tip is the ledger, if there is one. -/
theorem Rooted.nodeAt?_spec (ha : a.Sound) (h : t.Rooted a) (hl : l ∈ a.ledgers) :
    (∃ m ∈ t.root.nodes, t.nodeAt? l = some m ∧ m.path = l.txs) ∨
      (t.nodeAt? l = none ∧ ∀ m ∈ t.root.nodes, m.path ≠ l.txs) := by
  have hid : ∀ m ∈ t.root.nodes, m.segment.tip.id = l.id ↔ m.path = l.txs := fun m hm =>
    Segment.tip_id_eq ha (h.formed m hm).backed hl
  unfold nodeAt?
  by_cases hpath : t.root.pathTo l.id = []
  · rw [hpath]
    refine Or.inr ⟨rfl, fun m hm hml => ?_⟩
    exact Node.pathTo_eq_nil_iff.mp hpath m hm ((hid m hm).mpr hml)
  · obtain ⟨m, hm, hlast, hmid, -⟩ := Node.getLast?_pathTo hpath
    exact Or.inl ⟨m, hm, hlast, (hid m hm).mp hmid⟩

theorem Rooted.tipSupport_eq (ha : a.Sound) (h : t.Rooted a) (hl : l ∈ a.ledgers) :
    t.tipSupport l = t.root.votes.count l.txs := by
  unfold tipSupport
  rcases h.nodeAt?_spec ha hl with ⟨m, hm, hnode, hml⟩ | ⟨hnode, hnone⟩
  · rw [hnode, ← hml, h.formed.count_votes_node hm]
  · rw [hnode, Node.count_votes_eq_zero hnone]

/-- A ledger has the votes of its descendants whether it is a tip, lies inside a segment or is
nowhere in the trie. -/
theorem Rooted.branchSupport_eq (ha : a.Sound) (h : t.Rooted a) (hl : l ∈ a.ledgers) :
    t.branchSupport l = t.root.votes.countP (l.txs <+: ·) := by
  unfold branchSupport
  rcases h.nodeAt?_spec ha hl with ⟨m, hm, hnode, hml⟩ | ⟨hnode, hnone⟩
  · rw [hnode, ← hml, h.formed.countP_path_node hm]
  · rw [hnode]
    have hleaves := h.formed.locate_spec ha hl (h.entry_prefix _)
    cases hlocate : t.root.locate l with
    | mk m place =>
      rw [hlocate] at hleaves
      dsimp only at hleaves
      have hshared : (l.seq < place ∧ l.seq < m.segment.stop) ↔ l.txs <+: m.path := by
        have hle := commonLength_le_left m.path l.txs
        rw [hleaves.place, Segment.stop_eq, prefix_iff_length_le, commonLength_comm l.txs]
        simp only [Node.path, Ledger.seq] at *
        omega
      simp only [locate, hlocate]
      split
      · rename_i hin
        rw [h.formed.countP_prefix_of_shared hleaves.mem hleaves.entry (hshared.mp hin)]
      · rename_i hout
        rw [hleaves.countP_prefix_eq_zero h.formed fun hin => hout (hshared.mpr hin)]

end Trie

end ForkChoice

import ForkChoice.Proofs.Trie.Votes
import Mathlib.Data.List.Nodup

/-!
# The shape of the trie

The votes alone decide which nodes a trie has, where their segments begin and end and how they hang
together. A node stands at genesis, at each ledger with votes and at each place where two histories
with votes part, and its parent is the last such place before it.

* `Trie.rows`: a trie as a list with one row for each node.
* `Node.Formed.exists_node_iff`: where nodes stand.
* `Node.Formed.path_prefix_parent`: no node stands between a node and its parent.
* `Trie.Counts.alike`: tries with the same votes have the same rows.
* `Trie.Counts.tip_iff`: the tips of these rows.
-/

namespace ForkChoice

/-- A node with all that it shows of itself: where it stands, its counts and its parent. -/
structure Row where
  tipId : Nat
  start : Nat
  stop : Nat
  tipSupport : Nat
  branchSupport : Nat
  /-- The identifier of the tip of the parent. -/
  parent : Option Nat
  deriving DecidableEq

namespace Node

variable {a : Archive}

/-- The row of a node under a parent. -/
def row (parent : Option Nat) (n : Node) : Row where
  tipId := n.segment.tip.id
  start := n.segment.start
  stop := n.segment.stop
  tipSupport := n.tipSupport
  branchSupport := n.branchSupport
  parent := parent

mutual

/-- The rows of all nodes at or below a node. -/
def rows (parent : Option Nat) : Node → List Row
  | ⟨g, tip, branch, children⟩ =>
    row parent ⟨g, tip, branch, children⟩ :: rowsAll (some g.tip.id) children

def rowsAll (parent : Option Nat) : List Node → List Row
  | [] => []
  | child :: rest => child.rows parent ++ rowsAll parent rest

end

theorem rows_eq (parent : Option Nat) (n : Node) :
    n.rows parent = n.row parent :: rowsAll (some n.segment.tip.id) n.children := by
  cases n with
  | mk g tip branch children => rw [rows]

theorem mem_rowsAll {r : Row} {parent : Option Nat} {children : List Node} :
    r ∈ rowsAll parent children ↔ ∃ c ∈ children, r ∈ c.rows parent := by
  induction children with
  | nil => simp [rowsAll]
  | cons child rest ih => simp [rowsAll, ih]

/-- Each row is that of the top node or of a branch under its parent. -/
theorem mem_rows {r : Row} {parent : Option Nat} {n : Node} :
    r ∈ n.rows parent ↔ r = n.row parent ∨
      ∃ p ∈ n.nodes, ∃ c ∈ p.children, r = c.row (some p.segment.tip.id) := by
  induction n using below_induction generalizing parent with
  | node n ih =>
    rw [rows_eq, List.mem_cons, mem_rowsAll]
    refine or_congr_right ⟨?_, ?_⟩
    · rintro ⟨c, hc, hr⟩
      rcases (ih c hc).mp hr with rfl | ⟨p, hp, d, hd, rfl⟩
      · exact ⟨n, n.self_mem_nodes, c, hc, rfl⟩
      · exact ⟨p, mem_nodes_of_child hc hp, d, hd, rfl⟩
    · rintro ⟨p, hp, d, hd, rfl⟩
      rcases mem_nodes.mp hp with rfl | ⟨c, hc, hp⟩
      · exact ⟨d, hd, (ih d hd).mpr (Or.inl rfl)⟩
      · exact ⟨c, hc, (ih c hc).mpr (Or.inr ⟨p, hp, d, hd, rfl⟩)⟩

theorem rowsAll_eq_flatMap (parent : Option Nat) (children : List Node) :
    rowsAll parent children = children.flatMap (rows parent) := by
  induction children with
  | nil => rfl
  | cons child rest ih => rw [rowsAll, List.flatMap_cons, ih]

theorem map_tipId_rows (parent : Option Nat) (n : Node) :
    (n.rows parent).map (·.tipId) = n.nodes.map fun m => m.segment.tip.id := by
  induction n using below_induction generalizing parent with
  | node n ih =>
    rw [rows_eq, nodes_eq, rowsAll_eq_flatMap, List.map_cons, List.map_cons, List.map_flatMap,
      List.map_flatMap, List.flatMap_congr fun c hc => ih c hc _]
    rfl

/-! ## Every node stands once -/

theorem Formed.nodup_paths {n : Node} (hn : n.Formed a) : (n.nodes.map path).Nodup := by
  induction n using below_induction with
  | node n ih =>
    rw [nodes_eq, List.map_cons, List.map_flatMap, List.nodup_cons, List.nodup_flatMap]
    refine ⟨?_, fun c hc => ih c hc (hn.child hc), ?_⟩
    · intro hmem
      obtain ⟨c, hc, hmem⟩ := List.mem_flatMap.mp hmem
      obtain ⟨m, hm, hpath⟩ := List.mem_map.mp hmem
      have := (hn.fits.continues c hc).length_lt
      have := ((hn.child hc).path_prefix_of_mem hm).length_le
      rw [hpath] at this
      omega
    · refine (List.pairwise_map.mp hn.fits.apart).imp_of_mem fun {c d} hc hd hne => ?_
      rintro q hcq hdq
      obtain ⟨x, hx, rfl⟩ := List.mem_map.mp hcq
      obtain ⟨y, hy, hyx⟩ := List.mem_map.mp hdq
      have hcx := ((hn.child hc).entry_prefix_of_mem hx).trans x.entry_prefix_path
      have hdx := ((hn.child hd).entry_prefix_of_mem hy).trans y.entry_prefix_path
      exact hne (congrArg entry (hn.eq_of_entry_prefix hc hd hcx (hyx ▸ hdx)))

theorem Formed.nodup_rows (ha : a.Sound) {n : Node} (hn : n.Formed a) (parent : Option Nat) :
    (n.rows parent).Nodup := by
  refine List.Nodup.of_map (·.tipId) ?_
  rw [map_tipId_rows]
  refine List.Nodup.map_on (fun x hx y hy hid => ?_) (List.Nodup.of_map _ hn.nodup_paths)
  refine hn.eq_of_path hx hy ?_
  exact (Segment.tip_id_eq_tip_id ha (hn x hx).backed (hn y hy).backed).mp hid

/-! ## Where nodes stand -/

/-- Two histories that enter different branches part at the tip. -/
theorem Formed.shared_eq_path {n c d : Node} (hn : n.Formed a) (hc : c ∈ n.children)
    (hd : d ∈ n.children) (hne : c ≠ d) {p q : List Nat} (hp : c.entry <+: p)
    (hq : d.entry <+: q) : shared p q = n.path := by
  have hnp := (hn.fits.continues c hc).prefix_entry.trans hp
  have hnq := (hn.fits.continues d hd).prefix_entry.trans hq
  have hshorter : (shared p q).length < c.entry.length := by
    refine Nat.lt_of_not_le fun hle => hne ?_
    have hcs := List.prefix_of_prefix_length_le hp (shared_prefix_left p q) hle
    exact hn.eq_of_entry_prefix hc hd (hcs.trans (shared_prefix_right p q)) hq
  have hns := prefix_shared_iff.mpr ⟨hnp, hnq⟩
  rw [(hn.fits.continues c hc).length_entry] at hshorter
  have := hns.length_le
  exact (hns.eq_of_length (by omega)).symm

/-- Where two histories with votes part there is a node. -/
theorem Formed.exists_node_shared {n : Node} (hn : n.Formed a) {p q : List Nat}
    (hp : p ∈ n.votes) (hq : q ∈ n.votes) : ∃ m ∈ n.nodes, m.path = shared p q := by
  induction n using below_induction with
  | node n ih =>
    have hnp := hn.path_prefix_of_mem_votes hp
    have hnq := hn.path_prefix_of_mem_votes hq
    rcases mem_votes.mp hp with ⟨-, rfl⟩ | ⟨c, hc, hpc⟩
    · refine ⟨n, n.self_mem_nodes, ?_⟩
      exact (shared_eq_left hnq).symm
    · rcases mem_votes.mp hq with ⟨-, rfl⟩ | ⟨d, hd, hqd⟩
      · refine ⟨n, n.self_mem_nodes, ?_⟩
        exact (shared_eq_right hnp).symm
      · by_cases hcd : c = d
        · subst hcd
          obtain ⟨m, hm, hpath⟩ := ih c hc (hn.child hc) hpc hqd
          exact ⟨m, mem_nodes_of_child hc hm, hpath⟩
        · exact ⟨n, n.self_mem_nodes, (hn.shared_eq_path hc hd hcd
            ((hn.child hc).entry_prefix_of_mem_votes hpc)
            ((hn.child hd).entry_prefix_of_mem_votes hqd)).symm⟩

/-- A needed node stands at a vote or where two histories with votes part. -/
theorem Formed.shared_of_needed {n : Node} (hn : n.Formed a) (hneeded : n.Needed) :
    ∃ p ∈ n.votes, ∃ q ∈ n.votes, shared p q = n.path := by
  by_cases htip : n.tipSupport = 0
  · have hnodup : n.children.Nodup := List.Nodup.of_map _ hn.fits.apart
    obtain ⟨c, d, rest, hchildren⟩ : ∃ c d rest, n.children = c :: d :: rest := by
      have := hneeded htip
      rcases hlist : n.children with _ | ⟨c, _ | ⟨d, rest⟩⟩
      · simp [hlist] at this
      · simp [hlist] at this
      · exact ⟨c, d, rest, rfl⟩
    have hc : c ∈ n.children := by simp [hchildren]
    have hd : d ∈ n.children := by simp [hchildren]
    have hne : c ≠ d := by
      rw [hchildren] at hnodup
      simp_all
    obtain ⟨p, hp⟩ := hn.exists_vote_of_child hc
    obtain ⟨q, hq⟩ := hn.exists_vote_of_child hd
    exact ⟨p, mem_votes.mpr (Or.inr ⟨c, hc, hp⟩), q, mem_votes.mpr (Or.inr ⟨d, hd, hq⟩),
      hn.shared_eq_path hc hd hne ((hn.child hc).entry_prefix_of_mem_votes hp)
        ((hn.child hd).entry_prefix_of_mem_votes hq)⟩
  · have hmem : n.path ∈ n.votes := mem_votes.mpr (Or.inl ⟨htip, rfl⟩)
    exact ⟨n.path, hmem, n.path, hmem, shared_eq_left List.prefix_rfl⟩

/-! ## Parents -/

theorem exists_parent {m n : Node} (hm : m ∈ n.nodes) :
    m = n ∨ ∃ p ∈ n.nodes, m ∈ p.children := by
  induction n using below_induction with
  | node n ih =>
    rcases mem_nodes.mp hm with rfl | ⟨c, hc, hm⟩
    · exact Or.inl rfl
    · rcases ih c hc hm with rfl | ⟨p, hp, hmp⟩
      · exact Or.inr ⟨n, n.self_mem_nodes, hc⟩
      · exact Or.inr ⟨p, mem_nodes_of_child hc hp, hmp⟩

theorem mem_nodes_of_mem_children {c p n : Node} (hp : p ∈ n.nodes) (hc : c ∈ p.children) :
    c ∈ n.nodes :=
  mem_nodes_trans hp (mem_nodes_of_child hc c.self_mem_nodes)

/-- A tip that lies past the first ledger of a node belongs to a node at or below it. -/
theorem Formed.mem_nodes_of_entry {c m n : Node} (hn : n.Formed a) (hc : c ∈ n.nodes)
    (hm : m ∈ n.nodes) (hentry : c.entry <+: m.path) : m ∈ c.nodes := by
  induction n using below_induction with
  | node n ih =>
    rcases mem_nodes.mp hc with rfl | ⟨d, hd, hc⟩
    · exact hm
    · have hdm := ((hn.child hd).entry_prefix_of_mem hc).trans hentry
      rcases mem_nodes.mp hm with rfl | ⟨e, he, hm⟩
      · have := hdm.length_le
        have := (hn.fits.continues d hd).length_entry
        omega
      · have hem := ((hn.child he).entry_prefix_of_mem hm).trans m.entry_prefix_path
        obtain rfl := hn.eq_of_entry_prefix hd he hdm hem
        exact ih d hd (hn.child hd) hc hm

/-- Every node before the tip of a branch stands at or before the tip of its parent. -/
theorem Formed.path_prefix_parent {c m n p : Node} (hn : n.Formed a) (hp : p ∈ n.nodes)
    (hc : c ∈ p.children) (hm : m ∈ n.nodes) (hmc : m.path <+: c.path) (hne : m.path ≠ c.path) :
    m.path <+: p.path := by
  have hcontinues := (hn.of_mem hp).fits.continues c hc
  rcases List.prefix_or_prefix_of_prefix hmc hcontinues.path with hmp | hpm
  · exact hmp
  · by_cases hlength : c.entry.length ≤ m.path.length
    · have hcm := List.prefix_of_prefix_length_le c.entry_prefix_path hmc hlength
      have hmem := hn.mem_nodes_of_entry (mem_nodes_of_mem_children hp hc) hm hcm
      have hback := ((hn.of_mem hp).child hc).path_prefix_of_mem hmem
      exact absurd (hmc.eq_of_length (Nat.le_antisymm hmc.length_le hback.length_le)) hne
    · rw [hcontinues.length_entry] at hlength
      exact (hpm.eq_of_length (Nat.le_antisymm hpm.length_le (by omega))) ▸ List.prefix_rfl

end Node

/-! ## Tries with the same votes -/

namespace Trie

variable {a : Archive} {V : Multiset Ledger} {t u : Trie}

/-- The rows of a trie. -/
def rows (t : Trie) : List Row := t.root.rows none

/-- Two tries are alike when they have the same rows, in whatever order, and the same votes by
sequence number. -/
structure Alike (t u : Trie) : Prop where
  rows : t.rows.Perm u.rows
  seqSupport : t.seqSupport = u.seqSupport

namespace Rooted

/-- Nodes stand at genesis and where two histories with votes part, which for a history and itself
is its end. -/
theorem exists_node_iff (h : t.Rooted a) {p : List Nat} :
    (∃ n ∈ t.root.nodes, n.path = p) ↔
      p = [] ∨ ∃ x ∈ t.root.votes, ∃ y ∈ t.root.votes, p = shared x y := by
  constructor
  · rintro ⟨n, hn, rfl⟩
    rcases Node.exists_parent hn with rfl | ⟨q, hq, hnq⟩
    · exact Or.inl h.path_root
    · have hneeded := ((h.formed.of_mem hq).fits.continues n hnq).needed
      obtain ⟨x, hx, y, hy, hxy⟩ := (h.formed.of_mem hn).shared_of_needed hneeded
      exact Or.inr ⟨x, Node.mem_votes_of_mem_nodes hn hx, y, Node.mem_votes_of_mem_nodes hn hy,
        hxy.symm⟩
  · rintro (rfl | ⟨x, hx, y, hy, rfl⟩)
    · exact ⟨t.root, t.root.self_mem_nodes, h.path_root⟩
    · exact h.formed.exists_node_shared hx hy

theorem exists_node_of_votes (ht : t.Rooted a) (hu : u.Rooted a)
    (hvotes : t.root.votes = u.root.votes) {n : Node} (hn : n ∈ t.root.nodes) :
    ∃ m ∈ u.root.nodes, m.path = n.path := by
  rw [hu.exists_node_iff, ← hvotes, ← ht.exists_node_iff]
  exact ⟨n, hn, rfl⟩

/-- In tries with the same votes a branch leaves the same tip. -/
theorem parent_path_eq (ht : t.Rooted a) (hu : u.Rooted a)
    (hvotes : t.root.votes = u.root.votes) {p c q d : Node} (hp : p ∈ t.root.nodes)
    (hc : c ∈ p.children) (hq : q ∈ u.root.nodes) (hd : d ∈ q.children)
    (hcd : c.path = d.path) : p.path <+: q.path := by
  obtain ⟨m, hm, hmp⟩ := exists_node_of_votes ht hu hvotes hp
  have hcontinues := (ht.formed.of_mem hp).fits.continues c hc
  have hlt := hcontinues.length_lt
  rw [← hmp]
  refine hu.formed.path_prefix_parent hq hd hm (hmp ▸ hcd ▸ hcontinues.path) fun heq => ?_
  rw [← hcd, hmp] at heq
  rw [heq] at hlt
  exact Nat.lt_irrefl _ hlt

/-- Nodes with the same tip have the same counts when the votes are the same. -/
theorem row_eq (ha : a.Sound) (ht : t.Rooted a) (hu : u.Rooted a)
    (hvotes : t.root.votes = u.root.votes) {n m : Node} (hn : n ∈ t.root.nodes)
    (hm : m ∈ u.root.nodes) (hpath : n.path = m.path) (hstart : n.segment.start = m.segment.start)
    (parent : Option Nat) : n.row parent = m.row parent := by
  have hid : n.segment.tip.id = m.segment.tip.id :=
    (Segment.tip_id_eq_tip_id ha (ht.formed n hn).backed (hu.formed m hm).backed).mpr hpath
  have hstop : n.segment.stop = m.segment.stop := by
    rw [Segment.stop_eq, Segment.stop_eq]
    exact congrArg (·.length + 1) hpath
  have htip : n.tipSupport = m.tipSupport := by
    rw [← ht.formed.count_votes_node hn, ← hu.formed.count_votes_node hm, hvotes, hpath]
  have hbranch : n.branchSupport = m.branchSupport := by
    rw [← ht.formed.countP_path_node hn, ← hu.formed.countP_path_node hm, hvotes, hpath]
  rw [Node.row, Node.row, hid, hstart, hstop, htip, hbranch]

theorem rows_subset (ha : a.Sound) (ht : t.Rooted a) (hu : u.Rooted a)
    (hvotes : t.root.votes = u.root.votes) : t.rows ⊆ u.rows := by
  intro r hr
  rcases Node.mem_rows.mp hr with rfl | ⟨p, hp, c, hc, rfl⟩
  · refine Node.mem_rows.mpr (Or.inl ?_)
    exact row_eq ha ht hu hvotes t.root.self_mem_nodes u.root.self_mem_nodes
      (ht.path_root.trans hu.path_root.symm) (ht.start.trans hu.start.symm) none
  · have hcontinues := (ht.formed.of_mem hp).fits.continues c hc
    have hcroot := Node.mem_nodes_of_mem_children hp hc
    obtain ⟨d, hd, hdc⟩ := exists_node_of_votes ht hu hvotes hcroot
    rcases Node.exists_parent hd with rfl | ⟨q, hq, hdq⟩
    · have := hcontinues.length_lt
      rw [← hdc, hu.path_root] at this
      exact absurd this (Nat.not_lt_zero _)
    · have hpq := (parent_path_eq ht hu hvotes hp hc hq hdq hdc.symm).eq_of_length_le
        (parent_path_eq hu ht hvotes.symm hq hdq hp hc hdc).length_le
      have hid : p.segment.tip.id = q.segment.tip.id :=
        (Segment.tip_id_eq_tip_id ha (ht.formed p hp).backed (hu.formed q hq).backed).mpr hpq
      have hstart : c.segment.start = d.segment.start := by
        rw [hcontinues.start, ((hu.formed.of_mem hq).fits.continues d hdq).start, hpq]
      refine Node.mem_rows.mpr (Or.inr ⟨q, hq, d, hdq, ?_⟩)
      rw [hid]
      exact row_eq ha ht hu hvotes hcroot hd hdc.symm hstart _

end Rooted

namespace Counts

/-- Tries with the same votes are alike. -/
theorem alike (ha : a.Sound) (ht : Counts a V t) (hu : Counts a V u) : t.Alike u := by
  have hvotes : t.root.votes = u.root.votes := ht.votes.trans hu.votes.symm
  constructor
  · refine (List.perm_ext_iff_of_nodup (ht.formed.nodup_rows ha none)
      (hu.formed.nodup_rows ha none)).mpr fun r => ⟨?_, ?_⟩
    · exact fun hr => Rooted.rows_subset ha ht.toRooted hu.toRooted hvotes hr
    · exact fun hr => Rooted.rows_subset ha hu.toRooted ht.toRooted hvotes.symm hr
  · exact Std.ExtTreeMap.ext_getElem? fun s => by rw [ht.bySeq, hu.bySeq]

/-- The tips are genesis and the ledgers where two histories with votes part. -/
theorem tip_iff (ha : a.Sound) (h : Counts a V t) (id : Nat) :
    (∃ r ∈ t.rows, r.tipId = id) ↔ ∃ l ∈ a.ledgers, l.id = id ∧
      (l = .genesis ∨ l ∈ V ∨ ∃ x ∈ V, ∃ y ∈ V, Ledger.LastCommon a x y l) := by
  have hrow : (∃ r ∈ t.rows, r.tipId = id) ↔ ∃ n ∈ t.root.nodes, n.segment.tip.id = id := by
    rw [← List.mem_map, ← List.mem_map]
    exact iff_of_eq (congrArg (id ∈ ·) (Node.map_tipId_rows none t.root))
  have hledger : ∀ l ∈ a.ledgers, (∃ n ∈ t.root.nodes, n.path = l.txs) ↔
      (l = .genesis ∨ l ∈ V ∨ ∃ x ∈ V, ∃ y ∈ V, Ledger.LastCommon a x y l) := by
    intro l hl
    rw [h.exists_node_iff, h.votes]
    constructor
    · rintro (hnil | ⟨x, hx, y, hy, hxy⟩)
      · exact Or.inl (ha.eq_of_txs hl ha.genesis_mem hnil)
      · obtain ⟨x, hxV, rfl⟩ := Multiset.mem_map.mp hx
        obtain ⟨y, hyV, rfl⟩ := Multiset.mem_map.mp hy
        exact Or.inr (Or.inr ⟨x, hxV, y, hyV,
          (Ledger.lastCommon_iff ha (h.drawn x hxV) (h.drawn y hyV) hl).mpr hxy⟩)
    · rintro (rfl | hlV | ⟨x, hx, y, hy, hxy⟩)
      · exact Or.inl rfl
      · have hmem := Multiset.mem_map_of_mem (fun m : Ledger => m.txs) hlV
        exact Or.inr ⟨_, hmem, _, hmem, (shared_eq_left List.prefix_rfl).symm⟩
      · rw [Ledger.lastCommon_iff ha (h.drawn x hx) (h.drawn y hy) hl] at hxy
        exact Or.inr ⟨_, Multiset.mem_map_of_mem _ hx, _, Multiset.mem_map_of_mem _ hy, hxy⟩
  rw [hrow]
  constructor
  · rintro ⟨n, hn, rfl⟩
    obtain ⟨l, hl, hln⟩ := ha.exists_txs (h.formed n hn).backed n.segment.path_prefix
    have hid := (Segment.tip_id_eq ha (h.formed n hn).backed hl).mpr hln.symm
    exact ⟨l, hl, hid.symm, (hledger l hl).mp ⟨n, hn, hln.symm⟩⟩
  · rintro ⟨l, hl, rfl, hcase⟩
    obtain ⟨n, hn, hnl⟩ := (hledger l hl).mpr hcase
    exact ⟨n, hn, (Segment.tip_id_eq ha (h.formed n hn).backed hl).mpr hnl⟩

end Counts

end Trie

end ForkChoice

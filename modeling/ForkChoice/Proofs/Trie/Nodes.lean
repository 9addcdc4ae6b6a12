import ForkChoice.Proofs.Segment
import ForkChoice.Trie.Basic
import Mathlib.Algebra.GroupWithZero.Nat
import Mathlib.Algebra.Order.Group.Multiset

/-!
# Nodes of the trie and the votes they hold

A node is looked at in two ways: as the list of all nodes at or below it, and as the multiset of
the votes they hold, each vote as the transactions that lead to its ledger.

* `Node.below_induction`: induction along branches.
* `Node.nodes`: all nodes at or below a node.
* `Node.votes`: the votes for the tips of these nodes.
* `Node.Fits`, `Node.Formed`: the conditions on one node, and on all nodes at or below it.
* `Node.Formed.card_votes`: the branch support counts all votes.
* `Node.Formed.countP_votes_node`: votes that pass a node are held at or below it.
-/

namespace ForkChoice

namespace Node

/-- What holds of a node when it holds of its branches holds of every node. -/
@[elab_as_elim]
theorem below_induction {motive : Node → Prop}
    (node : ∀ n : Node, (∀ c ∈ n.children, motive c) → motive n) : ∀ n, motive n
  | ⟨g, tip, branch, children⟩ =>
    node ⟨g, tip, branch, children⟩ fun c _ => below_induction node c
termination_by n => sizeOf n
decreasing_by
  have := List.sizeOf_lt_of_mem ‹c ∈ children›
  simp only [mk.sizeOf_spec]
  omega

/-- The transactions that lead to the tip of a node. -/
def path (n : Node) : List Nat := n.segment.path

/-- The transactions that lead to the first ledger of a node. -/
def entry (n : Node) : List Nat := n.segment.entry

mutual

/-- The nodes at or below a node, itself first. -/
def nodes : Node → List Node
  | ⟨g, tip, branch, children⟩ => ⟨g, tip, branch, children⟩ :: nodesAll children

def nodesAll : List Node → List Node
  | [] => []
  | child :: rest => child.nodes ++ nodesAll rest

end

mutual

/-- The votes at or below a node, each as the transactions that lead to its ledger. -/
def votes : Node → Multiset (List Nat)
  | ⟨g, tip, _, children⟩ => Multiset.replicate tip g.path + votesAll children

def votesAll : List Node → Multiset (List Nat)
  | [] => 0
  | child :: rest => child.votes + votesAll rest

end

/-- The votes of several branches together. -/
def totalSupport (nodes : List Node) : Nat := (nodes.map (·.branchSupport)).sum

/-! ## The list of nodes -/

theorem nodes_eq (n : Node) : n.nodes = n :: n.children.flatMap nodes := by
  have hall : ∀ children, nodesAll children = children.flatMap nodes := by
    intro children
    induction children with
    | nil => rfl
    | cons child rest ih => rw [nodesAll, List.flatMap_cons, ih]
  cases n with
  | mk g tip branch children => rw [nodes, hall]

theorem mem_nodesAll {m : Node} {children : List Node} :
    m ∈ nodesAll children ↔ ∃ c ∈ children, m ∈ c.nodes := by
  induction children with
  | nil => simp [nodesAll]
  | cons child rest ih => simp [nodesAll, ih]

theorem mem_nodes {m n : Node} : m ∈ n.nodes ↔ m = n ∨ ∃ c ∈ n.children, m ∈ c.nodes := by
  cases n with
  | mk g tip branch children => simp [nodes, mem_nodesAll]

theorem self_mem_nodes (n : Node) : n ∈ n.nodes := mem_nodes.mpr (Or.inl rfl)

theorem mem_nodes_of_child {m n c : Node} (hc : c ∈ n.children) (hm : m ∈ c.nodes) :
    m ∈ n.nodes :=
  mem_nodes.mpr (Or.inr ⟨c, hc, hm⟩)

theorem mem_nodes_trans {k m n : Node} (hm : m ∈ n.nodes) (hk : k ∈ m.nodes) : k ∈ n.nodes := by
  induction n using below_induction with
  | node n ih =>
    rcases mem_nodes.mp hm with rfl | ⟨c, hc, hm⟩
    · exact hk
    · exact mem_nodes_of_child hc (ih c hc hm)

/-! ## The multiset of votes -/

theorem votes_eq (n : Node) :
    n.votes = Multiset.replicate n.tipSupport n.path + votesAll n.children := by
  cases n with
  | mk g tip branch children => rfl

theorem votesAll_append (xs ys : List Node) :
    votesAll (xs ++ ys) = votesAll xs + votesAll ys := by
  induction xs with
  | nil => simp [votesAll]
  | cons x xs ih => simp [votesAll, ih, add_assoc]

theorem votesAll_perm {xs ys : List Node} (h : xs.Perm ys) : votesAll xs = votesAll ys := by
  induction h with
  | nil => rfl
  | cons x _ ih => simp [votesAll, ih]
  | swap x y l => simp [votesAll, add_left_comm]
  | trans _ _ ih₁ ih₂ => exact ih₁.trans ih₂

/-- The votes of one branch beside all others. -/
theorem votes_of_split {n c : Node} {before behind : List Node}
    (h : n.children = before ++ c :: behind) :
    n.votes =
      c.votes + (Multiset.replicate n.tipSupport n.path + votesAll (before ++ behind)) := by
  rw [votes_eq, h, votesAll_append, votesAll_append, votesAll]
  ac_rfl

theorem mem_votesAll {q : List Nat} {children : List Node} :
    q ∈ votesAll children ↔ ∃ c ∈ children, q ∈ c.votes := by
  induction children with
  | nil => simp [votesAll]
  | cons child rest ih => simp [votesAll, ih]

theorem mem_votes {q : List Nat} {n : Node} :
    q ∈ n.votes ↔ n.tipSupport ≠ 0 ∧ q = n.path ∨ ∃ c ∈ n.children, q ∈ c.votes := by
  rw [votes_eq, Multiset.mem_add, Multiset.mem_replicate, mem_votesAll]

theorem mem_votes_of_mem_nodes {m n : Node} (hm : m ∈ n.nodes) {q : List Nat}
    (hq : q ∈ m.votes) : q ∈ n.votes := by
  induction n using below_induction with
  | node n ih =>
    rcases mem_nodes.mp hm with rfl | ⟨c, hc, hm⟩
    · exact hq
    · exact mem_votes.mpr (Or.inr ⟨c, hc, ih c hc hm⟩)

/-- Every vote is for the tip of a node that has votes. -/
theorem exists_node_of_mem_votes {q : List Nat} {n : Node} (hq : q ∈ n.votes) :
    ∃ m ∈ n.nodes, m.path = q ∧ m.tipSupport ≠ 0 := by
  induction n using below_induction with
  | node n ih =>
    rcases mem_votes.mp hq with ⟨htip, rfl⟩ | ⟨c, hc, hq⟩
    · exact ⟨n, n.self_mem_nodes, rfl, htip⟩
    · obtain ⟨m, hm, hpath, htip⟩ := ih c hc hq
      exact ⟨m, mem_nodes_of_child hc hm, hpath, htip⟩

theorem totalSupport_append (xs ys : List Node) :
    totalSupport (xs ++ ys) = totalSupport xs + totalSupport ys := by
  simp [totalSupport]

theorem totalSupport_cons (x : Node) (xs : List Node) :
    totalSupport (x :: xs) = x.branchSupport + totalSupport xs := by
  simp [totalSupport]

theorem totalSupport_perm {xs ys : List Node} (h : xs.Perm ys) :
    totalSupport xs = totalSupport ys := by
  induction h with
  | nil => rfl
  | cons x _ ih => rw [totalSupport_cons, totalSupport_cons, ih]
  | swap x y l => simp only [totalSupport_cons]; omega
  | trans _ _ ih₁ ih₂ => exact ih₁.trans ih₂

/-! ## Well-formed nodes -/

/-- A node has a reason to be: votes for its tip, or histories that part there. -/
def Needed (n : Node) : Prop := n.tipSupport = 0 → 2 ≤ n.children.length

/-- A branch goes on from the end of a path and is needed. -/
structure Continues (p : List Nat) (c : Node) : Prop where
  start : c.segment.start = p.length + 1
  path : p <+: c.path
  needed : c.Needed

/-- What each node of a trie keeps to. -/
structure Fits (a : Archive) (n : Node) : Prop where
  backed : n.segment.backing ∈ a.ledgers
  counted : n.branchSupport = n.tipSupport + totalSupport n.children
  continues : ∀ c ∈ n.children, c.Continues n.path
  apart : (n.children.map entry).Nodup

/-- All nodes at or below a node keep to the rules. -/
def Formed (a : Archive) (n : Node) : Prop := ∀ m ∈ n.nodes, m.Fits a

variable {a : Archive}

theorem formed_iff {n : Node} :
    n.Formed a ↔ n.Fits a ∧ ∀ c ∈ n.children, c.Formed a := by
  constructor
  · intro h
    exact ⟨h n n.self_mem_nodes, fun c hc m hm => h m (mem_nodes_of_child hc hm)⟩
  · rintro ⟨hn, hbelow⟩ m hm
    rcases mem_nodes.mp hm with rfl | ⟨c, hc, hm⟩
    · exact hn
    · exact hbelow c hc m hm

theorem entry_prefix_path (n : Node) : n.entry <+: n.path := n.segment.entry_prefix

theorem Continues.length_entry {p : List Nat} {c : Node} (h : c.Continues p) :
    c.entry.length = p.length + 1 := by
  rw [entry, Segment.length_entry, h.start]

theorem Continues.prefix_entry {p : List Nat} {c : Node} (h : c.Continues p) : p <+: c.entry :=
  List.prefix_of_prefix_length_le h.path c.segment.entry_prefix (by rw [h.length_entry]; omega)

theorem Continues.length_lt {p : List Nat} {c : Node} (h : c.Continues p) :
    p.length < c.path.length := by
  have := c.entry_prefix_path.length_le
  rw [h.length_entry] at this
  omega

theorem Fits.tipSupport_le {n : Node} (hn : n.Fits a) : n.tipSupport ≤ n.branchSupport := by
  rw [hn.counted]
  omega

namespace Formed

theorem fits {n : Node} (h : n.Formed a) : n.Fits a := h n n.self_mem_nodes

theorem of_mem {m n : Node} (h : n.Formed a) (hm : m ∈ n.nodes) : m.Formed a :=
  fun _ hk => h _ (mem_nodes_trans hm hk)

theorem child {c n : Node} (h : n.Formed a) (hc : c ∈ n.children) : c.Formed a :=
  (formed_iff.mp h).2 c hc

theorem path_prefix_of_mem {m n : Node} (h : n.Formed a) (hm : m ∈ n.nodes) :
    n.path <+: m.path := by
  induction n using below_induction with
  | node n ih =>
    rcases mem_nodes.mp hm with rfl | ⟨c, hc, hm⟩
    · exact List.prefix_rfl
    · exact (h.fits.continues c hc).path.trans (ih c hc (h.child hc) hm)

theorem entry_prefix_of_mem {m n : Node} (h : n.Formed a) (hm : m ∈ n.nodes) :
    n.entry <+: m.entry := by
  induction n using below_induction with
  | node n ih =>
    rcases mem_nodes.mp hm with rfl | ⟨c, hc, hm⟩
    · exact List.prefix_rfl
    · exact (n.entry_prefix_path.trans (h.fits.continues c hc).prefix_entry).trans
        (ih c hc (h.child hc) hm)

/-- At most one branch leads along a given path. -/
theorem eq_of_entry_prefix {c d n : Node} (h : n.Formed a) (hc : c ∈ n.children)
    (hd : d ∈ n.children) {q : List Nat} (hcq : c.entry <+: q) (hdq : d.entry <+: q) :
    c = d := by
  have hlength : c.entry.length = d.entry.length := by
    rw [(h.fits.continues c hc).length_entry, (h.fits.continues d hd).length_entry]
  refine List.inj_on_of_nodup_map h.fits.apart hc hd ?_
  exact (List.prefix_of_prefix_length_le hcq hdq hlength.le).eq_of_length hlength

theorem not_entry_prefix_of_split {c n : Node} {before behind : List Node} (h : n.Formed a)
    (hsplit : n.children = before ++ c :: behind) {q : List Nat} (hcq : c.entry <+: q) :
    ∀ d ∈ before ++ behind, d ∈ n.children ∧ ¬ d.entry <+: q := by
  have hnodup : n.children.Nodup := List.Nodup.of_map _ h.fits.apart
  intro d hd
  have hcn : c ∈ n.children := by rw [hsplit]; simp
  have hdn : d ∈ n.children := by
    rw [hsplit]
    exact List.perm_middle.mem_iff.mpr (List.mem_cons_of_mem _ hd)
  refine ⟨hdn, fun hdq => ?_⟩
  rw [hsplit, List.nodup_middle, List.nodup_cons] at hnodup
  exact hnodup.1 (h.eq_of_entry_prefix hdn hcn hdq hcq ▸ hd)

theorem path_ne_of_mem_child {c m n : Node} (h : n.Formed a) (hc : c ∈ n.children)
    (hm : m ∈ c.nodes) : m.path ≠ n.path := by
  intro hmn
  have hlt := (h.fits.continues c hc).length_lt
  have hle := ((h.child hc).path_prefix_of_mem hm).length_le
  rw [hmn] at hle
  omega

/-- The tip of a node is not the tip of any other. -/
theorem eq_of_path {k m n : Node} (h : n.Formed a) (hk : k ∈ n.nodes) (hm : m ∈ n.nodes)
    (hpath : k.path = m.path) : k = m := by
  induction n using below_induction with
  | node n ih =>
    rcases mem_nodes.mp hk with rfl | ⟨c, hc, hkc⟩ <;>
      rcases mem_nodes.mp hm with rfl | ⟨d, hd, hmd⟩
    · rfl
    · exact absurd hpath.symm (h.path_ne_of_mem_child hd hmd)
    · exact absurd hpath (h.path_ne_of_mem_child hc hkc)
    · have hck := ((h.child hc).entry_prefix_of_mem hkc).trans k.entry_prefix_path
      have hdm := ((h.child hd).entry_prefix_of_mem hmd).trans m.entry_prefix_path
      have : c = d := h.eq_of_entry_prefix hc hd (hpath ▸ hck) hdm
      subst this
      exact ih c hc (h.child hc) hkc hmd

/-! ## Counting votes -/

theorem path_prefix_of_mem_votes {n : Node} (h : n.Formed a) {q : List Nat} (hq : q ∈ n.votes) :
    n.path <+: q := by
  obtain ⟨m, hm, rfl, -⟩ := exists_node_of_mem_votes hq
  exact h.path_prefix_of_mem hm

theorem entry_prefix_of_mem_votes {n : Node} (h : n.Formed a) {q : List Nat}
    (hq : q ∈ n.votes) : n.entry <+: q :=
  n.entry_prefix_path.trans (h.path_prefix_of_mem_votes hq)

theorem card_votesAll {children : List Node}
    (h : ∀ c ∈ children, c.votes.card = c.branchSupport) :
    (votesAll children).card = totalSupport children := by
  induction children with
  | nil => rfl
  | cons child rest ih =>
    rw [votesAll, Multiset.card_add, totalSupport_cons, h child List.mem_cons_self,
      ih fun c hc => h c (List.mem_cons_of_mem _ hc)]

theorem card_votes {n : Node} (h : n.Formed a) : n.votes.card = n.branchSupport := by
  induction n using below_induction with
  | node n ih =>
    rw [votes_eq, Multiset.card_add, Multiset.card_replicate,
      card_votesAll fun c hc => ih c hc (h.child hc), h.fits.counted]

theorem countP_votesAll_eq_zero {children : List Node} {P : List Nat → Prop} [DecidablePred P]
    (h : ∀ c ∈ children, ∀ q ∈ c.votes, ¬ P q) : (votesAll children).countP P = 0 := by
  rw [Multiset.countP_eq_zero]
  intro q hq
  obtain ⟨c, hc, hq⟩ := mem_votesAll.mp hq
  exact h c hc q hq

/-- Votes that enter a branch are held in this branch. -/
theorem countP_votesAll_child {n c : Node} (h : n.Formed a) (hc : c ∈ n.children)
    {P : List Nat → Prop} [DecidablePred P] (hP : ∀ q, P q → c.entry <+: q) :
    (votesAll n.children).countP P = c.votes.countP P := by
  obtain ⟨before, behind, hsplit⟩ := List.append_of_mem hc
  have hother : (votesAll (before ++ behind)).countP P = 0 := by
    refine countP_votesAll_eq_zero fun d hd q hq hPq => ?_
    obtain ⟨hdn, hdq⟩ := h.not_entry_prefix_of_split hsplit (hP q hPq) d hd
    exact hdq ((h.child hdn).entry_prefix_of_mem_votes hq)
  rw [votesAll_append, Multiset.countP_add] at hother
  rw [hsplit, votesAll_append, votesAll, Multiset.countP_add, Multiset.countP_add]
  omega

/-- Votes that pass the first ledger of a node are held at or below it. -/
theorem countP_votes_node {n m : Node} (h : n.Formed a) (hm : m ∈ n.nodes)
    {P : List Nat → Prop} [DecidablePred P] (hP : ∀ q, P q → m.entry <+: q) :
    n.votes.countP P = m.votes.countP P := by
  induction n using below_induction with
  | node n ih =>
    rcases mem_nodes.mp hm with rfl | ⟨c, hc, hm⟩
    · rfl
    · have hentry := (h.child hc).entry_prefix_of_mem hm
      have htip : ¬ P n.path := by
        intro hPn
        have := (h.fits.continues c hc).length_entry
        have := (hentry.trans (hP _ hPn)).length_le
        omega
      rw [votes_eq, Multiset.countP_add, h.countP_votesAll_child hc fun q hq =>
        hentry.trans (hP q hq), ih c hc (h.child hc) hm,
        Multiset.countP_eq_zero.mpr fun q hq => (Multiset.eq_of_mem_replicate hq) ▸ htip]
      omega

theorem count_votes_node {n m : Node} (h : n.Formed a) (hm : m ∈ n.nodes) :
    n.votes.count m.path = m.tipSupport := by
  have hlocal : n.votes.count m.path = m.votes.count m.path :=
    h.countP_votes_node hm fun q hq => hq ▸ m.entry_prefix_path
  have hbelow : (votesAll m.children).count m.path = 0 := by
    rw [Multiset.count_eq_zero]
    intro hq
    obtain ⟨c, hc, hq⟩ := mem_votesAll.mp hq
    have hm := h.of_mem hm
    have := (hm.fits.continues c hc).length_lt
    have := ((hm.child hc).path_prefix_of_mem_votes hq).length_le
    omega
  rw [hlocal, votes_eq, Multiset.count_add, Multiset.count_replicate_self, hbelow, Nat.add_zero]

theorem countP_path_node {n m : Node} (h : n.Formed a) (hm : m ∈ n.nodes) :
    n.votes.countP (m.path <+: ·) = m.branchSupport := by
  rw [h.countP_votes_node hm fun q hq => m.entry_prefix_path.trans hq,
    Multiset.countP_eq_card.mpr fun q hq => (h.of_mem hm).path_prefix_of_mem_votes hq,
    (h.of_mem hm).card_votes]

/-- A vote that passes the first ledger of a node is held at or below it. -/
theorem mem_votes_node {n m : Node} (h : n.Formed a) (hm : m ∈ n.nodes) {q : List Nat}
    (hq : q ∈ n.votes) (hentry : m.entry <+: q) : q ∈ m.votes := by
  have hcount := h.countP_votes_node hm (P := (q = ·)) fun p hp => hp ▸ hentry
  have hpos : 0 < n.votes.countP (q = ·) := Multiset.countP_pos.mpr ⟨q, hq, rfl⟩
  rw [hcount, Multiset.countP_pos] at hpos
  obtain ⟨p, hp, rfl⟩ := hpos
  exact hp

/-! ## Support along branches -/

theorem branchSupport_le {m n : Node} (h : n.Formed a) (hm : m ∈ n.nodes) :
    m.branchSupport ≤ n.branchSupport := by
  rw [← h.countP_path_node hm, ← h.card_votes]
  exact Multiset.countP_le_card _ _

theorem tipSupport_le_of_mem {m n : Node} (h : n.Formed a) (hm : m ∈ n.nodes) :
    m.tipSupport ≤ n.branchSupport :=
  (h m hm).tipSupport_le.trans (h.branchSupport_le hm)

/-- A needed node has votes at or below it. -/
theorem branchSupport_pos {n : Node} (h : n.Formed a) (hneeded : n.Needed) :
    0 < n.branchSupport := by
  induction n using below_induction with
  | node n ih =>
    by_cases htip : n.tipSupport = 0
    · have hlength := hneeded htip
      obtain ⟨c, hc⟩ := List.exists_mem_of_length_pos (show 0 < n.children.length by omega)
      have hpos := ih c hc (h.child hc) (h.fits.continues c hc).needed
      exact Nat.lt_of_lt_of_le hpos (h.branchSupport_le (mem_nodes_of_child hc c.self_mem_nodes))
    · exact Nat.lt_of_lt_of_le (Nat.pos_of_ne_zero htip) h.fits.tipSupport_le

theorem exists_vote_of_child {n c : Node} (h : n.Formed a) (hc : c ∈ n.children) :
    ∃ q, q ∈ c.votes := by
  have hpos := (h.child hc).branchSupport_pos (h.fits.continues c hc).needed
  rwa [← (h.child hc).card_votes, Multiset.card_pos_iff_exists_mem] at hpos

end Formed

theorem count_votes_eq_zero {n : Node} {q : List Nat} (h : ∀ m ∈ n.nodes, m.path ≠ q) :
    n.votes.count q = 0 := by
  rw [Multiset.count_eq_zero]
  intro hq
  obtain ⟨m, hm, hpath, -⟩ := exists_node_of_mem_votes hq
  exact h m hm hpath

end Node

end ForkChoice

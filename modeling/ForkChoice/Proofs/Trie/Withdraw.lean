import ForkChoice.Proofs.Trie.Insert
import ForkChoice.Trie.Withdraw

/-!
# Withdrawing votes keeps the trie well-formed

Votes leave the node whose tip is the ledger. On the way back each node that is no longer needed is
taken out, or joined to its only branch, so that the node above finds a branch that it can keep.

* `Node.Formed.contract_spec`: a node is contracted to a needed one with the same votes.
* `Node.Formed.removeChild`: a node whose branch has gone away.
* `Node.Formed.withdraw_spec`: votes taken at or below a node.
-/

namespace ForkChoice

namespace Node

variable {a : Archive} {l : Ledger} {v : Nat}

/-! ## Contracting -/

/-- A node without votes goes away or is joined to its only branch, if it has fewer than two. -/
theorem contract_cases (c : Node) :
    (∃ g branch, c = ⟨g, 0, branch, []⟩ ∧ c.contract = none) ∨
      (∃ g branch child, c = ⟨g, 0, branch, [child]⟩ ∧
        c.contract = some { child with segment := g.join child.segment }) ∨
      (c.Needed ∧ c.contract = some c) := by
  obtain ⟨g, tip, branch, children⟩ := c
  match tip, children with
  | 0, [] => exact Or.inl ⟨g, branch, rfl, rfl⟩
  | 0, [child] => exact Or.inr (Or.inl ⟨g, branch, child, rfl, rfl⟩)
  | 0, _ :: _ :: _ => exact Or.inr (Or.inr ⟨fun _ => by simp, rfl⟩)
  | tip + 1, _ => exact Or.inr (Or.inr ⟨fun htip => absurd htip (Nat.succ_ne_zero tip), rfl⟩)

/-- A contracted node in front of others. If it goes away, the last of them comes forward. -/
def contractBefore (c : Node) (behind : List Node) : List Node :=
  match c.contract with
  | some c' => c' :: behind
  | none => closeGap behind

theorem contractBefore_none {c : Node} (h : c.contract = none) (behind : List Node) :
    c.contractBefore behind = closeGap behind := by
  rw [contractBefore, h]

theorem contractBefore_some {c c' : Node} (h : c.contract = some c') (behind : List Node) :
    c.contractBefore behind = c' :: behind := by
  rw [contractBefore, h]

theorem votes_eq_zero_of_contract {c : Node} (h : c.contract = none) : c.votes = 0 := by
  rcases c.contract_cases with ⟨g, branch, rfl, -⟩ | ⟨g, branch, child, rfl, hsome⟩ | ⟨-, hsome⟩
  · rfl
  · cases h.symm.trans hsome
  · cases h.symm.trans hsome

theorem Formed.contract_spec {c c' : Node} (hc : c.Formed a) (h : c.contract = some c') :
    Replaces a c c' ∧ c'.votes = c.votes ∧ c'.Needed := by
  rcases c.contract_cases with
    ⟨g, branch, rfl, hnone⟩ | ⟨g, branch, child, rfl, hsome⟩ | ⟨hneeded, hsome⟩
  · cases h.symm.trans hnone
  · obtain rfl := Option.some.inj (h.symm.trans hsome)
    have hchild := hc.child (List.mem_singleton.mpr rfl)
    have hcontinues := hc.fits.continues child (List.mem_singleton.mpr rfl)
    have hadj : child.segment.start = g.stop := by
      rw [hcontinues.start, Segment.stop_eq]
      rfl
    have hpath : (g.join child.segment).path = child.path := Segment.path_join hadj
    have hbacking : (g.join child.segment).backing ∈ a.ledgers := by
      rw [Segment.backing_join hadj]
      exact hchild.fits.backed
    refine ⟨⟨hchild.withSegment hbacking hpath, Segment.start_join hadj, ?_⟩, ?_,
      hcontinues.needed⟩
    · -- the first ledger lies in the near segment, which leads on to the far one
      obtain ⟨rest, hrest⟩ := hcontinues.path
      have hgrest : g.path ++ rest = child.path := hrest
      simp only [entry, Segment.entry]
      rw [hpath, Segment.start_join hadj, ← hgrest,
        List.take_append_of_le_length g.start_le_length]
    · rw [votes_withSegment hpath, votes, votesAll, votesAll]
      simp
  · obtain rfl := Option.some.inj (h.symm.trans hsome)
    exact ⟨⟨hc, rfl, rfl⟩, rfl, hneeded⟩

theorem closeGap_perm (rest : List Node) : (closeGap rest).Perm rest := by
  unfold closeGap
  cases hlast : rest.getLast? with
  | none => rw [List.getLast?_eq_none_iff.mp hlast]
  | some last =>
    obtain ⟨front, rfl⟩ := List.getLast?_eq_some_iff.mp hlast
    rw [List.dropLast_concat]
    exact (List.perm_append_singleton last front).symm

/-- A branch without votes can be taken out, and the others can be put in any order. -/
theorem Formed.removeChild {n c : Node} {before behind children : List Node} {branch : Nat}
    (hn : n.Formed a) (hsplit : n.children = before ++ c :: behind)
    (hperm : children.Perm (before ++ behind))
    (hbranch : branch + c.branchSupport = n.branchSupport) :
    Formed a ⟨n.segment, n.tipSupport, branch, children⟩ := by
  have hmem : ∀ d ∈ children, d ∈ n.children := by
    intro d hd
    have := hperm.mem_iff.mp hd
    rw [hsplit]
    simp only [List.mem_append, List.mem_cons] at this ⊢
    tauto
  refine formed_iff.mpr ⟨⟨hn.fits.backed, ?_, fun d hd => hn.fits.continues d (hmem d hd), ?_⟩,
    fun d hd => hn.child (hmem d hd)⟩
  · have := hn.fits.counted
    rw [hsplit, totalSupport_append, totalSupport_cons] at this
    rw [totalSupport_perm hperm, totalSupport_append]
    simp only
    omega
  · have := hn.fits.apart
    rw [hsplit, List.map_append, List.map_cons, List.nodup_middle, List.nodup_cons,
      ← List.map_append] at this
    exact (hperm.map entry).nodup_iff.mpr this.2

/-! ## Taking votes -/

theorem withdraw_eq (id v : Nat) (n : Node) :
    n.withdraw id v =
      if n.segment.tip.id = id then
        some ⟨n.segment, n.tipSupport - v, n.branchSupport - v, n.children⟩
      else match withdrawIn id v n.children with
        | some children => some ⟨n.segment, n.tipSupport, n.branchSupport - v, children⟩
        | none => none := by
  cases n with
  | mk g tip branch children => rfl

theorem withdrawIn_eq_none {id : Nat} {children : List Node}
    (h : ∀ c ∈ children, c.withdraw id v = none) : withdrawIn id v children = none := by
  induction children with
  | nil => rfl
  | cons child rest ih =>
    rw [withdrawIn, h child List.mem_cons_self, ih fun c hc => h c (List.mem_cons_of_mem _ hc)]
    rfl

theorem withdraw_eq_none {id : Nat} {n : Node} (h : ∀ m ∈ n.nodes, m.segment.tip.id ≠ id) :
    n.withdraw id v = none := by
  induction n using below_induction with
  | node n ih =>
    rw [withdraw_eq, if_neg (h n n.self_mem_nodes), withdrawIn_eq_none fun c hc =>
      ih c hc fun m hm => h m (mem_nodes_of_child hc hm)]

/-- Beside the branch that leads to a tip no other has a tip with its identifier. -/
theorem Formed.withdraw_eq_none_of_split (ha : a.Sound) {n c m : Node} (hn : n.Formed a)
    (hl : l ∈ a.ledgers) {before behind : List Node} (hsplit : n.children = before ++ c :: behind)
    (hm : m ∈ c.nodes) (hml : m.path = l.txs) : ∀ d ∈ before, d.withdraw l.id v = none := by
  have hc : c ∈ n.children := by rw [hsplit]; simp
  have hcl : c.entry <+: l.txs :=
    hml ▸ ((hn.child hc).entry_prefix_of_mem hm).trans m.entry_prefix_path
  intro d hd
  obtain ⟨hdn, hdl⟩ := hn.not_entry_prefix_of_split hsplit hcl d (List.mem_append_left _ hd)
  refine withdraw_eq_none fun k hk hkid => hdl ?_
  have hkl := (Segment.tip_id_eq ha (hn.child hdn k hk).backed hl).mp hkid
  exact hkl ▸ ((hn.child hdn).entry_prefix_of_mem hk).trans k.entry_prefix_path

theorem withdrawIn_append {id : Nat} {c c' : Node} {before behind : List Node}
    (hbefore : ∀ d ∈ before, d.withdraw id v = none) (hc : c.withdraw id v = some c') :
    withdrawIn id v (before ++ c :: behind) =
      some (before ++ c'.contractBefore behind) := by
  induction before with
  | nil =>
    rw [List.nil_append, List.nil_append, withdrawIn, hc, contractBefore]
    cases hcontract : c'.contract <;> simp [hcontract]
  | cons d before ih =>
    rw [List.cons_append, withdrawIn, hbefore d List.mem_cons_self,
      ih fun d hd => hbefore d (List.mem_cons_of_mem _ hd)]
    rfl

/-- Taking votes that a tip has takes them from the votes that the node holds, and keeps all rules
below it. -/
theorem Formed.withdraw_spec (ha : a.Sound) {n m : Node} (hn : n.Formed a) (hl : l ∈ a.ledgers)
    (hm : m ∈ n.nodes) (hml : m.path = l.txs) (hv : v ≤ m.tipSupport) :
    ∃ n', n.withdraw l.id v = some n' ∧ n'.segment = n.segment ∧ n'.Formed a ∧
      n'.votes + Multiset.replicate v l.txs = n.votes := by
  induction n using below_induction with
  | node n ih =>
    have hid : ∀ k : Node, k.Fits a → (k.segment.tip.id = l.id ↔ k.path = l.txs) := fun k hk =>
      Segment.tip_id_eq ha hk.backed hl
    rw [withdraw_eq]
    by_cases hnl : n.path = l.txs
    · have hnm : n = m := hn.eq_of_path n.self_mem_nodes hm (hnl.trans hml.symm)
      rw [if_pos ((hid n hn.fits).mpr hnl)]
      refine ⟨_, rfl, rfl, formed_iff.mpr ⟨⟨hn.fits.backed, ?_, hn.fits.continues,
        hn.fits.apart⟩, fun c hc => hn.child hc⟩, ?_⟩
      · have := hn.fits.counted
        rw [← hnm] at hv
        simp only
        omega
      · have htip : n.tipSupport = n.tipSupport - v + v := by rw [← hnm] at hv; omega
        rw [votes_eq n, htip, Multiset.replicate_add, votes_eq, hnl, add_right_comm]
        simp only [path] at hnl ⊢
        rw [hnl, Nat.add_sub_cancel]
    · rw [if_neg ((hid n hn.fits).not.mpr hnl)]
      rcases mem_nodes.mp hm with rfl | ⟨c, hc, hm⟩
      · exact absurd hml hnl
      obtain ⟨c', hwithdraw, hsegment, hformed, hvotes⟩ := ih c hc (hn.child hc) hm
      obtain ⟨before, behind, hsplit⟩ := List.append_of_mem hc
      have hbefore := hn.withdraw_eq_none_of_split ha hl hsplit hm hml (v := v)
      have hcbranch : c'.branchSupport + v = c.branchSupport := by
        have := congrArg Multiset.card hvotes
        rw [Multiset.card_add, Multiset.card_replicate, hformed.card_votes,
          (hn.child hc).card_votes] at this
        exact this
      have hnbranch := hn.branchSupport_le (mem_nodes_of_child hc c.self_mem_nodes)
      rw [hsplit, withdrawIn_append hbefore hwithdraw]
      refine ⟨_, rfl, rfl, ?_⟩
      cases hcontract : c'.contract with
      | none =>
        rw [contractBefore_none hcontract]
        have hzero := votes_eq_zero_of_contract hcontract
        have hcard := hformed.card_votes
        rw [hzero, Multiset.card_zero] at hcard
        have hperm : (before ++ closeGap behind).Perm (before ++ behind) :=
          (closeGap_perm behind).append_left before
        refine ⟨hn.removeChild hsplit hperm (by omega), ?_⟩
        rw [votes_of_split hsplit, ← hvotes, hzero, zero_add, votes_eq, add_comm]
        simp only [votesAll_perm hperm, path]
      | some c'' =>
        rw [contractBefore_some hcontract]
        obtain ⟨hreplaces, hvotes', hneeded⟩ := hformed.contract_spec hcontract
        have hcard := congrArg Multiset.card hvotes'
        rw [hreplaces.formed.card_votes, hformed.card_votes] at hcard
        have hreplaces' : Replaces a c c'' :=
          Replaces.trans ⟨hformed, by rw [hsegment], by rw [entry, hsegment]; rfl⟩ hreplaces
        refine ⟨(hn.replaceChild hsplit hreplaces' hneeded (by omega)).formed, ?_⟩
        rw [votes_of_split rfl, votes_of_split hsplit, ← hvotes, hvotes', add_right_comm]
        rfl

end Node

end ForkChoice

import ForkChoice.Proofs.Ledger.Walk
import ForkChoice.Proofs.Trie.Votes
import ForkChoice.Trie.Preferred

/-!
# The favourite branch

The branches of a node are the ledgers right below its tip that have votes, and a ledger inside a
segment has the next one of the segment as its only follower with votes. So the contest among
ledgers is settled by one look at the node.

* `Trie.Counts.contest_inside`: the contest at a ledger inside a segment.
* `Node.leading_spec`: the first branch that none outranks.
* `Trie.Counts.favorite_spec`: the contest at a tip.
-/

namespace ForkChoice

namespace Trie.Counts

variable {a : Archive} {V : Multiset Ledger} {t : Trie} {l m : Ledger} {n : Node}

theorem support_eq (ha : a.Sound) (h : Counts a V t) (hl : l ∈ a.ledgers) :
    l.support V = t.root.votes.countP (l.txs <+: ·) := by
  rw [h.votes, ha.countP_txs h.drawn hl]
  rfl

theorem support_pos_iff (ha : a.Sound) (h : Counts a V t) (hl : l ∈ a.ledgers) :
    0 < l.support V ↔ ∃ q ∈ t.root.votes, l.txs <+: q := by
  rw [h.support_eq ha hl, Multiset.countP_pos]

/-- A ledger in the part of a node that it shares has the votes of the node. -/
theorem support_of_shared (ha : a.Sound) (h : Counts a V t) (hl : l ∈ a.ledgers)
    (hn : n ∈ t.root.nodes) (hentry : n.entry <+: l.txs) (hpath : l.txs <+: n.path) :
    l.support V = n.branchSupport := by
  rw [h.support_eq ha hl, h.formed.countP_prefix_of_shared hn hentry hpath]

theorem rivals_iff (ha : a.Sound) (h : Counts a V t) (hl : l ∈ a.ledgers) (hm : m ∈ a.ledgers) :
    m ∈ a.rivals V l ↔ m.txs.length = l.txs.length + 1 ∧ l.txs <+: m.txs ∧
      ∃ q ∈ t.root.votes, m.txs <+: q := by
  rw [Archive.rivals_spec, h.support_pos_iff ha hm, ← Ledger.leadsTo_iff ha hl hm]
  simp only [hm, true_and, Ledger.seq]
  refine and_congr_right fun hlength => and_congr_left fun _ => ?_
  have hne : m ≠ l := by
    rintro rfl
    omega
  simp [Ledger.leadsTo, hne]

/-- Inside a segment only the next ledger has votes. -/
theorem contest_inside (ha : a.Sound) (h : Counts a V t) (hl : l ∈ a.ledgers)
    (hm : m ∈ a.ledgers) (hn : n ∈ t.root.nodes) (hpos : 0 < n.branchSupport)
    (hentry : n.entry <+: l.txs) (hlm : l.txs <+: m.txs) (hpath : m.txs <+: n.path)
    (hlength : m.txs.length = l.txs.length + 1) :
    a.contest V l = some (m, n.branchSupport) := by
  have hformed := h.formed.of_mem hn
  have hsupport := h.support_of_shared ha hm hn (hentry.trans hlm) hpath
  rw [← hsupport] at hpos ⊢
  refine Archive.contest_of_alone ha fun k => ⟨fun hk => ?_, ?_⟩
  · have hkmem := (Archive.rivals_spec.mp hk).1
    obtain ⟨hklength, hlk, q, hq, hkq⟩ := (h.rivals_iff ha hl hkmem).mp hk
    -- the vote below the rival passes the whole segment
    have hqn := h.formed.mem_votes_node hn hq ((hentry.trans hlk).trans hkq)
    have hmq := hpath.trans (hformed.path_prefix_of_mem_votes hqn)
    refine ha.eq_of_txs hkmem hm ?_
    exact (List.prefix_of_prefix_length_le hkq hmq (by omega)).eq_of_length (by omega)
  · rintro rfl
    exact (h.rivals_iff ha hl hm).mpr ⟨hlength, hlm, (h.support_pos_iff ha hm).mp hpos⟩

end Trie.Counts

/-! ## The favourite of a node -/

namespace Node

variable {a : Archive} {nodes : List Node} {best c : Node} {place : Nat}

/-- Branches are ranked by their votes, and by first identifier among equals. -/
def rank (n : Node) : Nat ×ₗ Nat := toLex (n.branchSupport, n.segment.startId)

theorem outranks_iff {x y : Node} : x.outranks y = true ↔ y.rank < x.rank := by
  simp [outranks, rank, Prod.Lex.toLex_lt_toLex]

theorem leading_eq_none_iff : leading nodes = none ↔ nodes = [] := by
  cases nodes with
  | nil => simp [leading]
  | cons node rest =>
    rw [leading]
    split
    · simp
    · split <;> simp

/-- The leading node is ranked no lower than any other. -/
theorem leading_spec (h : leading nodes = some (place, best)) :
    nodes[place]? = some best ∧ ∀ c ∈ nodes, c.rank ≤ best.rank := by
  induction nodes generalizing place best with
  | nil => cases h
  | cons node rest ih =>
    rw [leading] at h
    split at h
    · rename_i hrest
      rw [leading_eq_none_iff] at hrest
      cases h
      simp [hrest]
    · rename_i restPlace restBest hrest
      obtain ⟨hget, htop⟩ := ih hrest
      split at h <;> rename_i hrank <;> rw [outranks_iff] at hrank <;> cases h
      · refine ⟨hget, fun c hc => ?_⟩
        rcases List.mem_cons.mp hc with rfl | hc
        · exact hrank.le
        · exact htop c hc
      · refine ⟨rfl, fun c hc => ?_⟩
        rcases List.mem_cons.mp hc with rfl | hc
        · exact le_refl _
        · exact (htop c hc).trans (not_lt.mp hrank)

/-- No two branches of a node are ranked alike. -/
theorem Formed.rank_lt (ha : a.Sound) {n d : Node} (hn : n.Formed a) (hc : c ∈ n.children)
    (hd : d ∈ n.children) (hle : c.rank ≤ d.rank) (hne : c ≠ d) : c.rank < d.rank := by
  refine lt_of_le_of_ne hle fun heq => hne ?_
  have hid : c.segment.startId = d.segment.startId := congrArg (fun p => (ofLex p).2) heq
  have hentry : c.entry = d.entry :=
    (Segment.startId_eq_startId ha (hn.child hc).fits.backed (hn.child hd).fits.backed).mp hid
  exact hn.eq_of_entry_prefix hc hd List.prefix_rfl (hentry ▸ List.prefix_rfl)

theorem mem_eraseIdx_iff (hnodup : nodes.Nodup) (hget : nodes[place]? = some best) :
    c ∈ nodes.eraseIdx place ↔ c ∈ nodes ∧ c ≠ best := by
  rw [List.mem_eraseIdx_iff_getElem?]
  constructor
  · rintro ⟨i, hi, hc⟩
    refine ⟨List.mem_of_getElem? hc, ?_⟩
    rintro rfl
    exact hi ((List.getElem?_inj (List.getElem?_eq_some_iff.mp hc).1 hnodup).mp (hc.trans hget.symm))
  · rintro ⟨hc, hne⟩
    obtain ⟨i, hi⟩ := List.mem_iff_getElem?.mp hc
    refine ⟨i, ?_, hi⟩
    rintro rfl
    exact hne (Option.some.inj (hi.symm.trans hget))

/-- The favourite of several branches: none, the only one, or the one that leads the others. -/
theorem favorite_cases (hnodup : nodes.Nodup)
    (hrange : ∀ c ∈ nodes, 0 < c.branchSupport ∧ c.branchSupport ≤ maxSupport) :
    (nodes = [] ∧ favorite nodes = .ok none) ∨
    (∃ best, nodes = [best] ∧ favorite nodes = .ok (some (0, best.branchSupport))) ∨
    ∃ place best second, nodes[place]? = some best ∧ second ∈ nodes ∧ second ≠ best ∧
      second.rank ≤ best.rank ∧ (∀ c ∈ nodes, c ≠ best → c.rank ≤ second.rank) ∧
      favorite nodes = .ok (some (place, best.branchSupport - second.branchSupport +
        if second.segment.startId < best.segment.startId then 1 else 0)) := by
  unfold favorite
  cases hleading : leading nodes with
  | none => exact Or.inl ⟨leading_eq_none_iff.mp hleading, rfl⟩
  | some lead =>
    obtain ⟨place, best⟩ := lead
    obtain ⟨hget, htop⟩ := leading_spec hleading
    have herase : ∀ c, c ∈ nodes.eraseIdx place ↔ c ∈ nodes ∧ c ≠ best :=
      fun c => mem_eraseIdx_iff hnodup hget
    refine Or.inr ?_
    dsimp only
    cases hnext : leading (nodes.eraseIdx place) with
    | none =>
      obtain ⟨hplace, hbest⟩ := List.getElem?_eq_some_iff.mp hget
      have hlength := congrArg List.length (leading_eq_none_iff.mp hnext)
      rw [List.length_eraseIdx_of_lt hplace, List.length_nil] at hlength
      obtain ⟨only, rfl⟩ := List.length_eq_one_iff.mp (show nodes.length = 1 by omega)
      obtain rfl : place = 0 := by simpa using hplace
      exact Or.inl ⟨only, rfl, by simp_all⟩
    | some next =>
      obtain ⟨nextPlace, second⟩ := next
      obtain ⟨hnextGet, hnextTop⟩ := leading_spec hnext
      obtain ⟨hsecond, hne⟩ := (herase second).mp (List.mem_of_getElem? hnextGet)
      refine Or.inr ⟨place, best, second, hget, hsecond, hne, htop second hsecond,
        fun c hc hcb => hnextTop c ((herase c).mpr ⟨hc, hcb⟩), ?_⟩
      -- the runner-up has a vote, so the lead can grow by one
      have hle : second.branchSupport ≤ best.branchSupport := by
        have := htop second hsecond
        simp only [rank, Prod.Lex.toLex_le_toLex] at this
        omega
      have hpos := (hrange second hsecond).1
      have hbound := (hrange best (List.mem_of_getElem? hget)).2
      by_cases hids : second.segment.startId < best.segment.startId
      · have hcredit : credit (best.branchSupport - second.branchSupport) 1 =
            .ok (best.branchSupport - second.branchSupport + 1) := if_pos (by omega)
        simp only [debit, if_pos hle, if_pos hids, hcredit, bind, Except.bind]
      · simp only [debit, if_pos hle, if_neg hids, bind, Except.bind, Nat.add_zero]

end Node

namespace Trie.Counts

variable {a : Archive} {V : Multiset Ledger} {t : Trie} {l m : Ledger} {n c : Node}

/-- The first ledger of a branch is ranked as the branch. -/
theorem rank_eq (ha : a.Sound) (h : Counts a V t) (hn : n ∈ t.root.nodes) (hm : m ∈ a.ledgers)
    (hentry : n.entry = m.txs) : m.id = n.segment.startId ∧ m.support V = n.branchSupport ∧
      m.rank V = n.rank := by
  have hid : m.id = n.segment.startId :=
    ((Segment.startId_eq ha (h.formed n hn).backed hm).mpr hentry).symm
  have hsupport := h.support_of_shared ha hm hn (hentry ▸ List.prefix_rfl)
    (hentry ▸ n.entry_prefix_path)
  exact ⟨hid, hsupport, by rw [Ledger.rank, Node.rank, hid, hsupport]⟩

/-- At a tip the rivals are the first ledgers of the branches. -/
theorem rivals_tip_iff (ha : a.Sound) (h : Counts a V t) (hn : n ∈ t.root.nodes)
    (hl : l ∈ a.ledgers) (hln : n.path = l.txs) :
    m ∈ a.rivals V l ↔ m ∈ a.ledgers ∧ ∃ c ∈ n.children, c.entry = m.txs := by
  have hformed := h.formed.of_mem hn
  constructor
  · intro hrival
    have hm := (Archive.rivals_spec.mp hrival).1
    obtain ⟨hlength, hlm, q, hq, hmq⟩ := (h.rivals_iff ha hl hm).mp hrival
    have hpath := (hln ▸ hlm).trans hmq
    have hqn := h.formed.mem_votes_node hn hq (n.entry_prefix_path.trans hpath)
    refine ⟨hm, ?_⟩
    rcases Node.mem_votes.mp hqn with ⟨-, rfl⟩ | ⟨c, hc, hqc⟩
    · have := hmq.length_le
      rw [hln] at this
      omega
    · refine ⟨c, hc, ?_⟩
      have hcq := (hformed.child hc).entry_prefix_of_mem_votes hqc
      have hclength := (hformed.fits.continues c hc).length_entry
      rw [hln] at hclength
      exact (List.prefix_of_prefix_length_le hcq hmq (by omega)).eq_of_length (by omega)
  · rintro ⟨hm, c, hc, hentry⟩
    have hcontinues := hformed.fits.continues c hc
    have hcroot := Node.mem_nodes_trans hn (Node.mem_nodes_of_child hc c.self_mem_nodes)
    have hpos := (hformed.child hc).branchSupport_pos hcontinues.needed
    rw [← (h.rank_eq ha hcroot hm hentry).2.1] at hpos
    refine (h.rivals_iff ha hl hm).mpr ⟨?_, ?_, (h.support_pos_iff ha hm).mp hpos⟩
    · rw [← hentry, ← hln, hcontinues.length_entry]
    · rw [← hentry, ← hln]
      exact hcontinues.prefix_entry

/-- An archived ledger stands at the start of every branch. -/
theorem exists_first (ha : a.Sound) (h : Counts a V t) (hn : n ∈ t.root.nodes) :
    ∃ m ∈ a.ledgers, n.entry = m.txs := by
  obtain ⟨m, hm, hmtxs⟩ := ha.exists_txs (h.formed n hn).backed
    (n.entry_prefix_path.trans n.segment.path_prefix)
  exact ⟨m, hm, hmtxs.symm⟩

theorem contest_alone (ha : a.Sound) (h : Counts a V t) (hn : n ∈ t.root.nodes)
    (hl : l ∈ a.ledgers) (hln : n.path = l.txs) (hchildren : n.children = [c])
    (hm : m ∈ a.ledgers) (hentry : c.entry = m.txs) :
    a.contest V l = some (m, c.branchSupport) := by
  have hc : c ∈ n.children := by simp [hchildren]
  have hcroot := Node.mem_nodes_trans hn (Node.mem_nodes_of_child hc c.self_mem_nodes)
  rw [← (h.rank_eq ha hcroot hm hentry).2.1]
  refine Archive.contest_of_alone ha fun k => ?_
  rw [h.rivals_tip_iff ha hn hl hln]
  constructor
  · rintro ⟨hk, d, hd, hdk⟩
    obtain rfl : d = c := by simpa [hchildren] using hd
    exact ha.eq_of_txs hk hm (hdk.symm.trans hentry)
  · rintro rfl
    exact ⟨hm, c, hc, hentry⟩

theorem contest_second (ha : a.Sound) (h : Counts a V t) (hn : n ∈ t.root.nodes)
    (hl : l ∈ a.ledgers) (hln : n.path = l.txs) {best second : Node} {k : Ledger}
    (hbest : best ∈ n.children) (hsecond : second ∈ n.children) (hne : second ≠ best)
    (htop : second.rank ≤ best.rank)
    (hnext : ∀ c ∈ n.children, c ≠ best → c.rank ≤ second.rank)
    (hm : m ∈ a.ledgers) (hbm : best.entry = m.txs) (hk : k ∈ a.ledgers)
    (hsk : second.entry = k.txs) :
    a.contest V l = some (m, margin V m (some k)) := by
  have hformed := h.formed.of_mem hn
  have hroot : ∀ c ∈ n.children, c ∈ t.root.nodes := fun c hc =>
    Node.mem_nodes_trans hn (Node.mem_nodes_of_child hc c.self_mem_nodes)
  have hmrank := (h.rank_eq ha (hroot best hbest) hm hbm).2.2
  have hkrank := (h.rank_eq ha (hroot second hsecond) hk hsk).2.2
  refine Archive.contest_of_second ha ?_ ?_ ?_ ?_
  · exact (h.rivals_tip_iff ha hn hl hln).mpr ⟨hm, best, hbest, hbm⟩
  · exact (h.rivals_tip_iff ha hn hl hln).mpr ⟨hk, second, hsecond, hsk⟩
  · rw [hmrank, hkrank]
    exact hformed.rank_lt ha hsecond hbest htop hne
  · intro j hj hjm hjk
    obtain ⟨hj, c, hc, hcj⟩ := (h.rivals_tip_iff ha hn hl hln).mp hj
    have hcb : c ≠ best := by
      rintro rfl
      exact hjm (ha.eq_of_txs hj hm (hcj.symm.trans hbm))
    have hcs : c ≠ second := by
      rintro rfl
      exact hjk (ha.eq_of_txs hj hk (hcj.symm.trans hsk))
    rw [hkrank, (h.rank_eq ha (hroot c hc) hj hcj).2.2]
    exact hformed.rank_lt ha hc hsecond (hnext c hc hcb) hcs

/-- The favourite of a node is the winner of the contest at its tip, and the margins agree. -/
theorem favorite_spec (ha : a.Sound) (h : Counts a V t) (hcard : V.card ≤ maxSupport)
    (hn : n ∈ t.root.nodes) (hl : l ∈ a.ledgers) (hln : n.path = l.txs) :
    (Node.favorite n.children = .ok none ∧ a.contest V l = none) ∨
      ∃ place c m k, Node.favorite n.children = .ok (some (place, k)) ∧
        n.children[place]? = some c ∧ m ∈ a.ledgers ∧ c.entry = m.txs ∧
        a.contest V l = some (m, k) := by
  have hformed := h.formed.of_mem hn
  have hroot : ∀ c ∈ n.children, c ∈ t.root.nodes := fun c hc =>
    Node.mem_nodes_trans hn (Node.mem_nodes_of_child hc c.self_mem_nodes)
  have hnodup : n.children.Nodup := List.Nodup.of_map _ hformed.fits.apart
  have hrange : ∀ c ∈ n.children, 0 < c.branchSupport ∧ c.branchSupport ≤ maxSupport := by
    intro c hc
    refine ⟨(hformed.child hc).branchSupport_pos (hformed.fits.continues c hc).needed, ?_⟩
    have := h.formed.branchSupport_le (hroot c hc)
    rw [h.branchSupport_root] at this
    omega
  rcases Node.favorite_cases hnodup hrange with
    ⟨hnil, hfavorite⟩ | ⟨best, hsingle, hfavorite⟩ |
    ⟨place, best, second, hget, hsecond, hne, htop, hnext, hfavorite⟩
  · refine Or.inl ⟨hfavorite, Archive.contest_of_none fun m hm => ?_⟩
    obtain ⟨-, c, hc, -⟩ := (h.rivals_tip_iff ha hn hl hln).mp hm
    simp [hnil] at hc
  · obtain ⟨m, hm, hbm⟩ := h.exists_first ha (hroot best (by simp [hsingle]))
    exact Or.inr ⟨0, best, m, _, hfavorite, by simp [hsingle], hm, hbm,
      h.contest_alone ha hn hl hln hsingle hm hbm⟩
  · have hbest := List.mem_of_getElem? hget
    obtain ⟨m, hm, hbm⟩ := h.exists_first ha (hroot best hbest)
    obtain ⟨k, hk, hsk⟩ := h.exists_first ha (hroot second hsecond)
    obtain ⟨hmid, hmsupport, -⟩ := h.rank_eq ha (hroot best hbest) hm hbm
    obtain ⟨hkid, hksupport, -⟩ := h.rank_eq ha (hroot second hsecond) hk hsk
    refine Or.inr ⟨place, best, m, _, hfavorite, hget, hm, hbm, ?_⟩
    rw [h.contest_second ha hn hl hln hbest hsecond hne htop hnext hm hbm hk hsk, margin,
      hmid, hkid, hmsupport, hksupport]

end Trie.Counts

end ForkChoice

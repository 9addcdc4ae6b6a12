import ForkChoice.Proofs.Trie.Contest
import ForkChoice.Proofs.Trie.Uncommitted

/-!
# The preferred ledger is where the walk ends

The trie finds the preferred ledger with one look at each segment it passes. The walk from ledger to
ledger knows nothing of segments, of the order of branches or of the run that led to the trie, and
ends at the same ledger.

* `Trie.Counts.walk_along`: single steps along a segment.
* `Trie.Counts.preferred_node`: the preferred ledger at or below a node.
* `Trie.Counts.preferred_eq`: the preferred ledger of the trie.
-/

namespace ForkChoice

/-- A tip has the sequence number and the identifier of a ledger. -/
structure Tip.StandsFor (tip : Tip) (l : Ledger) : Prop where
  seq : tip.seq = l.seq
  id : tip.id = l.id

theorem Segment.tip_standsFor {a : Archive} (ha : a.Sound) {g : Segment} {l : Ledger}
    (hg : g.backing ∈ a.ledgers) (hl : l ∈ a.ledgers) (hpath : g.path = l.txs) :
    g.tip.StandsFor l :=
  ⟨g.tip_seq.trans (congrArg List.length hpath), (Segment.tip_id_eq ha hg hl).mpr hpath⟩

namespace Archive

variable {a : Archive} {V : Multiset Ledger} {largestIssued k : Nat} {l m : Ledger}

theorem walk_of_contest (h : a.contest V l = some (m, k))
    (hgo : uncommitted V largestIssued (l.seq + 1) < k ∨
      uncommitted V largestIssued (l.seq + 1) = 0) :
    a.walk V largestIssued l = a.walk V largestIssued m := by
  apply walk_of_some
  simp [step, h, hgo]

theorem walk_of_contest_stop (h : a.contest V l = some (m, k))
    (hstop : ¬ (uncommitted V largestIssued (l.seq + 1) < k ∨
      uncommitted V largestIssued (l.seq + 1) = 0)) :
    a.walk V largestIssued l = l := by
  apply walk_of_none
  simp only [step, h, if_neg hstop]

theorem walk_of_contest_none (h : a.contest V l = none) : a.walk V largestIssued l = l := by
  apply walk_of_none
  simp [step, h]

end Archive

/-! ## One node -/

namespace Node

variable {largestIssued votes place : Nat} {ahead : Tally}

theorem preferred_eq (n : Node) : n.preferred largestIssued votes ahead = (do
    let u ← Uncommitted.absorb (max (n.segment.start + 1) largestIssued) votes ahead
    let (next, u) ← Uncommitted.advance n.segment.stop n.branchSupport (n.segment.start + 1)
      u.votes u.ahead
    if next < n.segment.stop then .ok ((n.segment.before next).map (·.tip))
    else match ← favorite n.children with
      | none => .ok (some n.segment.tip)
      | some (place, margin) =>
        if u.votes < margin ∨ u.votes = 0 then
          preferredAt largestIssued u.votes u.ahead n.segment.tip place n.children
        else .ok (some n.segment.tip)) := by
  cases n with
  | mk g tip branch children =>
    unfold preferred
    rfl

theorem preferredAt_eq {nodes : List Node} {here : Tip} {c : Node} (h : nodes[place]? = some c) :
    preferredAt largestIssued votes ahead here place nodes =
      c.preferred largestIssued votes ahead := by
  induction nodes generalizing place with
  | nil => cases h
  | cons node rest ih =>
    cases place with
    | zero =>
      obtain rfl : node = c := by simpa using h
      rw [preferredAt]
    | succ place =>
      rw [preferredAt]
      exact ih (by simpa using h)

theorem preferredAt_none {nodes : List Node} {here : Tip} (h : nodes[place]? = none) :
    preferredAt largestIssued votes ahead here place nodes = .ok (some here) := by
  induction nodes generalizing place with
  | nil => rw [preferredAt]
  | cons node rest ih =>
    cases place with
    | zero => cases h
    | succ place =>
      rw [preferredAt]
      exact ih (by simpa using h)

/-- The preferred tip at or below a node is the tip of a part of the segment of one of them. -/
theorem exists_segment_of_preferred {n : Node} {tip : Tip}
    (h : n.preferred largestIssued votes ahead = .ok (some tip)) :
    ∃ g : Segment, tip = g.tip ∧ ∃ m ∈ n.nodes, g.backing = m.segment.backing := by
  induction n using below_induction generalizing votes ahead with
  | node n ih =>
    have hhere {tip : Tip} (h : (Except.ok (some n.segment.tip) : Except Fault (Option Tip)) =
        .ok (some tip)) : ∃ g : Segment, tip = g.tip ∧ ∃ m ∈ n.nodes, g.backing = m.segment.backing :=
      ⟨n.segment, (Option.some.inj (Except.ok.inj h)).symm, n, n.self_mem_nodes, rfl⟩
    rw [preferred_eq] at h
    cases habsorb : Uncommitted.absorb (max (n.segment.start + 1) largestIssued) votes ahead with
    | error fault => simp [habsorb, bind, Except.bind] at h
    | ok u =>
      cases hadvance : Uncommitted.advance n.segment.stop n.branchSupport (n.segment.start + 1)
          u.votes u.ahead with
      | error fault => simp [habsorb, hadvance, bind, Except.bind] at h
      | ok arrival =>
        obtain ⟨next, u'⟩ := arrival
        simp only [habsorb, hadvance, bind, Except.bind] at h
        split at h
        · obtain ⟨g, hg, htip⟩ := Option.map_eq_some_iff.mp (Except.ok.inj h)
          exact ⟨g, htip.symm, n, n.self_mem_nodes, Segment.backing_of_slice hg⟩
        · cases hfavorite : favorite n.children with
          | error fault => simp [hfavorite] at h
          | ok best =>
            simp only [hfavorite] at h
            cases best with
            | none => exact hhere h
            | some best =>
              obtain ⟨place, margin⟩ := best
              dsimp only at h
              split at h
              · cases hchild : n.children[place]? with
                | none =>
                  rw [preferredAt_none hchild] at h
                  exact hhere h
                | some c =>
                  rw [preferredAt_eq hchild] at h
                  have hc := List.mem_of_getElem? hchild
                  obtain ⟨g, hg, m, hm, hbacking⟩ := ih c hc h
                  exact ⟨g, hg, m, mem_nodes_of_child hc hm, hbacking⟩
              · exact hhere h

end Node

namespace Trie

variable {a : Archive} {V : Multiset Ledger} {t : Trie} {l m : Ledger} {n : Node}
  {largestIssued s votes : Nat} {ahead : Tally}

namespace Counts

theorem walk_along (ha : a.Sound) (h : Counts a V t) (hn : n ∈ t.root.nodes)
    (hpos : 0 < n.branchSupport) (hl : l ∈ a.ledgers) (hm : m ∈ a.ledgers)
    (hentry : n.entry <+: l.txs) (hlm : l.txs <+: m.txs) (hpath : m.txs <+: n.path)
    (hgo : ∀ s, l.seq < s → s ≤ m.seq → uncommitted V largestIssued s < n.branchSupport) :
    a.walk V largestIssued l = a.walk V largestIssued m := by
  induction hd : m.seq - l.seq generalizing l with
  | zero =>
    have : l = m := ha.eq_of_txs hl hm (hlm.eq_of_length (by
      have := hlm.length_le
      simp only [Ledger.seq] at hd
      omega))
    rw [this]
  | succ d ih =>
    have hlt : l.txs.length < m.txs.length := by
      simp only [Ledger.seq] at hd
      omega
    obtain ⟨k, hk, hktxs⟩ := ha.exists_txs hm (List.take_prefix (l.txs.length + 1) m.txs)
    have hkm : k.txs <+: m.txs := hktxs ▸ List.take_prefix _ _
    have hklength : k.txs.length = l.txs.length + 1 := by
      rw [hktxs, List.length_take]
      omega
    have hlk : l.txs <+: k.txs := List.prefix_of_prefix_length_le hlm hkm (by omega)
    have hcontest :=
      h.contest_inside ha hl hk hn hpos hentry hlk (hkm.trans hpath) hklength
    rw [Archive.walk_of_contest hcontest (Or.inl (hgo _ (Nat.lt_succ_self _) hlt))]
    refine ih hk (hentry.trans hlk) hkm (fun s hs => hgo s ?_) ?_
    · simp only [Ledger.seq] at hs ⊢
      omega
    · simp only [Ledger.seq] at hd ⊢
      omega

/-- The walk at the end of a jump inside a segment stops. -/
theorem walk_stops_inside (ha : a.Sound) (h : Counts a V t) (hn : n ∈ t.root.nodes)
    (hpos : 0 < n.branchSupport) (hl : l ∈ a.ledgers) (hentry : n.entry <+: l.txs)
    (hpath : l.txs <+: n.path) (hlt : l.seq < n.path.length)
    (hstop : n.branchSupport ≤ uncommitted V largestIssued (l.seq + 1)) :
    a.walk V largestIssued l = l := by
  obtain ⟨m, hm, hmtxs⟩ := ha.exists_txs (h.formed n hn).backed
    ((List.take_prefix (l.txs.length + 1) n.path).trans n.segment.path_prefix)
  have hmpath : m.txs <+: n.path := hmtxs ▸ List.take_prefix _ _
  have hlength : m.txs.length = l.txs.length + 1 := by
    simp only [Ledger.seq] at hlt
    rw [hmtxs, List.length_take]
    omega
  have hlm := List.prefix_of_prefix_length_le hpath hmpath (by omega)
  refine Archive.walk_of_contest_stop
    (h.contest_inside ha hl hm hn hpos hentry hlm hmpath hlength) ?_
  omega

/-- A jump along a segment ends at the ledger that single steps come to. -/
theorem jump_lands (ha : a.Sound) (h : Counts a V t) (hn : n ∈ t.root.nodes)
    (hpos : 0 < n.branchSupport) (hl : l ∈ a.ledgers) (hentry : n.entry = l.txs)
    {arrival : Nat × Uncommitted} (hjump : Uncommitted.Jump V largestIssued n.segment.stop
      n.branchSupport (n.segment.start + 1) arrival) :
    ∃ m ∈ a.ledgers, m.seq + 1 = arrival.1 ∧ m.txs <+: n.path ∧ n.entry <+: m.txs ∧
      a.walk V largestIssued l = a.walk V largestIssued m := by
  have hlength := n.segment.length_path
  have hle := hjump.le
  have hstop := hjump.le_stop
  obtain ⟨m, hm, hmtxs⟩ := ha.exists_txs (h.formed n hn).backed
    ((List.take_prefix (arrival.1 - 1) n.path).trans n.segment.path_prefix)
  have hmpath : m.txs <+: n.path := hmtxs ▸ List.take_prefix _ _
  have hmseq : m.seq + 1 = arrival.1 := by
    rw [Ledger.seq, hmtxs, List.length_take, Node.path]
    omega
  have hlseq : l.seq = n.segment.start := by
    rw [Ledger.seq, ← hentry, Node.entry, Segment.length_entry]
  have hlm : l.txs <+: m.txs := by
    refine List.prefix_of_prefix_length_le (hentry ▸ n.entry_prefix_path) hmpath ?_
    simp only [Ledger.seq] at hlseq hmseq
    omega
  refine ⟨m, hm, hmseq, hmpath, hentry ▸ hlm, ?_⟩
  refine h.walk_along ha hn hpos hl hm (hentry ▸ List.prefix_rfl) hlm hmpath fun s hls hsm => ?_
  exact hjump.passed s (by omega) (by omega)

/-- A needed node prefers the ledger at which the walk from its first ledger ends. -/
theorem preferred_node (ha : a.Sound) (h : Counts a V t) (hcard : V.card ≤ maxSupport)
    (hn : n ∈ t.root.nodes) (hpos : 0 < n.branchSupport) (hl : l ∈ a.ledgers)
    (hentry : n.entry = l.txs) (hs : s ≤ max (n.segment.start + 1) largestIssued)
    (hreached : Uncommitted.Reached V s votes ahead) :
    ∃ tip, n.preferred largestIssued votes ahead = .ok (some tip) ∧
      tip.StandsFor (a.walk V largestIssued l) := by
  induction n using Node.below_induction generalizing l s votes ahead with
  | node n ih =>
    have hformed := h.formed.of_mem hn
    have hlength : n.path.length = n.segment.stop - 1 := n.segment.length_path
    obtain ⟨u, habsorb, hu⟩ := Uncommitted.absorb_spec hcard hreached hs
    obtain ⟨⟨next, u'⟩, hadvance, hjump⟩ :=
      Uncommitted.advance_spec hcard n.branchSupport hu n.segment.start_lt_stop
    obtain ⟨m, hm, hnext, hmpath, hentry', hwalk⟩ := h.jump_lands ha hn hpos hl hentry hjump
    obtain ⟨hle, hstop, hreached', -, hstopped⟩ := hjump
    dsimp only at hnext hle hstop hreached' hstopped
    subst hnext
    rw [hwalk, Node.preferred_eq, habsorb]
    simp only [bind, Except.bind, hadvance]
    by_cases hinside : m.seq + 1 < n.segment.stop
    · obtain ⟨near, hbefore, hbacking, hpath⟩ := Segment.before_spec hle hstop
      rw [if_pos hinside, hbefore,
        h.walk_stops_inside ha hn hpos hm hentry' hmpath (by omega) (hstopped hinside)]
      refine ⟨_, rfl, Segment.tip_standsFor ha (hbacking ▸ hformed.fits.backed) hm ?_⟩
      rw [hpath]
      exact (List.prefix_iff_eq_take.mp hmpath).symm
    · have hmn : n.path = m.txs := (hmpath.eq_of_length (by
        simp only [Ledger.seq] at *
        omega)).symm
      have htip := Segment.tip_standsFor ha hformed.fits.backed hm hmn
      rw [if_neg hinside]
      rcases h.favorite_spec ha hcard hn hm hmn with
        ⟨hfavorite, hcontest⟩ | ⟨place, c, k, margin, hfavorite, hget, hk, hck, hcontest⟩
      · rw [hfavorite, Archive.walk_of_contest_none hcontest]
        exact ⟨_, rfl, htip⟩
      · rw [hfavorite]
        dsimp only
        by_cases hgo : u'.votes < margin ∨ u'.votes = 0
        · have hc := List.mem_of_getElem? hget
          have hcontinues := hformed.fits.continues c hc
          have hstart : m.seq + 1 ≤ max (c.segment.start + 1) largestIssued ∧
              largestIssued ≤ max (c.segment.start + 1) largestIssued := by
            rw [hcontinues.start, hmn, Ledger.seq]
            omega
          rw [if_pos hgo, Node.preferredAt_eq hget,
            Archive.walk_of_contest hcontest (hreached'.votes_eq ▸ hgo)]
          exact ih c hc (Node.mem_nodes_trans hn (Node.mem_nodes_of_child hc c.self_mem_nodes))
            ((hformed.child hc).branchSupport_pos hcontinues.needed) hk hck
            (Nat.max_le.mpr hstart) hreached'
        · rw [if_neg hgo, Archive.walk_of_contest_stop hcontest (hreached'.votes_eq ▸ hgo)]
          exact ⟨_, rfl, htip⟩

theorem preferred_eq (ha : a.Sound) (h : Counts a V t) (hcard : V.card ≤ maxSupport)
    (largestIssued : Nat) :
    (V = 0 ∧ t.preferred largestIssued = .ok none) ∨
      V ≠ 0 ∧ ∃ tip, t.preferred largestIssued = .ok (some tip) ∧
        tip.StandsFor (a.walk V largestIssued .genesis) := by
  unfold preferred
  by_cases hempty : V = 0
  · exact Or.inl ⟨hempty, if_pos (h.isEmpty_iff.mpr hempty)⟩
  · have hpos : 0 < t.root.branchSupport := by
      rw [h.branchSupport_root]
      exact Multiset.card_pos.mpr hempty
    rw [if_neg (h.isEmpty_iff.not.mpr hempty)]
    exact Or.inr ⟨hempty, h.preferred_node ha hcard t.root.self_mem_nodes hpos ha.genesis_mem
      h.entry_root (Nat.zero_le _) h.reached⟩

end Counts

end Trie

end ForkChoice

import ForkChoice.Proofs.Segment.Pieces
import ForkChoice.Proofs.Trie.Arena.Run

/-!
# Trails from the root

A trail leads from the root of an arena along children to a slot. A history keeps to a trail as long
as the segments of the trail name what the history shows. The search for a ledger ends where its
history leaves the trails for good, whichever child is tried first.

* `Segment.Meets`: a segment names what a history shows.
* `Segment.meets_iff_lt_agreement`: the agreement of a segment tells where they meet.
* `Node.Formed.eq_of_meets`: at each sequence number a history meets one node at most.
* `ArenaTrie.Trail`: the way from the root to a slot.
* `ArenaTrie.Trail.along_iff`: how far a history keeps to a trail.
* `ArenaTrie.run_finds`: the search is for the last place at which the history meets a trail.
-/

namespace ForkChoice

variable {a : Archive} {l : Ledger} {s : Nat}

/-! ## Segments and histories -/

namespace Segment

variable {g h : Segment}

/-- The segment names, at a sequence number, the ledger that a history shows there. -/
def Meets (g : Segment) (l : Ledger) (s : Nat) : Prop :=
  ∃ id, g.idAt? s = some id ∧ l.ancestor s = .ok id

theorem commonLength_path (g : Segment) (q : List Nat) :
    commonLength g.path q = min (g.stop - 1) (commonLength g.backing.txs q) :=
  commonLength_take _ _ _

/-- They meet where the segment is, as far as the transactions go. -/
theorem meets_iff (ha : a.Sound) (hg : g.backing ∈ a.ledgers) (hl : l ∈ a.ledgers) :
    g.Meets l s ↔ g.start ≤ s ∧ s < g.stop ∧ s ≤ commonLength g.path l.txs := by
  have hlength := g.commonLength_path l.txs
  constructor
  · rintro ⟨id, hid, hancestor⟩
    obtain ⟨hstart, hstop, rfl⟩ := idAt?_eq_some_iff.mp hid
    by_cases hle : s ≤ l.seq
    · rw [Ledger.ancestor_of_le hle] at hancestor
      have htake := (ha.idAt_eq_idAt hl hg hle _).mp (Except.ok.inj hancestor)
      have hback := g.stop_le
      have hshared : s ≤ commonLength g.backing.txs l.txs :=
        le_commonLength_iff.mpr ⟨by simp only [Ledger.seq] at hback; omega, hle, htake.symm⟩
      omega
    · rw [Ledger.ancestor, dif_neg hle] at hancestor
      cases hancestor
  · rintro ⟨hstart, hstop, hs⟩
    obtain ⟨hback, hle, htake⟩ := le_commonLength_iff.mp
      (show s ≤ commonLength g.backing.txs l.txs by omega)
    refine ⟨_, idAt?_of_mem hstart hstop, ?_⟩
    rw [Ledger.ancestor_of_le hle]
    exact congrArg Except.ok ((ha.idAt_eq_idAt hl hg hle _).mpr htake.symm)

/-- The agreement of a segment with a history tells where they meet. -/
theorem meets_iff_lt_agreement (ha : a.Sound) (hg : g.backing ∈ a.ledgers) (hl : l ∈ a.ledgers) :
    g.Meets l s ↔ g.start ≤ s ∧ s < g.agreement l := by
  have hlength := g.commonLength_path l.txs
  have hagreement : g.agreement l = min (max g.start (g.backing.divergence l)) g.stop := rfl
  have hdivergence := Ledger.divergence_eq ha hg hl
  rw [meets_iff ha hg hl]
  omega

/-- A history that shares the first ledger of a segment with another one leads both to it. -/
theorem entry_prefix_of_shared (q : List Nat) (hg : g.start ≤ commonLength g.path q)
    (hh : g.start ≤ commonLength h.path q) : g.entry <+: h.path := by
  obtain ⟨-, -, hgq⟩ := le_commonLength_iff.mp hg
  obtain ⟨-, -, hhq⟩ := le_commonLength_iff.mp hh
  rw [entry, hgq, ← hhq]
  exact List.take_prefix _ _

end Segment

/-! ## Nodes on the way -/

namespace Node

variable {k m n : Node} {place : Nat}

namespace Formed

/-- A node whose history passes the first ledger of another one stands at or below it. -/
theorem mem_nodes_of_entry_prefix (h : n.Formed a) (hm : m ∈ n.nodes) (hk : k ∈ n.nodes)
    (hentry : m.entry <+: k.path) : k ∈ m.nodes := by
  induction n using below_induction with
  | node n ih =>
    rcases mem_nodes.mp hm with rfl | ⟨c, hc, hmc⟩
    · exact hk
    · have hcm := (h.child hc).entry_prefix_of_mem hmc
      rcases mem_nodes.mp hk with rfl | ⟨d, hd, hkd⟩
      · have hlength := (h.fits.continues c hc).length_entry
        have hle := (hcm.trans hentry).length_le
        omega
      · have hdk := ((h.child hd).entry_prefix_of_mem hkd).trans k.entry_prefix_path
        obtain rfl := h.eq_of_entry_prefix hc hd (hcm.trans hentry) hdk
        exact ih c hc (h.child hc) hmc hkd

/-- At each sequence number a history meets one node at most. -/
theorem eq_of_meets (ha : a.Sound) (h : n.Formed a) (hl : l ∈ a.ledgers) (hm : m ∈ n.nodes)
    (hk : k ∈ n.nodes) (hms : m.segment.Meets l s) (hks : k.segment.Meets l s) : m = k := by
  rw [Segment.meets_iff ha (h _ hm).backed hl] at hms
  rw [Segment.meets_iff ha (h _ hk).backed hl] at hks
  obtain ⟨hmstart, -, hmcommon⟩ := hms
  obtain ⟨hkstart, -, hkcommon⟩ := hks
  have hkm : k ∈ m.nodes := h.mem_nodes_of_entry_prefix hm hk
    (Segment.entry_prefix_of_shared l.txs (by omega) (by omega))
  have hmk : m ∈ k.nodes := h.mem_nodes_of_entry_prefix hk hm
    (Segment.entry_prefix_of_shared l.txs (by omega) (by omega))
  have hdown := (h.of_mem hm).path_prefix_of_mem hkm
  have hup := (h.of_mem hk).path_prefix_of_mem hmk
  apply h.eq_of_path hm hk
  exact hdown.eq_of_length (hdown.length_le.antisymm hup.length_le)

end Formed

/-- No node has more of a history than the one at which it leaves the trie. -/
theorem Leaves.commonLength_lt (h : n.Leaves l m place) (hn : n.Formed a) (hk : k ∈ n.nodes) :
    commonLength k.path l.txs < place := by
  by_contra hle
  have hplace := h.place
  have hstart : m.segment.start ≤ commonLength m.segment.path l.txs :=
    (take_prefix_iff m.segment.start_le_length).mp h.entry
  have hmk : m.entry <+: k.path := by
    apply Segment.entry_prefix_of_shared l.txs hstart
    simp only [path] at *
    omega
  have hkm := hn.mem_nodes_of_entry_prefix h.mem hk hmk
  have hm := hn.of_mem h.mem
  have hprefix := hm.path_prefix_of_mem hkm
  -- the other node has all of the way to the tip, so the history has it too
  have hcommon := commonLength_of_prefix hprefix l.txs
  have hpath : m.path <+: l.txs := prefix_iff_length_le.mpr (by omega)
  rcases mem_nodes.mp hkm with rfl | ⟨c, hc, hkc⟩
  · omega
  · have hck := ((hm.child hc).entry_prefix_of_mem hkc).trans k.entry_prefix_path
    have hlength := (hm.fits.continues c hc).length_entry
    apply h.last hpath c hc
    rw [List.prefix_iff_eq_take.mp hck, take_prefix_iff hck.length_le]
    omega

end Node

/-! ## Trails -/

namespace ArenaTrie

variable {Slot : Type} {A : Slots Slot (Cell Slot)} {t : ArenaTrie A} {T : Trie} {i j k k' : Slot}
  {c d d' : Cell Slot} {above below : List (Slot × Cell Slot)} {e : Slot × Cell Slot} {q : Nat}

/-- The way from the root to a slot: the cell in the slot, and what stands above it, the nearest
first. -/
inductive Trail (t : ArenaTrie A) : Slot → Cell Slot → List (Slot × Cell Slot) → Prop
  | root {c : Cell Slot} (hc : A.get t.store t.root = some c) : Trail t t.root c []
  | down {i k : Slot} {c d : Cell Slot} {above : List (Slot × Cell Slot)}
      (h : Trail t i c above) (hk : k ∈ c.children) (hd : A.get t.store k = some d) :
      Trail t k d ((i, c) :: above)

/-- A history keeps to a trail below a place: it meets the trail at each sequence number. -/
def Along (trail : List (Slot × Cell Slot)) (l : Ledger) (place : Nat) : Prop :=
  ∀ s < place, ∃ e ∈ trail, e.2.segment.Meets l s

namespace WellFormed

/-- A child begins where its parent ends, and its history leads through the tip of the parent. -/
theorem exists_child (hw : t.WellFormed) (hi : A.get t.store i = some c) (hk : k ∈ c.children) :
    ∃ d, A.get t.store k = some d ∧ d.segment.start = c.segment.stop ∧
      d.segment.backing.ancestor (c.segment.stop - 1) = .ok c.segment.tip.id := by
  obtain ⟨children, hmap, hrules⟩ := hw.rules i c hi
  have hmem : A.get t.store k ∈ c.children.map (A.get t.store) := List.mem_map_of_mem hk
  rw [hmap] at hmem
  obtain ⟨d, hd, hget⟩ := List.mem_map.mp hmem
  exact ⟨d, hget.symm, hrules.adjacent d hd, hrules.descends d hd⟩

theorem child_of_get (hw : t.WellFormed) (hi : A.get t.store i = some c) (hk : k ∈ c.children)
    (hd : A.get t.store k = some d) : d.segment.start = c.segment.stop ∧
      d.segment.backing.ancestor (c.segment.stop - 1) = .ok c.segment.tip.id := by
  obtain ⟨d', hd', hchild⟩ := hw.exists_child hi hk
  obtain rfl := Option.some.inj (hd.symm.trans hd')
  exact hchild

theorem child_start_pos (hw : t.WellFormed) (hi : A.get t.store i = some c) (hk : k ∈ c.children)
    (hd : A.get t.store k = some d) : 0 < d.segment.start := by
  have hadjacent := (hw.child_of_get hi hk hd).1
  have hlt := c.segment.start_lt_stop
  omega

/-- Children that begin with the same ledger are the same. -/
theorem child_eq (hw : t.WellFormed) (hi : A.get t.store i = some c) (hk : k ∈ c.children)
    (hk' : k' ∈ c.children) (hd : A.get t.store k = some d) (hd' : A.get t.store k' = some d')
    (hid : d.segment.startId = d'.segment.startId) : k = k' := by
  obtain ⟨children, hmap, hrules⟩ := hw.rules i c hi
  have hnodup : (c.children.map fun k => (A.get t.store k).map (·.segment.startId)).Nodup := by
    have hids := congrArg (List.map (Option.map (·.segment.startId))) hmap
    rw [List.map_map, List.map_map] at hids
    have hsome := hrules.apart.map (Option.some_injective Nat)
    rw [List.map_map] at hsome
    exact hids ▸ hsome
  refine List.inj_on_of_nodup_map hnodup hk hk' ?_
  simp only [hd, hd', Option.map_some, hid]

/-- A trail leads to every slot that is occupied. -/
theorem exists_trail (hw : t.WellFormed) (hi : A.get t.store i = some c) :
    ∃ above, t.Trail i c above := by
  -- a parent starts before its children
  induction hstart : c.segment.start using Nat.strong_induction_on generalizing i c with
  | _ start ih =>
    have hparent := hw.parent i c hi
    cases hp : c.parent with
    | none =>
      rw [hp] at hparent
      obtain rfl : i = t.root := hparent
      exact ⟨[], .root hi⟩
    | some p =>
      rw [hp] at hparent
      obtain ⟨b, hb, hib⟩ := hparent
      have hadjacent := (hw.child_of_get hb hib hi).1
      have hlt := b.segment.start_lt_stop
      obtain ⟨above, htrail⟩ := ih b.segment.start (by omega) hb rfl
      exact ⟨_, htrail.down hib hi⟩

end WellFormed

namespace Trail

theorem get_eq (h : t.Trail i c above) : A.get t.store i = some c := by
  cases h with
  | root hc => exact hc
  | down _ _ hd => exact hd

/-- Every cell on a trail has a trail of its own. -/
theorem exists_of_mem (h : t.Trail i c above) (he : e ∈ (i, c) :: above) :
    ∃ rest, t.Trail e.1 e.2 rest := by
  induction h with
  | root hc =>
    obtain rfl := List.mem_singleton.mp he
    exact ⟨_, .root hc⟩
  | down h hk hd ih =>
    rcases List.mem_cons.mp he with rfl | he
    · exact ⟨_, h.down hk hd⟩
    · exact ih he

end Trail

section Shown

variable (ha : a.Sound) (ht : t.Shows T) (hT : T.Rooted a)

include ht in
theorem Shows.exists_node (hc : A.get t.store i = some c) :
    ∃ m ∈ T.root.nodes, c.segment = m.segment := by
  obtain ⟨slots, hheld, -, hall⟩ := ht.held
  obtain ⟨m, hm, q, others, hi, -⟩ := hheld.exists_node (hall i (by rw [hc]; rfl))
  obtain ⟨kids, hget⟩ := hi.get_eq
  obtain rfl := Option.some.inj (hc.symm.trans hget)
  exact ⟨m, hm, rfl⟩

include ht hT

theorem Shows.backed (hc : A.get t.store i = some c) : c.segment.backing ∈ a.ledgers := by
  obtain ⟨m, hm, hsegment⟩ := ht.exists_node hc
  rw [hsegment]
  exact (hT.formed m hm).backed

/-- Slots whose segments lead along the same path hold the same segment. -/
theorem Shows.segment_eq_of_path (hc : A.get t.store i = some c) (hd : A.get t.store j = some d)
    (hpath : c.segment.path = d.segment.path) : c.segment = d.segment := by
  obtain ⟨m, hm, hmc⟩ := ht.exists_node hc
  obtain ⟨k, hk, hkd⟩ := ht.exists_node hd
  rw [hmc, hkd] at hpath ⊢
  rw [hT.formed.eq_of_path hm hk hpath]

include ha

/-- The path of a cell goes on in its children. -/
theorem Shows.path_prefix_child (hc : A.get t.store i = some c) (hk : k ∈ c.children)
    (hd : A.get t.store k = some d) : c.segment.path <+: d.segment.path := by
  obtain ⟨hadjacent, hancestor⟩ := (ht.wellFormed ha hT).child_of_get hc hk hd
  have hlt := d.segment.start_lt_stop
  refine List.prefix_of_prefix_length_le (Segment.path_prefix_of_ancestor ha (ht.backed hT hc)
    (ht.backed hT hd) hancestor) d.segment.path_prefix ?_
  rw [Segment.length_path, Segment.length_path]
  omega

namespace Trail

theorem path_prefix_of_mem (h : t.Trail i c above) (he : e ∈ (i, c) :: above) :
    e.2.segment.path <+: c.segment.path := by
  induction h with
  | root hc =>
    obtain rfl := List.mem_singleton.mp he
    exact List.prefix_rfl
  | down h hk hd ih =>
    rcases List.mem_cons.mp he with rfl | he
    · exact List.prefix_rfl
    · exact (ih he).trans (ht.path_prefix_child ha hT h.get_eq hk hd)

variable (hl : l ∈ a.ledgers)

include hl

/-- A history meets a trail as far as it shares the transactions that lead to the end of it. -/
theorem exists_meets_iff (h : t.Trail i c above) :
    (∃ e ∈ (i, c) :: above, e.2.segment.Meets l s) ↔ s ≤ commonLength c.segment.path l.txs := by
  have hw := ht.wellFormed ha hT
  induction h with
  | @root c hc =>
    obtain ⟨c', hc', -, hstart, hstop⟩ := hw.root
    obtain rfl := Option.some.inj (hc.symm.trans hc')
    have hlength := Segment.length_path c.segment
    have hle := commonLength_le_left c.segment.path l.txs
    rw [List.exists_mem_cons_iff, Segment.meets_iff ha (ht.backed hT hc) hl]
    simp only [List.not_mem_nil, false_and, exists_false, or_false]
    omega
  | @down i k c d above h hk hd ih =>
    have hadjacent := (hw.child_of_get h.get_eq hk hd).1
    have hstart := c.segment.start_lt_stop
    have hlength := Segment.length_path d.segment
    have hle := commonLength_le_left d.segment.path l.txs
    -- what the child adds to the way are the places behind the tip of the node
    have hcommon := commonLength_of_prefix (ht.path_prefix_child ha hT h.get_eq hk hd) l.txs
    rw [Segment.length_path] at hcommon
    rw [List.exists_mem_cons_iff]
    apply (or_congr (Segment.meets_iff ha (ht.backed hT hd) hl) ih).trans
    omega

theorem along_iff (h : t.Trail i c above) :
    Along ((i, c) :: above) l q ↔ q ≤ commonLength c.segment.path l.txs + 1 := by
  constructor
  · intro halong
    by_contra hlt
    have := (h.exists_meets_iff ha ht hT hl).mp (halong (commonLength c.segment.path l.txs + 1)
      (by omega))
    omega
  · intro hle s hs
    exact (h.exists_meets_iff ha ht hT hl).mpr (by omega)

/-- A history meets each cell on its way at all places of the cell. -/
theorem meets_of_mem (h : t.Trail i c above) (he : e ∈ (i, c) :: above)
    (hs : s ∈ e.2.segment.places) (hcommon : s ≤ commonLength c.segment.path l.txs) :
    e.2.segment.Meets l s := by
  obtain ⟨hstart, hstop⟩ := Segment.mem_places.mp hs
  obtain ⟨rest, htrail⟩ := h.exists_of_mem he
  rw [Segment.meets_iff ha (ht.backed hT htrail.get_eq) hl,
    commonLength_of_prefix (h.path_prefix_of_mem ha ht hT he), Segment.length_path]
  omega

omit hl

/-- Trails along the same path are the same. -/
theorem eq_of_path (h : t.Trail i c above) (h' : t.Trail j d below)
    (hpath : c.segment.path = d.segment.path) : i = j ∧ c = d ∧ above = below := by
  have hw := ht.wellFormed ha hT
  obtain ⟨b, hb, -, hrootStart, -⟩ := hw.root
  induction h generalizing j d below with
  | @root c hc =>
    obtain rfl := Option.some.inj (hc.symm.trans hb)
    have hsegment := ht.segment_eq_of_path hT hc h'.get_eq hpath
    cases h' with
    | root hd =>
      obtain rfl := Option.some.inj (hc.symm.trans hd)
      exact ⟨rfl, rfl, rfl⟩
    | down h' hk' hd =>
      have hpos := hw.child_start_pos h'.get_eq hk' hd
      rw [← hsegment] at hpos
      omega
  | @down i k c d' above h hk hd' ih =>
    have hsegment := ht.segment_eq_of_path hT hd' h'.get_eq hpath
    cases h' with
    | root hb' =>
      obtain rfl := Option.some.inj (hb'.symm.trans hb)
      have hpos := hw.child_start_pos h.get_eq hk hd'
      rw [hsegment] at hpos
      omega
    | @down i' k' c' d above' h' hk' hd =>
      have hadjacent := (hw.child_of_get h.get_eq hk hd').1
      have hadjacent' := (hw.child_of_get h'.get_eq hk' hd).1
      -- the parents end where the same segment begins, so they are the same
      have hparents : c.segment.path = c'.segment.path := by
        have hprefix := ht.path_prefix_child ha hT h.get_eq hk hd'
        have hprefix' := ht.path_prefix_child ha hT h'.get_eq hk' hd
        rw [hsegment] at hprefix
        refine (List.prefix_of_prefix_length_le hprefix hprefix' ?_).eq_of_length ?_
        all_goals
          rw [Segment.length_path, Segment.length_path, ← hadjacent, ← hadjacent', hsegment]
      obtain ⟨rfl, rfl, rfl⟩ := ih h' hparents
      obtain rfl := hw.child_eq h.get_eq hk hk' hd' hd (by rw [hsegment])
      exact ⟨rfl, Option.some.inj (hd'.symm.trans hd), rfl⟩

end Trail

/-! ## The search -/

/-- The search leads to a slot that meets the history as far as any does. -/
theorem Shows.exists_find (hl : l ∈ a.ledgers) : ∃ i c last, t.find l = pure (i, last + 1) ∧
    A.get t.store i = some c ∧ c.segment.Meets l last ∧
      commonLength c.segment.path l.txs = last ∧
      ∀ j d, A.get t.store j = some d → commonLength d.segment.path l.txs ≤ last := by
  obtain ⟨i, q, slots, hfind, hheld⟩ := ht.find_eq l
  have hleaves : T.root.Leaves l (T.locate l).1 (T.locate l).2 :=
    hT.formed.locate_spec ha hl (hT.entry_prefix _)
  cases hlocate : T.locate l with
  | mk m place =>
    rw [hlocate] at hfind hheld hleaves
    obtain ⟨kids, hget⟩ := hheld.get_eq
    have hplace : place = commonLength m.segment.path l.txs + 1 := hleaves.place
    have hstart := (take_prefix_iff m.segment.start_le_length).mp hleaves.entry
    have hmeets : m.segment.Meets l (commonLength m.segment.path l.txs) := by
      have hle := commonLength_le_left m.segment.path l.txs
      have hstop := m.segment.stop_eq
      rw [Segment.meets_iff ha (hT.formed m hleaves.mem).backed hl]
      omega
    refine ⟨i, _, commonLength m.segment.path l.txs, ?_, hget, hmeets, rfl, ?_⟩
    · rw [hfind, ← hplace]
    · intro j d hd
      obtain ⟨k, hk, hsegment⟩ := ht.exists_node hd
      have hlt := hleaves.commonLength_lt hT.formed hk
      rw [hplace] at hlt
      rw [hsegment]
      exact Nat.le_of_lt_succ hlt

/-- At each sequence number a history meets one slot at most. -/
theorem Shows.eq_of_meets (hl : l ∈ a.ledgers) (h : t.Trail i c above) (h' : t.Trail j d below)
    (hc : c.segment.Meets l s) (hd : d.segment.Meets l s) : i = j ∧ c = d := by
  obtain ⟨m, hm, hmc⟩ := ht.exists_node h.get_eq
  obtain ⟨k, hk, hkd⟩ := ht.exists_node h'.get_eq
  have hmk := hT.formed.eq_of_meets ha hl hm hk (hmc ▸ hc) (hkd ▸ hd)
  obtain ⟨hij, hcd, -⟩ := h.eq_of_path ha ht hT h' (by rw [hmc, hkd, hmk])
  exact ⟨hij, hcd⟩

/-- A slot that a history meets at a place is the only one there on any trail that the history keeps
to so far. -/
theorem Shows.mem_iff_of_meets (hl : l ∈ a.ledgers) (h : t.Trail i c above)
    (hc : c.segment.Meets l s) (h' : t.Trail j d below)
    (hshared : s ≤ commonLength d.segment.path l.txs) :
    e ∈ (j, d) :: below ∧ s ∈ e.2.segment.places ↔ e = (i, c) := by
  have hunique : ∀ e ∈ (j, d) :: below, e.2.segment.Meets l s → e = (i, c) := by
    intro e he hmeets
    obtain ⟨rest, htrail⟩ := h'.exists_of_mem he
    obtain ⟨hslot, hcell⟩ := ht.eq_of_meets ha hT hl htrail h hmeets hc
    exact Prod.ext hslot hcell
  constructor
  · rintro ⟨he, hs⟩
    exact hunique e he (h'.meets_of_mem ha ht hT hl he hs hshared)
  · rintro rfl
    obtain ⟨e, he, hmeets⟩ := (h'.exists_meets_iff ha ht hT hl).mpr hshared
    obtain ⟨hstart, hstop, -⟩ := (Segment.meets_iff ha (ht.backed hT h.get_eq) hl).mp hc
    exact ⟨hunique e he hmeets ▸ he, Segment.mem_places.mpr ⟨hstart, hstop⟩⟩

/-- At most one child goes on with a history. -/
theorem Shows.child_eq_of_agreement (hl : l ∈ a.ledgers) (hc : A.get t.store i = some c)
    (hk : k ∈ c.children) (hk' : k' ∈ c.children) (hd : A.get t.store k = some d)
    (hd' : A.get t.store k' = some d') (hagree : c.segment.stop < d.segment.agreement l)
    (hagree' : c.segment.stop < d'.segment.agreement l) : k = k' := by
  have hw := ht.wellFormed ha hT
  obtain ⟨above, htrail⟩ := hw.exists_trail hc
  have hadjacent := (hw.child_of_get hc hk hd).1
  have hadjacent' := (hw.child_of_get hc hk' hd').1
  refine (ht.eq_of_meets ha hT hl (htrail.down hk hd) (htrail.down hk' hd')
    ((Segment.meets_iff_lt_agreement ha (ht.backed hT hd) hl).mpr ⟨?_, hagree⟩)
    ((Segment.meets_iff_lt_agreement ha (ht.backed hT hd') hl).mpr ⟨?_, hagree'⟩)).1
  · omega
  · omega

end Shown

variable [DecidableEq Slot] {changes : List Change}

/-- After every admissible run the search for a ledger ends. It gives the slot of a trail to which
the history keeps below the place that it gives, and no trail has the history any further. The last
ledger that they share is in the segment of that slot, and of no other on any trail that the history
keeps to so far; no child of the slot meets the history at the place. At no slot does it matter
which child is tried first, because one at most goes on with a history. -/
theorem run_finds (A : Slots Slot (Cell Slot)) (ha : a.Reachable) (h : Admissible a changes) :
    ∃ t, run A changes = pure t ∧ ∀ l ∈ a.ledgers,
      (∃ i c above last, t.find l = pure (i, last + 1) ∧ t.Trail i c above ∧
        Along ((i, c) :: above) l (last + 1) ∧
        (∀ j d below place, t.Trail j d below → Along ((j, d) :: below) l place →
          place ≤ last + 1) ∧
        (∀ j d below, t.Trail j d below → Along ((j, d) :: below) l (last + 1) →
          ∀ e, e ∈ (j, d) :: below ∧ last ∈ e.2.segment.places ↔ e = (i, c)) ∧
        ∀ k ∈ c.children, ∃ d, A.get t.store k = some d ∧ ¬ d.segment.Meets l (last + 1)) ∧
      ∀ i c, A.get t.store i = some c → ∀ k ∈ c.children, ∀ k' ∈ c.children, ∀ d d',
        A.get t.store k = some d → A.get t.store k' = some d' →
        c.segment.stop < d.segment.agreement l → c.segment.stop < d'.segment.agreement l →
        k = k' := by
  have hsound := ha.sound
  obtain ⟨t, T, hrun, -, ht, hcounts⟩ := shows_run A hsound h
  have hT := hcounts.toRooted
  have hw := ht.wellFormed hsound hT
  refine ⟨t, hrun, fun l hl => ⟨?_, ?_⟩⟩
  · obtain ⟨i, c, last, hfind, hget, hmeets, hlast, hmost⟩ := ht.exists_find hsound hT hl
    obtain ⟨above, htrail⟩ := hw.exists_trail hget
    refine ⟨i, c, above, last, hfind, htrail, ?_, ?_, ?_, ?_⟩
    · rw [htrail.along_iff hsound ht hT hl, hlast]
    · intro j d below place hd halong
      have hle := (hd.along_iff hsound ht hT hl).mp halong
      have hd := hmost j d hd.get_eq
      omega
    · intro j d below hd halong e
      have hle := (hd.along_iff hsound ht hT hl).mp halong
      exact ht.mem_iff_of_meets hsound hT hl htrail hmeets hd (by omega)
    · intro k hk
      obtain ⟨d, hd, -⟩ := hw.exists_child hget hk
      refine ⟨d, hd, fun hbeyond => ?_⟩
      obtain ⟨-, -, hle⟩ := (Segment.meets_iff hsound (ht.backed hT hd) hl).mp hbeyond
      have hd := hmost k d hd
      omega
  · intro i c hc k hk k' hk' d d' hd hd' hagree hagree'
    exact ht.child_eq_of_agreement hsound hT hl hc hk hk' hd hd' hagree hagree'

/-- The right side of a fork is looked up among votes for the left side and for the trunk. It is met
nowhere behind its own tip. -/
theorem run_finds_fork :
    Fork.archive.Reachable ∧
      Admissible Fork.archive [.cast Fork.left (some 2), .cast Fork.trunk none] ∧
      Fork.right ∈ Fork.archive.ledgers ∧
      ∃ t, run (Slots.numbered _) [.cast Fork.left (some 2), .cast Fork.trunk none] = pure t ∧
        ∃ i c above last, t.find Fork.right = pure (i, last + 1) ∧ t.Trail i c above ∧
          Along ((i, c) :: above) Fork.right (last + 1) ∧ last ≤ Fork.right.seq := by
  have hadmissible : Admissible Fork.archive
      [.cast Fork.left (some 2), .cast Fork.trunk none] := ⟨by decide, by decide⟩
  have hright : Fork.right ∈ Fork.archive.ledgers := by decide
  obtain ⟨t, hrun, hall⟩ := run_finds (Slots.numbered _) Fork.archive_reachable hadmissible
  obtain ⟨⟨i, c, above, last, hfind, htrail, halong, -⟩, -⟩ := hall Fork.right hright
  refine ⟨Fork.archive_reachable, hadmissible, hright, t, hrun, i, c, above, last, hfind, htrail,
    halong, ?_⟩
  obtain ⟨e, -, id, -, hancestor⟩ := halong last (by omega)
  by_contra hpast
  rw [Ledger.ancestor, dif_neg hpast] at hancestor
  cases hancestor

end ArenaTrie

end ForkChoice

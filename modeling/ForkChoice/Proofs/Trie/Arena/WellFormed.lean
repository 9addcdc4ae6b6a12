import ForkChoice.Proofs.Trie.Arena.Preferred

/-!
# Rules for the slots of an arena

The occupied slots of an arena are those that are reached from the root, each in one way. What is
said here about cells speaks of slots alone; it holds because the slots hold a well-formed trie.

* `ArenaTrie.slotsAt`: the slots that are reached from a slot.
* `ArenaTrie.Rules`: what a cell and its children keep to.
* `ArenaTrie.WellFormed`: what all slots keep to.
* `ArenaTrie.Shows.wellFormed`: an arena that shows a trie is well-formed.
-/

namespace ForkChoice

variable {Slot : Type} {A : Slots Slot (Cell Slot)} {a : Archive}

namespace ArenaTrie

/-- Notes the slot on top of a stack and puts its children on the stack. -/
def slotsStep (s : A.Store) : List Slot × List Slot →
    Except Fault ((List Slot × List Slot) ⊕ List Slot)
  | ([], seen) => .ok (.inr seen.reverse)
  | (i :: stack, seen) => do
    let c ← A.read s i
    .ok (.inl (c.children ++ stack, i :: seen))

/-- The slots that are reached from a slot along children, as often as they are reached. -/
def slotsAt (s : A.Store) (i : Slot) : Computation (List Slot) := loop (slotsStep s) ([i], [])

/-- What the cell in a slot keeps to, together with the cells of its children. -/
structure Rules (t : ArenaTrie A) (i : Slot) (c : Cell Slot) (children : List (Cell Slot)) :
    Prop where
  nonempty : c.segment.start < c.segment.stop
  backed : c.segment.stop ≤ c.segment.backing.seq + 1
  linked : ∀ d ∈ children, d.parent = some i
  adjacent : ∀ d ∈ children, d.segment.start = c.segment.stop
  /-- The history of a child leads through the tip of the node. -/
  descends : ∀ d ∈ children,
    d.segment.backing.ancestor (c.segment.stop - 1) = .ok c.segment.tip.id
  apart : (children.map (·.segment.startId)).Nodup
  counted : c.branchSupport = c.tipSupport + (children.map (·.branchSupport)).sum
  needed : i ≠ t.root → c.tipSupport = 0 → 2 ≤ children.length

/-- What the slots of a trie keep to. -/
structure WellFormed (t : ArenaTrie A) : Prop where
  root : ∃ c, A.get t.store t.root = some c ∧ c.parent = none ∧ c.segment.start = 0 ∧
    c.segment.stop = 1
  /-- The occupied slots are those that are reached from the root, and each is reached once. -/
  reached : ∃ slots, slotsAt t.store t.root = pure slots ∧ slots.Nodup ∧
    ∀ i, i ∈ slots ↔ (A.get t.store i).isSome
  rules : ∀ i c, A.get t.store i = some c → ∃ children,
    c.children.map (A.get t.store) = children.map some ∧ t.Rules i c children
  /-- A parent has the slot among its children, and only the root has no parent. -/
  parent : ∀ i c, A.get t.store i = some c → match c.parent with
    | some p => ∃ d, A.get t.store p = some d ∧ i ∈ d.children
    | none => i = t.root

end ArenaTrie

namespace Node

variable {s : A.Store} {g : Slot → Option (Cell Slot)} {parent : Option Slot} {i j : Slot}
  {n c : Node} {kids slots : List Slot} {children : List Node}

/-! ## The slots that are reached -/

theorem HeldAll.slots_steps (h : HeldAll (A.get s) parent kids children slots)
    (hstep : ∀ c ∈ children, ∀ i slots stack seen, Held (A.get s) parent i c slots →
      loop (ArenaTrie.slotsStep s) (i :: stack, seen) =
        loop (ArenaTrie.slotsStep s) (stack, slots.reverse ++ seen)) (stack seen : List Slot) :
    loop (ArenaTrie.slotsStep s) (kids ++ stack, seen) =
      loop (ArenaTrie.slotsStep s) (stack, slots.reverse ++ seen) := by
  induction children generalizing kids slots seen with
  | nil =>
    obtain ⟨rfl, rfl⟩ := heldAll_nil.mp h
    rfl
  | cons child rest ih =>
    obtain ⟨k, others, first, behind, rfl, rfl, hchild, hrest⟩ := heldAll_cons.mp h
    rw [List.cons_append, hstep child List.mem_cons_self k first _ seen hchild,
      ih hrest fun c hc => hstep c (List.mem_cons_of_mem _ hc), List.reverse_append,
      List.append_assoc]

/-- The slots that are reached from a node are those that it takes up. -/
theorem Held.slots_step (h : Held (A.get s) parent i n slots) (stack seen : List Slot) :
    loop (ArenaTrie.slotsStep s) (i :: stack, seen) =
      loop (ArenaTrie.slotsStep s) (stack, slots.reverse ++ seen) := by
  induction n using below_induction generalizing parent i slots stack seen with
  | node n ih =>
    obtain ⟨kids, below, rfl, hread, hbelow⟩ := h.read_eq
    have hnote : ArenaTrie.slotsStep s (i :: stack, seen) = .ok (.inl (kids ++ stack, i :: seen)) := by
      rw [ArenaTrie.slotsStep, hread]
      rfl
    rw [loop_next hnote,
      hbelow.slots_steps fun c hc i slots stack seen hheld => ih c hc hheld stack seen,
      List.reverse_cons, List.append_assoc]
    rfl

theorem Held.slotsAt_eq (h : Held (A.get s) parent i n slots) :
    ArenaTrie.slotsAt s i = pure slots := by
  rw [ArenaTrie.slotsAt, h.slots_step [] [], List.append_nil]
  refine loop_done ?_
  rw [ArenaTrie.slotsStep, List.reverse_reverse]

/-! ## The cells of the children -/

/-- The cells of the children are those of the branches, in their order. -/
theorem HeldAll.cells (h : HeldAll g parent kids children slots) : ∃ cells : List (Cell Slot),
    kids.map g = cells.map some ∧ cells.map (·.bare) = children.map bare ∧
      ∀ d ∈ cells, ∃ c ∈ children, ∃ below, d = c.cell below parent := by
  induction children generalizing kids slots with
  | nil =>
    obtain ⟨rfl, -⟩ := heldAll_nil.mp h
    exact ⟨[], rfl, rfl, by simp⟩
  | cons child rest ih =>
    obtain ⟨k, others, first, behind, rfl, rfl, hchild, hrest⟩ := heldAll_cons.mp h
    obtain ⟨cells, hcells, hbare, hall⟩ := ih hrest
    obtain ⟨below, hk⟩ := hchild.get_eq
    refine ⟨child.cell below parent :: cells, ?_, ?_, fun d hd => ?_⟩
    · rw [List.map_cons, List.map_cons, hk, hcells]
    · rw [List.map_cons, List.map_cons, hbare]
      rfl
    · rcases List.mem_cons.mp hd with rfl | hd
      · exact ⟨child, List.mem_cons_self, below, rfl⟩
      · obtain ⟨c, hc, below', hd⟩ := hall d hd
        exact ⟨c, List.mem_cons_of_mem _ hc, below', hd⟩

/-- A slot is the top one, or it hangs below another. -/
theorem Held.exists_parent (h : Held g parent i n slots) (hj : j ∈ slots) :
    ∃ m q others, Held g q j m others ∧ m ∈ n.nodes ∧
      (j = i ∧ m = n ∧ q = parent ∨ ∃ p ∈ n.nodes, m ∈ p.children ∧
        ∃ k kids above, q = some k ∧ g k = some (p.cell kids above) ∧ j ∈ kids) := by
  induction n using below_induction generalizing parent i slots with
  | node n ih =>
    obtain ⟨kids, below, rfl, hi, hbelow⟩ := held_iff.mp h
    rcases List.mem_cons.mp hj with rfl | hj
    · exact ⟨n, parent, _, h, n.self_mem_nodes, Or.inl ⟨rfl, rfl, rfl⟩⟩
    · obtain ⟨before, c, behind, kb, k, ke, sb, sc, se, hsplit, rfl, rfl, hj, -, hheld, -⟩ :=
        hbelow.exists_split hj
      have hc : c ∈ n.children := by rw [hsplit]; simp
      obtain ⟨m, q, others, hm, hmc, hcase⟩ := ih c hc hheld hj
      refine ⟨m, q, others, hm, mem_nodes_of_child hc hmc, Or.inr ?_⟩
      rcases hcase with ⟨rfl, rfl, rfl⟩ | ⟨p, hp, hcase⟩
      · exact ⟨n, n.self_mem_nodes, hc, i, _, parent, rfl, hi, by simp⟩
      · exact ⟨p, mem_nodes_of_child hc hp, hcase⟩

/-! ## Branches -/

/-- The history of a branch leads through the tip that it leaves. -/
theorem Continues.ancestor_eq (ha : a.Sound) (hn : n.Fits a) (hc : c.Continues n.path)
    (hbacked : c.segment.backing ∈ a.ledgers) :
    c.segment.backing.ancestor (n.segment.stop - 1) = .ok n.segment.tip.id := by
  have hprefix : n.path <+: c.segment.backing.txs := hc.path.trans c.segment.path_prefix
  have hle : n.segment.stop - 1 ≤ c.segment.backing.seq := by
    rw [← Segment.length_path]
    exact hprefix.length_le
  rw [Ledger.ancestor, dif_pos hle]
  refine congrArg Except.ok ((ha.idAt_eq_idAt hbacked hn.backed hle n.segment.tip_le_seq).mpr ?_)
  show c.segment.backing.txs.take (n.segment.stop - 1) = n.path
  rw [← Segment.length_path]
  exact (List.prefix_iff_eq_take.mp hprefix).symm

theorem Formed.nodup_startIds (ha : a.Sound) (hn : n.Formed a) :
    (n.children.map (·.segment.startId)).Nodup := by
  refine List.pairwise_map.mpr ((List.pairwise_map.mp hn.fits.apart).imp_of_mem ?_)
  intro c d hc hd hne hid
  exact hne ((Segment.startId_eq_startId ha (hn.child hc).fits.backed
    (hn.child hd).fits.backed).mp hid)

end Node

namespace ArenaTrie

open Node

variable {t : ArenaTrie A} {T : Trie} {i : Slot} {n : Node} {q : Option Slot}
  {kids slots : List Slot}

theorem rules_of_held (ha : a.Sound) (hn : n.Formed a) (hneeded : i ≠ t.root → n.Needed)
    (h : HeldAll (A.get t.store) (some i) kids n.children slots) : ∃ children,
      kids.map (A.get t.store) = children.map some ∧ t.Rules i (n.cell kids q) children := by
  obtain ⟨cells, hcells, hbare, hall⟩ := h.cells
  have hlength : cells.length = n.children.length := by
    have := congrArg List.length hbare
    rwa [List.length_map, List.length_map] at this
  have hstartIds := congrArg (List.map (·.segment.startId)) hbare
  have hbranches := congrArg (List.map (·.branchSupport)) hbare
  rw [List.map_map, List.map_map] at hstartIds hbranches
  refine ⟨cells, hcells, {
    nonempty := n.segment.start_lt_stop
    backed := n.segment.stop_le
    linked := ?_
    adjacent := ?_
    descends := ?_
    apart := ?_
    counted := ?_
    needed := fun hi htip => hlength ▸ hneeded hi htip }⟩
  · intro d hd
    obtain ⟨c, -, below, rfl⟩ := hall d hd
    rfl
  · intro d hd
    obtain ⟨c, hc, below, rfl⟩ := hall d hd
    rw [Segment.stop_eq]
    exact (hn.fits.continues c hc).start
  · intro d hd
    obtain ⟨c, hc, below, rfl⟩ := hall d hd
    exact (hn.fits.continues c hc).ancestor_eq ha hn.fits (hn.child hc).fits.backed
  · exact hstartIds ▸ hn.nodup_startIds ha
  · exact hbranches ▸ hn.fits.counted

/-- An arena that shows a well-formed trie keeps to the rules. -/
theorem Shows.wellFormed (ha : a.Sound) (h : t.Shows T) (hT : T.Rooted a) : t.WellFormed := by
  obtain ⟨slots, hheld, hnodup, hall⟩ := h.held
  obtain ⟨kids, hroot⟩ := hheld.get_eq
  refine {
    root := ⟨_, hroot, rfl, hT.start, hT.stop⟩
    reached := ⟨slots, hheld.slotsAt_eq, hnodup, fun i => ⟨hheld.isSome, hall i⟩⟩
    rules := fun i c hi => ?_
    parent := fun i c hi => ?_ }
  all_goals
    have hmem : i ∈ slots := hall i (by rw [hi]; rfl)
    obtain ⟨m, q, others, hm, hmn, hcase⟩ := hheld.exists_parent hmem
    obtain ⟨kids, below, -, hcell, hbelow⟩ := held_iff.mp hm
    obtain rfl := Option.some.inj (hi.symm.trans hcell)
  · refine rules_of_held ha (hT.formed.of_mem hmn) (fun hne => ?_) hbelow
    rcases hcase with ⟨rfl, -⟩ | ⟨p, hp, hmp, -⟩
    · exact absurd rfl hne
    · exact ((hT.formed p hp).continues m hmp).needed
  · rcases hcase with ⟨rfl, -, rfl⟩ | ⟨p, hp, hmp, k, kids', above, rfl, hk, hik⟩
    · rfl
    · exact ⟨_, hk, hik⟩

end ArenaTrie

end ForkChoice

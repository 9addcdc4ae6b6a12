import ForkChoice.Proofs.Trie.Arena.Held
import ForkChoice.Proofs.Trie.Votes

/-!
# Looking up ledgers in an arena

The loops that look for a ledger among the slots come to the node that the tree finds, and come
upon no empty slot on the way.

* `Node.find_enter`, `Node.Held.find_stay`: one step along a history.
* `Node.Held.find_eq`: the slot of the node at which a history leaves the trie.
* `Node.Held.seek_absent`, `Node.Held.seek_present`: the search by identifier.
* `ArenaTrie.Shows`: an arena whose occupied slots hold a trie.
* `ArenaTrie.Shows.tipSupport_eq`, `ArenaTrie.Shows.branchSupport_eq`: the answers of the trie.
-/

namespace ForkChoice

variable {Slot : Type} {A : Slots Slot (Cell Slot)} {s : A.Store} {a : Archive} {l : Ledger}

namespace Node

variable {parent : Option Slot} {i k : Slot} {n c : Node} {kids slots stack : List Slot}
  {children before behind : List Node} {place id : Nat}

theorem Held.read_eq (h : Held (A.get s) parent i n slots) : ∃ kids below, slots = i :: below ∧
    A.read s i = .ok (n.cell kids parent) ∧ HeldAll (A.get s) (some i) kids n.children below := by
  obtain ⟨kids, below, hslots, hi, hbelow⟩ := held_iff.mp h
  exact ⟨kids, below, hslots, Slots.read_eq hi, hbelow⟩

/-! ## Along a history -/

theorem firstBeyond_none (h : HeldAll (A.get s) parent kids children slots)
    (hnone : ∀ c ∈ children, ¬ place < c.segment.agreement l) :
    ArenaTrie.firstBeyond s l place kids = .ok none := by
  induction children generalizing kids slots with
  | nil =>
    obtain ⟨rfl, -⟩ := heldAll_nil.mp h
    rfl
  | cons child rest ih =>
    obtain ⟨k, others, first, behind, rfl, rfl, hchild, hrest⟩ := heldAll_cons.mp h
    obtain ⟨_, _, -, hread, -⟩ := hchild.read_eq
    rw [ArenaTrie.firstBeyond, hread]
    exact (if_neg (hnone child List.mem_cons_self)).trans
      (ih hrest fun c hc => hnone c (List.mem_cons_of_mem _ hc))

theorem firstBeyond_some {kb ke sb sc : List Slot}
    (hb : HeldAll (A.get s) parent kb before sb) (hc : Held (A.get s) parent k c sc)
    (hbefore : ∀ d ∈ before, ¬ place < d.segment.agreement l)
    (hplace : place < c.segment.agreement l) :
    ArenaTrie.firstBeyond s l place (kb ++ k :: ke) = .ok (some (k, c.segment.agreement l)) := by
  induction before generalizing kb sb with
  | nil =>
    obtain ⟨rfl, -⟩ := heldAll_nil.mp hb
    obtain ⟨_, _, -, hread, -⟩ := hc.read_eq
    rw [List.nil_append, ArenaTrie.firstBeyond, hread]
    exact if_pos hplace
  | cons child rest ih =>
    obtain ⟨j, others, first, behind, rfl, rfl, hchild, hrest⟩ := heldAll_cons.mp hb
    obtain ⟨_, _, -, hread, -⟩ := hchild.read_eq
    rw [List.cons_append, ArenaTrie.firstBeyond, hread]
    exact (if_neg (hbefore child List.mem_cons_self)).trans
      (ih hrest fun d hd => hbefore d (List.mem_cons_of_mem _ hd))

/-- The search goes on to the first child that agrees past the segment. -/
theorem find_enter {kb ke sb sc : List Slot} (hi : A.get s i = some (n.cell (kb ++ k :: ke) parent))
    (hstop : n.segment.agreement l = n.segment.stop)
    (hb : HeldAll (A.get s) (some i) kb before sb) (hc : Held (A.get s) (some i) k c sc)
    (hbefore : ∀ d ∈ before, ¬ n.segment.stop < d.segment.agreement l)
    (hplace : n.segment.stop < c.segment.agreement l) :
    loop (ArenaTrie.findStep s l) (i, n.segment.agreement l) =
      loop (ArenaTrie.findStep s l) (k, c.segment.agreement l) := by
  refine loop_next ?_
  rw [ArenaTrie.findStep, Slots.read_eq hi]
  simp only [bind, Except.bind, hstop, if_true, firstBeyond_some hb hc hbefore hplace]

theorem Held.find_stay (h : Held (A.get s) parent i n slots)
    (hlast : n.segment.agreement l = n.segment.stop →
      ∀ c ∈ n.children, ¬ n.segment.stop < c.segment.agreement l) :
    loop (ArenaTrie.findStep s l) (i, n.segment.agreement l) =
      pure (i, n.segment.agreement l) := by
  obtain ⟨kids, below, rfl, hread, hbelow⟩ := h.read_eq
  refine loop_done ?_
  rw [ArenaTrie.findStep, hread]
  simp only [bind, Except.bind]
  by_cases hstop : n.segment.agreement l = n.segment.stop
  · simp only [hstop, if_true, firstBeyond_none hbelow (hlast hstop)]
  · rw [if_neg hstop]

/-- The search comes to the node at which the ledger leaves the trie. -/
theorem Held.find_eq (h : Held (A.get s) parent i n slots) :
    ∃ j q others, loop (ArenaTrie.findStep s l) (i, n.segment.agreement l) =
        pure (j, (n.locate l).2) ∧
      Held (A.get s) q j (n.locate l).1 others := by
  induction n using below_induction generalizing parent i slots with
  | node n ih =>
    rw [locate_eq]
    by_cases hstop : n.segment.agreement l = n.segment.stop
    · rw [if_pos hstop]
      cases hfind : n.children.find? fun c => n.segment.stop < c.segment.agreement l with
      | none =>
        have hnone := List.find?_eq_none.mp hfind
        refine ⟨i, parent, slots, ?_, h⟩
        rw [h.find_stay fun _ c hc => by simpa using hnone c hc, hstop]
        rfl
      | some c =>
        obtain ⟨hc, before, behind, hsplit, hbefore⟩ := List.find?_eq_some_iff_append.mp hfind
        obtain ⟨kids, below, rfl, hi, hbelow⟩ := held_iff.mp h
        rw [hsplit] at hbelow
        obtain ⟨kb, k, ke, sb, sc, se, rfl, rfl, hb, hheld, -⟩ := heldAll_split.mp hbelow
        rw [find_enter hi hstop hb hheld (fun d hd => by simpa using hbefore d hd)
          (by simpa using hc)]
        exact ih c (by rw [hsplit]; simp) hheld
    · rw [if_neg hstop]
      exact ⟨i, parent, slots, h.find_stay fun h' => absurd h' hstop, h⟩

/-! ## By the identifier of a tip -/

theorem Held.seek_step (h : Held (A.get s) parent i n slots) (hid : n.segment.tip.id ≠ id) :
    ∃ kids below, slots = i :: below ∧ HeldAll (A.get s) (some i) kids n.children below ∧
      loop (ArenaTrie.seekStep s id) (i :: stack) =
        loop (ArenaTrie.seekStep s id) (kids.reverse ++ stack) := by
  obtain ⟨kids, below, rfl, hread, hbelow⟩ := h.read_eq
  refine ⟨kids, below, rfl, hbelow, loop_next ?_⟩
  rw [ArenaTrie.seekStep, hread]
  exact if_neg hid

theorem HeldAll.seek_absent_of (h : HeldAll (A.get s) parent kids children slots)
    (habsent : ∀ c ∈ children, ∀ i slots stack, Held (A.get s) parent i c slots →
      loop (ArenaTrie.seekStep s id) (i :: stack) = loop (ArenaTrie.seekStep s id) stack)
    (stack : List Slot) : loop (ArenaTrie.seekStep s id) (kids.reverse ++ stack) =
      loop (ArenaTrie.seekStep s id) stack := by
  induction children generalizing kids slots stack with
  | nil =>
    obtain ⟨rfl, -⟩ := heldAll_nil.mp h
    rfl
  | cons child rest ih =>
    obtain ⟨k, others, first, behind, rfl, rfl, hchild, hrest⟩ := heldAll_cons.mp h
    rw [List.reverse_cons, List.append_assoc, ih hrest fun c hc =>
      habsent c (List.mem_cons_of_mem _ hc)]
    exact habsent child List.mem_cons_self k first stack hchild

/-- A search passes over a node that has no such tip at or below it. -/
theorem Held.seek_absent (h : Held (A.get s) parent i n slots)
    (habsent : ∀ m ∈ n.nodes, m.segment.tip.id ≠ id) (stack : List Slot) :
    loop (ArenaTrie.seekStep s id) (i :: stack) = loop (ArenaTrie.seekStep s id) stack := by
  induction n using below_induction generalizing parent i slots stack with
  | node n ih =>
    obtain ⟨kids, below, rfl, hbelow, hloop⟩ := h.seek_step (habsent n n.self_mem_nodes)
    rw [hloop]
    refine hbelow.seek_absent_of (fun c hc i slots stack hheld => ?_) stack
    exact ih c hc hheld (fun m hm => habsent m (mem_nodes_of_child hc hm)) stack

theorem HeldAll.seek_absent (h : HeldAll (A.get s) parent kids children slots)
    (habsent : ∀ c ∈ children, ∀ m ∈ c.nodes, m.segment.tip.id ≠ id) (stack : List Slot) :
    loop (ArenaTrie.seekStep s id) (kids.reverse ++ stack) =
      loop (ArenaTrie.seekStep s id) stack :=
  h.seek_absent_of (fun c hc _ _ stack hheld => hheld.seek_absent (habsent c hc) stack) stack

/-- A search that comes to a node ends in the slot of the tip at or below it. -/
theorem Held.seek_present (ha : a.Sound) (hn : n.Formed a)
    (h : Held (A.get s) parent i n slots) {m : Node} (hm : m ∈ n.nodes)
    (hid : m.segment.tip.id = id) (stack : List Slot) :
    ∃ j ∈ slots, ∃ q others, loop (ArenaTrie.seekStep s id) (i :: stack) = pure (some j) ∧
      Held (A.get s) q j m others := by
  have hunique : ∀ k ∈ n.nodes, k.segment.tip.id = id → k = m := by
    intro k hk hkid
    refine hn.eq_of_path hk hm ?_
    exact (Segment.tip_id_eq_tip_id ha (hn k hk).backed (hn m hm).backed).mp (hkid.trans hid.symm)
  induction n using below_induction generalizing parent i slots stack with
  | node n ih =>
    by_cases hself : n.segment.tip.id = id
    · obtain rfl := hunique n n.self_mem_nodes hself
      obtain ⟨kids, below, -, hread, -⟩ := h.read_eq
      refine ⟨i, h.mem, parent, slots, loop_done ?_, h⟩
      rw [ArenaTrie.seekStep, hread]
      exact if_pos hself
    · obtain ⟨kids, below, rfl, hbelow, hloop⟩ := h.seek_step hself
      rcases mem_nodes.mp hm with rfl | ⟨c, hc, hmc⟩
      · exact absurd hid hself
      · obtain ⟨before, behind, hsplit⟩ := List.append_of_mem hc
        have hcm := ((hn.child hc).entry_prefix_of_mem hmc).trans m.entry_prefix_path
        -- no other branch leads to the tip
        have hother : ∀ d ∈ before ++ behind, ∀ k ∈ d.nodes, k.segment.tip.id ≠ id := by
          intro d hd k hk hkid
          obtain ⟨hdn, hdm⟩ := hn.not_entry_prefix_of_split hsplit hcm d hd
          obtain rfl := hunique k (mem_nodes_of_child hdn hk) hkid
          exact hdm (((hn.child hdn).entry_prefix_of_mem hk).trans k.entry_prefix_path)
        rw [hsplit] at hbelow
        obtain ⟨kb, k, ke, sb, sc, se, rfl, rfl, hb, hheld, he⟩ := heldAll_split.mp hbelow
        rw [hloop, List.reverse_append, List.reverse_cons, List.append_assoc, List.append_assoc,
          he.seek_absent fun d hd => hother d (List.mem_append_right _ hd)]
        obtain ⟨j, hj, q, others, hdone, hjm⟩ := ih c hc (hn.child hc) hheld hmc
          (kb.reverse ++ stack) fun k hk => hunique k (mem_nodes_of_child hc hk)
        exact ⟨j, by simp [hj], q, others, hdone, hjm⟩

end Node

namespace ArenaTrie

variable {t : ArenaTrie A} {T : Trie}

/-- The occupied slots of an arena hold a trie. -/
structure Shows (t : ArenaTrie A) (T : Trie) : Prop where
  held : ∃ slots, Node.Held (A.get t.store) none t.root T.root slots ∧ slots.Nodup ∧
    ∀ i, (A.get t.store i).isSome → i ∈ slots
  seqSupport : t.seqSupport = T.seqSupport

theorem liftM_ok_bind {α β : Type} (x : α) (f : α → Computation β) :
    ((liftM (Except.ok x : Except Fault α) : Computation α) >>= f) = f x := rfl

namespace Shows

theorem find_eq (h : t.Shows T) (l : Ledger) : ∃ i q slots,
    t.find l = pure (i, (T.locate l).2) ∧ Node.Held (A.get t.store) q i (T.locate l).1 slots := by
  obtain ⟨slots, hheld, -⟩ := h.held
  obtain ⟨kids, below, -, hread, -⟩ := hheld.read_eq
  obtain ⟨i, q, others, hloop, hi⟩ := hheld.find_eq (l := l)
  refine ⟨i, q, others, ?_, hi⟩
  rw [find, hread, liftM_ok_bind]
  exact hloop

/-- The search by identifier comes to the node that the tree finds, if there is one. -/
theorem seek_eq (ha : a.Sound) (h : t.Shows T) (hT : T.Rooted a) (hl : l ∈ a.ledgers) :
    (∃ m i q slots, T.nodeAt? l = some m ∧ m ∈ T.root.nodes ∧ m.path = l.txs ∧
      t.seek l.id = pure (some i) ∧ Node.Held (A.get t.store) q i m slots) ∨
      (T.nodeAt? l = none ∧ (∀ m ∈ T.root.nodes, m.path ≠ l.txs) ∧ t.seek l.id = pure none) := by
  obtain ⟨slots, hheld, -⟩ := h.held
  rcases hT.nodeAt?_spec ha hl with ⟨m, hm, hnode, hml⟩ | ⟨hnode, hnone⟩
  · have hid := (Segment.tip_id_eq ha (hT.formed m hm).backed hl).mpr hml
    obtain ⟨i, -, q, others, hloop, hi⟩ := hheld.seek_present ha hT.formed hm hid []
    exact Or.inl ⟨m, i, q, others, hnode, hm, hml, hloop, hi⟩
  · refine Or.inr ⟨hnode, hnone, ?_⟩
    rw [seek, hheld.seek_absent (fun m hm hid => hnone m hm
      ((Segment.tip_id_eq ha (hT.formed m hm).backed hl).mp hid)) []]
    exact loop_done rfl

theorem tipSupport_eq (ha : a.Sound) (h : t.Shows T) (hT : T.Rooted a) (hl : l ∈ a.ledgers) :
    t.tipSupport l = pure (T.tipSupport l) := by
  rw [tipSupport, Trie.tipSupport]
  rcases h.seek_eq ha hT hl with ⟨m, i, q, slots, hnode, -, -, hseek, hi⟩ | ⟨hnode, -, hseek⟩
  · obtain ⟨kids, below, -, hread, -⟩ := hi.read_eq
    rw [hseek, hnode, pure_bind]
    dsimp only
    rw [hread]
    rfl
  · rw [hseek, hnode, pure_bind]

theorem branchSupport_eq (ha : a.Sound) (h : t.Shows T) (hT : T.Rooted a) (hl : l ∈ a.ledgers) :
    t.branchSupport l = pure (T.branchSupport l) := by
  rw [branchSupport, Trie.branchSupport]
  rcases h.seek_eq ha hT hl with ⟨m, i, q, slots, hnode, -, -, hseek, hi⟩ | ⟨hnode, -, hseek⟩
  · obtain ⟨kids, below, -, hread, -⟩ := hi.read_eq
    rw [hseek, hnode, pure_bind]
    dsimp only
    rw [hread]
    rfl
  · obtain ⟨i, q, slots, hfind, hi⟩ := h.find_eq l
    obtain ⟨kids, below, -, hread, -⟩ := hi.read_eq
    rw [hseek, hnode, pure_bind]
    dsimp only
    rw [hfind, pure_bind]
    dsimp only
    rw [hread]
    rfl

theorem isEmpty_eq (h : t.Shows T) : t.isEmpty = .ok T.isEmpty := by
  obtain ⟨slots, hheld, -⟩ := h.held
  obtain ⟨kids, below, -, hread, -⟩ := hheld.read_eq
  rw [isEmpty, hread]
  rfl

end Shows

end ArenaTrie

end ForkChoice

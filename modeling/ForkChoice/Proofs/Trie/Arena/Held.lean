import ForkChoice.Proofs.Trie.Nodes
import ForkChoice.Trie.Arena

/-!
# Nodes held in an arena

A node is held in a slot when the slot has its segment and its counts and the slots of its children
hold its branches. The slots that a node takes up are listed beside it, so that what happens in
other slots is known to leave it alone.

* `Node.Held`: a slot holds a node with all that is below it.
* `Node.Held.congr`: only the slots that it takes up matter.
* `Node.Held.update`: a node whose own cell is changed.
* `Node.Held.exists_node`: every slot that is taken up holds a node.
-/

namespace ForkChoice

variable {Slot : Type}

/-! ## Reading and writing cells -/

namespace Slots

variable {A : Slots Slot (Cell Slot)} {s : A.Store} {i : Slot} {c c' : Cell Slot}

theorem read_eq (h : A.get s i = some c) : A.read s i = .ok c := by
  rw [read, h]

theorem modify_eq {f : Cell Slot → Except Fault (Cell Slot)} (h : A.get s i = some c)
    (hf : f c = .ok c') : A.modify s i f = .ok (A.set s i c') := by
  rw [modify, read_eq h]
  simp only [bind, Except.bind, hf]

theorem put_spec (A : Slots Slot (Cell Slot)) (s : A.Store) (c : Cell Slot) :
    ∃ j s₁, A.put s c = (j, s₁) ∧ A.get s j = none ∧ A.get s₁ j = some c ∧
      ∀ x, x ≠ j → A.get s₁ x = A.get s x :=
  ⟨_, _, rfl, A.get_put_fresh s c, A.get_put_self s c, A.get_put_of_ne s c⟩

theorem get_set (h : A.get s i = some c) : A.get (A.set s i c') i = some c' :=
  A.get_set_self s i c' (by rw [h]; rfl)

end Slots

namespace Node

/-- The cell for a node. -/
abbrev cell (n : Node) (kids : List Slot) (parent : Option Slot) : Cell Slot :=
  ⟨n.segment, n.tipSupport, n.branchSupport, kids, parent⟩

mutual

/-- A slot holds a node, all nodes at or below it taking up the given slots. -/
def Held (g : Slot → Option (Cell Slot)) (parent : Option Slot) (i : Slot) :
    Node → List Slot → Prop
  | ⟨segment, tip, branch, children⟩, slots =>
    ∃ kids below, slots = i :: below ∧ g i = some ⟨segment, tip, branch, kids, parent⟩ ∧
      HeldAll g (some i) kids children below

def HeldAll (g : Slot → Option (Cell Slot)) (parent : Option Slot) (kids : List Slot) :
    List Node → List Slot → Prop
  | [], slots => kids = [] ∧ slots = []
  | child :: rest, slots => ∃ k others first behind, kids = k :: others ∧ slots = first ++ behind ∧
      Held g parent k child first ∧ HeldAll g parent others rest behind

end

variable {g g' : Slot → Option (Cell Slot)} {parent : Option Slot} {i j : Slot} {n : Node}
  {kids slots : List Slot} {children : List Node}

theorem held_iff : Held g parent i n slots ↔ ∃ kids below, slots = i :: below ∧
    g i = some (n.cell kids parent) ∧ HeldAll g (some i) kids n.children below := by
  cases n with
  | mk segment tip branch children => rw [Held]

theorem heldAll_nil : HeldAll g parent kids [] slots ↔ kids = [] ∧ slots = [] := by
  rw [HeldAll]

theorem heldAll_cons {child : Node} {rest : List Node} :
    HeldAll g parent kids (child :: rest) slots ↔ ∃ k others first behind,
      kids = k :: others ∧ slots = first ++ behind ∧ Held g parent k child first ∧
        HeldAll g parent others rest behind := by
  rw [HeldAll]

theorem heldAll_append {xs ys : List Node} :
    HeldAll g parent kids (xs ++ ys) slots ↔ ∃ k₁ k₂ s₁ s₂, kids = k₁ ++ k₂ ∧ slots = s₁ ++ s₂ ∧
      HeldAll g parent k₁ xs s₁ ∧ HeldAll g parent k₂ ys s₂ := by
  induction xs generalizing kids slots with
  | nil =>
    constructor
    · intro h
      exact ⟨[], kids, [], slots, rfl, rfl, heldAll_nil.mpr ⟨rfl, rfl⟩, h⟩
    · rintro ⟨k₁, k₂, s₁, s₂, rfl, rfl, h₁, h₂⟩
      obtain ⟨rfl, rfl⟩ := heldAll_nil.mp h₁
      exact h₂
  | cons x xs ih =>
    rw [List.cons_append, heldAll_cons]
    constructor
    · rintro ⟨k, others, first, behind, rfl, rfl, hx, hrest⟩
      obtain ⟨k₁, k₂, s₁, s₂, rfl, rfl, h₁, h₂⟩ := ih.mp hrest
      exact ⟨k :: k₁, k₂, first ++ s₁, s₂, rfl, (List.append_assoc _ _ _).symm,
        heldAll_cons.mpr ⟨k, k₁, first, s₁, rfl, rfl, hx, h₁⟩, h₂⟩
    · rintro ⟨k₁, k₂, s₁, s₂, rfl, rfl, h₁, h₂⟩
      obtain ⟨k, others, first, behind, rfl, rfl, hx, hrest⟩ := heldAll_cons.mp h₁
      exact ⟨k, others ++ k₂, first, behind ++ s₂, rfl, List.append_assoc _ _ _, hx,
        ih.mpr ⟨others, k₂, behind, s₂, rfl, rfl, hrest, h₂⟩⟩

/-- One branch beside those before and behind it. -/
theorem heldAll_split {c : Node} {before behind : List Node} :
    HeldAll g parent kids (before ++ c :: behind) slots ↔ ∃ kb k ke sb sc se,
      kids = kb ++ k :: ke ∧ slots = sb ++ (sc ++ se) ∧ HeldAll g parent kb before sb ∧
        Held g parent k c sc ∧ HeldAll g parent ke behind se := by
  rw [heldAll_append]
  constructor
  · rintro ⟨kb, k₂, sb, s₂, rfl, rfl, hb, h₂⟩
    obtain ⟨k, ke, sc, se, rfl, rfl, hc, he⟩ := heldAll_cons.mp h₂
    exact ⟨kb, k, ke, sb, sc, se, rfl, rfl, hb, hc, he⟩
  · rintro ⟨kb, k, ke, sb, sc, se, rfl, rfl, hb, hc, he⟩
    exact ⟨kb, k :: ke, sb, sc ++ se, rfl, rfl, hb,
      heldAll_cons.mpr ⟨k, ke, sc, se, rfl, rfl, hc, he⟩⟩

/-! ## Frames -/

theorem HeldAll.congr_of (h : HeldAll g parent kids children slots)
    (hsame : ∀ j ∈ slots, g' j = g j)
    (hcongr : ∀ c ∈ children, ∀ i slots, Held g parent i c slots →
      (∀ j ∈ slots, g' j = g j) → Held g' parent i c slots) :
    HeldAll g' parent kids children slots := by
  induction children generalizing kids slots with
  | nil => exact heldAll_nil.mpr (heldAll_nil.mp h)
  | cons child rest ih =>
    obtain ⟨k, others, first, behind, rfl, rfl, hchild, hrest⟩ := heldAll_cons.mp h
    refine heldAll_cons.mpr ⟨k, others, first, behind, rfl, rfl, ?_, ?_⟩
    · exact hcongr child List.mem_cons_self k first hchild fun j hj =>
        hsame j (List.mem_append_left _ hj)
    · exact ih hrest (fun j hj => hsame j (List.mem_append_right _ hj))
        fun c hc => hcongr c (List.mem_cons_of_mem _ hc)

/-- Slots that a node does not take up do not matter to it. -/
theorem Held.congr (h : Held g parent i n slots) (hsame : ∀ j ∈ slots, g' j = g j) :
    Held g' parent i n slots := by
  induction n using below_induction generalizing parent i slots with
  | node n ih =>
    obtain ⟨kids, below, rfl, hi, hbelow⟩ := held_iff.mp h
    refine held_iff.mpr ⟨kids, below, rfl, (hsame i List.mem_cons_self).trans hi, ?_⟩
    exact hbelow.congr_of (fun j hj => hsame j (List.mem_cons_of_mem _ hj))
      fun c hc i slots hheld hc' => ih c hc hheld hc'

theorem HeldAll.congr (h : HeldAll g parent kids children slots)
    (hsame : ∀ j ∈ slots, g' j = g j) : HeldAll g' parent kids children slots :=
  h.congr_of hsame fun _ _ _ _ hheld hsame => hheld.congr hsame

theorem Held.mem (h : Held g parent i n slots) : i ∈ slots := by
  obtain ⟨kids, below, rfl, -⟩ := held_iff.mp h
  exact List.mem_cons_self

theorem HeldAll.kids_subset (h : HeldAll g parent kids children slots) : kids ⊆ slots := by
  induction children generalizing kids slots with
  | nil =>
    obtain ⟨rfl, rfl⟩ := heldAll_nil.mp h
    exact List.Subset.refl _
  | cons child rest ih =>
    obtain ⟨k, others, first, behind, rfl, rfl, hchild, hrest⟩ := heldAll_cons.mp h
    intro j hj
    rcases List.mem_cons.mp hj with rfl | hj
    · exact List.mem_append_left _ hchild.mem
    · exact List.mem_append_right _ (ih hrest hj)

theorem HeldAll.length_eq (h : HeldAll g parent kids children slots) :
    kids.length = children.length := by
  induction children generalizing kids slots with
  | nil =>
    obtain ⟨rfl, rfl⟩ := heldAll_nil.mp h
    rfl
  | cons child rest ih =>
    obtain ⟨k, others, first, behind, rfl, rfl, -, hrest⟩ := heldAll_cons.mp h
    rw [List.length_cons, List.length_cons, ih hrest]

/-- A change of the cell of a node that leaves its children alone changes no more than the node. -/
theorem Held.update (h : Held g parent i n slots) (hnodup : slots.Nodup) {m : Node}
    {q : Option Slot} (hchildren : m.children = n.children)
    (hi : ∀ kids, g i = some (n.cell kids parent) → g' i = some (m.cell kids q))
    (hother : ∀ j ∈ slots, j ≠ i → g' j = g j) : Held g' q i m slots := by
  obtain ⟨kids, below, rfl, hcell, hbelow⟩ := held_iff.mp h
  refine held_iff.mpr ⟨kids, below, rfl, hi kids hcell, hchildren ▸ hbelow.congr fun j hj => ?_⟩
  refine hother j (List.mem_cons_of_mem _ hj) ?_
  rintro rfl
  exact (List.nodup_cons.mp hnodup).1 hj

theorem HeldAll.reparent (h : HeldAll g parent kids children slots) (hnodup : slots.Nodup)
    {q : Option Slot} (hkids : ∀ k ∈ kids, g' k = (g k).map ({ · with parent := q }))
    (hother : ∀ j ∈ slots, j ∉ kids → g' j = g j) : HeldAll g' q kids children slots := by
  induction children generalizing kids slots with
  | nil => exact heldAll_nil.mpr (heldAll_nil.mp h)
  | cons child rest ih =>
    obtain ⟨k, others, first, behind, rfl, rfl, hchild, hrest⟩ := heldAll_cons.mp h
    obtain ⟨hfirst, hbehind, hdisjoint⟩ := List.nodup_append'.mp hnodup
    refine heldAll_cons.mpr ⟨k, others, first, behind, rfl, rfl, ?_, ?_⟩
    · refine hchild.update hfirst rfl (fun below hcell => ?_) fun j hj hjk => ?_
      · rw [hkids k List.mem_cons_self, hcell]
        rfl
      · refine hother j (List.mem_append_left _ hj) fun hmem => ?_
        rcases List.mem_cons.mp hmem with rfl | hmem
        · exact hjk rfl
        · exact hdisjoint hj (hrest.kids_subset hmem)
    · refine ih hrest hbehind (fun j hj => hkids j (List.mem_cons_of_mem _ hj)) fun j hj hjo => ?_
      refine hother j (List.mem_append_right _ hj) fun hmem => ?_
      rcases List.mem_cons.mp hmem with rfl | hmem
      · exact hdisjoint hchild.mem hj
      · exact hjo hmem

/-! ## Slots and nodes -/

/-- The branch that takes up a slot, beside those before and behind it. -/
theorem HeldAll.exists_split (h : HeldAll g parent kids children slots) (hj : j ∈ slots) :
    ∃ before c behind kb k ke sb sc se, children = before ++ c :: behind ∧ kids = kb ++ k :: ke ∧
      slots = sb ++ (sc ++ se) ∧ j ∈ sc ∧ HeldAll g parent kb before sb ∧ Held g parent k c sc ∧
        HeldAll g parent ke behind se := by
  induction children generalizing kids slots with
  | nil =>
    obtain ⟨-, rfl⟩ := heldAll_nil.mp h
    cases hj
  | cons child rest ih =>
    obtain ⟨k, others, first, behind, rfl, rfl, hchild, hrest⟩ := heldAll_cons.mp h
    rcases List.mem_append.mp hj with hj | hj
    · exact ⟨[], child, rest, [], k, others, [], first, behind, rfl, rfl, rfl, hj,
        heldAll_nil.mpr ⟨rfl, rfl⟩, hchild, hrest⟩
    · obtain ⟨before, c, after, kb, k', ke, sb, sc, se, rfl, rfl, rfl, hj, hb, hc, he⟩ :=
        ih hrest hj
      exact ⟨child :: before, c, after, k :: kb, k', ke, first ++ sb, sc, se, rfl, rfl,
        (List.append_assoc _ _ _).symm, hj,
        heldAll_cons.mpr ⟨k, kb, first, sb, rfl, rfl, hchild, hb⟩, hc, he⟩

/-- Every slot that a node takes up holds a node at or below it. -/
theorem Held.exists_node (h : Held g parent i n slots) (hj : j ∈ slots) :
    ∃ m ∈ n.nodes, ∃ q others, Held g q j m others ∧ others ⊆ slots := by
  induction n using below_induction generalizing parent i slots with
  | node n ih =>
    obtain ⟨kids, below, rfl, hi, hbelow⟩ := held_iff.mp h
    rcases List.mem_cons.mp hj with rfl | hj
    · exact ⟨n, n.self_mem_nodes, parent, _, h, List.Subset.refl _⟩
    · obtain ⟨before, c, behind, kb, k, ke, sb, sc, se, hsplit, -, rfl, hj, -, hheld, -⟩ :=
        hbelow.exists_split hj
      have hc : c ∈ n.children := by rw [hsplit]; simp
      obtain ⟨m, hm, q, below', hm', hsub⟩ := ih c hc hheld hj
      exact ⟨m, mem_nodes_of_child hc hm, q, below', hm', fun x hx => by simp [hsub hx]⟩

theorem Held.get_eq (h : Held g parent i n slots) : ∃ kids, g i = some (n.cell kids parent) := by
  obtain ⟨kids, -, -, hi, -⟩ := held_iff.mp h
  exact ⟨kids, hi⟩

/-- The slots that a node takes up are occupied. -/
theorem Held.isSome (h : Held g parent i n slots) (hj : j ∈ slots) : (g j).isSome := by
  obtain ⟨m, -, q, others, hheld, -⟩ := h.exists_node hj
  obtain ⟨kids, hcell⟩ := hheld.get_eq
  rw [hcell]
  rfl

theorem Held.not_mem_of_free (h : Held g parent i n slots) (hj : g j = none) : j ∉ slots := by
  intro hmem
  have hsome := h.isSome hmem
  rw [hj] at hsome
  cases hsome

/-- The cell of a node is overwritten by one that differs in the counts and the segment. -/
theorem Held.set {A : Slots Slot (Cell Slot)} {s : A.Store} (h : Held (A.get s) parent i n slots)
    (hnodup : slots.Nodup) (hi : A.get s i = some (n.cell kids parent)) {m : Node}
    (hchildren : m.children = n.children) :
    Held (A.get (A.set s i (m.cell kids parent))) parent i m slots := by
  refine h.update hnodup hchildren (fun kids' hi' => ?_) fun j _ hj => A.get_set_of_ne s i _ j hj
  have hkids : kids = kids' := congrArg Cell.children (Option.some.inj (hi.symm.trans hi'))
  rw [Slots.get_set hi, hkids]

end Node

end ForkChoice

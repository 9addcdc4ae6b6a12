import ForkChoice.Proofs.Trie.Arena.Search
import ForkChoice.Proofs.Trie.Preferred

/-!
# Walks through an arena

The walk to the preferred ledger and the reading of a whole trie come to the same as on the tree.

* `Node.favorite_bare`: the favourite branch depends on no more than the children themselves.
* `ArenaTrie.Shows.preferred_eq`: the preferred ledger.
* `ArenaTrie.Shows.tree_eq`: the trie as it is put out.
-/

namespace ForkChoice

variable {Slot : Type} {A : Slots Slot (Cell Slot)} {s : A.Store}

namespace Node

variable {parent : Option Slot} {i : Slot} {n : Node} {kids slots : List Slot}
  {children : List Node} {place largestIssued votes : Nat} {ahead : Tally}

/-! ## The favourite branch -/

/-- A node without its branches. -/
def bare (n : Node) : Node := ⟨n.segment, n.tipSupport, n.branchSupport, []⟩

theorem leading_bare (nodes : List Node) :
    leading (nodes.map bare) = (leading nodes).map fun (place, best) => (place, best.bare) := by
  induction nodes with
  | nil => rfl
  | cons node rest ih =>
    rw [List.map_cons, leading, leading, ih]
    cases leading rest with
    | none => rfl
    | some best =>
      obtain ⟨place, best⟩ := best
      have hrank : best.bare.outranks node.bare = best.outranks node := rfl
      simp only [Option.map_some, hrank]
      split <;> rfl

theorem favorite_bare (nodes : List Node) : favorite (nodes.map bare) = favorite nodes := by
  unfold favorite
  rw [leading_bare]
  cases leading nodes with
  | none => rfl
  | some best =>
    obtain ⟨place, best⟩ := best
    dsimp only [Option.map_some]
    rw [List.eraseIdx_map, leading_bare]
    cases leading (nodes.eraseIdx place) with
    | none => rfl
    | some second => rfl

/-- The cells of the children are those of the branches. -/
theorem HeldAll.mapM_read (h : HeldAll (A.get s) parent kids children slots) :
    ∃ cells, kids.mapM (A.read s) = .ok cells ∧ cells.map (·.bare) = children.map bare := by
  induction children generalizing kids slots with
  | nil =>
    obtain ⟨rfl, -⟩ := heldAll_nil.mp h
    exact ⟨[], rfl, rfl⟩
  | cons child rest ih =>
    obtain ⟨k, others, first, behind, rfl, rfl, hchild, hrest⟩ := heldAll_cons.mp h
    obtain ⟨below, _, -, hread, -⟩ := hchild.read_eq
    obtain ⟨cells, hcells, hbare⟩ := ih hrest
    refine ⟨child.cell below parent :: cells, ?_, ?_⟩
    · rw [List.mapM_cons, hread, hcells]
      rfl
    · rw [List.map_cons, List.map_cons, hbare]
      rfl

theorem HeldAll.getElem? (h : HeldAll (A.get s) parent kids children slots) (place : Nat) :
    (kids[place]? = none ∧ children[place]? = none) ∨
      ∃ k c others, kids[place]? = some k ∧ children[place]? = some c ∧
        Held (A.get s) parent k c others := by
  induction children generalizing kids slots place with
  | nil =>
    obtain ⟨rfl, -⟩ := heldAll_nil.mp h
    exact Or.inl ⟨rfl, rfl⟩
  | cons child rest ih =>
    obtain ⟨k, others, first, behind, rfl, rfl, hchild, hrest⟩ := heldAll_cons.mp h
    cases place with
    | zero => exact Or.inr ⟨k, child, first, rfl, rfl, hchild⟩
    | succ place => exact ih hrest place

/-! ## The preferred ledger -/

/-- The loop over slots and the recursion over branches take the same steps. -/
theorem Held.preferred_eq (h : Held (A.get s) parent i n slots) :
    loop (ArenaTrie.preferredStep s largestIssued) (i, votes, ahead) =
      liftM (n.preferred largestIssued votes ahead) := by
  induction n using below_induction generalizing parent i slots votes ahead with
  | node n ih =>
    obtain ⟨kids, below, -, hread, hbelow⟩ := h.read_eq
    obtain ⟨cells, hcells, hbare⟩ := hbelow.mapM_read
    rw [loop_eq, ArenaTrie.preferredStep, hread, Node.preferred_eq]
    simp only [bind, Except.bind]
    cases Uncommitted.absorb (max (n.segment.start + 1) largestIssued) votes ahead with
    | error fault => rfl
    | ok u =>
      dsimp only
      cases Uncommitted.advance n.segment.stop n.branchSupport (n.segment.start + 1)
          u.votes u.ahead with
      | error fault => rfl
      | ok arrival =>
        obtain ⟨next, u'⟩ := arrival
        dsimp only
        by_cases hinside : next < n.segment.stop
        · rw [if_pos hinside, if_pos hinside]
          rfl
        · rw [if_neg hinside, if_neg hinside, hcells]
          simp only [hbare, favorite_bare]
          cases favorite n.children with
          | error fault => rfl
          | ok favorite =>
            rcases favorite with _ | ⟨place, margin⟩
            · rfl
            · dsimp only
              by_cases hgo : u'.votes < margin ∨ u'.votes = 0
              · rw [if_pos hgo, if_pos hgo]
                rcases hbelow.getElem? place with
                  ⟨hkid, hchild⟩ | ⟨k, c, others, hkid, hchild, hheld⟩
                · rw [hkid, preferredAt_none hchild]
                  rfl
                · rw [hkid, preferredAt_eq hchild]
                  exact ih c (List.mem_of_getElem? hchild) hheld
              · rw [if_neg hgo, if_neg hgo]
                rfl

/-! ## Reading the whole trie -/

variable {c : Cell Slot} {pending : List Slot} {branches : List Node}
  {outer : List (ArenaTrie.Frame Slot)}

theorem HeldAll.tree_steps (h : HeldAll (A.get s) parent kids children slots)
    (hstep : ∀ d ∈ children, ∀ i slots pending branches, Held (A.get s) parent i d slots →
      loop (ArenaTrie.treeStep s) (⟨c, i :: pending, branches⟩, outer) =
        loop (ArenaTrie.treeStep s) (⟨c, pending, d :: branches⟩, outer)) :
    loop (ArenaTrie.treeStep s) (⟨c, kids, branches⟩, outer) =
      loop (ArenaTrie.treeStep s) (⟨c, [], children.reverse ++ branches⟩, outer) := by
  induction children generalizing kids slots branches with
  | nil =>
    obtain ⟨rfl, -⟩ := heldAll_nil.mp h
    rfl
  | cons child rest ih =>
    obtain ⟨k, others, first, behind, rfl, rfl, hchild, hrest⟩ := heldAll_cons.mp h
    rw [hstep child List.mem_cons_self k first others branches hchild,
      ih hrest fun d hd => hstep d (List.mem_cons_of_mem _ hd), List.reverse_cons,
      List.append_assoc]
    rfl

/-- A child is read with all that is below it. -/
theorem Held.tree_step (h : Held (A.get s) parent i n slots) :
    loop (ArenaTrie.treeStep s) (⟨c, i :: pending, branches⟩, outer) =
      loop (ArenaTrie.treeStep s) (⟨c, pending, n :: branches⟩, outer) := by
  induction n using below_induction generalizing parent i slots c pending branches outer with
  | node n ih =>
    obtain ⟨kids, below, -, hread, hbelow⟩ := h.read_eq
    have hdown : ArenaTrie.treeStep s (⟨c, i :: pending, branches⟩, outer) =
        .ok (.inl (⟨n.cell kids parent, kids, []⟩, ⟨c, pending, branches⟩ :: outer)) := by
      rw [ArenaTrie.treeStep, hread]
      rfl
    rw [loop_next hdown, hbelow.tree_steps fun d hd i slots pending branches hheld => ih d hd hheld,
      List.append_nil]
    refine loop_next ?_
    rw [ArenaTrie.treeStep, List.reverse_reverse]
    cases n with
    | mk segment tip branch children => rfl

theorem Held.nodeAt_eq (h : Held (A.get s) parent i n slots) :
    ArenaTrie.nodeAt s i = pure n := by
  obtain ⟨kids, below, -, hread, hbelow⟩ := h.read_eq
  rw [ArenaTrie.nodeAt, hread, ArenaTrie.liftM_ok_bind,
    hbelow.tree_steps fun d _ i slots pending branches hheld => hheld.tree_step, List.append_nil]
  refine loop_done ?_
  rw [ArenaTrie.treeStep, List.reverse_reverse]
  cases n with
  | mk segment tip branch children => rfl

end Node

namespace ArenaTrie.Shows

variable {t : ArenaTrie A} {T : Trie}

theorem preferred_eq (h : t.Shows T) (largestIssued : Nat) :
    t.preferred largestIssued = liftM (T.preferred largestIssued) := by
  obtain ⟨slots, hheld, -⟩ := h.held
  rw [preferred, h.isEmpty_eq, liftM_ok_bind, Trie.preferred]
  by_cases hempty : T.isEmpty = true
  · rw [if_pos hempty, if_pos hempty]
    rfl
  · rw [if_neg hempty, if_neg hempty, h.seqSupport]
    exact hheld.preferred_eq

/-- The tree that is read from the arena is the one that it shows. -/
theorem tree_eq (h : t.Shows T) : t.tree = pure T := by
  obtain ⟨slots, hheld, -⟩ := h.held
  rw [tree, hheld.nodeAt_eq, pure_bind, h.seqSupport]

end ArenaTrie.Shows

end ForkChoice

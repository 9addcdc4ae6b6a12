import ForkChoice.Proofs.Trie.Arena.Insert

/-!
# Withdrawing votes in an arena

Votes are taken from the slot of a ledger, and then from slot to slot up to the root. On a second
way up needless slots are freed, and all others stay as they are.

* `Slots.Shrunk`: what a change that gives up slots leaves alone.
* `ArenaTrie.collapse_stay`, `ArenaTrie.collapse_erase`, `ArenaTrie.collapse_merge`: what a step
  of the second way up does.
* `ArenaTrie.Withdrawn`: what becomes of a node on both ways up.
* `ArenaTrie.withdraw_held`: votes taken at or below a node.
* `ArenaTrie.Shows.withdraw_eq`: votes taken away in an arena.
-/

namespace ForkChoice

variable {Slot : Type} {A : Slots Slot (Cell Slot)} {s s₁ s₂ : A.Store}
  {slots slots₁ slots₂ : List Slot}

/-- Slots that go out of use are free, and only slots in use are changed. -/
structure Slots.Shrunk (A : Slots Slot (Cell Slot)) (s : A.Store) (slots : List Slot)
    (s₁ : A.Store) (slots₁ : List Slot) : Prop where
  nodup : slots₁.Nodup
  kept : slots₁ ⊆ slots
  freed : ∀ x ∈ slots, x ∉ slots₁ → A.get s₁ x = none
  frame : ∀ x, x ∉ slots → A.get s₁ x = A.get s x

namespace Slots.Shrunk

theorem refl (hnodup : slots.Nodup) (hframe : ∀ x, x ∉ slots → A.get s₁ x = A.get s x) :
    A.Shrunk s slots s₁ slots :=
  ⟨hnodup, List.Subset.refl _, fun _ hx hnot => absurd hx hnot, hframe⟩

theorem trans (h₁ : A.Shrunk s slots s₁ slots₁) (h₂ : A.Shrunk s₁ slots₁ s₂ slots₂) :
    A.Shrunk s slots s₂ slots₂ := by
  refine ⟨h₂.nodup, List.Subset.trans h₂.kept h₁.kept, fun x hx hnot => ?_, fun x hx => ?_⟩
  · by_cases hx₁ : x ∈ slots₁
    · exact h₂.freed x hx₁ hnot
    · rw [h₂.frame x hx₁]
      exact h₁.freed x hx hx₁
  · rw [h₂.frame x fun hx₂ => hx (h₁.kept hx₂), h₁.frame x hx]

/-- One slot is freed. -/
theorem of_freed {j : Slot} (hperm : slots.Perm (j :: slots₁)) (hnodup : slots.Nodup)
    (hfreed : A.get s₁ j = none) (hframe : ∀ x, x ∉ slots → A.get s₁ x = A.get s x) :
    A.Shrunk s slots s₁ slots₁ := by
  refine ⟨(List.nodup_cons.mp (hperm.nodup_iff.mp hnodup)).2, fun x hx => ?_,
    fun x hx hnot => ?_, hframe⟩
  · exact hperm.mem_iff.mpr (List.mem_cons_of_mem _ hx)
  · obtain rfl := (List.mem_cons.mp (hperm.mem_iff.mp hx)).resolve_right hnot
    exact hfreed

/-- What shrinks among others shrinks beside them. -/
theorem among {before behind : List Slot} (h : A.Shrunk s slots s₁ slots₁)
    (hnodup : (before ++ (slots ++ behind)).Nodup) :
    A.Shrunk s (before ++ (slots ++ behind)) s₁ (before ++ (slots₁ ++ behind)) := by
  obtain ⟨hbefore, hrest, hdisjoint⟩ := List.nodup_append'.mp hnodup
  obtain ⟨-, hbehind, hdisjoint'⟩ := List.nodup_append'.mp hrest
  refine ⟨?_, fun x hx => ?_, fun x hx hnot => ?_, fun x hx => ?_⟩
  · refine List.nodup_append'.mpr ⟨hbefore, List.nodup_append'.mpr ⟨h.nodup, hbehind, ?_⟩, ?_⟩
    · exact fun x hx => hdisjoint' (h.kept hx)
    · intro x hx hx'
      refine hdisjoint hx ?_
      rcases List.mem_append.mp hx' with hx' | hx'
      · exact List.mem_append_left _ (h.kept hx')
      · exact List.mem_append_right _ hx'
  · simp only [List.mem_append] at hx ⊢
    have := @h.kept x
    tauto
  · simp only [List.mem_append, not_or] at hx hnot
    exact h.freed x (by tauto) hnot.2.1
  · simp only [List.mem_append, not_or] at hx
    exact h.frame x hx.2.1

end Slots.Shrunk

/-! ## Gaps -/

theorem closeGap_concat {α : Type} (xs : List α) (x : α) : closeGap (xs ++ [x]) = x :: xs := by
  rw [closeGap, List.getLast?_concat, List.dropLast_concat]

/-- Both lists of a node close their gaps alike. -/
theorem Node.HeldAll.closeGap {g : Slot → Option (Cell Slot)} {parent : Option Slot}
    {kids : List Slot} {children : List Node} (h : HeldAll g parent kids children slots) :
    ∃ slots₁, HeldAll g parent (closeGap kids) (closeGap children) slots₁ ∧
      slots₁.Perm slots := by
  rcases List.eq_nil_or_concat' children with rfl | ⟨front, last, rfl⟩
  · obtain ⟨rfl, rfl⟩ := heldAll_nil.mp h
    exact ⟨[], h, List.Perm.refl _⟩
  · obtain ⟨kf, k, sf, sl, rfl, rfl, hfront, hlast⟩ := heldAll_append.mp h
    obtain ⟨k, others, first, behind, rfl, rfl, hheld, hnil⟩ := heldAll_cons.mp hlast
    obtain ⟨rfl, rfl⟩ := heldAll_nil.mp hnil
    rw [closeGap_concat, closeGap_concat, List.append_nil]
    exact ⟨first ++ sf, heldAll_cons.mpr ⟨k, kf, first, sf, rfl, rfl, hheld, hfront⟩,
      List.perm_append_comm⟩

namespace ArenaTrie

open Node

variable [DecidableEq Slot]

theorem swapRemove_append {i : Slot} {before behind : List Slot} (hi : i ∉ before) :
    swapRemove i (before ++ i :: behind) = before ++ closeGap behind := by
  induction before with
  | nil => exact if_pos rfl
  | cons k rest ih =>
    rw [List.cons_append, swapRemove, if_neg fun hk : k = i => hi (hk ▸ List.mem_cons_self),
      ih fun hmem => hi (List.mem_cons_of_mem _ hmem)]
    rfl

variable {a : Archive} {l : Ledger} {parent : Option Slot} {root i j k : Slot} {n c : Node}
  {c₀ : Cell Slot} {votes : Nat}

/-- What becomes of the slots when one is erased. -/
theorem erase_eq {d : Cell Slot} (hki : k ≠ i) (hi : A.get s i = some d) : ∃ s₁,
    erase s i k = .ok s₁ ∧ A.get s₁ k = none ∧
      A.get s₁ i = some { d with children := swapRemove k d.children } ∧
      ∀ x, x ≠ i → x ≠ k → A.get s₁ x = A.get s x := by
  have hmodify : A.modify s i (fun c => .ok { c with children := swapRemove k c.children }) =
      .ok (A.set s i { d with children := swapRemove k d.children }) := Slots.modify_eq hi rfl
  refine ⟨A.free (A.set s i { d with children := swapRemove k d.children }) k, ?_,
    A.get_free_self _ k, ?_, fun x hxi hxk => ?_⟩
  · rw [erase, hmodify]
    rfl
  · rw [A.get_free_of_ne _ k i hki.symm, Slots.get_set hi]
  · rw [A.get_free_of_ne _ k x hxk, A.get_set_of_ne s i _ x hxi]

/-! ## One step of the second way up -/

/-- The second way up ends at the root and at a node that is needed. -/
theorem collapse_stay (hk : A.get s k = some c₀)
    (h : k = root ∨ (c₀.tipSupport = 0 → 2 ≤ c₀.children.length)) :
    loop (collapseStep root) (s, k) = pure s := by
  refine loop_done ?_
  rw [collapseStep]
  by_cases hroot : k = root
  · rw [if_pos hroot]
    rfl
  · have hneeded := h.resolve_left hroot
    rw [if_neg hroot, Slots.read_eq hk]
    simp only [bind, Except.bind]
    by_cases htip : c₀.tipSupport = 0
    · rw [if_neg (not_not.mpr htip)]
      split
      · simp_all
      · simp_all
      · rfl
    · rw [if_pos htip]
      rfl

variable {kb ke sb sc se : List Slot} {before behind : List Node} {g : Segment} {branch : Nat}
  {child : Node}

/-- A node without votes and branches goes away. -/
theorem collapse_erase (hi : A.get s i = some (n.cell (kb ++ k :: ke) parent))
    (hb : HeldAll (A.get s) (some i) kb before sb)
    (hk : A.get s k = some ⟨g, 0, branch, [], some i⟩)
    (he : HeldAll (A.get s) (some i) ke behind se) (hnodup : (i :: (sb ++ k :: se)).Nodup)
    (hroot : k ≠ root) : ∃ s₁ slots₁,
      loop (collapseStep root) (s, k) = loop (collapseStep root) (s₁, i) ∧
        Held (A.get s₁) parent i { n with children := before ++ closeGap behind } slots₁ ∧
        A.Shrunk s (i :: (sb ++ k :: se)) s₁ slots₁ := by
  obtain ⟨hnot, hrest⟩ := List.nodup_cons.mp hnodup
  obtain ⟨-, hkse, hdisjoint⟩ := List.nodup_append'.mp hrest
  have hki : k ≠ i := by
    rintro rfl
    exact hnot (by simp)
  have hkb : k ∉ kb := fun hmem => hdisjoint (hb.kids_subset hmem) List.mem_cons_self
  obtain ⟨s₁, herase, hkfree, hi₁, hother⟩ := erase_eq hki hi
  rw [swapRemove_append hkb] at hi₁
  have hframe : ∀ x ∈ sb ++ se, A.get s₁ x = A.get s x := by
    intro x hx
    refine hother x ?_ ?_
    · rintro rfl
      simp only [List.mem_append, List.mem_cons, not_or] at hnot hx
      tauto
    · rintro rfl
      rcases List.mem_append.mp hx with hx | hx
      · exact hdisjoint hx List.mem_cons_self
      · exact (List.nodup_cons.mp hkse).1 hx
  obtain ⟨se₁, hgap, hperm⟩ := he.closeGap
  refine ⟨s₁, i :: (sb ++ se₁), loop_next ?_, held_iff.mpr ⟨_, _, rfl, hi₁, heldAll_append.mpr
    ⟨kb, _, sb, se₁, rfl, rfl, hb.congr fun x hx => hframe x (List.mem_append_left _ hx),
      hgap.congr fun x hx => ?_⟩⟩, .of_freed ?_ hnodup hkfree fun x hx => ?_⟩
  · rw [collapseStep, if_neg hroot, Slots.read_eq hk]
    simp only [bind, Except.bind, herase]
    rfl
  · exact hframe x (List.mem_append_right _ (hperm.mem_iff.mp hx))
  · refine List.Perm.trans ?_ (List.Perm.swap k i _)
    exact (List.perm_middle.trans ((hperm.symm.append_left sb).cons k)).cons i
  · simp only [List.mem_append, List.mem_cons, not_or] at hx
    exact hother x hx.1 hx.2.2.1

/-- What becomes of the slots when one is joined to its only child. -/
theorem merge_eq {d e : Cell Slot} (hki : k ≠ i) (hji : j ≠ i) (hjk : j ≠ k)
    (hi : A.get s i = some d) (hk : A.get s k = some ⟨g, 0, branch, [j], some i⟩)
    (hj : A.get s j = some e) (hroot : k ≠ root) : ∃ s₁,
    collapseStep root (s, k) = .ok (.inl (s₁, i)) ∧ A.get s₁ k = none ∧
      A.get s₁ i = some { d with children := swapRemove k (d.children ++ [j]) } ∧
      A.get s₁ j = some { e with segment := g.join e.segment, parent := some i } ∧
      ∀ x, x ≠ i → x ≠ k → x ≠ j → A.get s₁ x = A.get s x := by
  -- the child takes over the segment, then stands beside its parent, which goes away
  set s₁ := A.set s j { e with segment := g.join e.segment, parent := some i } with hs₁
  have hmodify₁ : A.modify s j (fun child =>
      .ok { child with segment := g.join child.segment, parent := some i }) = .ok s₁ :=
    Slots.modify_eq hj rfl
  have hi₁ : A.get s₁ i = some d := by
    rw [hs₁, A.get_set_of_ne s j _ i hji.symm, hi]
  set s₂ := A.set s₁ i { d with children := d.children ++ [j] } with hs₂
  have hmodify₂ : A.modify s₁ i (fun c => .ok { c with children := c.children ++ [j] }) =
      .ok s₂ := Slots.modify_eq hi₁ rfl
  have hi₂ : A.get s₂ i = some { d with children := d.children ++ [j] } := Slots.get_set hi₁
  obtain ⟨s₃, herase, hkfree, hi₃, hother⟩ := erase_eq hki hi₂
  refine ⟨s₃, ?_, hkfree, hi₃, ?_, fun x hxi hxk hxj => ?_⟩
  · rw [collapseStep, if_neg hroot, Slots.read_eq hk]
    simp only [bind, Except.bind, hmodify₁, hmodify₂, herase]
    rfl
  · rw [hother j hji hjk, hs₂, A.get_set_of_ne s₁ i _ j hji, hs₁, Slots.get_set hj]
  · rw [hother x hxi hxk, hs₂, A.get_set_of_ne s₁ i _ x hxi, hs₁, A.get_set_of_ne s j _ x hxj]

/-- A node without votes is joined to its only branch, which takes its place. -/
theorem collapse_merge (hi : A.get s i = some (n.cell (kb ++ k :: ke) parent))
    (hb : HeldAll (A.get s) (some i) kb before sb)
    (hc : Held (A.get s) (some i) k ⟨g, 0, branch, [child]⟩ sc)
    (he : HeldAll (A.get s) (some i) ke behind se) (hnodup : (i :: (sb ++ (sc ++ se))).Nodup)
    (hroot : k ≠ root) : ∃ s₁ slots₁,
      loop (collapseStep root) (s, k) = loop (collapseStep root) (s₁, i) ∧
        Held (A.get s₁) parent i { n with
          children := before ++ { child with segment := g.join child.segment } :: behind }
          slots₁ ∧
        A.Shrunk s (i :: (sb ++ (sc ++ se))) s₁ slots₁ := by
  obtain ⟨kids, sc, rfl, hk, hbelow⟩ := held_iff.mp hc
  obtain ⟨j, others, sc, behind', rfl, rfl, hchild, hnil⟩ := heldAll_cons.mp hbelow
  obtain ⟨rfl, rfl⟩ := heldAll_nil.mp hnil
  rw [List.append_nil] at hnodup ⊢
  obtain ⟨kids, hj⟩ := hchild.get_eq
  obtain ⟨hnot, hrest⟩ := List.nodup_cons.mp hnodup
  obtain ⟨-, hrest', hdisjoint⟩ := List.nodup_append'.mp hrest
  obtain ⟨hksc, -, hdisjoint'⟩ := List.nodup_append'.mp hrest'
  obtain ⟨hksc, hsc⟩ := List.nodup_cons.mp hksc
  have hki : k ≠ i := by
    rintro rfl
    exact hnot (by simp)
  have hji : j ≠ i := by
    rintro rfl
    exact hnot (by simp [hchild.mem])
  have hjk : j ≠ k := by
    rintro rfl
    exact hksc hchild.mem
  have hkb : k ∉ kb := fun hmem => hdisjoint (hb.kids_subset hmem) List.mem_cons_self
  obtain ⟨s₁, hstep, hkfree, hi₁, hj₁, hframe⟩ := merge_eq hki hji hjk hi hk hj hroot
  rw [List.append_assoc, List.cons_append, swapRemove_append hkb, closeGap_concat] at hi₁
  have hheld : Held (A.get s₁) (some i) j { child with segment := g.join child.segment } sc := by
    refine hchild.update hsc rfl (fun kids' hcell => ?_) fun x hx hxj => hframe x ?_ ?_ hxj
    · have hkids : kids = kids' := congrArg Cell.children (Option.some.inj (hj.symm.trans hcell))
      rw [hj₁, hkids]
    · rintro rfl
      exact hnot (by simp [hx])
    · rintro rfl
      exact hksc hx
  refine ⟨s₁, i :: (sb ++ (sc ++ se)), loop_next hstep, held_iff.mpr ⟨_, _, rfl, hi₁,
    heldAll_split.mpr ⟨kb, j, ke, sb, sc, se, rfl, rfl, hb.congr fun x hx => ?_, hheld,
      he.congr fun x hx => ?_⟩⟩, .of_freed ?_ hnodup hkfree fun x hx => ?_⟩
  · refine hframe x ?_ ?_ ?_ <;> rintro rfl
    · exact hnot (by simp [hx])
    · exact hdisjoint hx List.mem_cons_self
    · exact hdisjoint hx (by simp [hchild.mem])
  · refine hframe x ?_ ?_ ?_ <;> rintro rfl
    · exact hnot (by simp [hx])
    · exact hdisjoint' List.mem_cons_self hx
    · exact hdisjoint' (by simp [hchild.mem]) hx
  · refine List.Perm.trans ?_ (List.Perm.swap k i _)
    exact List.perm_middle.cons i
  · refine hframe x ?_ ?_ ?_ <;> rintro rfl
    · exact hx (by simp)
    · exact hx (by simp)
    · exact hx (by simp [hchild.mem])

/-- A step comes to the parent, whose branches are then as on the tree. -/
theorem collapse_held (hi : A.get s i = some (n.cell (kb ++ k :: ke) parent))
    (hb : HeldAll (A.get s) (some i) kb before sb) (hc : Held (A.get s) (some i) k c sc)
    (he : HeldAll (A.get s) (some i) ke behind se) (hnodup : (i :: (sb ++ (sc ++ se))).Nodup)
    (hroot : k ≠ root) (hneeded : i = root ∨ (n.tipSupport = 0 → 2 ≤ (kb ++ k :: ke).length)) :
    ∃ s₁ slots₁, loop (collapseStep root) (s, k) = loop (collapseStep root) (s₁, i) ∧
      Held (A.get s₁) parent i { n with children := before ++ c.contractBefore behind } slots₁ ∧
      A.Shrunk s (i :: (sb ++ (sc ++ se))) s₁ slots₁ := by
  rcases c.contract_cases with
    ⟨g, branch, rfl, hnone⟩ | ⟨g, branch, child, rfl, hsome⟩ | ⟨hstay, hsome⟩
  · rw [contractBefore_none hnone]
    obtain ⟨kids, below, rfl, hk, hbelow⟩ := held_iff.mp hc
    obtain ⟨rfl, rfl⟩ := heldAll_nil.mp hbelow
    exact collapse_erase hi hb hk he hnodup hroot
  · rw [contractBefore_some hsome]
    exact collapse_merge hi hb hc he hnodup hroot
  · rw [contractBefore_some hsome]
    obtain ⟨kids, below, -, hk, hbelow⟩ := held_iff.mp hc
    refine ⟨s, _, ?_, held_iff.mpr ⟨_, _, rfl, hi, heldAll_split.mpr
      ⟨kb, k, ke, sb, sc, se, rfl, rfl, hb, hc, he⟩⟩, .refl hnodup fun _ _ => rfl⟩
    rw [collapse_stay hk (Or.inr fun htip => hbelow.length_eq ▸ hstay htip),
      collapse_stay hi hneeded]

/-! ## The whole way -/

/-- What becomes of a node when votes have been taken from the tip in `j`, at or below it: the way up
takes them from every branch, and the second way up leaves another node in the slot. The rest of
the first way is gone in between, so the second one starts in any store that agrees. -/
structure Withdrawn (root : Slot) (votes : Nat) (s s₁ : A.Store) (j : Slot)
    (parent : Option Slot) (i : Slot) (n : Node) (slots : List Slot) (s₂ : A.Store) : Prop where
  climb : loop (climbStep (debit · votes)) (s₁, some j) =
    loop (climbStep (debit · votes)) (s₂, parent)
  frame : ∀ x, x ∉ slots → A.get s₂ x = A.get s x
  collapse : ∀ s₃, (∀ x ∈ slots, A.get s₃ x = A.get s₂ x) → ∃ s₄ slots₁,
    loop (collapseStep root) (s₃, j) = loop (collapseStep root) (s₄, i) ∧
      Held (A.get s₄) parent i n slots₁ ∧ A.Shrunk s₃ slots s₄ slots₁

/-- Votes are taken from the tip of the node itself. -/
theorem withdrawn_self (h : Held (A.get s) parent i n slots) (hnodup : slots.Nodup)
    (htip : votes ≤ n.tipSupport) (hbranch : votes ≤ n.branchSupport) : ∃ s₁ s₂,
    A.modify s i (Cell.changeTip (debit · votes)) = .ok s₁ ∧
      Withdrawn root votes s s₁ i parent i
        ⟨n.segment, n.tipSupport - votes, n.branchSupport - votes, n.children⟩ slots s₂ := by
  obtain ⟨s₁, hmodify, h₁, hframe₁⟩ := changeTip_held (debit · votes) h hnodup (if_pos htip)
  obtain ⟨s₂, hclimb, h₂, hframe₂⟩ := climb_held (debit · votes) h₁ hnodup (if_pos hbranch)
  refine ⟨s₁, s₂, hmodify, hclimb, fun x hx => ?_, fun s₃ hsame => ?_⟩
  · have hxi : x ≠ i := fun hxi => hx (hxi ▸ h.mem)
    rw [hframe₂ x hxi, hframe₁ x hxi]
  · exact ⟨s₃, slots, rfl, h₂.congr hsame, .refl hnodup fun _ _ => rfl⟩

/-- Votes are taken from a tip below a branch. -/
theorem Withdrawn.above (hi : A.get s i = some (n.cell (kb ++ k :: ke) parent))
    (hb : HeldAll (A.get s) (some i) kb before sb)
    (he : HeldAll (A.get s) (some i) ke behind se) (hnodup : (i :: (sb ++ (sc ++ se))).Nodup)
    (hroot : k ≠ root) (hneeded : i = root ∨ (n.tipSupport = 0 → 2 ≤ (kb ++ k :: ke).length))
    (hbranch : votes ≤ n.branchSupport)
    (hc : Withdrawn root votes s s₁ j (some i) k c sc s₂) : ∃ s₃,
    Withdrawn root votes s s₁ j parent i { n with
      branchSupport := n.branchSupport - votes
      children := before ++ c.contractBefore behind } (i :: (sb ++ (sc ++ se))) s₃ := by
  obtain ⟨hself, hrest⟩ := List.nodup_cons.mp hnodup
  obtain ⟨-, hrest', hdisjoint⟩ := List.nodup_append'.mp hrest
  obtain ⟨-, -, hdisjoint'⟩ := List.nodup_append'.mp hrest'
  have hic : i ∉ sc := fun hic => hself (by simp [hic])
  have hi₂ : A.get s₂ i = some (n.cell (kb ++ k :: ke) parent) := (hc.frame i hic).trans hi
  set m : Node := { n with branchSupport := n.branchSupport - votes } with hm
  set s₃ := A.set s₂ i (m.cell (kb ++ k :: ke) parent) with hs₃
  refine ⟨s₃, hc.climb.trans (loop_next ?_), fun x hx => ?_, fun s₄ hsame => ?_⟩
  · rw [climbStep, Slots.read_eq hi₂]
    simp only [bind, Except.bind, debit, if_pos hbranch]
    rfl
  · simp only [List.mem_cons, List.mem_append, not_or] at hx
    rw [hs₃, A.get_set_of_ne s₂ i _ x hx.1, hc.frame x hx.2.2.1]
  · have hother : ∀ x ∈ sb ++ (sc ++ se), A.get s₄ x = A.get s₂ x := by
      intro x hx
      rw [hsame x (List.mem_cons_of_mem _ hx), hs₃]
      exact A.get_set_of_ne s₂ i _ x fun hxi => hself (hxi ▸ hx)
    obtain ⟨s₅, sc₁, hloop, hc₅, hshrunk⟩ := hc.collapse s₄ fun x hx => hother x (by simp [hx])
    have hall : A.Shrunk s₄ (i :: sb ++ (sc ++ se)) s₅ (i :: sb ++ (sc₁ ++ se)) :=
      hshrunk.among hnodup
    have hi₅ : A.get s₅ i = some (m.cell (kb ++ k :: ke) parent) := by
      rw [hshrunk.frame i hic, hsame i List.mem_cons_self, hs₃, Slots.get_set hi₂]
    -- the slots beside the branch are as they were
    have hbeside : ∀ x ∈ sb ++ (sc ++ se), x ∉ sc → A.get s₅ x = A.get s x := by
      intro x hx hxc
      rw [hshrunk.frame x hxc, hother x hx, hc.frame x hxc]
    obtain ⟨s₆, slots₁, hloop', h₆, hshrunk'⟩ := collapse_held hi₅
      (hb.congr fun x hx => hbeside x (by simp [hx]) fun hxc => hdisjoint hx (by simp [hxc]))
      hc₅ (he.congr fun x hx => hbeside x (by simp [hx]) fun hxc => hdisjoint' hxc hx)
      hall.nodup hroot hneeded
    exact ⟨s₆, slots₁, hloop.trans hloop', h₆, hall.trans hshrunk'⟩

theorem withdraw_held (ha : a.Sound) (hl : l ∈ a.ledgers) (hn : n.Formed a)
    (h : Held (A.get s) parent i n slots) (hnodup : slots.Nodup)
    (hroot : ∀ x ∈ slots, x = root → x = i) (hneeded : i = root ∨ n.Needed) (hj : j ∈ slots)
    (hcell : A.get s j = some c₀) (hjl : c₀.segment.path = l.txs)
    (hvotes : votes ≤ c₀.tipSupport) : ∃ m s₁ s₂, n.withdraw l.id votes = some m ∧
      A.modify s j (Cell.changeTip (debit · votes)) = .ok s₁ ∧
      Withdrawn root votes s s₁ j parent i m slots s₂ := by
  induction n using below_induction generalizing parent i slots with
  | node n ih =>
    by_cases hji : j = i
    · subst hji
      obtain ⟨kids, hself⟩ := h.get_eq
      obtain rfl := Option.some.inj (hcell.symm.trans hself)
      have hid := (Segment.tip_id_eq ha hn.fits.backed hl).mpr hjl
      obtain ⟨s₁, s₂, hmodify, hwithdrawn⟩ :=
        withdrawn_self h hnodup hvotes (hvotes.trans hn.fits.tipSupport_le)
      refine ⟨_, s₁, s₂, ?_, hmodify, hwithdrawn⟩
      rw [withdraw_eq, if_pos hid]
    · obtain ⟨kids, below, rfl, hi, hbelow⟩ := held_iff.mp h
      have hlength := hbelow.length_eq
      obtain ⟨before, c, behind, kb, k, ke, sb, sc, se, hsplit, rfl, rfl, hjc, hb, hc, he⟩ :=
        hbelow.exists_split ((List.mem_cons.mp hj).resolve_left hji)
      obtain ⟨hself, hrest⟩ := List.nodup_cons.mp hnodup
      have hsc := (List.nodup_append'.mp (List.nodup_append'.mp hrest).2.1).1
      have hcn : c ∈ n.children := by rw [hsplit]; simp
      -- the node with the votes lies at or below this branch
      obtain ⟨m, hm, q, others, hheld, -⟩ := hc.exists_node hjc
      obtain ⟨kids, hm₀⟩ := hheld.get_eq
      obtain rfl := Option.some.inj (hcell.symm.trans hm₀)
      have hid : n.segment.tip.id ≠ l.id := by
        intro hid
        refine hn.path_ne_of_mem_child hcn hm (hjl.trans ?_)
        exact ((Segment.tip_id_eq ha hn.fits.backed hl).mp hid).symm
      have hbefore := hn.withdraw_eq_none_of_split ha hl hsplit hm hjl (v := votes)
      have hroot' : ∀ x ∈ sc, x ≠ root := by
        intro x hx hxroot
        refine hself (hroot x (by simp [hx]) hxroot ▸ ?_)
        simp [hx]
      obtain ⟨c', s₁, s₂, hwithdraw, hmodify, hwithdrawn⟩ :=
        ih c hcn (hn.child hcn) hc hsc (fun x hx hxroot => absurd hxroot (hroot' x hx))
          (Or.inr (hn.fits.continues c hcn).needed) hjc
      obtain ⟨s₃, habove⟩ := Withdrawn.above hi hb he hnodup (hroot' k hc.mem)
        (hneeded.imp_right fun hneeded htip => hlength ▸ hneeded htip)
        (hvotes.trans (hn.tipSupport_le_of_mem (mem_nodes_of_child hcn hm))) hwithdrawn
      refine ⟨_, s₁, s₃, ?_, hmodify, habove⟩
      rw [withdraw_eq, if_neg hid, hsplit, withdrawIn_append hbefore hwithdraw]

namespace Shows

variable {t : ArenaTrie A} {T T' : Trie} {taken : Bool}

/-- Taking votes that are there. -/
theorem shrink_eq (ha : a.Sound) (hl : l ∈ a.ledgers) (h : t.Shows T) (hT : T.Rooted a)
    (hcell : A.get t.store i = some c₀) (hil : c₀.segment.path = l.txs)
    (hvotes : votes ≤ c₀.tipSupport) : ∃ s₁ s₂ s₃,
      A.modify t.store i (Cell.changeTip (debit · votes)) = .ok s₁ ∧
      loop (climbStep (debit · votes)) (s₁, some i) = pure s₂ ∧
      loop (collapseStep t.root) (s₂, i) = pure s₃ ∧
      (⟨t.root, s₃, (T.shrink l votes).seqSupport⟩ : ArenaTrie A).Shows (T.shrink l votes) := by
  obtain ⟨⟨slots, hheld, hnodup, hall⟩, -⟩ := h
  have hi : i ∈ slots := hall i (by rw [hcell]; rfl)
  obtain ⟨n, s₁, s₂, hwithdraw, hmodify, hclimb, hframe, hcollapse⟩ :=
    withdraw_held ha hl hT.formed hheld hnodup (fun _ _ hx => hx) (Or.inl rfl) hi hcell hil hvotes
  obtain ⟨s₃, slots₁, hloop, hheld₁, hshrunk⟩ := hcollapse s₂ fun _ _ => rfl
  obtain ⟨kids, hroot⟩ := hheld₁.get_eq
  refine ⟨s₁, s₂, s₃, hmodify, hclimb.trans (loop_done rfl),
    hloop.trans (collapse_stay hroot (Or.inl rfl)), ⟨slots₁, ?_, hshrunk.nodup, fun x hx => ?_⟩, rfl⟩
  · rw [Trie.shrink, hwithdraw]
    exact hheld₁
  · by_contra hx₁
    refine absurd hx (Option.not_isSome_iff_eq_none.mpr ?_)
    by_cases hx₀ : x ∈ slots
    · exact hshrunk.freed x hx₀ hx₁
    · show A.get s₃ x = none
      rw [hshrunk.frame x hx₀, hframe x hx₀]
      exact Option.not_isSome_iff_eq_none.mp fun hsome => hx₀ (hall x hsome)

/-- A ledger without votes leaves everything as it is. -/
theorem withdraw_absent (ha : a.Sound) (hl : l ∈ a.ledgers) (h : t.Shows T) (hT : T.Rooted a)
    (hl₀ : T.tipSupport l = 0) : t.withdraw l votes = pure (false, t) := by
  unfold Trie.tipSupport at hl₀
  rw [withdraw]
  rcases h.seek_eq ha hT hl with ⟨m, i, q, slots, hnode, -, -, hseek, hi⟩ | ⟨-, -, hseek⟩
  · obtain ⟨kids, hcell⟩ := hi.get_eq
    rw [hnode] at hl₀
    rw [hseek, pure_bind]
    dsimp only
    rw [Slots.read_eq hcell, liftM_ok_bind, if_pos hl₀]
  · rw [hseek, pure_bind]

/-- Votes that can be withdrawn from the tree can be withdrawn in the arena, and leave the same. -/
theorem withdraw_eq (ha : a.Sound) (hl : l ∈ a.ledgers) (h : t.Shows T) (hT : T.Rooted a)
    (hwithdraw : T.withdraw l votes = .ok (taken, T')) :
    ∃ t', t.withdraw l votes = pure (taken, t') ∧ t'.Shows T' := by
  unfold Trie.withdraw at hwithdraw
  by_cases hl₀ : T.tipSupport l = 0
  · rw [if_pos hl₀] at hwithdraw
    cases hwithdraw
    exact ⟨t, h.withdraw_absent ha hl hT hl₀, h⟩
  · rw [if_neg hl₀] at hwithdraw
    unfold Trie.tipSupport at hl₀ hwithdraw
    rcases h.seek_eq ha hT hl with ⟨m, i, q, slots, hnode, -, hml, hseek, hi⟩ | ⟨hnode, -, -⟩
    · obtain ⟨kids, hcell⟩ := hi.get_eq
      rw [hnode] at hl₀ hwithdraw
      dsimp only at hl₀ hwithdraw
      rw [withdraw, hseek, pure_bind]
      dsimp only
      rw [Slots.read_eq hcell, liftM_ok_bind, if_neg hl₀]
      split at hwithdraw
      · cases hwithdraw
        obtain ⟨s₁, s₂, s₃, hmodify, hclimb, hcollapse, hshows⟩ :=
          h.shrink_eq ha hl hT hcell hml (Nat.min_le_right votes m.tipSupport)
        refine ⟨_, ?_, hshows⟩
        dsimp only
        rw [hmodify, liftM_ok_bind, hclimb, pure_bind, hcollapse, pure_bind, h.seqSupport]
        rfl
      · cases hwithdraw
    · rw [hnode] at hl₀
      exact absurd rfl hl₀

end Shows

end ArenaTrie

end ForkChoice

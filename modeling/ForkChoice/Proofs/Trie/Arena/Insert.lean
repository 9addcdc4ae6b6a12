import ForkChoice.Proofs.Trie.Arena.Search
import ForkChoice.Proofs.Trie.Insert

/-!
# Casting votes in an arena

Votes are added to the node at which a history leaves the trie, and then from slot to slot up to the
root. The slots in use grow by fresh ones, and all others stay as they are.

* `Slots.Grown`: what a change that takes up more slots leaves alone.
* `ArenaTrie.graft_held`: the changes at the node where a history leaves the trie.
* `ArenaTrie.climb_held`: one step upwards.
* `ArenaTrie.insert_held`: all changes at or below a node.
* `ArenaTrie.insert_overflow`: the votes of a branch that leave the range of a count.
* `ArenaTrie.Shows.insert_eq`, `ArenaTrie.Shows.insert_overflow`: votes cast in an arena.
-/

namespace ForkChoice

variable {Slot : Type} {A : Slots Slot (Cell Slot)} {s s₁ s₂ : A.Store}
  {slots slots₁ slots₂ : List Slot}

/-- The slots in use grow by fresh ones, and only slots in use are changed. -/
structure Slots.Grown (A : Slots Slot (Cell Slot)) (s : A.Store) (slots : List Slot)
    (s₁ : A.Store) (slots₁ : List Slot) : Prop where
  nodup : slots₁.Nodup
  kept : slots ⊆ slots₁
  fresh : ∀ x ∈ slots₁, x ∉ slots → A.get s x = none
  frame : ∀ x, x ∉ slots₁ → A.get s₁ x = A.get s x

namespace Slots.Grown

theorem refl (hnodup : slots.Nodup) (hframe : ∀ x, x ∉ slots → A.get s₁ x = A.get s x) :
    A.Grown s slots s₁ slots :=
  ⟨hnodup, List.Subset.refl _, fun _ hx hnot => absurd hx hnot, hframe⟩

theorem trans (h₁ : A.Grown s slots s₁ slots₁) (h₂ : A.Grown s₁ slots₁ s₂ slots₂) :
    A.Grown s slots s₂ slots₂ := by
  refine ⟨h₂.nodup, List.Subset.trans h₁.kept h₂.kept, fun x hx hnot => ?_, fun x hx => ?_⟩
  · by_cases hx₁ : x ∈ slots₁
    · exact h₁.fresh x hx₁ hnot
    · rw [← h₁.frame x hx₁]
      exact h₂.fresh x hx hx₁
  · rw [h₂.frame x hx, h₁.frame x fun hx₁ => hx (h₂.kept hx₁)]

/-- One fresh slot is taken up. -/
theorem of_fresh {j : Slot} (hnodup : slots.Nodup) (hsome : ∀ x ∈ slots, (A.get s x).isSome)
    (hfresh : A.get s j = none) (hframe : ∀ x, x ∉ slots → x ≠ j → A.get s₁ x = A.get s x)
    (hperm : slots₁.Perm (j :: slots)) : A.Grown s slots s₁ slots₁ := by
  have hj : j ∉ slots := by
    intro hj
    have hoccupied := hsome j hj
    rw [hfresh] at hoccupied
    cases hoccupied
  refine ⟨hperm.nodup_iff.mpr (List.nodup_cons.mpr ⟨hj, hnodup⟩), fun x hx => ?_,
    fun x hx hnot => ?_, fun x hx => ?_⟩
  · exact hperm.mem_iff.mpr (List.mem_cons_of_mem _ hx)
  · obtain rfl := (List.mem_cons.mp (hperm.mem_iff.mp hx)).resolve_right hnot
    exact hfresh
  · rw [hperm.mem_iff, List.mem_cons, not_or] at hx
    exact hframe x hx.2 hx.1

/-- Slots that were occupied by others stay theirs. -/
theorem not_mem (h : A.Grown s slots s₁ slots₁) {x : Slot} (hx : x ∉ slots)
    (hsome : (A.get s x).isSome) : x ∉ slots₁ := by
  intro hx₁
  rw [h.fresh x hx₁ hx] at hsome
  cases hsome

/-- What grows among others grows beside them. -/
theorem among {before behind : List Slot} (h : A.Grown s slots s₁ slots₁)
    (hnodup : (before ++ (slots ++ behind)).Nodup)
    (hsome : ∀ x ∈ before ++ (slots ++ behind), (A.get s x).isSome) :
    A.Grown s (before ++ (slots ++ behind)) s₁ (before ++ (slots₁ ++ behind)) := by
  obtain ⟨hbefore, hrest, hdisjoint⟩ := List.nodup_append'.mp hnodup
  obtain ⟨-, hbehind, hdisjoint'⟩ := List.nodup_append'.mp hrest
  have hnotBefore : ∀ x ∈ before, x ∉ slots₁ := fun x hx =>
    h.not_mem (fun hmem => hdisjoint hx (List.mem_append_left _ hmem))
      (hsome x (List.mem_append_left _ hx))
  have hnotBehind : ∀ x ∈ behind, x ∉ slots₁ := fun x hx =>
    h.not_mem (fun hmem => hdisjoint' hmem hx)
      (hsome x (List.mem_append_right _ (List.mem_append_right _ hx)))
  refine ⟨?_, ?_, fun x hx hnot => ?_, fun x hx => ?_⟩
  · refine List.nodup_append'.mpr ⟨hbefore, List.nodup_append'.mpr ⟨h.nodup, hbehind, ?_⟩, ?_⟩
    · exact fun x hx hx' => hnotBehind x hx' hx
    · intro x hx hx'
      rcases List.mem_append.mp hx' with hx' | hx'
      · exact hnotBefore x hx hx'
      · exact hdisjoint hx (List.mem_append_right _ hx')
  · intro x hx
    simp only [List.mem_append] at hx ⊢
    have := @h.kept x
    tauto
  · simp only [List.mem_append, not_or] at hx hnot
    exact h.fresh x (by tauto) hnot.2.1
  · simp only [List.mem_append, not_or] at hx
    exact h.frame x hx.2.1

end Slots.Grown

/-! ## Counts in range -/

namespace Node

theorem branchSupport_split (place : Nat) (n : Node) :
    (n.split place).branchSupport = n.branchSupport := by
  unfold split
  split <;> rfl

theorem tipSupport_split_le (place : Nat) (n : Node) :
    (n.split place).tipSupport ≤ n.tipSupport := by
  unfold split
  split
  · exact Nat.zero_le _
  · exact Nat.le_refl _

theorem branchSupport_graft (l : Ledger) (votes place : Nat) (n : Node) :
    (n.graft l votes place).branchSupport = n.branchSupport + votes := by
  rw [← branchSupport_split place n]
  unfold graft
  split <;> rfl

theorem branchSupport_insert (l : Ledger) (votes : Nat) (n : Node) :
    (n.insert l votes).branchSupport = n.branchSupport + votes := by
  rw [Node.insert_eq]
  split
  · split
    · rfl
    · exact branchSupport_graft _ _ _ _
  · exact branchSupport_graft _ _ _ _

end Node

/-- What holds of the counts when votes can be cast. -/
theorem Trie.grow_inRange {T : Trie} {l : Ledger} {votes : Nat}
    (h : (T.grow l votes).inRange = true) : T.root.branchSupport + votes ≤ maxSupport ∧
      credit (T.seqSupport.getD l.seq 0) votes = .ok (T.seqSupport.getD l.seq 0 + votes) := by
  rw [Trie.inRange, Bool.and_eq_true, Node.inRange_iff, List.all_eq_true] at h
  constructor
  · rw [← Node.branchSupport_insert l votes T.root]
    exact (h.1 _ (Node.self_mem_nodes _)).2
  · have hentry := h.2 (l.seq, T.seqSupport.getD l.seq 0 + votes)
      (Std.ExtTreeMap.mem_toList_iff_getElem?_eq_some.mpr (by simp [Trie.grow]))
    exact if_pos (by simpa using hentry)

namespace ArenaTrie

open Node

variable {a : Archive} {l : Ledger} {parent : Option Slot} {i : Slot} {n : Node}
  {kids : List Slot} {place votes : Nat}

/-! ## Cutting -/

theorem reparent_eq (q : Option Slot) (kids : List Slot) (s : A.Store)
    (hkids : ∀ k ∈ kids, (A.get s k).isSome) : ∃ s₁,
    kids.foldlM (fun s k => A.modify s k fun child => .ok { child with parent := q }) s = .ok s₁ ∧
      (∀ k ∈ kids, A.get s₁ k = (A.get s k).map ({ · with parent := q })) ∧
      ∀ x, x ∉ kids → A.get s₁ x = A.get s x := by
  induction kids generalizing s with
  | nil => exact ⟨s, rfl, by simp, fun _ _ => rfl⟩
  | cons k rest ih =>
    obtain ⟨c, hc⟩ := Option.isSome_iff_exists.mp (hkids k List.mem_cons_self)
    have hmodify : A.modify s k (fun child => .ok { child with parent := q }) =
        .ok (A.set s k { c with parent := q }) := Slots.modify_eq hc rfl
    have hothers : ∀ j ∈ rest, (A.get (A.set s k { c with parent := q }) j).isSome := by
      intro j hj
      by_cases hjk : j = k
      · rw [hjk, Slots.get_set hc]
        rfl
      · rw [A.get_set_of_ne s k _ j hjk]
        exact hkids j (List.mem_cons_of_mem _ hj)
    have honce : ∀ x, (A.get (A.set s k { c with parent := q }) x).map ({ · with parent := q }) =
        (A.get s x).map ({ · with parent := q }) := by
      intro x
      by_cases hxk : x = k
      · rw [hxk, Slots.get_set hc, hc]
        rfl
      · rw [A.get_set_of_ne s k _ x hxk]
    obtain ⟨s₁, hfold, hin, hout⟩ := ih _ hothers
    refine ⟨s₁, ?_, fun x hx => ?_, fun x hx => ?_⟩
    · rw [List.foldlM_cons, hmodify]
      exact hfold
    · by_cases hrest : x ∈ rest
      · exact (hin x hrest).trans (honce x)
      · obtain rfl := (List.mem_cons.mp hx).resolve_right hrest
        rw [hout x hrest, Slots.get_set hc, hc]
        rfl
    · rw [hout x fun hrest => hx (List.mem_cons_of_mem _ hrest)]
      exact A.get_set_of_ne s k _ x fun hxk => hx (hxk ▸ List.mem_cons_self)

/-- What a cut does to the slots, the far side moving into a fresh one. -/
theorem cut_eq {c : Cell Slot} (hi : A.get s i = some c) (hself : i ∉ c.children)
    (hkids : ∀ k ∈ c.children, (A.get s k).isSome) (near far : Segment) : ∃ j s₁,
    cut s i c near far = .ok s₁ ∧ A.get s j = none ∧
      A.get s₁ i = some { c with segment := near, tipSupport := 0, children := [j] } ∧
      A.get s₁ j = some { c with segment := far, parent := some i } ∧
      (∀ k ∈ c.children, A.get s₁ k = (A.get s k).map ({ · with parent := some j })) ∧
      ∀ x, x ≠ i → x ≠ j → x ∉ c.children → A.get s₁ x = A.get s x := by
  obtain ⟨j, s', hput, hfresh, hj, hother⟩ :=
    A.put_spec s { c with segment := far, parent := some i }
  have hne : ∀ x, (A.get s x).isSome → x ≠ j := by
    rintro x hx rfl
    rw [hfresh] at hx
    cases hx
  have hij : i ≠ j := hne i (by rw [hi]; rfl)
  obtain ⟨s₁, hfold, hin, hout⟩ := reparent_eq (some j) c.children s' fun k hk => by
    rw [hother k (hne k (hkids k hk))]
    exact hkids k hk
  have hi₁ : A.get s₁ i = some c := by
    rw [hout i hself, hother i hij, hi]
  refine ⟨j, A.set s₁ i { c with segment := near, tipSupport := 0, children := [j] }, ?_, hfresh,
    Slots.get_set hi₁, ?_, fun k hk => ?_, fun x hxi hxj hxk => ?_⟩
  · simp only [cut, hput, hfold, bind, Except.bind]
    exact Slots.modify_eq hi₁ rfl
  · rw [A.get_set_of_ne s₁ i _ j hij.symm, hout j fun hk => hne j (hkids j hk) rfl, hj]
  · have hki : k ≠ i := fun hki => hself (hki ▸ hk)
    rw [A.get_set_of_ne s₁ i _ k hki, hin k hk, hother k (hne k (hkids k hk))]
  · rw [A.get_set_of_ne s₁ i _ x hxi, hout x hxk, hother x hxj]

theorem cut_held (h : Held (A.get s) parent i n slots) (hnodup : slots.Nodup) {c : Cell Slot}
    (hc : A.get s i = some c) (near far : Segment) : ∃ s₁ slots₁, cut s i c near far = .ok s₁ ∧
      Held (A.get s₁) parent i ⟨near, 0, n.branchSupport, [{ n with segment := far }]⟩ slots₁ ∧
      A.Grown s slots s₁ slots₁ := by
  obtain ⟨kids, below, rfl, hi, hbelow⟩ := held_iff.mp h
  obtain rfl := Option.some.inj (hc.symm.trans hi)
  obtain ⟨hself, hbelowNodup⟩ := List.nodup_cons.mp hnodup
  obtain ⟨j, s₁, hcut, hfresh, hi₁, hj₁, hin, hout⟩ :=
    cut_eq hi (fun hk => hself (hbelow.kids_subset hk))
      (fun k hk => h.isSome (List.mem_cons_of_mem _ (hbelow.kids_subset hk))) near far
  have hj := h.not_mem_of_free hfresh
  have hframe : ∀ x, x ∉ i :: below → x ≠ j → A.get s₁ x = A.get s x := by
    intro x hx hxj
    rw [List.mem_cons, not_or] at hx
    exact hout x hx.1 hxj fun hk => hx.2 (hbelow.kids_subset hk)
  refine ⟨s₁, i :: j :: below, hcut, ?_, .of_fresh hnodup (fun x hx => h.isSome hx) hfresh hframe
    (List.Perm.swap j i below)⟩
  refine held_iff.mpr ⟨[j], j :: below, rfl, hi₁, ?_⟩
  refine heldAll_cons.mpr ⟨j, [], j :: below, [], rfl, (List.append_nil _).symm, ?_,
    heldAll_nil.mpr ⟨rfl, rfl⟩⟩
  refine held_iff.mpr ⟨kids, below, rfl, hj₁, hbelow.reparent hbelowNodup hin fun x hx hxk => ?_⟩
  refine hout x ?_ ?_ hxk
  · rintro rfl
    exact hself hx
  · rintro rfl
    exact hj (List.mem_cons_of_mem _ hx)

/-! ## Climbing -/

/-- One step upwards changes the votes of one branch. -/
theorem climb_held (change : Nat → Except Fault Nat) (h : Held (A.get s) parent i n slots)
    (hnodup : slots.Nodup) {branch : Nat} (hchange : change n.branchSupport = .ok branch) : ∃ s₁,
    loop (climbStep change) (s, some i) = loop (climbStep change) (s₁, parent) ∧
      Held (A.get s₁) parent i { n with branchSupport := branch } slots ∧
      ∀ x, x ≠ i → A.get s₁ x = A.get s x := by
  obtain ⟨kids, below, hslots, hi, -⟩ := held_iff.mp h
  refine ⟨A.set s i ⟨n.segment, n.tipSupport, branch, kids, parent⟩, loop_next ?_, ?_,
    A.get_set_of_ne s i _⟩
  · rw [climbStep, Slots.read_eq hi]
    simp only [bind, Except.bind, hchange]
  · exact h.set hnodup hi (m := { n with branchSupport := branch }) rfl

/-- A step upwards fails with the change of the votes. -/
theorem climb_fails (change : Nat → Except Fault Nat) (h : Held (A.get s) parent i n slots)
    {fault : Fault} (hchange : change n.branchSupport = .error fault) :
    loop (climbStep change) (s, some i) = throw fault := by
  obtain ⟨kids, hi⟩ := h.get_eq
  rw [loop_eq, climbStep, Slots.read_eq hi]
  simp only [bind, Except.bind, hchange]

/-- The votes for the tip of a node are changed. -/
theorem changeTip_held (change : Nat → Except Fault Nat) (h : Held (A.get s) parent i n slots)
    (hnodup : slots.Nodup) {tip : Nat} (hchange : change n.tipSupport = .ok tip) : ∃ s₁,
    A.modify s i (Cell.changeTip change) = .ok s₁ ∧
      Held (A.get s₁) parent i { n with tipSupport := tip } slots ∧
      ∀ x, x ≠ i → A.get s₁ x = A.get s x := by
  obtain ⟨kids, below, hslots, hi, -⟩ := held_iff.mp h
  refine ⟨A.set s i ⟨n.segment, tip, n.branchSupport, kids, parent⟩, Slots.modify_eq hi ?_, ?_,
    A.get_set_of_ne s i _⟩
  · simp only [Cell.changeTip, bind, Except.bind, hchange]
  · exact h.set hnodup hi (m := { n with tipSupport := tip }) rfl

/-! ## The node at which a history leaves the trie -/

/-- What a new branch does to the slots. -/
theorem attach_eq {c : Cell Slot} (hi : A.get s i = some c) (segment : Segment) : ∃ j s₁,
    attach s i segment = .ok (j, s₁) ∧ A.get s j = none ∧
      A.get s₁ i = some { c with children := c.children ++ [j] } ∧
      A.get s₁ j = some ⟨segment, 0, 0, [], some i⟩ ∧
      ∀ x, x ≠ i → x ≠ j → A.get s₁ x = A.get s x := by
  obtain ⟨j, s', hput, hfresh, hj, hother⟩ := A.put_spec s ⟨segment, 0, 0, [], some i⟩
  have hij : i ≠ j := by
    rintro rfl
    rw [hfresh] at hi
    cases hi
  have hi' : A.get s' i = some c := by rw [hother i hij, hi]
  have hmodify : A.modify s' i (fun c => .ok { c with children := c.children ++ [j] }) =
      .ok (A.set s' i { c with children := c.children ++ [j] }) := Slots.modify_eq hi' rfl
  refine ⟨j, _, ?_, hfresh, Slots.get_set hi', ?_, fun x hxi hxj => ?_⟩
  · simp only [attach, hput, hmodify, bind, Except.bind]
  · rw [A.get_set_of_ne s' i _ j hij.symm, hj]
  · rw [A.get_set_of_ne s' i _ x hxi, hother x hxj]

/-- An empty slot without children takes the first votes. -/
theorem leaf_held {j : Slot} {segment : Segment} (hvotes : votes ≤ maxSupport)
    (hj : A.get s j = some ⟨segment, 0, 0, [], parent⟩) : ∃ s₁ s₂,
    A.modify s j (Cell.changeTip (credit · votes)) = .ok s₁ ∧
      loop (climbStep (credit · votes)) (s₁, some j) =
        loop (climbStep (credit · votes)) (s₂, parent) ∧
      Held (A.get s₂) parent j (leaf segment votes) [j] ∧
      ∀ x, x ≠ j → A.get s₂ x = A.get s x := by
  have hcredit : credit 0 votes = .ok votes := by
    rw [credit, if_pos (by omega), Nat.zero_add]
  have hzero : Held (A.get s) parent j ⟨segment, 0, 0, []⟩ [j] :=
    held_iff.mpr ⟨[], [], rfl, hj, heldAll_nil.mpr ⟨rfl, rfl⟩⟩
  obtain ⟨s₁, hmodify, htip, hframe₁⟩ :=
    changeTip_held (credit · votes) hzero (List.nodup_singleton j) hcredit
  obtain ⟨s₂, hclimb, hleaf, hframe₂⟩ :=
    climb_held (credit · votes) htip (List.nodup_singleton j) hcredit
  refine ⟨s₁, s₂, hmodify, hclimb, hleaf, fun x hx => ?_⟩
  rw [hframe₂ x hx, hframe₁ x hx]

/-- A fresh slot takes the votes of a new branch. -/
theorem attach_held (h : Held (A.get s) parent i n slots) (hnodup : slots.Nodup)
    (hvotes : votes ≤ maxSupport) (segment : Segment) :
    ∃ j s₁ s₂ s₃ slots₁, attach s i segment = .ok (j, s₁) ∧
      A.modify s₁ j (Cell.changeTip (credit · votes)) = .ok s₂ ∧
      loop (climbStep (credit · votes)) (s₂, some j) =
        loop (climbStep (credit · votes)) (s₃, some i) ∧
      Held (A.get s₃) parent i { n with children := n.children ++ [leaf segment votes] } slots₁ ∧
      A.Grown s slots s₃ slots₁ := by
  obtain ⟨kids, below, rfl, hi, hbelow⟩ := held_iff.mp h
  obtain ⟨j, s₁, hattach, hfresh, hi₁, hj₁, hframe₁⟩ := attach_eq hi segment
  obtain ⟨s₂, s₃, hmodify, hclimb, hleaf, hframe₃⟩ := leaf_held hvotes hj₁
  have hj := h.not_mem_of_free hfresh
  have hij : i ≠ j := fun hij => hj (hij ▸ List.mem_cons_self)
  have hframe : ∀ x, x ≠ i → x ≠ j → A.get s₃ x = A.get s x := by
    intro x hxi hxj
    rw [hframe₃ x hxj, hframe₁ x hxi hxj]
  have hnew : Held (A.get s₃) parent i
      { n with children := n.children ++ [leaf segment votes] } (i :: (below ++ [j])) := by
    refine held_iff.mpr ⟨kids ++ [j], below ++ [j], rfl, (hframe₃ i hij).trans hi₁,
      heldAll_append.mpr ⟨kids, [j], below, [j], rfl, rfl, hbelow.congr fun x hx => ?_,
        heldAll_cons.mpr ⟨j, [], [j], [], rfl, rfl, hleaf, heldAll_nil.mpr ⟨rfl, rfl⟩⟩⟩⟩
    refine hframe x ?_ ?_
    · rintro rfl
      exact (List.nodup_cons.mp hnodup).1 hx
    · rintro rfl
      exact hj (List.mem_cons_of_mem _ hx)
  have hgrown : A.Grown s (i :: below) s₃ (i :: (below ++ [j])) := by
    refine .of_fresh hnodup (fun x hx => h.isSome hx) hfresh (fun x hx hxj => ?_)
      (List.perm_append_singleton j (i :: below))
    exact hframe x (fun hxi => hx (hxi ▸ List.mem_cons_self)) hxj
  exact ⟨j, s₁, s₂, s₃, _, hattach, hmodify, hclimb, hnew, hgrown⟩

/-- A count that cannot be changed in a slot leaves no changed store. -/
theorem changeTip_fails (change : Nat → Except Fault Nat) {c : Cell Slot} (hi : A.get s i = some c)
    {fault : Fault} (hchange : change c.tipSupport = .error fault) :
    A.modify s i (Cell.changeTip change) = .error fault := by
  rw [Slots.modify, Slots.read_eq hi]
  simp only [Cell.changeTip, bind, Except.bind, hchange]

/-- The near side of a cut, or the node itself when there is nothing to cut. -/
theorem split_held (h : Held (A.get s) parent i n slots) (hnodup : slots.Nodup) {c : Cell Slot}
    (hc : A.get s i = some c) (place : Nat) : ∃ s₁ slots₁,
    cutAt s i c place = .ok s₁ ∧ Held (A.get s₁) parent i (n.split place) slots₁ ∧
      A.Grown s slots s₁ slots₁ := by
  obtain ⟨kids, below, -, hi, -⟩ := held_iff.mp h
  have hsegment : c.segment = n.segment := by
    rw [Option.some.inj (hc.symm.trans hi)]
  rw [cutAt, hsegment, Node.split]
  cases n.segment.before place with
  | none => exact ⟨s, slots, rfl, h, .refl hnodup fun _ _ => rfl⟩
  | some near =>
    cases n.segment.after place with
    | none => exact ⟨s, slots, rfl, h, .refl hnodup fun _ _ => rfl⟩
    | some far => exact cut_held h hnodup hc near far

/-- The changes at the node at which a history leaves the trie, up to the count of its branch. They
fail only when the votes for one tip leave the range of a count. -/
theorem graft_cases (h : Held (A.get s) parent i n slots) (hnodup : slots.Nodup) (place : Nat) :
    graft s l votes i place = .error .supportOverflow ∧ maxSupport < n.tipSupport + votes ∨
    ∃ m j s₁ s₂ slots₁, graft s l votes i place = .ok (j, s₁) ∧
      loop (climbStep (credit · votes)) (s₁, some j) =
        loop (climbStep (credit · votes)) (s₂, some i) ∧
      Held (A.get s₂) parent i m slots₁ ∧ A.Grown s slots s₂ slots₁ ∧
      m.branchSupport = n.branchSupport ∧
      n.graft l votes place = { m with branchSupport := n.branchSupport + votes } := by
  obtain ⟨kids, below, -, hi, -⟩ := held_iff.mp h
  obtain ⟨s₁, slots₁, hsplit, hheld, hgrown⟩ := split_held h hnodup hi place
  have hread : A.read s i = .ok (n.cell kids parent) := Slots.read_eq hi
  have htip := tipSupport_split_le place n
  have hbranch := branchSupport_split place n
  cases hrest : (Segment.ofLedger l).after place with
  | some rest =>
    by_cases hvotes : votes ≤ maxSupport
    · obtain ⟨j, s₂, s₃, s₄, slots₂, hattach, hmodify, hclimb, hheld₂, hgrown₂⟩ :=
        attach_held hheld hgrown.nodup hvotes rest
      refine Or.inr ⟨_, j, s₃, s₄, slots₂, ?_, hclimb, hheld₂, hgrown.trans hgrown₂, hbranch, ?_⟩
      · simp only [graft, attachRest, hread, hsplit, hrest, hattach, hmodify, bind, Except.bind]
      · simp only [Node.graft, hrest, hbranch]
    · obtain ⟨kids₁, hi₁⟩ := hheld.get_eq
      obtain ⟨j, s₂, hattach, -, -, hj, -⟩ := attach_eq hi₁ rest
      have hfails := changeTip_fails (credit · votes) hj (if_neg (by omega))
      refine Or.inl ⟨?_, by omega⟩
      simp only [graft, attachRest, hread, hsplit, hrest, hattach, hfails, bind, Except.bind]
  | none =>
    by_cases hvotes : (n.split place).tipSupport + votes ≤ maxSupport
    · obtain ⟨s₂, hmodify, hheld₂, hframe⟩ :=
        changeTip_held (credit · votes) hheld hgrown.nodup (if_pos hvotes)
      refine Or.inr ⟨_, i, s₂, s₂, slots₁, ?_, rfl, hheld₂, hgrown.trans (.refl hgrown.nodup ?_),
        hbranch, ?_⟩
      · simp only [graft, attachRest, hread, hsplit, hrest, hmodify, bind, Except.bind]
      · exact fun x hx => hframe x fun hxi => hx (hxi ▸ hheld.mem)
      · simp only [Node.graft, hrest, hbranch]
    · obtain ⟨kids₁, hi₁⟩ := hheld.get_eq
      have hfails := changeTip_fails (credit · votes) hi₁ (if_neg hvotes)
      refine Or.inl ⟨?_, by omega⟩
      simp only [graft, attachRest, hread, hsplit, hrest, hfails, bind, Except.bind]

/-- The changes at the node at which a history leaves the trie. -/
theorem graft_held (h : Held (A.get s) parent i n slots) (hnodup : slots.Nodup)
    (htip : n.tipSupport + votes ≤ maxSupport) (hbranch : n.branchSupport + votes ≤ maxSupport)
    (place : Nat) : ∃ j s₁ s₂ slots₁, graft s l votes i place = .ok (j, s₁) ∧
      loop (climbStep (credit · votes)) (s₁, some j) =
        loop (climbStep (credit · votes)) (s₂, parent) ∧
      Held (A.get s₂) parent i (n.graft l votes place) slots₁ ∧ A.Grown s slots s₂ slots₁ := by
  rcases graft_cases h hnodup place with ⟨-, hfails⟩ | ⟨m, j, s₁, s₂, slots₁, hok, hclimb, hheld,
    hgrown, hm, hgraft⟩
  · exact absurd htip (Nat.not_le_of_lt hfails)
  · have hcredit : credit m.branchSupport votes = .ok (n.branchSupport + votes) := by
      rw [hm]
      exact if_pos hbranch
    obtain ⟨s₃, hclimb₃, hheld₃, hframe₃⟩ :=
      climb_held (credit · votes) hheld hgrown.nodup hcredit
    refine ⟨j, s₁, s₃, slots₁, hok, hclimb.trans hclimb₃, ?_,
      hgrown.trans (.refl hgrown.nodup fun x hx => hframe₃ x fun hxi => hx (hxi ▸ hheld.mem))⟩
    rw [hgraft]
    exact hheld₃

/-- Votes that leave the range of the count of a branch fail there or before. -/
theorem graft_overflow (h : Held (A.get s) parent i n slots) (hnodup : slots.Nodup)
    (hbranch : maxSupport < n.branchSupport + votes) (place : Nat) :
    graft s l votes i place = .error .supportOverflow ∨
      ∃ j s₁, graft s l votes i place = .ok (j, s₁) ∧
        loop (climbStep (credit · votes)) (s₁, some j) = throw .supportOverflow := by
  rcases graft_cases h hnodup place with ⟨hfails, -⟩ | ⟨m, j, s₁, s₂, slots₁, hok, hclimb, hheld, -,
    hm, -⟩
  · exact Or.inl hfails
  · refine Or.inr ⟨j, s₁, hok, hclimb.trans (climb_fails _ hheld ?_)⟩
    rw [hm]
    exact if_neg (by omega)

/-! ## The whole way -/

/-- A branch that has grown stands among the others as it did before. -/
theorem replace_held {k : Slot} {c : Node} {before behind : List Node}
    {kb ke sb sc sc₁ se : List Slot} (hi : A.get s i = some (n.cell (kb ++ k :: ke) parent))
    (hb : HeldAll (A.get s) (some i) kb before sb)
    (he : HeldAll (A.get s) (some i) ke behind se)
    (hnodup : (i :: (sb ++ (sc ++ se))).Nodup)
    (hsome : ∀ x ∈ i :: (sb ++ (sc ++ se)), (A.get s x).isSome)
    (hc : Held (A.get s₁) (some i) k c sc₁) (hgrown : A.Grown s sc s₁ sc₁) :
    Held (A.get s₁) parent i { n with children := before ++ c :: behind }
        (i :: (sb ++ (sc₁ ++ se))) ∧
      A.Grown s (i :: (sb ++ (sc ++ se))) s₁ (i :: (sb ++ (sc₁ ++ se))) := by
  obtain ⟨hself, hrest⟩ := List.nodup_cons.mp hnodup
  obtain ⟨-, hrest', hdisjoint⟩ := List.nodup_append'.mp hrest
  obtain ⟨-, -, hdisjoint'⟩ := List.nodup_append'.mp hrest'
  have hframe : ∀ x ∈ i :: (sb ++ (sc ++ se)), x ∉ sc → A.get s₁ x = A.get s x :=
    fun x hx hxc => hgrown.frame x (hgrown.not_mem hxc (hsome x hx))
  have hall : A.Grown s (i :: sb ++ (sc ++ se)) s₁ (i :: sb ++ (sc₁ ++ se)) :=
    hgrown.among hnodup hsome
  refine ⟨held_iff.mpr ⟨kb ++ k :: ke, _, rfl, ?_, heldAll_split.mpr
    ⟨kb, k, ke, sb, sc₁, se, rfl, rfl, hb.congr fun x hx => ?_, hc, he.congr fun x hx => ?_⟩⟩, hall⟩
  · exact (hframe i List.mem_cons_self fun hic => hself (by simp [hic])).trans hi
  · exact hframe x (by simp [hx]) fun hxc => hdisjoint hx (List.mem_append_left _ hxc)
  · exact hframe x (by simp [hx]) fun hxc => hdisjoint' hxc hx

/-- The search comes to the node at which the history leaves the trie, the votes are added there,
and the way up adds them to every branch on it. -/
theorem insert_held (hn : n.Formed a) (h : Held (A.get s) parent i n slots)
    (hnodup : slots.Nodup) (hbranch : n.branchSupport + votes ≤ maxSupport) :
    ∃ j place k s₁ s₂ slots₁,
      loop (findStep s l) (i, n.segment.agreement l) = pure (j, place) ∧
      graft s l votes j place = .ok (k, s₁) ∧
      loop (climbStep (credit · votes)) (s₁, some k) =
        loop (climbStep (credit · votes)) (s₂, parent) ∧
      Held (A.get s₂) parent i (n.insert l votes) slots₁ ∧ A.Grown s slots s₂ slots₁ := by
  induction n using below_induction generalizing parent i slots with
  | node n ih =>
    have htip := hn.fits.tipSupport_le
    obtain ⟨k, s₁, s₂, slots₁, hok, hclimb, hheld, hgrown⟩ :=
      graft_held h hnodup (l := l) (by omega) hbranch (n.segment.agreement l)
    by_cases hstop : n.segment.agreement l = n.segment.stop
    · cases hfind : n.children.find? fun c => n.segment.stop < c.segment.agreement l with
      | none =>
        have hnone : ∀ c ∈ n.children, ¬ n.segment.stop < c.segment.agreement l := by
          intro c hc
          simpa using List.find?_eq_none.mp hfind c hc
        rw [insert_eq, if_pos hstop, hstop, insertIn_eq_none hnone, ← hstop]
        exact ⟨i, _, k, s₁, s₂, slots₁, h.find_stay fun _ => hnone, hok, hclimb, hheld, hgrown⟩
      | some c =>
        obtain ⟨hc, before, behind, hsplit, hbefore⟩ := List.find?_eq_some_iff_append.mp hfind
        have hc : n.segment.stop < c.segment.agreement l := by simpa using hc
        have hbefore : ∀ d ∈ before, ¬ n.segment.stop < d.segment.agreement l := by
          intro d hd
          simpa using hbefore d hd
        have hcn : c ∈ n.children := by rw [hsplit]; simp
        obtain ⟨kids, below, rfl, hi, hbelow⟩ := held_iff.mp h
        rw [hsplit] at hbelow
        obtain ⟨kb, k, ke, sb, sc, se, rfl, rfl, hb, hheld, he⟩ := heldAll_split.mp hbelow
        have hle := hn.branchSupport_le (mem_nodes_of_child hcn c.self_mem_nodes)
        have hsc : sc.Nodup := by
          have hrest := (List.nodup_append'.mp (List.nodup_cons.mp hnodup).2).2.1
          exact (List.nodup_append'.mp hrest).1
        obtain ⟨j, place, k', s₁, s₂, sc₁, hloop, hok, hclimb, hc₂, hgrown⟩ :=
          ih c hcn (hn.child hcn) hheld hsc (by omega)
        obtain ⟨hnew, hall⟩ :=
          replace_held hi hb he hnodup (fun x hx => h.isSome hx) hc₂ hgrown
        obtain ⟨s₃, hclimb', hheld₃, hframe₃⟩ :=
          climb_held (credit · votes) hnew hall.nodup (if_pos hbranch)
        refine ⟨j, place, k', s₁, s₃, _, ?_, hok, hclimb.trans hclimb', ?_,
          hall.trans (.refl hall.nodup fun x hx => hframe₃ x fun hxi => hx (by simp [hxi]))⟩
        · rw [find_enter hi hstop hb hheld hbefore hc, hloop]
        · rw [insert_eq, if_pos hstop, hstop, hsplit, insertIn_append hbefore hc]
          exact hheld₃
    · rw [insert_eq, if_neg hstop]
      exact ⟨i, _, k, s₁, s₂, slots₁, h.find_stay fun h' => absurd h' hstop, hok, hclimb, hheld,
        hgrown⟩

/-- Votes that leave the range of the count of a branch fail at or below it. -/
theorem insert_overflow (hn : n.Formed a) (h : Held (A.get s) parent i n slots)
    (hnodup : slots.Nodup) (hbranch : maxSupport < n.branchSupport + votes) :
    ∃ j place, loop (findStep s l) (i, n.segment.agreement l) = pure (j, place) ∧
      (graft s l votes j place = .error .supportOverflow ∨
        ∃ k s₁, graft s l votes j place = .ok (k, s₁) ∧
          loop (climbStep (credit · votes)) (s₁, some k) = throw .supportOverflow) := by
  induction n using below_induction generalizing parent i slots with
  | node n ih =>
    have hgraft := graft_overflow h hnodup (l := l) hbranch (n.segment.agreement l)
    by_cases hstop : n.segment.agreement l = n.segment.stop
    · cases hfind : n.children.find? fun c => n.segment.stop < c.segment.agreement l with
      | none =>
        have hnone : ∀ c ∈ n.children, ¬ n.segment.stop < c.segment.agreement l := by
          intro c hc
          simpa using List.find?_eq_none.mp hfind c hc
        exact ⟨i, _, h.find_stay fun _ => hnone, hgraft⟩
      | some c =>
        obtain ⟨hc, before, behind, hsplit, hbefore⟩ := List.find?_eq_some_iff_append.mp hfind
        have hc : n.segment.stop < c.segment.agreement l := by simpa using hc
        have hbefore : ∀ d ∈ before, ¬ n.segment.stop < d.segment.agreement l := by
          intro d hd
          simpa using hbefore d hd
        have hcn : c ∈ n.children := by rw [hsplit]; simp
        obtain ⟨kids, below, rfl, hi, hbelow⟩ := held_iff.mp h
        rw [hsplit] at hbelow
        obtain ⟨kb, k, ke, sb, sc, se, rfl, rfl, hb, hheld, he⟩ := heldAll_split.mp hbelow
        have hsc : sc.Nodup := by
          have hrest := (List.nodup_append'.mp (List.nodup_cons.mp hnodup).2).2.1
          exact (List.nodup_append'.mp hrest).1
        have henter := find_enter hi hstop hb hheld hbefore hc
        by_cases hchild : c.branchSupport + votes ≤ maxSupport
        · obtain ⟨j, place, k', s₁, s₂, sc₁, hloop, hok, hclimb, hc₂, hgrown⟩ :=
            insert_held (hn.child hcn) hheld hsc hchild
          obtain ⟨hnew, -⟩ := replace_held hi hb he hnodup (fun x hx => h.isSome hx) hc₂ hgrown
          refine ⟨j, place, by rw [henter, hloop], Or.inr ⟨k', s₁, hok, ?_⟩⟩
          exact hclimb.trans (climb_fails _ hnew (if_neg (by dsimp only; omega)))
        · obtain ⟨j, place, hloop, hfails⟩ :=
            ih c hcn (hn.child hcn) hheld hsc (by omega)
          exact ⟨j, place, by rw [henter, hloop], hfails⟩
    · exact ⟨i, _, h.find_stay fun h' => absurd h' hstop, hgraft⟩

namespace Shows

variable {t : ArenaTrie A} {T T' : Trie}

/-- Votes that can be cast in the tree can be cast in the arena, and come to the same. -/
theorem insert_eq (h : t.Shows T) (hT : T.Rooted a) (hinsert : T.insert l votes = .ok T') :
    ∃ t', t.insert l votes = pure t' ∧ t'.Shows T' := by
  obtain ⟨⟨slots, hheld, hnodup, hall⟩, hseq⟩ := h
  unfold Trie.insert at hinsert
  rw [insert]
  by_cases hvotes : votes = 0
  · rw [if_pos hvotes] at hinsert ⊢
    cases hinsert
    exact ⟨t, rfl, ⟨slots, hheld, hnodup, hall⟩, hseq⟩
  · rw [if_neg hvotes] at hinsert ⊢
    split at hinsert
    · rename_i hrange
      cases hinsert
      obtain ⟨hbranch, hcredit⟩ := Trie.grow_inRange hrange
      obtain ⟨j, place, k, s₁, s₂, slots₁, hloop, hgraft, hclimb, hheld₁, hgrown⟩ :=
        insert_held hT.formed hheld hnodup hbranch
      obtain ⟨kids, below, -, hread, -⟩ := hheld.read_eq
      have hfind : t.find l = pure (j, place) := by
        rw [find, hread, liftM_ok_bind]
        exact hloop
      have hdone : loop (climbStep (credit · votes)) (s₁, some k) = pure s₂ :=
        hclimb.trans (loop_done rfl)
      refine ⟨⟨t.root, s₂, t.seqSupport.insert l.seq (t.seqSupport.getD l.seq 0 + votes)⟩, ?_,
        ⟨slots₁, hheld₁, hgrown.nodup, fun x hx => ?_⟩, ?_⟩
      · rw [← hseq] at hcredit
        rw [hfind, pure_bind]
        dsimp only
        rw [hgraft, liftM_ok_bind]
        dsimp only
        rw [hdone, pure_bind, hcredit, liftM_ok_bind]
      · by_cases hx₁ : x ∈ slots₁
        · exact hx₁
        · dsimp only at hx
          rw [hgrown.frame x hx₁] at hx
          exact hgrown.kept (hall x hx)
      · rw [hseq]
        rfl
    · cases hinsert

/-- Votes that leave the range of the count of all votes cannot be cast. -/
theorem insert_overflow (h : t.Shows T) (hT : T.Rooted a) (hvotes : votes ≠ 0)
    (hbranch : maxSupport < T.root.branchSupport + votes) :
    t.insert l votes = throw .supportOverflow := by
  obtain ⟨⟨slots, hheld, hnodup, -⟩, -⟩ := h
  obtain ⟨j, place, hloop, hgraft⟩ :=
    ArenaTrie.insert_overflow (l := l) hT.formed hheld hnodup hbranch
  obtain ⟨kids, below, -, hread, -⟩ := hheld.read_eq
  have hfind : t.find l = pure (j, place) := by
    rw [find, hread, liftM_ok_bind]
    exact hloop
  rw [insert, if_neg hvotes, hfind, pure_bind]
  dsimp only
  rcases hgraft with hfails | ⟨k, s₁, hok, hclimb⟩
  · rw [hfails]
    rfl
  · rw [hok, liftM_ok_bind]
    dsimp only
    rw [hclimb]
    rfl

end Shows

end ArenaTrie

end ForkChoice

import ForkChoice.Proofs.Trie.Arena.Search

/-!
# The audit of an arena

The audit goes from slot to slot with a stack and counts the votes for each sequence number in a
table of its own. On a trie that holds votes it finds nothing amiss.

* `ArenaTrie.check_step`: one slot.
* `ArenaTrie.check_held`: a slot and all that is below it.
* `ArenaTrie.Shows.check_eq`: the whole trie.
-/

namespace ForkChoice

open Node

variable {Slot : Type} [DecidableEq Slot] {A : Slots Slot (Cell Slot)} {t : ArenaTrie A}
  {a : Archive} {parent : Option Slot} {i : Slot} {n : Node} {kids slots : List Slot}
  {children : List Node} {table : Std.ExtTreeMap Nat Nat} {W : Multiset (List Nat)}

namespace ArenaTrie

theorem supportBelow_eq {s : A.Store} (h : HeldAll (A.get s) (some i) kids children slots) :
    supportBelow s i kids = some (totalSupport children) := by
  induction children generalizing kids slots with
  | nil =>
    obtain ⟨rfl, -⟩ := heldAll_nil.mp h
    rfl
  | cons child rest ih =>
    obtain ⟨k, others, first, behind, rfl, rfl, hchild, hrest⟩ := heldAll_cons.mp h
    obtain ⟨below, hk⟩ := hchild.get_eq
    rw [supportBelow, hk, ih hrest, totalSupport_cons]
    simp [guard]

theorem note_eq (h : Tallies List.length table W) (q : List Nat) {votes : Nat}
    (hcard : W.card + votes ≤ maxSupport) : ∃ table₁,
    note table q.length votes = .ok table₁ ∧
      Tallies List.length table₁ (W + Multiset.replicate votes q) := by
  unfold note
  by_cases hvotes : votes = 0
  · subst hvotes
    exact ⟨table, if_pos rfl, by simpa using h⟩
  · have hle := Multiset.countP_le_card (·.length = q.length) W
    have hcredit : credit (table.getD q.length 0) votes =
        .ok (table.getD q.length 0 + votes) := by
      rw [credit, h.getD_eq, if_pos (by omega)]
    rw [if_neg hvotes, hcredit]
    exact ⟨_, rfl, h.add hvotes q⟩

/-- A slot that is in order is passed over, and its votes are noted. -/
theorem check_step (h : Held (A.get t.store) parent i n slots) (hn : n.Fits a)
    (hneeded : i = t.root ∨ n.Needed) (htable : Tallies List.length table W)
    (hcard : W.card + n.tipSupport ≤ maxSupport) (stack : List Slot) :
    ∃ kids below table₁, HeldAll (A.get t.store) (some i) kids n.children below ∧
      loop (checkStep t) (i :: stack, table) = loop (checkStep t) (kids.reverse ++ stack, table₁) ∧
      Tallies List.length table₁ (W + Multiset.replicate n.tipSupport n.path) := by
  obtain ⟨kids, below, -, hi, hbelow⟩ := held_iff.mp h
  obtain ⟨table₁, hnote, htable₁⟩ := note_eq htable n.path hcard
  have hkept : ¬ (i ≠ t.root ∧ n.tipSupport = 0 ∧ kids.length < 2) := by
    rintro ⟨hroot, htip, hlength⟩
    have := hneeded.resolve_left hroot htip
    rw [hbelow.length_eq] at hlength
    omega
  have hcounted : ¬ n.tipSupport + totalSupport n.children ≠ n.branchSupport :=
    not_not.mpr hn.counted.symm
  refine ⟨kids, below, table₁, hbelow, loop_next ?_, htable₁⟩
  rw [path, Segment.length_path] at hnote
  rw [checkStep, hi]
  dsimp only
  rw [if_neg hkept, hnote]
  simp only [bind, Except.bind, supportBelow_eq hbelow]
  exact if_neg hcounted

theorem check_all (h : HeldAll (A.get t.store) parent kids children slots)
    (hcheck : ∀ c ∈ children, ∀ i slots stack table W, Held (A.get t.store) parent i c slots →
      Tallies List.length table W → (W + c.votes).card ≤ maxSupport → ∃ table₁,
        loop (checkStep t) (i :: stack, table) = loop (checkStep t) (stack, table₁) ∧
          Tallies List.length table₁ (W + c.votes))
    (htable : Tallies List.length table W) (hcard : (W + votesAll children).card ≤ maxSupport)
    (stack : List Slot) : ∃ table₁,
      loop (checkStep t) (kids.reverse ++ stack, table) = loop (checkStep t) (stack, table₁) ∧
        Tallies List.length table₁ (W + votesAll children) := by
  induction children generalizing kids slots stack table W with
  | nil =>
    obtain ⟨rfl, -⟩ := heldAll_nil.mp h
    exact ⟨table, rfl, by simpa [votesAll] using htable⟩
  | cons child rest ih =>
    obtain ⟨k, others, first, behind, rfl, rfl, hchild, hrest⟩ := heldAll_cons.mp h
    rw [votesAll, add_comm child.votes, ← add_assoc] at hcard ⊢
    have hcard₁ := (Multiset.card_le_card (Multiset.le_add_right _ child.votes)).trans hcard
    obtain ⟨table₁, hloop₁, htable₁⟩ :=
      ih hrest (fun c hc => hcheck c (List.mem_cons_of_mem _ hc)) htable hcard₁ (k :: stack)
    obtain ⟨table₂, hloop₂, htable₂⟩ :=
      hcheck child List.mem_cons_self k first stack table₁ _ hchild htable₁ hcard
    refine ⟨table₂, ?_, htable₂⟩
    rw [List.reverse_cons, List.append_assoc]
    exact hloop₁.trans hloop₂

/-- All votes at or below a slot are noted. -/
theorem check_held (h : Held (A.get t.store) parent i n slots) (hn : n.Formed a)
    (hneeded : i = t.root ∨ n.Needed) (htable : Tallies List.length table W)
    (hcard : (W + n.votes).card ≤ maxSupport) (stack : List Slot) : ∃ table₁,
      loop (checkStep t) (i :: stack, table) = loop (checkStep t) (stack, table₁) ∧
        Tallies List.length table₁ (W + n.votes) := by
  induction n using below_induction generalizing parent i slots stack table W with
  | node n ih =>
    rw [votes_eq, ← add_assoc] at hcard ⊢
    have hcard₁ := (Multiset.card_le_card (Multiset.le_add_right _ (votesAll n.children))).trans hcard
    rw [Multiset.card_add, Multiset.card_replicate] at hcard₁
    obtain ⟨kids, below, table₁, hbelow, hloop₁, htable₁⟩ :=
      check_step h hn.fits hneeded htable hcard₁ stack
    obtain ⟨table₂, hloop₂, htable₂⟩ := check_all hbelow
      (fun c hc i slots stack table W hheld htable hcard =>
        ih c hc hheld (hn.child hc) (Or.inr (hn.fits.continues c hc).needed) htable hcard stack)
      htable₁ hcard stack
    exact ⟨table₂, hloop₁.trans hloop₂, htable₂⟩

/-- The audit finds nothing amiss. -/
theorem Shows.check_eq {T : Trie} {V : Multiset Ledger} (h : t.Shows T) (hT : T.Counts a V)
    (hcard : V.card ≤ maxSupport) : t.check = pure true := by
  obtain ⟨slots, hheld, -⟩ := h.held
  have hempty : Tallies List.length ∅ (0 : Multiset (List Nat)) := fun s => by simp [entryOf]
  have hvotes : (0 + T.root.votes).card ≤ maxSupport := by
    rwa [zero_add, hT.votes, Multiset.card_map]
  obtain ⟨table, hloop, htable⟩ :=
    check_held hheld hT.formed (Or.inl rfl) hempty hvotes []
  have hseq : table = t.seqSupport := by
    apply Std.ExtTreeMap.ext_getElem?
    intro s
    rw [htable, zero_add, hT.votes, h.seqSupport, hT.bySeq, Multiset.countP_map,
      ← Multiset.countP_eq_card_filter]
    rfl
  rw [check, hloop]
  refine loop_done ?_
  rw [checkStep, hseq, beq_self_eq_true]

end ArenaTrie

end ForkChoice

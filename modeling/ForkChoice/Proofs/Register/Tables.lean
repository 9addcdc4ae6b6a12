import ForkChoice.Proofs.Ends
import ForkChoice.Register.Request
import Mathlib.Data.Finset.Card
import Mathlib.Data.Multiset.Count

/-!
# The tables of the register

The register has at most one vote of each node, so its votes are a multiset with as many members as
there are voters. A node waits for a ledger when it is in the set of that ledger.

* `byRank_filter`: a part of a table comes up in the same order as in the whole.
* `mem_byRank`: an order of the entries of a table leaves none out and makes none up.
* `toList_insert_perm`, `toList_perm_of_getElem?`: the entry of one node apart from the others.
* `ballots`, `votersIn`: the ledgers voted for, and the nodes whose vote is of some kind.
* `countP_ballots`: the votes of some kind are as many as their voters.
* `Register.Waits`, `Register.Silent`: what a node has in the register besides its validations.
-/

namespace ForkChoice

/-! ## The order of entries -/

section Order

variable {α : Type} {rank : α → Nat} {xs : List α} {x : α}

theorem byRank_perm (rank : α → Nat) (xs : List α) : (byRank rank xs).Perm xs :=
  List.mergeSort_perm _ _

theorem mem_byRank : x ∈ byRank rank xs ↔ x ∈ xs := (byRank_perm rank xs).mem_iff

theorem nodup_byRank (h : xs.Nodup) : (byRank rank xs).Nodup :=
  (byRank_perm rank xs).nodup_iff.mpr h

theorem byRank_rises (rank : α → Nat) (xs : List α) :
    (byRank rank xs).Pairwise fun x y => rank x ≤ rank y :=
  (List.pairwise_mergeSort (fun _ _ _ h h' => by simp only [decide_eq_true_eq] at h h' ⊢; omega)
    (fun _ _ => by simp only [Bool.or_eq_true, decide_eq_true_eq]; omega) xs).imp of_decide_eq_true

/-- What has the same rank stays in order. -/
theorem byRank_level (rank : α → Nat) (xs : List α) (k : Nat) :
    (byRank rank xs).filter (rank · == k) = xs.filter (rank · == k) := by
  have hlevel : (xs.filter (rank · == k)).Pairwise fun x y => rank x ≤ rank y := by
    refine List.pairwise_of_forall_mem_list fun x hx y hy => ?_
    rw [beq_iff_eq.mp (List.mem_filter.mp hx).2, beq_iff_eq.mp (List.mem_filter.mp hy).2]
  have hsublist : (xs.filter (rank · == k)).Sublist (byRank rank xs) :=
    List.sublist_mergeSort (fun _ _ _ h h' => by simp only [decide_eq_true_eq] at h h' ⊢; omega)
      (fun _ _ => by simp only [Bool.or_eq_true, decide_eq_true_eq]; omega)
      (hlevel.imp decide_eq_true) List.filter_sublist
  refine (List.Sublist.eq_of_length ?_ ((byRank_perm rank xs).filter _).length_eq.symm).symm
  have := hsublist.filter (rank · == k)
  rwa [List.filter_filter, show (fun x => (rank x == k) && (rank x == k)) = (rank · == k) from
    funext fun x => Bool.and_self _] at this

/-- Lists by rank are the same if they are level by level. -/
theorem eq_of_levels {ys : List α} (hxs : xs.Pairwise fun x y => rank x ≤ rank y)
    (hys : ys.Pairwise fun x y => rank x ≤ rank y)
    (h : ∀ k, xs.filter (rank · == k) = ys.filter (rank · == k)) : xs = ys := by
  induction xs generalizing ys with
  | nil =>
    refine (List.eq_nil_iff_forall_not_mem.mpr fun y hy => ?_).symm
    have hmem : y ∈ ys.filter (rank · == rank y) := List.mem_filter.mpr ⟨hy, beq_self_eq_true _⟩
    rw [← h] at hmem
    cases hmem
  | cons x xs ih =>
    obtain ⟨hx, hxs⟩ := List.pairwise_cons.mp hxs
    have hfirst (z : α) (zs : List α) : z ∈ (z :: zs).filter (rank · == rank z) :=
      List.mem_filter.mpr ⟨List.mem_cons_self, beq_self_eq_true _⟩
    cases ys with
    | nil =>
      have hmem := hfirst x xs
      rw [h] at hmem
      cases hmem
    | cons y ys =>
      obtain ⟨hy, hrest⟩ := List.pairwise_cons.mp hys
      -- each of the first elements is in the other list, so neither has the smaller rank
      have hle : rank x = rank y := by
        have hxy : x ∈ y :: ys := (List.mem_filter.mp (h (rank x) ▸ hfirst x xs)).1
        have hyx : y ∈ x :: xs := (List.mem_filter.mp ((h (rank y)).symm ▸ hfirst y ys)).1
        refine Nat.le_antisymm ?_ ?_
        · rcases List.mem_cons.mp hyx with rfl | hmem
          · exact Nat.le_refl _
          · exact hx y hmem
        · rcases List.mem_cons.mp hxy with rfl | hmem
          · exact Nat.le_refl _
          · exact hy x hmem
      have hsame : x = y := by
        have := h (rank x)
        rw [List.filter_cons, if_pos (beq_self_eq_true _), List.filter_cons,
          if_pos (beq_iff_eq.mpr hle.symm)] at this
        exact (List.cons.inj this).1
      subst hsame
      refine congrArg _ (ih hxs hrest fun k => ?_)
      have := h k
      rw [List.filter_cons, List.filter_cons] at this
      split at this
      · exact (List.cons.inj this).2
      · exact this

theorem byRank_of_length_le_one (rank : α → Nat) (h : xs.length ≤ 1) : byRank rank xs = xs := by
  match xs with
  | [] => exact List.perm_nil.mp (byRank_perm rank [])
  | [x] => exact List.perm_singleton.mp (byRank_perm rank [x])
  | _ :: _ :: _ => exact absurd h (by simp)

/-- A part of a table comes up in the same order as in the whole. -/
theorem byRank_filter (rank : α → Nat) (p : α → Bool) (xs : List α) :
    byRank rank (xs.filter p) = (byRank rank xs).filter p := by
  refine eq_of_levels (byRank_rises rank _) ((byRank_rises rank xs).filter p) fun k => ?_
  rw [byRank_level, List.filter_comm, List.filter_comm (p := (rank · == k)), byRank_level]

end Order

/-! ## Entries of a table -/

section Entries

variable {β : Type} {table : Std.ExtTreeMap Nat β} {node n : Nat} {x : β}

theorem nodup_entries (table : Std.ExtTreeMap Nat β) :
    (table.toList.map (·.1)).Nodup := by
  rw [Std.ExtTreeMap.map_fst_toList_eq_keys]
  exact Std.ExtTreeMap.nodup_keys

theorem values_eq (table : Std.ExtTreeMap Nat β) :
    table.values = table.toList.map (·.2) := by
  obtain ⟨⟨t⟩⟩ := table
  induction t using Quotient.inductionOn with
  | h t =>
    show t.inner.values = (Std.DTreeMap.Internal.Impl.Const.toList t.inner).map (·.2)
    rw [Std.DTreeMap.Internal.Impl.values_eq_map_snd,
      Std.DTreeMap.Internal.Impl.Const.toList_eq_toListModel_map, List.map_map]
    rfl

theorem toList_insert_perm (table : Std.ExtTreeMap Nat β) (node : Nat) (x : β) :
    (table.insert node x).toList.Perm ((node, x) :: (table.erase node).toList) := by
  refine (List.perm_ext_iff_of_nodup (nodup_entries _).of_map (List.nodup_cons.mpr
    ⟨?_, (nodup_entries _).of_map⟩)).mpr fun ⟨n, y⟩ => ?_
  · rw [Std.ExtTreeMap.mem_toList_iff_getElem?_eq_some]
    simp
  · rw [List.mem_cons, Std.ExtTreeMap.mem_toList_iff_getElem?_eq_some,
      Std.ExtTreeMap.mem_toList_iff_getElem?_eq_some]
    simp only [Std.ExtTreeMap.getElem?_insert, Std.ExtTreeMap.getElem?_erase, Nat.compare_eq_eq]
    by_cases hn : node = n
    · subst hn
      simp [eq_comm]
    · simp [hn, Ne.symm hn]

theorem insert_of_getElem? (h : table[node]? = some x) : table.insert node x = table := by
  refine Std.ExtTreeMap.ext_getElem? fun n => ?_
  by_cases hn : node = n
  · rw [← hn, Std.ExtTreeMap.getElem?_insert_self, h]
  · rw [Std.ExtTreeMap.getElem?_insert, if_neg (Nat.compare_eq_eq.not.mpr hn)]

theorem toList_perm_of_getElem? (h : table[node]? = some x) :
    table.toList.Perm ((node, x) :: (table.erase node).toList) := by
  have hperm := toList_insert_perm table node x
  rwa [insert_of_getElem? h] at hperm

theorem erase_of_getElem? (h : table[node]? = none) : table.erase node = table := by
  refine Std.ExtTreeMap.ext_getElem? fun n => ?_
  by_cases hn : node = n
  · rw [← hn, Std.ExtTreeMap.getElem?_erase_self, h]
  · rw [Std.ExtTreeMap.getElem?_erase, if_neg (Nat.compare_eq_eq.not.mpr hn)]

theorem insert_insert_comm (table : Std.ExtTreeMap Nat β) (hne : node ≠ n) (x y : β) :
    (table.insert node x).insert n y = (table.insert n y).insert node x := by
  refine Std.ExtTreeMap.ext_getElem? fun k => ?_
  simp only [Std.ExtTreeMap.getElem?_insert, Nat.compare_eq_eq]
  by_cases hk : n = k
  · rw [if_pos hk, if_neg fun h => hne (h.trans hk.symm), if_pos hk]
  · rw [if_neg hk, if_neg hk]

theorem getElem?_of_erase (h : (table.erase node)[n]? = some x) : table[n]? = some x := by
  rw [Std.ExtTreeMap.getElem?_erase] at h
  split at h
  · cases h
  · exact h

end Entries

/-! ## Votes -/

/-- The last ledger at hand that each node voted for. -/
abbrev Votes := Std.ExtTreeMap Nat Ledger

/-- The ledgers voted for, each as often as there are nodes that vote for it. -/
def ballots (votes : Votes) : Multiset Ledger := votes.toList.map (·.2)

/-- The nodes whose vote is of some kind. -/
def votersIn (votes : Votes) (P : Ledger → Bool) : Finset Nat :=
  ((votes.toList.filter fun entry => P entry.2).map (·.1)).toFinset

section Votes

variable {votes : Votes} {node n : Nat} {l m : Ledger} {P : Ledger → Bool}

theorem mem_votersIn : node ∈ votersIn votes P ↔ ∃ l, votes[node]? = some l ∧ P l = true := by
  rw [votersIn, List.mem_toFinset, List.mem_map]
  constructor
  · rintro ⟨⟨n, l⟩, hentry, rfl⟩
    obtain ⟨hmem, hP⟩ := List.mem_filter.mp hentry
    exact ⟨l, Std.ExtTreeMap.mem_toList_iff_getElem?_eq_some.mp hmem, hP⟩
  · rintro ⟨l, hl, hP⟩
    exact ⟨(node, l), List.mem_filter.mpr
      ⟨Std.ExtTreeMap.mem_toList_iff_getElem?_eq_some.mpr hl, hP⟩, rfl⟩

theorem mem_ballots : l ∈ ballots votes ↔ ∃ node : Nat, votes[node]? = some l := by
  rw [ballots, Multiset.mem_coe, List.mem_map]
  constructor
  · rintro ⟨⟨n, m⟩, hentry, rfl⟩
    exact ⟨n, Std.ExtTreeMap.mem_toList_iff_getElem?_eq_some.mp hentry⟩
  · rintro ⟨n, hn⟩
    exact ⟨(n, l), Std.ExtTreeMap.mem_toList_iff_getElem?_eq_some.mpr hn, rfl⟩

/-- No node is counted twice. -/
theorem countP_ballots (votes : Votes) (P : Ledger → Bool) :
    (ballots votes).countP (fun l => P l = true) = (votersIn votes P).card := by
  have hnodup : ((votes.toList.filter fun entry => P entry.2).map (·.1)).Nodup :=
    (nodup_entries votes).sublist (List.filter_sublist.map _)
  rw [votersIn, List.toFinset_card_of_nodup hnodup, List.length_map, ballots, Multiset.coe_countP,
    List.countP_map, List.countP_eq_length_filter]
  congr 1
  refine List.filter_congr fun entry _ => ?_
  simp

theorem count_ballots (votes : Votes) (l : Ledger) :
    (ballots votes).count l = (votersIn votes (· == l)).card := by
  rw [← countP_ballots, Multiset.count]
  refine Multiset.countP_congr rfl fun m _ => propext ?_
  rw [beq_iff_eq, eq_comm]

theorem card_ballots (votes : Votes) :
    (ballots votes).card = (votersIn votes fun _ => true).card := by
  rw [← countP_ballots, Multiset.countP_eq_card.mpr fun _ _ => rfl]

theorem ballots_empty : ballots ∅ = 0 := by
  refine Multiset.eq_zero_of_forall_notMem fun l hl => ?_
  obtain ⟨node, hnode⟩ := mem_ballots.mp hl
  simp at hnode

theorem ballots_insert (votes : Votes) (node : Nat) (l : Ledger) :
    ballots (votes.insert node l) = l ::ₘ ballots (votes.erase node) :=
  Quot.sound ((toList_insert_perm votes node l).map _)

theorem ballots_insert_eq_add (votes : Votes) (node : Nat) (l : Ledger) :
    ballots (votes.insert node l) = ballots (votes.erase node) + Multiset.replicate 1 l := by
  rw [ballots_insert, Multiset.replicate_one, ← Multiset.singleton_add, Multiset.add_comm]

theorem ballots_of_getElem? (h : votes[node]? = some l) :
    ballots votes = l ::ₘ ballots (votes.erase node) :=
  Quot.sound ((toList_perm_of_getElem? h).map _)

theorem mem_ballots_of_erase (h : l ∈ ballots (votes.erase node)) : l ∈ ballots votes := by
  obtain ⟨n, hn⟩ := mem_ballots.mp h
  exact mem_ballots.mpr ⟨n, getElem?_of_erase hn⟩

end Votes

namespace Register

variable {T : Type} {r : Register T} {node n : Nat} {mark m : Mark}

/-- A node waits for a ledger. -/
def Waits (r : Register T) (node : Nat) (mark : Mark) : Prop :=
  ∃ nodes, r.awaited[mark]? = some nodes ∧ node ∈ nodes

/-- A node neither votes nor waits to vote. -/
structure Silent (r : Register T) (node : Nat) : Prop where
  votes : r.votes[node]? = none
  waits : ∀ mark, ¬ r.Waits node mark

/-- The nodes whose vote is of some kind. -/
def voters (r : Register T) (P : Ledger → Bool) : Finset Nat := votersIn r.votes P

theorem Silent.not_mem_voters (h : r.Silent node) (P : Ledger → Bool) : node ∉ r.voters P := by
  intro hmem
  obtain ⟨l, hl, -⟩ := mem_votersIn.mp hmem
  rw [h.votes] at hl
  cases hl

theorem ballots_eq_zero (h : ∀ n, r.Silent n) : ballots r.votes = 0 := by
  refine Multiset.eq_zero_of_forall_notMem fun l hl => ?_
  obtain ⟨n, hn⟩ := mem_ballots.mp hl
  rw [(h n).votes] at hn
  cases hn

theorem waits_stopWaiting :
    (r.stopWaiting mark node).Waits n m ↔ r.Waits n m ∧ ¬ (n = node ∧ m = mark) := by
  by_cases hm : mark = m
  · subst hm
    simp only [Waits, stopWaiting, Std.ExtTreeMap.getElem?_alter_self]
    cases r.awaited[mark]? with
    | none => simp
    | some nodes =>
      have herase : n ∈ nodes.erase node ↔ n ∈ nodes ∧ n ≠ node := by
        rw [Std.ExtTreeSet.mem_erase, ne_eq, Nat.compare_eq_eq, and_comm, eq_comm]
      by_cases hempty : (nodes.erase node).isEmpty = true
      · have hnone := Std.ExtTreeSet.eq_empty_iff_forall_not_mem.mp
          (Std.ExtTreeSet.isEmpty_iff.mp hempty) n
        rw [herase] at hnone
        simpa [hempty] using hnone
      · simpa [hempty] using herase
  · have hsame : (r.stopWaiting mark node).awaited[m]? = r.awaited[m]? := by
      rw [stopWaiting, Std.ExtTreeMap.getElem?_alter, if_neg (Std.compare_eq_iff_eq.not.mpr hm)]
    rw [Waits, hsame, ← Waits]
    exact ⟨fun h => ⟨h, fun h' => hm h'.2.symm⟩, And.left⟩

theorem waits_startWaiting :
    (r.startWaiting mark node).Waits n m ↔ r.Waits n m ∨ n = node ∧ m = mark := by
  by_cases hm : mark = m
  · subst hm
    simp only [Waits, startWaiting, Std.ExtTreeMap.getElem?_alter_self]
    have hinsert (nodes : NodeSet) : n ∈ nodes.insert node ↔ n ∈ nodes ∨ n = node := by
      rw [Std.ExtTreeSet.mem_insert, Nat.compare_eq_eq, or_comm, eq_comm]
    cases r.awaited[mark]? with
    | none => simp [hinsert]
    | some nodes => simp [hinsert]
  · have hsame : (r.startWaiting mark node).awaited[m]? = r.awaited[m]? := by
      rw [startWaiting, Std.ExtTreeMap.getElem?_alter, if_neg (Std.compare_eq_iff_eq.not.mpr hm)]
    rw [Waits, hsame, ← Waits]
    exact ⟨Or.inl, fun h => h.resolve_right fun h' => hm h'.2.symm⟩

theorem Waits.mem_awaited (h : r.Waits node mark) : mark ∈ r.awaited := by
  obtain ⟨nodes, hnodes, -⟩ := h
  rw [Std.ExtTreeMap.mem_iff_isSome_getElem?, hnodes]
  rfl

theorem not_waits_of_isEmpty (h : r.awaited.isEmpty = true) : ¬ r.Waits node mark := by
  intro hm
  have hempty : r.awaited = ∅ := Std.ExtTreeMap.isEmpty_iff.mp h
  exact absurd (hempty ▸ hm.mem_awaited) Std.ExtTreeMap.not_mem_empty

/-- No ledger is awaited by nobody. -/
def Awaited (r : Register T) : Prop := ∀ mark ∈ r.awaited, ∃ node, r.Waits node mark

theorem Awaited.stopWaiting (h : r.Awaited) (mark : Mark) (node : Nat) :
    (r.stopWaiting mark node).Awaited := by
  intro m hm
  by_cases hmark : mark = m
  · subst hmark
    simp only [Register.stopWaiting, Std.ExtTreeMap.mem_alter_self] at hm
    cases hnodes : r.awaited[mark]? with
    | none => simp [hnodes] at hm
    | some nodes =>
      have hne : ¬ (nodes.erase node).isEmpty = true := by
        intro hempty
        simp [hnodes, hempty] at hm
      rw [Std.ExtTreeSet.isEmpty_iff, Std.ExtTreeSet.eq_empty_iff_forall_not_mem] at hne
      push Not at hne
      obtain ⟨n, hn⟩ := hne
      obtain ⟨hnode, hn⟩ := Std.ExtTreeSet.mem_erase.mp hn
      refine ⟨n, waits_stopWaiting.mpr ⟨⟨nodes, hnodes, hn⟩, fun h' => hnode ?_⟩⟩
      exact Nat.compare_eq_eq.mpr h'.1.symm
  · rw [Register.stopWaiting, Std.ExtTreeMap.mem_alter_of_not_compare_eq
      (Std.compare_eq_iff_eq.not.mpr hmark)] at hm
    obtain ⟨n, hn⟩ := h m hm
    exact ⟨n, waits_stopWaiting.mpr ⟨hn, fun h' => hmark h'.2.symm⟩⟩

theorem Awaited.startWaiting (h : r.Awaited) (mark : Mark) (node : Nat) :
    (r.startWaiting mark node).Awaited := by
  intro m hm
  by_cases hmark : mark = m
  · exact ⟨node, waits_startWaiting.mpr (Or.inr ⟨rfl, hmark.symm⟩)⟩
  · rw [Register.startWaiting, Std.ExtTreeMap.mem_alter_of_not_compare_eq
      (Std.compare_eq_iff_eq.not.mpr hmark)] at hm
    obtain ⟨n, hn⟩ := h m hm
    exact ⟨n, waits_startWaiting.mpr (Or.inl hn)⟩

/-- The nodes that wait for each ledger are known when no ledger is awaited by nobody. -/
theorem awaited_ext {s : Register T} (hr : r.Awaited) (hs : s.Awaited)
    (h : ∀ n m, s.Waits n m ↔ r.Waits n m) : s.awaited = r.awaited := by
  have hnone {r s : Register T} {mark : Mark} (hr : r.Awaited) (h : ∀ n m, r.Waits n m → s.Waits n m)
      (hmark : s.awaited[mark]? = none) : r.awaited[mark]? = none := by
    refine Option.eq_none_iff_forall_ne_some.mpr fun nodes hnodes => ?_
    obtain ⟨n, hn⟩ := hr mark (by rw [Std.ExtTreeMap.mem_iff_isSome_getElem?, hnodes]; rfl)
    obtain ⟨nodes', hnodes', -⟩ := h n mark hn
    rw [hmark] at hnodes'
    cases hnodes'
  refine Std.ExtTreeMap.ext_getElem? fun mark => ?_
  cases hnodes : r.awaited[mark]? with
  | none => exact hnone hs (fun n m => (h n m).mp) hnodes
  | some nodes =>
    cases hnodes' : s.awaited[mark]? with
    | none =>
      have := hnone hr (fun n m => (h n m).mpr) hnodes'
      rw [hnodes] at this
      cases this
    | some nodes' =>
      have hmem (n : Nat) : n ∈ nodes' ↔ n ∈ nodes := by
        have := h n mark
        simpa [Waits, hnodes, hnodes'] using this
      rw [Std.ExtTreeSet.ext_mem hmem]

/-- A register in which a ledger is no longer awaited. -/
def withoutMark (r : Register T) (mark : Mark) : Register T :=
  { r with awaited := r.awaited.erase mark }

theorem waits_withoutMark : (r.withoutMark mark).Waits n m ↔ r.Waits n m ∧ m ≠ mark := by
  by_cases hm : mark = m
  · simp [Waits, withoutMark, hm]
  · simp [Waits, withoutMark, Ne.symm hm, Std.ExtTreeMap.getElem?_erase, hm]

theorem Awaited.withoutMark (h : r.Awaited) (mark : Mark) : (r.withoutMark mark).Awaited := by
  intro m hm
  obtain ⟨hne, hm⟩ := Std.ExtTreeMap.mem_erase.mp hm
  obtain ⟨n, hn⟩ := h m hm
  exact ⟨n, waits_withoutMark.mpr ⟨hn, fun hmark => hne (Std.compare_eq_iff_eq.mpr hmark.symm)⟩⟩

/-- A node that does not wait for a ledger is not taken out of those that do. -/
theorem stopWaiting_eq (h : r.Awaited) (hnode : ¬ r.Waits node mark) :
    r.stopWaiting mark node = r := by
  have hsame : (r.stopWaiting mark node).awaited = r.awaited := by
    refine Std.ExtTreeMap.ext_getElem? fun m => ?_
    rw [Register.stopWaiting, Std.ExtTreeMap.getElem?_alter]
    split
    · rename_i hm
      obtain rfl := Std.compare_eq_iff_eq.mp hm
      cases hnodes : r.awaited[mark]? with
      | none => rfl
      | some nodes =>
        have hmem : node ∉ nodes := fun hmem => hnode ⟨nodes, hnodes, hmem⟩
        have herase : nodes.erase node = nodes :=
          Std.ExtTreeSet.ext_mem fun n => by
            rw [Std.ExtTreeSet.mem_erase]
            refine ⟨And.right, fun hn => ⟨fun heq => hmem ?_, hn⟩⟩
            rwa [Nat.compare_eq_eq.mp heq]
        obtain ⟨n, nodes', hnodes', hn⟩ :=
          h mark (by rw [Std.ExtTreeMap.mem_iff_isSome_getElem?, hnodes]; rfl)
        obtain rfl := Option.some.inj (hnodes.symm.trans hnodes')
        have hempty : nodes.isEmpty = false := by
          rw [Bool.eq_false_iff, ne_eq, Std.ExtTreeSet.isEmpty_iff,
            Std.ExtTreeSet.eq_empty_iff_forall_not_mem]
          exact fun hall => hall n hn
        simp [herase, hempty]
    · rfl
  show { r with awaited := (r.stopWaiting mark node).awaited } = r
  rw [hsame]

end Register

end ForkChoice

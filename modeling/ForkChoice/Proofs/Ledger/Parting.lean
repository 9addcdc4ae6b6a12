import ForkChoice.Ledger.Parting
import ForkChoice.Proofs.Ledger.Divergence

/-!
# The first difference of two histories

* `Ledger.parting_eq`: the search comes to an end, asks only for ancestors that there are, and finds
  the divergence. This holds of any two ledgers.
* `Ledger.divergence_ultrametric`, `Ledger.descendsFrom_iff_divergence`: for ledgers of one archive,
  the divergence measures how close two histories are.
* `Ledger.parting_first_difference`: what is found is the first difference.
-/

namespace ForkChoice

/-! ## Shared beginnings of three lists -/

theorem length_shared (xs ys : List Nat) : (shared xs ys).length = commonLength xs ys := by
  rw [shared, List.length_take]
  exact Nat.min_eq_left (commonLength_le_left xs ys)

theorem min_commonLength_le (xs ys zs : List Nat) :
    min (commonLength xs ys) (commonLength ys zs) ≤ commonLength xs zs := by
  obtain ⟨hx, -, hxy⟩ := le_commonLength_iff.mp (Nat.min_le_left (commonLength xs ys) _)
  obtain ⟨-, hz, hyz⟩ := le_commonLength_iff.mp (Nat.min_le_right _ (commonLength ys zs))
  exact le_commonLength_iff.mpr ⟨hx, hz, hxy.trans hyz⟩

namespace Ledger

variable {x y : Ledger} {start count s : Nat}

/-! ## The search -/

/-- Inside the shorter history no question fails. -/
theorem bisect_eq (h : start + count ≤ min x.seq y.seq + 1) (hc : count ≠ 0) :
    bisect x y (start, count) =
      if x.idAt (start + count / 2) (by omega) == y.idAt (start + count / 2) (by omega) then
        .ok (.inl (start + count / 2 + 1, count - (count / 2 + 1)))
      else .ok (.inl (start, count / 2)) := by
  have hx : start + count / 2 ≤ x.seq := by omega
  have hy : start + count / 2 ≤ y.seq := by omega
  rw [bisect, if_neg hc, ancestor_of_le hx, ancestor_of_le hy]
  simp only [bind, Except.bind, beq_iff_eq]

theorem loop_bisect (h : start + count ≤ min x.seq y.seq + 1) :
    loop (bisect x y) (start, count) = pure (firstFailureFrom
      (fun s hs => x.idAt s (by omega) == y.idAt s (by omega)) start count h) := by
  fun_induction firstFailureFrom
    (fun s (hs : s < min x.seq y.seq + 1) => x.idAt s (by omega) == y.idAt s (by omega))
      start count h with
  | case1 start h => exact loop_done rfl
  | case2 start count h hc hsame ih =>
    rw [← ih]
    apply loop_next
    rw [bisect_eq h hc, if_pos hsame]
  | case3 start count h hc hdiffer ih =>
    rw [← ih]
    apply loop_next
    rw [bisect_eq h hc, if_neg hdiffer]

/-- The search finds the divergence of any two ledgers. -/
theorem parting_eq (x y : Ledger) : x.parting y = pure (x.divergence y) := loop_bisect _

/-! ## Divergence within an archive -/

section Archived

variable {a : Archive} (ha : a.Sound) (hx : x ∈ a.ledgers) (hy : y ∈ a.ledgers)

include ha hx hy

/-- The histories agree below the divergence. -/
theorem exists_ancestor_below (hs : s < x.divergence y) :
    ∃ id, x.ancestor s = .ok id ∧ y.ancestor s = .ok id := by
  have hcommon := (lt_divergence_iff ha hx hy).mp hs
  obtain ⟨hsx, hsy, htake⟩ := le_commonLength_iff.mp hcommon
  refine ⟨x.idAt s hsx, ancestor_of_le hsx, ?_⟩
  rw [ancestor_of_le hsy, (ha.idAt_eq_idAt hx hy hsx hsy).mpr htake]

/-- The histories differ at the divergence, if both get there. -/
theorem exists_ancestors_apart (hs : x.divergence y ≤ min x.seq y.seq) :
    ∃ i j, x.ancestor (x.divergence y) = .ok i ∧ y.ancestor (x.divergence y) = .ok j ∧ i ≠ j := by
  have hsx : x.divergence y ≤ x.seq := by omega
  have hsy : x.divergence y ≤ y.seq := by omega
  refine ⟨_, _, ancestor_of_le hsx, ancestor_of_le hsy, ?_⟩
  intro hsame
  have htake := (ha.idAt_eq_idAt hx hy hsx hsy).mp hsame
  have hcommon := le_commonLength_iff.mpr ⟨hsx, hsy, htake⟩
  exact Nat.lt_irrefl _ ((lt_divergence_iff ha hx hy).mpr hcommon)

theorem divergence_comm : x.divergence y = y.divergence x := by
  rw [divergence_eq ha hx hy, divergence_eq ha hy hx, commonLength_comm]

/-- Histories that both stay with a third one for a while stay together for that while. -/
theorem divergence_ultrametric {z : Ledger} (hz : z ∈ a.ledgers) :
    min (x.divergence y) (y.divergence z) ≤ x.divergence z := by
  have hmin := min_commonLength_le x.txs y.txs z.txs
  rw [divergence_eq ha hx hy, divergence_eq ha hy hz, divergence_eq ha hx hz]
  omega

/-- A ledger is a proper ancestor of a longer one that does not part from it before its end. -/
theorem descendsFrom_iff_divergence :
    y.descendsFrom x = true ↔ x.seq < y.seq ∧ x.divergence y = x.seq + 1 := by
  have hle := commonLength_le_left x.txs y.txs
  have hpre : y.txs.take x.seq = x.txs ↔ x.txs.length ≤ commonLength x.txs y.txs := by
    rw [← prefix_iff_length_le, List.prefix_iff_eq_take, eq_comm]
    rfl
  rw [descendsFrom_iff ha hx hy, hpre, divergence_eq ha hx hy]
  simp only [seq]
  omega

end Archived

/-- Two ledgers of one archive are searched to the end, without a question above either of them, and
what is found is the first difference of their histories: it comes right after the longest beginning
that their transaction lists share. So the difference is the same from both sides, two histories are
no further apart than from a third one, and it tells whether one ledger is an ancestor of the
other. -/
theorem parting_first_difference {a : Archive} (ha : a.Reachable) (hx : x ∈ a.ledgers)
    (hy : y ∈ a.ledgers) :
    x.parting y = pure (x.divergence y) ∧
    (∃ p, p <+: x.txs ∧ p <+: y.txs ∧ (∀ q, q <+: x.txs → q <+: y.txs → q <+: p) ∧
      x.divergence y = p.length + 1) ∧
    (∀ s < x.divergence y, ∃ id, x.ancestor s = .ok id ∧ y.ancestor s = .ok id) ∧
    (x.divergence y ≤ min x.seq y.seq → ∃ i j, x.ancestor (x.divergence y) = .ok i ∧
      y.ancestor (x.divergence y) = .ok j ∧ i ≠ j) ∧
    x.divergence y = y.divergence x ∧
    (∀ z ∈ a.ledgers, min (x.divergence y) (y.divergence z) ≤ x.divergence z) ∧
    (y.descendsFrom x = true ↔ x.seq < y.seq ∧ x.divergence y = x.seq + 1) := by
  have hsound := ha.sound
  have hlongest : ∃ p, p <+: x.txs ∧ p <+: y.txs ∧ (∀ q, q <+: x.txs → q <+: y.txs → q <+: p) ∧
      x.divergence y = p.length + 1 := by
    refine ⟨shared x.txs y.txs, shared_prefix_left _ _, shared_prefix_right _ _, ?_, ?_⟩
    · intro q hqx hqy
      exact prefix_shared_iff.mpr ⟨hqx, hqy⟩
    · rw [length_shared, divergence_eq hsound hx hy]
  exact ⟨parting_eq x y, hlongest, fun s hs => exists_ancestor_below hsound hx hy hs,
    exists_ancestors_apart hsound hx hy, divergence_comm hsound hx hy,
    fun z hz => divergence_ultrametric hsound hx hy hz, descendsFrom_iff_divergence hsound hx hy⟩

/-- The two branches of a fork part right behind its trunk, which is an ancestor of both. -/
theorem parting_first_difference_fork :
    Fork.archive.Reachable ∧ Fork.trunk ∈ Fork.archive.ledgers ∧
      Fork.left ∈ Fork.archive.ledgers ∧ Fork.right ∈ Fork.archive.ledgers ∧
      Fork.left.parting Fork.right = pure 2 ∧
      (∃ i j, Fork.left.ancestor 2 = .ok i ∧ Fork.right.ancestor 2 = .ok j ∧ i ≠ j) ∧
      Fork.left.descendsFrom Fork.trunk = true := by
  have htrunk : Fork.trunk ∈ Fork.archive.ledgers := by decide
  have hleft : Fork.left ∈ Fork.archive.ledgers := by decide
  have hright : Fork.right ∈ Fork.archive.ledgers := by decide
  have hsound := Fork.archive_reachable.sound
  have hfork : Fork.left.divergence Fork.right = 2 := by
    rw [divergence_eq hsound hleft hright]
    rfl
  have hbranch : Fork.trunk.divergence Fork.left = Fork.trunk.seq + 1 := by
    rw [divergence_eq hsound htrunk hleft]
    rfl
  obtain ⟨hfound, -, -, hapart, -⟩ := parting_first_difference Fork.archive_reachable hleft hright
  obtain ⟨-, -, -, -, -, -, hancestor⟩ :=
    parting_first_difference Fork.archive_reachable htrunk hleft
  rw [hfork] at hfound hapart
  exact ⟨Fork.archive_reachable, htrunk, hleft, hright, hfound, hapart (by decide),
    hancestor.mpr ⟨by decide, hbranch⟩⟩

end Ledger

end ForkChoice

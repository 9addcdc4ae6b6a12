import ForkChoice.Ledger.Parting
import ForkChoice.Proofs.Ledger.Content

/-!
# Where two histories part

* `commonLength`: the number of elements that two lists share at their start.
* `shared`: these elements themselves.
* `lt_firstFailure_iff`: halving finds the first failure of a predicate that holds on an initial
  part of the range.
* `Ledger.divergence_eq`: two ledgers of a sound archive diverge one place after the last
  transaction that they share.
* `Ledger.lastCommon_iff`: the last ledger that two histories have in common.
-/

namespace ForkChoice

/-! ## Shared beginnings -/

/-- The number of elements that two lists share at their start. -/
def commonLength : List Nat → List Nat → Nat
  | x :: xs, y :: ys => if x = y then commonLength xs ys + 1 else 0
  | [], _ => 0
  | _ :: _, [] => 0

theorem le_commonLength_iff {xs ys : List Nat} {n : Nat} :
    n ≤ commonLength xs ys ↔ n ≤ xs.length ∧ n ≤ ys.length ∧ xs.take n = ys.take n := by
  fun_induction commonLength xs ys generalizing n with
  | case1 xs y ys ih =>
    cases n with
    | zero => simp
    | succ n => simp [ih]
  | case2 x xs y ys hne =>
    cases n with
    | zero => simp
    | succ n => simp [hne]
  | case3 => cases n <;> simp
  | case4 => cases n <;> simp

theorem commonLength_comm (xs ys : List Nat) : commonLength xs ys = commonLength ys xs := by
  apply Nat.le_antisymm
  · obtain ⟨hx, hy, h⟩ := le_commonLength_iff.mp (Nat.le_refl (commonLength xs ys))
    exact le_commonLength_iff.mpr ⟨hy, hx, h.symm⟩
  · obtain ⟨hy, hx, h⟩ := le_commonLength_iff.mp (Nat.le_refl (commonLength ys xs))
    exact le_commonLength_iff.mpr ⟨hx, hy, h.symm⟩

theorem commonLength_le_left (xs ys : List Nat) : commonLength xs ys ≤ xs.length :=
  (le_commonLength_iff.mp (Nat.le_refl _)).1

theorem commonLength_le_right (xs ys : List Nat) : commonLength xs ys ≤ ys.length :=
  (le_commonLength_iff.mp (Nat.le_refl _)).2.1

theorem take_commonLength (xs ys : List Nat) :
    xs.take (commonLength xs ys) = ys.take (commonLength xs ys) :=
  (le_commonLength_iff.mp (Nat.le_refl _)).2.2

/-- A list shares so much with another when that part of it is a prefix of the other. -/
theorem take_prefix_iff {xs ys : List Nat} {n : Nat} (hn : n ≤ xs.length) :
    xs.take n <+: ys ↔ n ≤ commonLength xs ys := by
  rw [le_commonLength_iff, List.prefix_iff_eq_take, List.length_take, Nat.min_eq_left hn]
  constructor
  · intro h
    have hlen := congrArg List.length h
    simp only [List.length_take] at hlen
    exact ⟨hn, by omega, h⟩
  · rintro ⟨-, -, h⟩
    exact h

theorem prefix_iff_length_le {xs ys : List Nat} :
    xs <+: ys ↔ xs.length ≤ commonLength xs ys := by
  have h : xs.take xs.length <+: ys ↔ _ := take_prefix_iff (Nat.le_refl xs.length)
  rwa [List.take_length] at h

theorem commonLength_take (xs ys : List Nat) (n : Nat) :
    commonLength (xs.take n) ys = min n (commonLength xs ys) := by
  have h : ∀ k, k ≤ commonLength (xs.take n) ys ↔ k ≤ min n (commonLength xs ys) := by
    intro k
    rw [Nat.le_min, le_commonLength_iff, le_commonLength_iff, List.length_take, List.take_take]
    constructor
    · rintro ⟨hx, hy, h⟩
      rw [Nat.min_eq_left (by omega)] at h
      exact ⟨by omega, by omega, hy, h⟩
    · rintro ⟨hn, hx, hy, h⟩
      rw [Nat.min_eq_left hn]
      exact ⟨by omega, hy, h⟩
  exact Nat.le_antisymm ((h _).mp (Nat.le_refl _)) ((h _).mpr (Nat.le_refl _))

/-- A beginning of a list shares with another what the list shares, as far as it goes. -/
theorem commonLength_of_prefix {xs ys : List Nat} (h : xs <+: ys) (zs : List Nat) :
    commonLength xs zs = min xs.length (commonLength ys zs) := by
  rw [← commonLength_take, ← List.prefix_iff_eq_take.mp h]

/-- The elements that two lists share at their start. -/
def shared (xs ys : List Nat) : List Nat := xs.take (commonLength xs ys)

theorem prefix_shared_iff {xs ys zs : List Nat} :
    zs <+: shared xs ys ↔ zs <+: xs ∧ zs <+: ys := by
  constructor
  · intro h
    refine ⟨h.trans (List.take_prefix _ _), h.trans ?_⟩
    rw [shared, take_commonLength]
    exact List.take_prefix _ _
  · rintro ⟨hx, hy⟩
    have htake := List.prefix_iff_eq_take.mp hx
    have hle : zs.length ≤ commonLength xs ys := by
      rw [← take_prefix_iff hx.length_le, ← htake]
      exact hy
    rw [shared, htake]
    exact List.take_prefix_take_left hle

theorem shared_prefix_left (xs ys : List Nat) : shared xs ys <+: xs := List.take_prefix _ _

theorem shared_prefix_right (xs ys : List Nat) : shared xs ys <+: ys :=
  (prefix_shared_iff.mp List.prefix_rfl).2

theorem shared_eq_left {xs ys : List Nat} (h : xs <+: ys) : shared xs ys = xs :=
  List.take_of_length_le (prefix_iff_length_le.mp h)

theorem shared_eq_right {xs ys : List Nat} (h : ys <+: xs) : shared xs ys = ys := by
  rw [shared, take_commonLength, commonLength_comm]
  exact List.take_of_length_le (prefix_iff_length_le.mp h)

/-! ## Binary search -/

/-- The search keeps a failure at its upper end and none below its lower end. -/
theorem lt_firstFailureFrom_iff {n : Nat} {holds : (i : Nat) → i < n → Bool}
    (hmono : ∀ i j (hj : j < n) (hij : i ≤ j), holds j hj → holds i (Nat.lt_of_le_of_lt hij hj))
    {start count : Nat} (h : start + count ≤ n)
    (hlow : ∀ i (hi : i < n), i < start → holds i hi)
    (hhigh : ∀ i (hi : i < n), start + count ≤ i → ¬ holds i hi) {i : Nat} (hi : i < n) :
    i < firstFailureFrom holds start count h ↔ holds i hi := by
  fun_induction firstFailureFrom holds start count h with
  | case1 start h =>
    exact ⟨hlow i hi, fun hholds => Nat.lt_of_not_le fun hle => hhigh i hi (by omega) hholds⟩
  | case2 start count h hc hmid ih =>
    refine ih ?_ ?_
    · intro j hj hjs
      exact hmono j _ (by omega) (Nat.le_of_lt_succ hjs) hmid
    · intro j hj hjs
      exact hhigh j hj (by omega)
  | case3 start count h hc hmid ih =>
    refine ih hlow ?_
    intro j hj hjs hholds
    exact hmid (hmono _ j hj hjs hholds)

theorem lt_firstFailure_iff {n : Nat} {holds : (i : Nat) → i < n → Bool}
    (hmono : ∀ i j (hj : j < n) (hij : i ≤ j), holds j hj → holds i (Nat.lt_of_le_of_lt hij hj))
    {i : Nat} (hi : i < n) : i < firstFailure n holds ↔ holds i hi :=
  lt_firstFailureFrom_iff hmono _ (by omega) (by omega) hi

/-! ## Divergence -/

namespace Ledger

variable {a : Archive}

theorem lt_divergence_iff (ha : a.Sound) {x y : Ledger} (hx : x ∈ a.ledgers)
    (hy : y ∈ a.ledgers) {s : Nat} :
    s < x.divergence y ↔ s ≤ commonLength x.txs y.txs := by
  rcases Nat.lt_or_ge s (min x.seq y.seq + 1) with hs | hs
  · unfold divergence
    rw [lt_firstFailure_iff _ hs, beq_iff_eq, ha.idAt_eq_idAt hx hy, le_commonLength_iff]
    · simp only [seq] at hs ⊢
      constructor
      · intro h
        exact ⟨by omega, by omega, h⟩
      · rintro ⟨-, -, h⟩
        exact h
    · intro i j hj hij h
      rw [beq_iff_eq, ha.idAt_eq_idAt hx hy] at h ⊢
      have hi := congrArg (List.take i) h
      rwa [List.take_take, List.take_take, Nat.min_eq_left hij] at hi
  · have hle := divergence_le x y
    have hleft := commonLength_le_left x.txs y.txs
    have hright := commonLength_le_right x.txs y.txs
    simp only [seq] at *
    omega

/-- Two ledgers diverge one place after the last transaction that they share. -/
theorem divergence_eq (ha : a.Sound) {x y : Ledger} (hx : x ∈ a.ledgers)
    (hy : y ∈ a.ledgers) : x.divergence y = commonLength x.txs y.txs + 1 := by
  have h := fun s => lt_divergence_iff ha hx hy (s := s)
  apply Nat.le_antisymm
  · exact Nat.le_of_not_lt fun hlt => Nat.lt_irrefl _ ((h _).mp hlt)
  · exact (h _).mpr (Nat.le_refl _)

/-- The last ledger that two histories have in common. -/
structure LastCommon (a : Archive) (x y z : Ledger) : Prop where
  left : x.leadsTo z = true
  right : y.leadsTo z = true
  last : ∀ w ∈ a.ledgers, x.leadsTo w = true → y.leadsTo w = true → z.leadsTo w = true

theorem lastCommon_iff (ha : a.Sound) {x y z : Ledger} (hx : x ∈ a.ledgers) (hy : y ∈ a.ledgers)
    (hz : z ∈ a.ledgers) : LastCommon a x y z ↔ z.txs = shared x.txs y.txs := by
  constructor
  · rintro ⟨hleft, hright, hlast⟩
    rw [leadsTo_iff ha hz hx] at hleft
    rw [leadsTo_iff ha hz hy] at hright
    obtain ⟨w, hw, hwtxs⟩ := ha.exists_txs hx (shared_prefix_left x.txs y.txs)
    have hback := hlast w hw ((leadsTo_iff ha hw hx).mpr (hwtxs ▸ shared_prefix_left _ _))
      ((leadsTo_iff ha hw hy).mpr (hwtxs ▸ shared_prefix_right _ _))
    rw [leadsTo_iff ha hw hz, hwtxs] at hback
    have hle := (prefix_shared_iff.mpr ⟨hleft, hright⟩).length_le
    exact (hback.eq_of_length (Nat.le_antisymm hback.length_le hle)).symm
  · intro h
    refine ⟨?_, ?_, fun w hw hxw hyw => ?_⟩
    · rw [leadsTo_iff ha hz hx, h]
      exact shared_prefix_left _ _
    · rw [leadsTo_iff ha hz hy, h]
      exact shared_prefix_right _ _
    · rw [leadsTo_iff ha hw hx] at hxw
      rw [leadsTo_iff ha hw hy] at hyw
      rw [leadsTo_iff ha hw hz, h]
      exact prefix_shared_iff.mpr ⟨hxw, hyw⟩

end Ledger

end ForkChoice

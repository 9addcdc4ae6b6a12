import ForkChoice.Proofs.Ledger.Walk
import Mathlib.Data.Multiset.Filter

/-!
# Steps that no uncommitted vote can turn

A walk goes on to the best ledger right below when its margin over the runner-up is more than the
votes that are still uncommitted. One comparison with the runner-up speaks for all ledgers right
below, those without a vote as well: whichever way that many votes go, none of them becomes better.

* `Archive.Secure`: the best ledger right below a ledger leads by more than a number of votes.
* `Archive.step_eq_some_iff`: a walk goes on exactly where the next ledger is secure.
* `Shifted`: what can become of votes of which some are moved or dropped.
* `Archive.Secure.upheld`: a secure ledger stays the best when votes are moved or dropped.
* `Archive.Secure.of_fewer`: it is secure against fewer votes as well.
-/

namespace ForkChoice

namespace Ledger

/-- Whether `m` comes right after `l`. -/
structure ChildOf (m l : Ledger) : Prop where
  seq : m.seq = l.seq + 1
  descends : m.descendsFrom l = true

instance (m l : Ledger) : Decidable (m.ChildOf l) :=
  decidable_of_iff (m.seq = l.seq + 1 ∧ m.descendsFrom l = true)
    ⟨fun h => ⟨h.1, h.2⟩, fun h => ⟨h.seq, h.descends⟩⟩

variable {V W : Multiset Ledger} {k l m : Ledger}

theorem ChildOf.leadsTo (h : m.ChildOf l) : m.leadsTo l = true := by
  rw [Ledger.leadsTo, h.descends, Bool.or_true]

/-! ## Ranks -/

theorem rank_lt_iff : k.rank V < m.rank W ↔
    k.support V < m.support W ∨ k.support V = m.support W ∧ k.id < m.id :=
  Prod.Lex.toLex_lt_toLex

theorem rank_le_iff : k.rank V ≤ m.rank W ↔
    k.support V < m.support W ∨ k.support V = m.support W ∧ k.id ≤ m.id :=
  Prod.Lex.toLex_le_toLex

/-- A lead, the identifier counted, is a better rank. -/
theorem rank_lt_of_lead
    (h : k.support V < m.support W + if k.id < m.id then 1 else 0) : k.rank V < m.rank W := by
  rw [rank_lt_iff]
  split at h
  · omega
  · exact Or.inl h

end Ledger

theorem lt_margin_iff {V : Multiset Ledger} {best second : Ledger} {votes : Nat}
    (h : second.support V ≤ best.support V) :
    votes < margin V best (some second) ↔
      second.support V + votes < best.support V + if second.id < best.id then 1 else 0 := by
  simp only [margin]
  omega

namespace Archive

variable {a : Archive} {V : Multiset Ledger} {largestIssued U U' : Nat} {k l m : Ledger}

/-- The best ledger right below a ledger leads by more than a number of votes, the larger identifier
counting for one. -/
structure Secure (a : Archive) (V : Multiset Ledger) (U : Nat) (l m : Ledger) : Prop where
  rival : m ∈ a.rivals V l
  exceeds : U < m.support V
  leads : ∀ k ∈ a.rivals V l, k ≠ m →
    k.support V + U < m.support V + if k.id < m.id then 1 else 0

theorem mem_rivals_iff :
    m ∈ a.rivals V l ↔ m ∈ a.ledgers ∧ m.ChildOf l ∧ 0 < m.support V := by
  rw [rivals_spec]
  constructor
  · rintro ⟨hm, hseq, hdescends, hpos⟩
    exact ⟨hm, ⟨hseq, hdescends⟩, hpos⟩
  · rintro ⟨hm, ⟨hseq, hdescends⟩, hpos⟩
    exact ⟨hm, hseq, hdescends, hpos⟩

/-! ## The next ledger of a walk -/

/-- The runner-up speaks for all rivals. -/
theorem secure_of_second (ha : a.Sound) (hm : m ∈ a.rivals V l)
    (htop : (a.rivals V l).argmax (·.rank V) = some m)
    (hsecond : ((a.rivals V l).erase m).argmax (·.rank V) = some k)
    (hgo : U < margin V m (some k) ∨ U = 0) : a.Secure V U l m := by
  obtain ⟨hkm, hk⟩ := ha.nodup_rivals.mem_erase_iff.mp (List.argmax_mem hsecond)
  obtain ⟨hmem, -, -⟩ := mem_rivals_iff.mp hm
  obtain ⟨hkmem, -, hkpos⟩ := mem_rivals_iff.mp hk
  have hid : k.id ≠ m.id := fun h => hkm (ha.eq_of_id hkmem hmem h)
  have hrank := Ledger.rank_le_iff.mp (List.le_of_mem_argmax hk htop)
  have hlead : k.support V + U < m.support V + if k.id < m.id then 1 else 0 := by
    have hle : k.support V ≤ m.support V := by omega
    rw [lt_margin_iff hle] at hgo
    rcases hgo with hgo | hzero
    · exact hgo
    · split <;> omega
  refine ⟨hm, ?_, fun j hj hjm => ?_⟩
  · split at hlead <;> omega
  · have hle : j.rank V ≤ k.rank V :=
      List.le_of_mem_argmax (ha.nodup_rivals.mem_erase_iff.mpr ⟨hjm, hj⟩) hsecond
    rw [Ledger.rank_le_iff] at hle
    split at hlead <;> split <;> omega

theorem secure_of_step (ha : a.Sound) (h : a.step V largestIssued l = some m) :
    a.Secure V (uncommitted V largestIssued (l.seq + 1)) l m := by
  unfold step contest at h
  cases htop : (a.rivals V l).argmax (·.rank V) with
  | none => simp [htop] at h
  | some best =>
    have hbest := List.argmax_mem htop
    simp only [htop] at h
    split at h
    · rename_i hgo
      cases h
      cases hsecond : ((a.rivals V l).erase m).argmax (·.rank V) with
      | some k => exact secure_of_second ha hbest htop hsecond (hsecond ▸ hgo)
      | none =>
        obtain ⟨-, -, hpos⟩ := mem_rivals_iff.mp hbest
        rw [hsecond, margin] at hgo
        refine ⟨hbest, by omega, fun k hk hkm => ?_⟩
        have hrest : (a.rivals V l).erase m = [] := List.argmax_eq_none.mp hsecond
        have hmem := ha.nodup_rivals.mem_erase_iff.mpr ⟨hkm, hk⟩
        rw [hrest] at hmem
        cases hmem
    · cases h

theorem Secure.rank_lt (h : a.Secure V U l m) (hk : k ∈ a.rivals V l) (hkm : k ≠ m) :
    k.rank V < m.rank V := by
  apply Ledger.rank_lt_of_lead
  have := h.leads k hk hkm
  omega

theorem step_of_secure (ha : a.Sound)
    (h : a.Secure V (uncommitted V largestIssued (l.seq + 1)) l m) :
    a.step V largestIssued l = some m := by
  have htop : (a.rivals V l).argmax (·.rank V) = some m :=
    argmax_of_lt h.rival fun k hk hkm => h.rank_lt hk hkm
  simp only [step, contest, htop]
  apply if_pos
  apply Or.inl
  cases hsecond : ((a.rivals V l).erase m).argmax (·.rank V) with
  | none => exact h.exceeds
  | some k =>
    obtain ⟨hkm, hk⟩ := ha.nodup_rivals.mem_erase_iff.mp (List.argmax_mem hsecond)
    have hrank := Ledger.rank_lt_iff.mp (h.rank_lt hk hkm)
    rw [lt_margin_iff (by omega)]
    exact h.leads k hk hkm

/-- A walk goes on exactly where the next ledger is secure against the uncommitted votes. -/
theorem step_eq_some_iff (ha : a.Sound) : a.step V largestIssued l = some m ↔
    a.Secure V (uncommitted V largestIssued (l.seq + 1)) l m :=
  ⟨secure_of_step ha, step_of_secure ha⟩

theorem uncommitted_mono {L₁ L₂ : Nat} (h : L₁ ≤ L₂) (s : Nat) :
    uncommitted V L₁ s ≤ uncommitted V L₂ s := by
  rw [uncommitted, uncommitted, Multiset.countP_eq_card_filter, Multiset.countP_eq_card_filter]
  apply Multiset.card_le_card
  apply Multiset.monotone_filter_right
  intro l hl
  omega

theorem Secure.of_fewer (h : a.Secure V U l m) (hU : U' ≤ U) : a.Secure V U' l m := by
  refine ⟨h.rival, Nat.lt_of_le_of_lt hU h.exceeds, fun k hk hkm => ?_⟩
  have := h.leads k hk hkm
  omega

end Archive

/-! ## Votes that are moved or dropped -/

/-- What can become of votes when each vote for a ledger below a sequence number may be moved to any
ledger or dropped. -/
inductive Shifted (s : Nat) : Multiset Ledger → Multiset Ledger → Prop
  | nil : Shifted s 0 0
  | keep {V W : Multiset Ledger} (l : Ledger) (h : Shifted s V W) : Shifted s (l ::ₘ V) (l ::ₘ W)
  | move {V W : Multiset Ledger} {l : Ledger} (m : Ledger) (hl : l.seq < s) (h : Shifted s V W) :
      Shifted s (l ::ₘ V) (m ::ₘ W)
  | drop {V W : Multiset Ledger} {l : Ledger} (hl : l.seq < s) (h : Shifted s V W) :
      Shifted s (l ::ₘ V) W

namespace Shifted

variable {V W : Multiset Ledger} {s : Nat} {m q : Ledger}

/-- A ledger above the votes that move loses none. -/
theorem support_le (h : Shifted s V W) (hq : s ≤ q.seq) : q.support V ≤ q.support W := by
  induction h with
  | nil => exact Nat.le_refl _
  | keep l h ih =>
    simp only [Ledger.support, Multiset.countP_cons] at ih ⊢
    omega
  | @move V W l m hl h ih =>
    have hnot : ¬ l.leadsTo q = true := Ledger.not_leadsTo_of_lt (Nat.lt_of_lt_of_le hl hq)
    simp only [Ledger.support, Multiset.countP_cons, if_neg hnot] at ih ⊢
    omega
  | @drop V W l hl h ih =>
    have hnot : ¬ l.leadsTo q = true := Ledger.not_leadsTo_of_lt (Nat.lt_of_lt_of_le hl hq)
    simp only [Ledger.support, Multiset.countP_cons, if_neg hnot] at ih ⊢
    omega

/-- No ledger gains more votes than may be moved. -/
theorem support_le_add (h : Shifted s V W) (m : Ledger) :
    m.support W ≤ m.support V + V.countP (·.seq < s) := by
  induction h with
  | nil => exact Nat.le_refl _
  | keep l h ih =>
    simp only [Ledger.support, Multiset.countP_cons] at ih ⊢
    omega
  | move k hl h ih =>
    simp only [Ledger.support, Multiset.countP_cons, if_pos hl] at ih ⊢
    split <;> omega
  | drop hl h ih =>
    simp only [Ledger.support, Multiset.countP_cons, if_pos hl] at ih ⊢
    omega

end Shifted

namespace Archive

variable {a : Archive} {V W : Multiset Ledger} {U : Nat} {m p q : Ledger}

/-- A secure ledger stays the best of all that come right after the same one. -/
theorem Secure.upheld (h : a.Secure V U p q) (hU : V.countP (·.seq < q.seq) ≤ U)
    (hshift : Shifted q.seq V W) (hm : m ∈ a.ledgers) (hchild : m.ChildOf p) :
    m.rank W ≤ q.rank W := by
  have hqkeeps := hshift.support_le (Nat.le_refl q.seq)
  have hmgains := hshift.support_le_add m
  by_cases hmq : m = q
  · exact le_of_eq (congrArg (·.rank W) hmq)
  · apply le_of_lt
    apply Ledger.rank_lt_of_lead
    by_cases hpos : 0 < m.support V
    · have := h.leads m (mem_rivals_iff.mpr ⟨hm, hchild, hpos⟩) hmq
      omega
    · -- a ledger without votes is no rival yet
      have := h.exceeds
      omega

end Archive

end ForkChoice

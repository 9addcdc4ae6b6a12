import ForkChoice.Proofs.Ledger.Secure
import ForkChoice.Proofs.Trie.Votes
import Mathlib.Logic.Relation

/-!
# Two walks on one archive

Two walks that take the same steps on a part of the way come past the same ledgers there. So a walk
is compared with another one step at a time, and where it ends is read off at the end.

* `Archive.Reaches`: the ledgers that a walk comes past.
* `Archive.Reaches.between`: a walk comes past every ledger between two that it comes past.
* `Archive.Reaches.carry`: steps that both walks take.
* `Archive.exists_secure_of_walk`: each ledger that a walk came past is secure.
* `Archive.walk_retreats`: a walk with more uncommitted votes ends no further on, on the same branch.
* `Archive.walk_cast`: votes cast for a ledger on the way do not lead a walk off it.
-/

namespace ForkChoice

namespace Archive

variable {a : Archive} {V W : Multiset Ledger} {L L' : Nat} {l m p q w A : Ledger}

theorem step_childOf (h : a.step V L l = some m) : m ∈ a.ledgers ∧ m.ChildOf l := by
  obtain ⟨hm, hchild, -⟩ := mem_rivals_iff.mp (step_mem h)
  exact ⟨hm, hchild⟩

/-- A walk that stands at `l` comes past `q`. -/
def Reaches (a : Archive) (V : Multiset Ledger) (L : Nat) : Ledger → Ledger → Prop :=
  Relation.ReflTransGen fun p q => a.step V L p = some q

theorem reaches_walk (a : Archive) (V : Multiset Ledger) (L : Nat) (l : Ledger) :
    a.Reaches V L l (a.walk V L l) := by
  induction l using walk.induct a V L with
  | case1 l hstop =>
    rw [walk_of_none hstop]
    exact .refl
  | case2 l m hstep ih =>
    rw [walk_of_some hstep]
    exact .head hstep ih

namespace Reaches

theorem mem (h : a.Reaches V L l q) (hl : l ∈ a.ledgers) : q ∈ a.ledgers := by
  induction h with
  | refl => exact hl
  | tail _ hstep _ => exact (step_childOf hstep).1

theorem walk_eq (h : a.Reaches V L l q) : a.walk V L l = a.walk V L q := by
  induction h with
  | refl => rfl
  | tail _ hstep ih => exact ih.trans (walk_of_some hstep)

theorem leadsTo (ha : a.Sound) (hl : l ∈ a.ledgers) (h : a.Reaches V L l q) :
    q.leadsTo l = true := by
  induction h with
  | refl => exact l.leadsTo_refl
  | tail hreach hstep ih =>
    obtain ⟨hmem, hchild⟩ := step_childOf hstep
    exact Ledger.leadsTo_trans ha hl (mem hreach hl) hmem hchild.leadsTo ih

/-- A walk comes past every ledger between two that it comes past. -/
theorem between (ha : a.Sound) (hl : l ∈ a.ledgers) (hq : q ∈ a.ledgers)
    (h : a.Reaches V L l w) (hwq : w.leadsTo q = true) (hql : q.leadsTo l = true) :
    a.Reaches V L l q := by
  have hw := h.mem hl
  induction h using Relation.ReflTransGen.head_induction_on with
  | refl =>
    rw [Ledger.leadsTo_antisymm ha hq hl hql hwq]
    exact .refl
  | @head l m hstep hrest ih =>
    obtain ⟨hm, hchild⟩ := step_childOf hstep
    by_cases hlq : l = q
    · rw [hlq]
      exact .refl
    · have hseq : m.seq ≤ q.seq := by
        rw [hchild.seq]
        by_contra hlow
        apply hlq
        apply Ledger.leadsTo_antisymm ha hl hq _ hql
        exact Ledger.leadsTo_of_seq_le ha hq hl hq q.leadsTo_refl hql (by omega)
      have hqm : q.leadsTo m = true :=
        Ledger.leadsTo_of_seq_le ha hm hq hw (leadsTo ha hm hrest) hwq hseq
      exact .head hstep (ih hm hqm)

/-- What one walk comes past the other one comes past as well, when it takes the steps that lead
there. -/
theorem carry (ha : a.Sound) (hl : l ∈ a.ledgers) (h : a.Reaches V L l q)
    (hsame : ∀ p ∈ a.ledgers, p.leadsTo l = true → ∀ m, q.leadsTo m = true →
      a.step V L p = some m → a.step W L' p = some m) : a.Reaches W L' l q := by
  induction h with
  | refl => exact .refl
  | @tail p q hreach hstep ih =>
    obtain ⟨hq, hchild⟩ := step_childOf hstep
    have hp := mem hreach hl
    refine .tail (ih fun k hk hkl m hpm hkm => ?_) ?_
    · apply hsame k hk hkl m _ hkm
      exact Ledger.leadsTo_trans ha (step_childOf hkm).1 hp hq hchild.leadsTo hpm
    · exact hsame p hp (leadsTo ha hl hreach) q q.leadsTo_refl hstep

end Reaches

theorem walk_genesis_mem (ha : a.Sound) : a.walk V L .genesis ∈ a.ledgers :=
  (reaches_walk a V L .genesis).mem ha.genesis_mem

/-- Each ledger that a walk came past is secure against the votes that were uncommitted there. -/
theorem exists_secure_of_walk (ha : a.Sound) (hq : q ∈ a.ledgers) (hne : q ≠ .genesis)
    (hpath : (a.walk V L .genesis).leadsTo q = true) :
    ∃ p ∈ a.ledgers, q.ChildOf p ∧ a.Secure V (uncommitted V L q.seq) p q := by
  have hreach := (reaches_walk a V L .genesis).between ha ha.genesis_mem hq hpath
    (Ledger.leadsTo_genesis ha hq)
  rcases hreach.cases_tail with rfl | ⟨p, hbefore, hstep⟩
  · exact absurd rfl hne
  · have hchild := (step_childOf hstep).2
    refine ⟨p, Reaches.mem hbefore ha.genesis_mem, hchild, ?_⟩
    rw [hchild.seq]
    exact (step_eq_some_iff ha).mp hstep

/-- A walk with more uncommitted votes ends no further on, on the same branch. -/
theorem walk_retreats (ha : a.Sound) (hl : l ∈ a.ledgers) (hL : L ≤ L') :
    (a.walk V L l).leadsTo (a.walk V L' l) = true := by
  have hreach : a.Reaches V L l (a.walk V L' l) := by
    apply (reaches_walk a V L' l).carry ha hl
    intro p _ _ m _ hstep
    rw [step_eq_some_iff ha] at hstep ⊢
    exact hstep.of_fewer (uncommitted_mono hL _)
  rw [hreach.walk_eq]
  exact (reaches_walk a V L _).leadsTo ha (hreach.mem hl)

/-! ## Votes that are cast on the way -/

section Cast

variable {c U U' : Nat}

theorem support_cast (V : Multiset Ledger) (c : Nat) (A m : Ledger) :
    m.support (V + Multiset.replicate c A) =
      m.support V + if A.leadsTo m = true then c else 0 := by
  rw [Ledger.support, Multiset.countP_add, countP_replicate]
  rfl

theorem uncommitted_cast (V : Multiset Ledger) (c : Nat) (A : Ledger) (s : Nat) :
    uncommitted (V + Multiset.replicate c A) L s =
      uncommitted V L s + if A.seq < max s L then c else 0 := by
  rw [uncommitted, Multiset.countP_add, countP_replicate]
  rfl

/-- Votes for a ledger behind the next one count for it, and no more of them are uncommitted. -/
theorem Secure.cast (ha : a.Sound) (hA : A ∈ a.ledgers) (h : a.Secure V U l m)
    (hleads : A.leadsTo m = true) (hU : U' ≤ U + c) :
    a.Secure (V + Multiset.replicate c A) U' l m := by
  obtain ⟨hm, hchild, hpos⟩ := mem_rivals_iff.mp h.rival
  have hmc : m.support (V + Multiset.replicate c A) = m.support V + c := by
    rw [support_cast, if_pos hleads]
  have hexceeds := h.exceeds
  refine ⟨mem_rivals_iff.mpr ⟨hm, hchild, by omega⟩, by omega, fun k hk hkm => ?_⟩
  obtain ⟨hkmem, hkchild, hkpos⟩ := mem_rivals_iff.mp hk
  have hnot : ¬ A.leadsTo k = true := by
    intro hAk
    have hseq : k.seq = m.seq := hkchild.seq.trans hchild.seq.symm
    apply hkm
    apply Ledger.leadsTo_antisymm ha hkmem hm
    · exact Ledger.leadsTo_of_seq_le ha hm hkmem hA hleads hAk (by omega)
    · exact Ledger.leadsTo_of_seq_le ha hkmem hm hA hAk hleads (by omega)
  have hkc : k.support (V + Multiset.replicate c A) = k.support V := by
    rw [support_cast, if_neg hnot, Nat.add_zero]
  rw [hkc] at hkpos ⊢
  have hlead := h.leads k (mem_rivals_iff.mpr ⟨hkmem, hkchild, hkpos⟩) hkm
  omega

/-- Votes for a ledger below the next ones count for none of them. -/
theorem Secure.of_cast (h : a.Secure (V + Multiset.replicate c A) U' l m) (hA : A.seq ≤ l.seq)
    (hU : U ≤ U') : a.Secure V U l m := by
  have hsame : ∀ k : Ledger, k.ChildOf l → k.support (V + Multiset.replicate c A) = k.support V := by
    intro k hk
    have hlow : A.seq < k.seq := by
      rw [hk.seq]
      omega
    rw [support_cast, if_neg (Ledger.not_leadsTo_of_lt hlow), Nat.add_zero]
  obtain ⟨hm, hchild, hpos⟩ := mem_rivals_iff.mp h.rival
  have hexceeds := h.exceeds
  rw [hsame m hchild] at hpos hexceeds
  refine ⟨mem_rivals_iff.mpr ⟨hm, hchild, hpos⟩, by omega, fun k hk hkm => ?_⟩
  obtain ⟨hkmem, hkchild, hkpos⟩ := mem_rivals_iff.mp hk
  rw [← hsame k hkchild] at hkpos
  have hlead := h.leads k (mem_rivals_iff.mpr ⟨hkmem, hkchild, hkpos⟩) hkm
  rw [hsame k hkchild, hsame m hchild] at hlead
  omega

/-- Votes cast for a ledger that a walk came past do not lead it off its way: it still comes past
that ledger, and ends somewhere between it and the old end. -/
theorem walk_cast (ha : a.Sound) (hA : A ∈ a.ledgers) (c : Nat)
    (hpath : (a.walk V L .genesis).leadsTo A = true) :
    (a.walk (V + Multiset.replicate c A) L .genesis).leadsTo A = true ∧
      (a.walk V L .genesis).leadsTo (a.walk (V + Multiset.replicate c A) L .genesis) = true := by
  have hold : a.Reaches V L .genesis A :=
    (reaches_walk a V L .genesis).between ha ha.genesis_mem hA hpath
      (Ledger.leadsTo_genesis ha hA)
  -- as far as the ledger, each step of the old walk leads towards the new votes
  have hnew : a.Reaches (V + Multiset.replicate c A) L .genesis A := by
    apply hold.carry ha ha.genesis_mem
    intro p _ _ m hAm hstep
    rw [step_eq_some_iff ha] at hstep ⊢
    apply hstep.cast ha hA hAm
    rw [uncommitted_cast]
    split <;> omega
  -- from there on, each step of the new walk leads past them
  have hback : a.Reaches V L A (a.walk (V + Multiset.replicate c A) L A) := by
    apply (reaches_walk a _ L A).carry ha hA
    intro p _ hpA m _ hstep
    rw [step_eq_some_iff ha] at hstep ⊢
    apply hstep.of_cast (Ledger.seq_le_of_leadsTo hpA)
    rw [uncommitted_cast]
    omega
  rw [hnew.walk_eq, hold.walk_eq, hback.walk_eq]
  exact ⟨(reaches_walk a _ L A).leadsTo ha hA, (reaches_walk a V L _).leadsTo ha (hback.mem hA)⟩

end Cast

end Archive

end ForkChoice

import ForkChoice.Proofs.Ledger.Divergence
import ForkChoice.Segment

/-!
# Segments as paths

In a sound archive a segment is known by its start and by the transactions that lead to its tip,
whatever its backing ledger holds beyond.

* `Segment.path`, `Segment.entry`: the transactions that lead to the tip and to the first ledger.
* `Segment.tip_id_eq`, `Segment.startId_eq`: identifiers say the same as these paths.
* `Segment.agreement_eq`: a ledger that comes past the place before a segment agrees with it as far
  as the transactions go.
* `Segment.before_eq`, `Segment.after_eq`, `Segment.path_join`: cuts and joins.
-/

namespace ForkChoice

namespace Segment

variable {a : Archive}

/-- The transactions that lead to the tip. -/
def path (g : Segment) : List Nat := g.backing.txs.take (g.stop - 1)

/-- The transactions that lead to the first ledger. -/
def entry (g : Segment) : List Nat := g.path.take g.start

@[simp] theorem length_path (g : Segment) : g.path.length = g.stop - 1 := by
  have := g.stop_le
  simp only [path, List.length_take, Ledger.seq] at *
  omega

theorem stop_eq (g : Segment) : g.stop = g.path.length + 1 := by
  have := g.start_lt_stop
  rw [length_path]
  omega

theorem start_le_length (g : Segment) : g.start ≤ g.path.length := by
  have := g.start_lt_stop
  rw [length_path]
  omega

@[simp] theorem length_entry (g : Segment) : g.entry.length = g.start := by
  rw [entry, List.length_take, Nat.min_eq_left g.start_le_length]

theorem entry_prefix (g : Segment) : g.entry <+: g.path := List.take_prefix _ _

theorem path_prefix (g : Segment) : g.path <+: g.backing.txs := List.take_prefix _ _

theorem entry_eq (g : Segment) : g.entry = g.backing.txs.take g.start := by
  have := g.start_lt_stop
  rw [entry, path, List.take_take, Nat.min_eq_left (by omega)]

/-! ## Identifiers -/

theorem tip_le_seq (g : Segment) : g.stop - 1 ≤ g.backing.seq := by
  have := g.stop_le
  omega

theorem start_le_seq (g : Segment) : g.start ≤ g.backing.seq := by
  have := g.start_lt_stop
  have := g.stop_le
  omega

theorem tip_seq (g : Segment) : g.tip.seq = g.path.length := (length_path g).symm

theorem tip_id_eq (ha : a.Sound) {g : Segment} (hg : g.backing ∈ a.ledgers) {l : Ledger}
    (hl : l ∈ a.ledgers) : g.tip.id = l.id ↔ g.path = l.txs :=
  ha.idAt_eq_id hg hl g.tip_le_seq

theorem tip_id_eq_tip_id (ha : a.Sound) {g h : Segment} (hg : g.backing ∈ a.ledgers)
    (hh : h.backing ∈ a.ledgers) : g.tip.id = h.tip.id ↔ g.path = h.path :=
  ha.idAt_eq_idAt hg hh g.tip_le_seq h.tip_le_seq

theorem startId_eq (ha : a.Sound) {g : Segment} (hg : g.backing ∈ a.ledgers) {l : Ledger}
    (hl : l ∈ a.ledgers) : g.startId = l.id ↔ g.entry = l.txs := by
  rw [entry_eq]
  exact ha.idAt_eq_id hg hl g.start_le_seq

theorem startId_eq_startId (ha : a.Sound) {g h : Segment} (hg : g.backing ∈ a.ledgers)
    (hh : h.backing ∈ a.ledgers) : g.startId = h.startId ↔ g.entry = h.entry := by
  rw [entry_eq, entry_eq]
  exact ha.idAt_eq_idAt hg hh g.start_le_seq h.start_le_seq

/-! ## Agreement -/

/-- A ledger that comes past the place before a segment agrees with it as far as the two share
their transactions. -/
theorem agreement_eq (ha : a.Sound) {g : Segment} (hg : g.backing ∈ a.ledgers) {l : Ledger}
    (hl : l ∈ a.ledgers) (hpast : g.path.take (g.start - 1) <+: l.txs) :
    g.agreement l = commonLength g.path l.txs + 1 := by
  have hlt := g.start_lt_stop
  have hlength := g.length_path
  rw [take_prefix_iff (by omega)] at hpast
  have hcommon : commonLength g.path l.txs =
      min (g.stop - 1) (commonLength g.backing.txs l.txs) := commonLength_take _ _ _
  rw [agreement, clamp, Ledger.divergence_eq ha hg hl]
  omega

/-! ## Cuts and joins -/

theorem before_eq {g : Segment} {cut : Nat} (hstart : g.start < cut) (hstop : cut ≤ g.stop) :
    g.before cut = some ⟨g.start, cut, g.backing, hstart, Nat.le_trans hstop g.stop_le⟩ := by
  have := g.start_lt_stop
  have h₁ : g.clamp g.start = g.start := by simp only [clamp]; omega
  have h₂ : g.clamp cut = cut := by simp only [clamp]; omega
  simp [before, slice, h₁, h₂, hstart]

theorem after_eq {g : Segment} {cut : Nat} (hstart : g.start ≤ cut) (hstop : cut < g.stop) :
    g.after cut = some ⟨cut, g.stop, g.backing, hstop, g.stop_le⟩ := by
  have h₁ : g.clamp cut = cut := by simp only [clamp]; omega
  have h₂ : g.clamp g.stop = g.stop := by simp only [clamp]; omega
  simp [after, slice, h₁, h₂, hstop]

theorem after_eq_none {g : Segment} {cut : Nat} (hstop : g.stop ≤ cut) : g.after cut = none := by
  have := g.start_lt_stop
  have h : ¬ g.clamp cut < g.clamp g.stop := by simp only [clamp]; omega
  simp [after, slice, h]

/-- A shorter segment over the same backing ledger leads along the same path. -/
theorem path_of_backing_eq {g h : Segment} (hbacking : h.backing = g.backing)
    (hstop : h.stop ≤ g.stop) : h.path = g.path.take h.path.length := by
  rw [length_path, path, path, hbacking, List.take_take, Nat.min_eq_left (by omega)]

theorem backing_of_slice {g h : Segment} {lo hi : Nat} (hslice : g.slice lo hi = some h) :
    h.backing = g.backing := by
  unfold slice at hslice
  split at hslice
  · rw [← Option.some.inj hslice]
  · cases hslice

/-- The near side of a cut leads along the same path as far as it goes. -/
theorem before_spec {g : Segment} {cut : Nat} (hstart : g.start < cut) (hstop : cut ≤ g.stop) :
    ∃ near, g.before cut = some near ∧ near.backing = g.backing ∧
      near.path = g.path.take (cut - 1) := by
  refine ⟨_, before_eq hstart hstop, rfl, ?_⟩
  simp only [path]
  rw [List.take_take, Nat.min_eq_left (by omega)]

@[simp] theorem path_ofLedger (l : Ledger) : (ofLedger l).path = l.txs := List.take_length

theorem start_join {g h : Segment} (hadj : h.start = g.stop) : (g.join h).start = g.start := by
  have hg := g.start_lt_stop
  have hh := h.start_lt_stop
  unfold join
  split <;> simp only <;> omega

/-- The join of adjacent segments is backed by the farther one. -/
theorem backing_join {g h : Segment} (hadj : h.start = g.stop) :
    (g.join h).backing = h.backing := by
  have hh := h.start_lt_stop
  unfold join
  rw [dif_pos (by omega)]

theorem path_join {g h : Segment} (hadj : h.start = g.stop) : (g.join h).path = h.path := by
  have hh := h.start_lt_stop
  unfold join
  rw [dif_pos (by omega)]
  rfl

end Segment

end ForkChoice

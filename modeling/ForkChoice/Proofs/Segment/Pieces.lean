import ForkChoice.Proofs.Segment

/-!
# Segments cut and joined

What matters of a segment is which ledger it names at which sequence number. A cut gives each name to
one of its sides, a join gives the names of both parts, and neither depends on what the backing
ledgers hold beyond their segments.

* `Segment.places`: the sequence numbers of a segment, in order.
* `Segment.idAt?`: the identifier that a segment names at a sequence number.
* `Segment.idAt?_before`, `Segment.idAt?_after`, `Segment.idAt?_join`: the names after a cut and a join.
* `Segment.join_before_after`: the two sides of a cut joined again.
* `Segment.cut_join`: nothing is lost by cuts and joins.
-/

namespace ForkChoice

namespace Segment

variable {a : Archive} {g h near far : Segment} {s id lo hi cut : Nat}

/-- The sequence numbers of the range, in order. -/
def places (g : Segment) : List Nat := List.range' g.start (g.stop - g.start)

/-- The identifier at a sequence number, if that is one of the range. -/
def idAt? (g : Segment) (s : Nat) : Option Nat :=
  if h : g.start ≤ s ∧ s < g.stop then some (g.idAt s h.2) else none

theorem mem_places : s ∈ g.places ↔ g.start ≤ s ∧ s < g.stop := by
  have := g.start_lt_stop
  rw [places, List.mem_range'_1]
  omega

theorem idAt?_of_mem (hstart : g.start ≤ s) (hstop : s < g.stop) :
    g.idAt? s = some (g.idAt s hstop) := dif_pos ⟨hstart, hstop⟩

theorem idAt?_of_not_mem (hs : ¬ (g.start ≤ s ∧ s < g.stop)) : g.idAt? s = none := dif_neg hs

theorem idAt?_eq_some_iff :
    g.idAt? s = some id ↔ g.start ≤ s ∧ ∃ hs : s < g.stop, g.idAt s hs = id := by
  by_cases hs : g.start ≤ s ∧ s < g.stop
  · rw [idAt?_of_mem hs.1 hs.2, Option.some.injEq, and_iff_right hs.1, exists_prop_of_true hs.2]
  · rw [idAt?_of_not_mem hs]
    constructor
    · intro h
      cases h
    · rintro ⟨hstart, hstop, -⟩
      exact absurd ⟨hstart, hstop⟩ hs

/-! ## Cuts -/

theorem slice_eq_some_iff : g.slice lo hi = some h ↔
    h.start = g.clamp lo ∧ h.stop = g.clamp hi ∧ h.backing = g.backing := by
  have hlt := h.start_lt_stop
  rw [slice]
  constructor
  · intro heq
    split at heq
    · rw [← Option.some.inj heq]
      exact ⟨rfl, rfl, rfl⟩
    · cases heq
  · rintro ⟨hstart, hstop, hbacking⟩
    cases h
    subst hstart hstop hbacking
    exact dif_pos hlt

theorem slice_eq_none_iff : g.slice lo hi = none ↔ g.clamp hi ≤ g.clamp lo := by
  rw [slice]
  split
  · simp only [reduceCtorEq, false_iff]
    omega
  · simp only [true_iff]
    omega

/-- A slice names what the segment names between its ends. -/
theorem idAt?_slice (g : Segment) (lo hi s : Nat) : (g.slice lo hi).bind (·.idAt? s) =
    if g.clamp lo ≤ s ∧ s < g.clamp hi then g.idAt? s else none := by
  have hstart := g.start_le_clamp lo
  have hstop := g.clamp_le_stop hi
  cases hslice : g.slice lo hi with
  | none =>
    rw [slice_eq_none_iff] at hslice
    rw [if_neg (by omega)]
    rfl
  | some h =>
    obtain ⟨hlo, hhi, hbacking⟩ := slice_eq_some_iff.mp hslice
    rw [Option.bind_some, ← hlo, ← hhi]
    split
    · rename_i hs
      rw [idAt?_of_mem hs.1 hs.2, idAt?_of_mem (by omega) (by omega)]
      simp only [idAt, hbacking]
    · rename_i hs
      exact idAt?_of_not_mem hs

theorem places_slice (g : Segment) (lo hi : Nat) : (g.slice lo hi).elim [] places =
    List.range' (g.clamp lo) (g.clamp hi - g.clamp lo) := by
  cases hslice : g.slice lo hi with
  | none =>
    rw [slice_eq_none_iff] at hslice
    rw [Nat.sub_eq_zero_of_le hslice]
    rfl
  | some h =>
    obtain ⟨hlo, hhi, -⟩ := slice_eq_some_iff.mp hslice
    rw [Option.elim_some, places, hlo, hhi]

theorem clamp_start (g : Segment) : g.clamp g.start = g.start := by
  have := g.start_lt_stop
  simp only [clamp]
  omega

theorem clamp_stop (g : Segment) : g.clamp g.stop = g.stop := by
  simp only [clamp]
  omega

/-- The near side of a cut names what comes before it. -/
theorem idAt?_before (g : Segment) (cut s : Nat) :
    (g.before cut).bind (·.idAt? s) = if s < cut then g.idAt? s else none := by
  have hclamp : g.clamp cut = min (max g.start cut) g.stop := rfl
  rw [before, idAt?_slice, clamp_start]
  by_cases hs : g.start ≤ s ∧ s < g.stop
  · have hside : g.start ≤ s ∧ s < g.clamp cut ↔ s < cut := by omega
    simp only [hside]
  · rw [idAt?_of_not_mem hs, ite_self, ite_self]

/-- The far side of a cut names what comes from it on. -/
theorem idAt?_after (g : Segment) (cut s : Nat) :
    (g.after cut).bind (·.idAt? s) = if cut ≤ s then g.idAt? s else none := by
  have hclamp : g.clamp cut = min (max g.start cut) g.stop := rfl
  rw [after, idAt?_slice, clamp_stop]
  by_cases hs : g.start ≤ s ∧ s < g.stop
  · have hside : g.clamp cut ≤ s ∧ s < g.stop ↔ cut ≤ s := by omega
    simp only [hside]
  · rw [idAt?_of_not_mem hs, ite_self, ite_self]

/-- The near side is missing when no place comes before the cut. -/
theorem before_eq_none_iff : g.before cut = none ↔ ∀ s ∈ g.places, cut ≤ s := by
  have hlt := g.start_lt_stop
  have hclamp : g.clamp cut = min (max g.start cut) g.stop := rfl
  rw [before, slice_eq_none_iff, clamp_start]
  constructor
  · intro hcut s hs
    have := mem_places.mp hs
    omega
  · intro hall
    have := hall g.start (mem_places.mpr ⟨Nat.le_refl _, hlt⟩)
    omega

/-- The far side is missing when every place comes before the cut. -/
theorem after_eq_none_iff : g.after cut = none ↔ ∀ s ∈ g.places, s < cut := by
  have hlt := g.start_lt_stop
  have hclamp : g.clamp cut = min (max g.start cut) g.stop := rfl
  rw [after, slice_eq_none_iff, clamp_stop]
  constructor
  · intro hcut s hs
    have := mem_places.mp hs
    omega
  · intro hall
    have := hall (g.stop - 1) (mem_places.mpr ⟨by omega, by omega⟩)
    omega

/-- The places of the two sides, one after the other, are those of the whole. -/
theorem places_before_after (g : Segment) (cut : Nat) :
    (g.before cut).elim [] places ++ (g.after cut).elim [] places = g.places := by
  have hstart := g.start_le_clamp cut
  have hstop := g.clamp_le_stop cut
  have hcut : g.start + 1 * (g.clamp cut - g.start) = g.clamp cut := by omega
  have happend : List.range' g.start (g.clamp cut - g.start) ++
      List.range' (g.start + 1 * (g.clamp cut - g.start)) (g.stop - g.clamp cut) =
        List.range' g.start (g.clamp cut - g.start + (g.stop - g.clamp cut)) := List.range'_append
  rw [hcut] at happend
  rw [before, after, places_slice, places_slice, clamp_start, clamp_stop, places, happend]
  congr 1
  omega

/-! ## Joins -/

/-- Adjacent segments can be joined in either order. -/
theorem join_comm (hadj : h.start = g.stop) : g.join h = h.join g := by
  have hg := g.start_lt_stop
  have hh := h.start_lt_stop
  rw [join, dif_pos (by omega), join, dif_neg (by omega)]
  simp only [Nat.min_comm]

theorem stop_join (hadj : h.start = g.stop) : (g.join h).stop = h.stop := by
  have hh := h.start_lt_stop
  rw [join, dif_pos (by omega)]

theorem ext_of_eq (hstart : g.start = h.start) (hstop : g.stop = h.stop)
    (hbacking : g.backing = h.backing) : g = h := by
  cases g
  cases h
  simp_all

/-- The two sides of a cut make up the whole again. -/
theorem join_before_after (hnear : g.before cut = some near) (hfar : g.after cut = some far) :
    near.join far = g := by
  obtain ⟨hstart, hcut, -⟩ := slice_eq_some_iff.mp hnear
  obtain ⟨hcut', hstop, hbacking⟩ := slice_eq_some_iff.mp hfar
  have hadj : far.start = near.stop := hcut'.trans hcut.symm
  -- the join takes the backing ledger of the far side, which is that of the segment
  apply ext_of_eq
  · rw [start_join hadj, hstart, clamp_start]
  · rw [stop_join hadj, hstop, clamp_stop]
  · rw [backing_join hadj, hbacking]

theorem tip_join (hadj : h.start = g.stop) : (g.join h).tip = h.tip := by
  have hstop := stop_join hadj
  have hbacking := backing_join hadj
  simp only [tip, idAt, hstop, hbacking]

section Archived

variable (ha : a.Sound) (hg : g.backing ∈ a.ledgers) (hh : h.backing ∈ a.ledgers)

include ha hg hh

/-- A history that leads through the tip of a segment leads through all of it. -/
theorem path_prefix_of_ancestor (hancestor : h.backing.ancestor g.tip.seq = .ok g.tip.id) :
    g.path <+: h.backing.txs := by
  by_cases hle : g.stop - 1 ≤ h.backing.seq
  · have hid : h.backing.idAt (g.stop - 1) hle = g.tip.id := by
      rw [show g.tip.seq = g.stop - 1 from rfl, Ledger.ancestor_of_le hle] at hancestor
      exact Except.ok.inj hancestor
    rw [path, ← (ha.idAt_eq_idAt hh hg hle g.tip_le_seq).mp hid]
    exact List.take_prefix _ _
  · rw [show g.tip.seq = g.stop - 1 from rfl, Ledger.ancestor, dif_neg hle] at hancestor
    cases hancestor

theorem idAt_of_path_prefix (hpath : g.path <+: h.backing.txs) (hs : s < g.stop)
    (hs' : s ≤ h.backing.seq) : h.backing.idAt s hs' = g.idAt s hs := by
  have hle : s ≤ g.backing.seq := by
    have := g.stop_le
    omega
  have htake := congrArg (List.take s) (List.prefix_iff_eq_take.mp hpath)
  rw [length_path, path, List.take_take, List.take_take, Nat.min_eq_left (by omega)] at htake
  exact (ha.idAt_eq_idAt hh hg hs' hle).mpr htake.symm

/-- The join of a segment with one that goes on from it names what the two name. -/
theorem idAt?_join (hadj : h.start = g.stop) (hpath : g.path <+: h.backing.txs) (s : Nat) :
    (g.join h).idAt? s = (g.idAt? s).or (h.idAt? s) := by
  have hg' := g.start_lt_stop
  have hh' := h.start_lt_stop
  have hstart := start_join hadj
  have hstop := stop_join hadj
  have hbacking := backing_join hadj
  by_cases hs : g.start ≤ s ∧ s < h.stop
  · rw [idAt?_of_mem (by omega) (by omega)]
    simp only [idAt, hbacking]
    by_cases hnear : s < g.stop
    · rw [idAt?_of_mem hs.1 hnear, Option.some_or, idAt_of_path_prefix ha hg hh hpath hnear]
    · rw [idAt?_of_not_mem (by omega), Option.none_or, idAt?_of_mem (by omega) hs.2]
      rfl
  · rw [idAt?_of_not_mem (by omega), idAt?_of_not_mem (by omega), idAt?_of_not_mem (by omega),
      Option.none_or]

end Archived

/-- A cut at any place, inside the segment or not, deals out the sequence numbers of a segment in
order, with the ledgers that are named there; a side is missing exactly if none falls to it, and the
two sides joined are the segment again. A segment and one that goes on from its tip are joined in
either order to one that reaches from the start of the first to the tip of the second and names the
same ledgers. -/
theorem cut_join (ha : a.Reachable) (hg : g.backing ∈ a.ledgers) :
    (∀ cut, (g.before cut).elim [] places ++ (g.after cut).elim [] places = g.places ∧
      (g.before cut = none ↔ ∀ s ∈ g.places, cut ≤ s) ∧
      (g.after cut = none ↔ ∀ s ∈ g.places, s < cut) ∧
      (∀ s, (g.before cut).bind (·.idAt? s) = if s < cut then g.idAt? s else none) ∧
      (∀ s, (g.after cut).bind (·.idAt? s) = if cut ≤ s then g.idAt? s else none) ∧
      ∀ near far, g.before cut = some near → g.after cut = some far → near.join far = g) ∧
    ∀ h : Segment, h.backing ∈ a.ledgers → h.start = g.stop →
      h.backing.ancestor g.tip.seq = .ok g.tip.id →
      g.join h = h.join g ∧ (g.join h).start = g.start ∧ (g.join h).stop = h.stop ∧
        (g.join h).tip = h.tip ∧ (g.join h).startId = g.startId ∧
        ∀ s, (g.join h).idAt? s = (g.idAt? s).or (h.idAt? s) := by
  constructor
  · intro cut
    exact ⟨places_before_after g cut, before_eq_none_iff, after_eq_none_iff, idAt?_before g cut,
      idAt?_after g cut, fun near far => join_before_after⟩
  · intro h hh hadj hancestor
    have hpath := path_prefix_of_ancestor ha.sound hg hh hancestor
    have hstart := start_join hadj
    have hbacking := backing_join hadj
    refine ⟨join_comm hadj, hstart, stop_join hadj, tip_join hadj, ?_,
      idAt?_join ha.sound hg hh hadj hpath⟩
    simp only [startId, idAt, hstart, hbacking]
    exact idAt_of_path_prefix ha.sound hg hh hpath g.start_lt_stop _

/-- The way from genesis to the trunk of a fork, backed by the one side of it, is cut behind genesis
and joined to the way to the other side. -/
theorem cut_join_fork :
    let trunk : Segment := ⟨0, 2, Fork.right, by decide, by decide⟩
    let left : Segment := ⟨2, 3, Fork.left, by decide, by decide⟩
    Fork.archive.Reachable ∧ trunk.backing ∈ Fork.archive.ledgers ∧
      left.backing ∈ Fork.archive.ledgers ∧ left.start = trunk.stop ∧
      left.backing.ancestor trunk.tip.seq = .ok trunk.tip.id ∧
      (∃ near far, trunk.before 1 = some near ∧ trunk.after 1 = some far ∧ near.join far = trunk) ∧
      trunk.after 7 = none ∧
      (trunk.join left).tip = left.tip ∧ (trunk.join left).idAt? 1 = some 1 ∧
      (trunk.join left).idAt? 2 = some 2 := by
  intro trunk left
  have htrunk : trunk.backing ∈ Fork.archive.ledgers := by decide
  have hleft : left.backing ∈ Fork.archive.ledgers := by decide
  have hancestor : left.backing.ancestor trunk.tip.seq = .ok trunk.tip.id := rfl
  obtain ⟨hcuts, hjoins⟩ := cut_join Fork.archive_reachable htrunk
  obtain ⟨-, -, -, -, -, hjoin⟩ := hcuts 1
  obtain ⟨-, -, hnone, -⟩ := hcuts 7
  obtain ⟨-, -, -, htip, -, hnames⟩ := hjoins left hleft rfl hancestor
  refine ⟨Fork.archive_reachable, htrunk, hleft, rfl, hancestor,
    ⟨_, _, rfl, rfl, hjoin _ _ rfl rfl⟩, hnone.mpr (by decide), htip, ?_, ?_⟩
  · rw [hnames]
    decide
  · rw [hnames]
    decide

end Segment

end ForkChoice

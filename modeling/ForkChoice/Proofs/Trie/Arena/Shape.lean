import ForkChoice.Proofs.Trie.Arena.Run
import ForkChoice.Proofs.Trie.Shape

/-!
# The shape of a trie in an arena

The rows of a trie are read from its slots, the parent of each node by way of the link to it. They
are the rows of the tree that the slots show, so the votes alone decide them.

* `ArenaTrie.rows`: the rows of all slots that are reached from the root.
* `ArenaTrie.Alike`: the same rows, in whatever order.
* `ArenaTrie.run_shape`: the shape after a run.
-/

namespace ForkChoice

variable {Slot : Type} {A : Slots Slot (Cell Slot)}

namespace ArenaTrie

/-- The identifier of the tip of the parent of a cell. -/
def parentTip (s : A.Store) : Option Slot → Except Fault (Option Nat)
  | none => .ok none
  | some p => do
    let d ← A.read s p
    .ok (some d.segment.tip.id)

/-- The row of the node in a slot. -/
def rowAt (s : A.Store) (i : Slot) : Except Fault Row := do
  let c ← A.read s i
  let parent ← parentTip s c.parent
  .ok ⟨c.segment.tip.id, c.segment.start, c.segment.stop, c.tipSupport, c.branchSupport, parent⟩

/-- The rows of all nodes. -/
def rows (t : ArenaTrie A) : Computation (List Row) := do
  let slots ← slotsAt t.store t.root
  (slots.mapM (rowAt t.store) : Except Fault (List Row))

/-- Two tries have the same rows, in whatever order, and the same votes by sequence number. -/
def Alike (t u : ArenaTrie A) : Prop :=
  ∃ xs ys, t.rows = pure xs ∧ u.rows = pure ys ∧ xs.Perm ys ∧ t.seqSupport = u.seqSupport

end ArenaTrie

namespace Node

open ArenaTrie

variable {s : A.Store} {parent : Option Slot} {i : Slot} {n : Node} {kids slots : List Slot}
  {children : List Node} {above : Option Nat}

theorem HeldAll.mapM_rowAt (h : HeldAll (A.get s) parent kids children slots)
    (hrows : ∀ c ∈ children, ∀ i slots, Held (A.get s) parent i c slots →
      slots.mapM (rowAt s) = .ok (c.rows above)) :
    slots.mapM (rowAt s) = .ok (rowsAll above children) := by
  induction children generalizing kids slots with
  | nil =>
    obtain ⟨-, rfl⟩ := heldAll_nil.mp h
    rfl
  | cons child rest ih =>
    obtain ⟨k, others, first, behind, rfl, rfl, hchild, hrest⟩ := heldAll_cons.mp h
    rw [List.mapM_append, hrows child List.mem_cons_self k first hchild,
      ih hrest fun c hc => hrows c (List.mem_cons_of_mem _ hc)]
    rfl

/-- The rows of the slots that a node takes up are its own. -/
theorem Held.mapM_rowAt (h : Held (A.get s) parent i n slots)
    (hparent : parentTip s parent = .ok above) :
    slots.mapM (rowAt s) = .ok (n.rows above) := by
  induction n using below_induction generalizing parent i slots above with
  | node n ih =>
    obtain ⟨kids, below, rfl, hread, hbelow⟩ := h.read_eq
    have htip : parentTip s (some i) = .ok (some n.segment.tip.id) := by
      rw [parentTip, hread]
      rfl
    have hrow : rowAt s i = .ok (n.row above) := by
      rw [rowAt, hread]
      simp only [bind, Except.bind, hparent]
      rfl
    rw [List.mapM_cons, hrow, rows_eq,
      hbelow.mapM_rowAt fun c hc i slots hheld => ih c hc hheld htip]
    rfl

end Node

namespace ArenaTrie

variable {t u : ArenaTrie A} {T U : Trie}

theorem Shows.rows_eq (h : t.Shows T) : t.rows = pure T.rows := by
  obtain ⟨slots, hheld, -⟩ := h.held
  rw [rows, hheld.slotsAt_eq, pure_bind, hheld.mapM_rowAt rfl]
  rfl

theorem Shows.alike (ht : t.Shows T) (hu : u.Shows U) (h : T.Alike U) : t.Alike u :=
  ⟨_, _, ht.rows_eq, hu.rows_eq, h.rows, by rw [ht.seqSupport, hu.seqSupport, h.seqSupport]⟩

variable [DecidableEq Slot] {a : Archive} {changes others : List Change}

/-- Runs that leave the same votes lead to the same shape. -/
theorem run_alike (ha : a.Sound) (h : Admissible a changes) (hothers : Admissible a others)
    (hvotes : votesAfter others = votesAfter changes) (hrun : run A changes = pure t) :
    ∃ u, run A others = pure u ∧ t.Alike u := by
  obtain ⟨t', T, hrun', -, ht, hT⟩ := shows_run A ha h
  obtain rfl : t = t' := by
    have := hrun.symm.trans hrun'
    injection this with this
    injection this
  obtain ⟨u, U, hrunOthers, -, hu, hU⟩ := shows_run A ha hothers
  exact ⟨u, hrunOthers, ht.alike hu (hT.alike ha (hvotes ▸ hU))⟩

/-- The shape of the trie after a run is decided by the votes it leaves: another run that leaves the
same votes leads to the same rows, so votes for two ledgers can be cast in either order and votes
that are cast and withdrawn leave nothing behind. -/
theorem run_shape (A : Slots Slot (Cell Slot)) (ha : a.Reachable) (h : Admissible a changes) :
    ∃ t rows, run A changes = pure t ∧ t.rows = pure rows ∧
      (∀ others, Admissible a others → votesAfter others = votesAfter changes →
        ∃ u, run A others = pure u ∧ t.Alike u) ∧
      (∀ id, (∃ r ∈ rows, r.tipId = id) ↔ ∃ l ∈ a.ledgers, l.id = id ∧
        (l = .genesis ∨ l ∈ votesAfter changes ∨
          ∃ x ∈ votesAfter changes, ∃ y ∈ votesAfter changes, Ledger.LastCommon a x y l)) ∧
      (∀ l m x y, Admissible a (changes ++ [.cast l x] ++ [.cast m y]) →
        ∃ u w, run A (changes ++ [.cast l x] ++ [.cast m y]) = pure u ∧
          run A (changes ++ [.cast m y] ++ [.cast l x]) = pure w ∧ u.Alike w) ∧
      ∀ l x, Admissible a (changes ++ [.cast l x]) →
        ∃ u, run A (changes ++ [.cast l x] ++ [.withdraw l x]) = pure u ∧ t.Alike u := by
  obtain ⟨t, T, hrun, -, ht, hT⟩ := shows_run A ha.sound h
  refine ⟨t, T.rows, hrun, ht.rows_eq,
    fun others hothers hvotes => run_alike ha.sound h hothers hvotes hrun, hT.tip_iff ha.sound,
    fun l m x y hboth => ?_, fun l x hcast => ?_⟩
  · obtain ⟨u, -, hrunBoth, -⟩ := shows_run A ha.sound hboth
    obtain ⟨w, hrunSwap, hw⟩ := run_alike ha.sound hboth hboth.cast_cast
      (votesAfter_cast_cast changes l m x y) hrunBoth
    exact ⟨u, w, hrunBoth, hrunSwap, hw⟩
  · have hundo : votesAfter (changes ++ [.cast l x] ++ [.withdraw l x]) = votesAfter changes := by
      simp only [votesAfter_concat, Change.apply]
      exact Multiset.add_sub_cancel_right
    refine run_alike ha.sound h (hcast.concat (hcast.drawn (.cast l x) (by simp)) ?_) hundo hrun
    rw [hundo]
    exact h.card_le

/-- The trunk of a fork is a node when both sides have votes, and a vote of its own that is
withdrawn again changes nothing. -/
theorem run_shape_fork :
    Fork.archive.Reachable ∧
      Admissible Fork.archive [.cast Fork.left (some 2), .cast Fork.right none] ∧
      ∃ t u rows, run (Slots.numbered _) [.cast Fork.left (some 2), .cast Fork.right none] = pure t ∧
        run (Slots.numbered _) [.cast Fork.trunk none, .cast Fork.right none,
          .cast Fork.left (some 2), .withdraw Fork.trunk (some 3)] = pure u ∧
        t.Alike u ∧ t.rows = pure rows ∧ ∃ r ∈ rows, r.tipId = 1 := by
  have hadmissible : Admissible Fork.archive [.cast Fork.left (some 2),
      .cast Fork.right none] := ⟨by decide, by decide⟩
  obtain ⟨t, rows, hrun, hrows, hother, htip, -⟩ :=
    run_shape (Slots.numbered _) Fork.archive_reachable hadmissible
  obtain ⟨u, hrunOther, halike⟩ := hother [.cast Fork.trunk none, .cast Fork.right none,
    .cast Fork.left (some 2), .withdraw Fork.trunk (some 3)] ⟨by decide, by decide⟩ (by decide)
  refine ⟨Fork.archive_reachable, hadmissible, t, u, rows, hrun, hrunOther, halike, hrows,
    (htip 1).mpr ⟨Fork.trunk, by decide, rfl, Or.inr (Or.inr ?_)⟩⟩
  exact ⟨Fork.left, by decide, Fork.right, by decide, by decide, by decide, by decide⟩

end ArenaTrie

end ForkChoice

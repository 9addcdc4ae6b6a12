import ForkChoice.Proofs.Ledger.Content
import Mathlib.Data.Fintype.Card
import Mathlib.Logic.Relation

/-!
# What an archive hands out

Ledgers leave an archive when it accepts them and when they are looked up, and only ledgers that
came from it, or genesis, are given back to it as parents. All that was ever handed out stays true
of the archive: a ledger is known by its identifier just as well as by its transactions.

* `Holdings`, `Holdings.Run`: an archive with the ledgers that its users hold, over any calls.
* `Holdings.Run.mem_held`: the ledgers held are the ledgers of the archive.
* `Holdings.Run.lookup_later`: what an archive answers once it answers for ever.
* `Archive.Sound.seq_lt_size`: no history is longer than the archive.
* `run_content_addressed`: identifiers, transactions and ledgers determine each other.
-/

namespace ForkChoice

namespace Archive

variable {a : Archive} {parent l : Ledger} {tx id : Nat}

theorem txs_accept (a : Archive) (parent : Ledger) (tx : Nat) :
    (a.accept parent tx).1.txs = parent.txs ++ [tx] := by
  obtain ⟨id, hchild, -⟩ := a.exists_accept parent tx
  rw [hchild]
  rfl

/-- An archive only ever grows at its end. -/
theorem ledgers_prefix_accept (a : Archive) (parent : Ledger) (tx : Nat) :
    a.ledgers <+: (a.accept parent tx).2.ledgers := by
  cases hid : a.idOf? (parent.txs ++ [tx]) with
  | none =>
    rw [accept_of_new hid]
    exact List.prefix_append a.ledgers _
  | some id =>
    rw [accept_of_known hid]

/-- A child is archived if its transactions are new. -/
theorem size_accept (a : Archive) (parent : Ledger) (tx : Nat) :
    (a.accept parent tx).2.size =
      if ∃ m ∈ a.ledgers, m.txs = parent.txs ++ [tx] then a.size else a.size + 1 := by
  cases hid : a.idOf? (parent.txs ++ [tx]) with
  | none =>
    have hnew : ¬ ∃ m ∈ a.ledgers, m.txs = parent.txs ++ [tx] := by
      rintro ⟨m, hm, htxs⟩
      exact ne_of_idOf? hid m hm htxs
    rw [accept_of_new hid, if_neg hnew, size, List.length_append]
    rfl
  | some id =>
    obtain ⟨hlt, htxs⟩ := txs_of_idOf? hid
    have hold : ∃ m ∈ a.ledgers, m.txs = parent.txs ++ [tx] :=
      ⟨a.ledgers[id], List.getElem_mem hlt, htxs⟩
    rw [accept_of_known hid, if_pos hold]

/-- The ledgers of an archive after a child was accepted. -/
theorem mem_accept_iff (hsound : a.Sound) (hp : parent ∈ a.ledgers) :
    l ∈ (a.accept parent tx).2.ledgers ↔ l = (a.accept parent tx).1 ∨ l ∈ a.ledgers := by
  constructor
  · intro hl
    cases hid : a.idOf? (parent.txs ++ [tx]) with
    | none =>
      rw [accept_of_new hid] at hl ⊢
      rw [List.mem_append, List.mem_singleton] at hl
      exact hl.symm
    | some id =>
      rw [accept_of_known hid] at hl
      exact Or.inr hl
  · rintro (rfl | hl)
    · exact hsound.accept_mem hp tx
    · exact (ledgers_prefix_accept a parent tx).subset hl

namespace Sound

theorem lookup_eq_some_iff (hsound : a.Sound) :
    a.lookup id = some l ↔ l ∈ a.ledgers ∧ l.id = id := by
  constructor
  · intro h
    exact ⟨List.mem_of_getElem? h, hsound.id_eq h⟩
  · rintro ⟨hl, rfl⟩
    obtain ⟨i, hi⟩ := List.mem_iff_getElem?.mp hl
    rw [hsound.id_eq hi]
    exact hi

/-- The identifiers in use are those below the number of ledgers. -/
theorem exists_id_iff (hsound : a.Sound) : (∃ l ∈ a.ledgers, l.id = id) ↔ id < a.size := by
  constructor
  · rintro ⟨l, hl, hid⟩
    obtain ⟨hlt, -⟩ := List.getElem?_eq_some_iff.mp (hsound.lookup_eq_some_iff.mpr ⟨hl, hid⟩)
    exact hlt
  · intro hlt
    have hfound : a.ledgers[id]? = some a.ledgers[id] := List.getElem?_eq_getElem hlt
    exact ⟨a.ledgers[id], List.getElem_mem hlt, hsound.id_eq hfound⟩

theorem id_eq_id_iff (hsound : a.Sound) {x y : Ledger} (hx : x ∈ a.ledgers) (hy : y ∈ a.ledgers) :
    x.id = y.id ↔ x.txs = y.txs := by
  constructor
  · intro hid
    rw [hsound.eq_of_id hx hy hid]
  · intro htxs
    rw [hsound.eq_of_txs hx hy htxs]

/-- The identifiers along a history are all different, so no history is longer than the archive. -/
theorem seq_lt_size (hsound : a.Sound) (hl : l ∈ a.ledgers) : l.seq < a.size := by
  have hlt (s : Nat) (hs : s ≤ l.seq) : l.idAt s hs < a.size := by
    obtain ⟨m, hm, -, hid⟩ := hsound.ancestor hl s hs
    exact hsound.exists_id_iff.mp ⟨m, hm, hid⟩
  let place (s : Fin (l.seq + 1)) : Fin a.size := ⟨l.idAt s (by omega), hlt s (by omega)⟩
  have hinj : Function.Injective place := by
    intro s t hst
    have htake := (hsound.idAt_eq_idAt hl hl _ _).mp (Fin.mk.inj hst)
    have hlength := congrArg List.length htake
    simp only [List.length_take] at hlength
    have hs : s.val ≤ l.txs.length := Nat.le_of_lt_succ s.isLt
    have ht : t.val ≤ l.txs.length := Nat.le_of_lt_succ t.isLt
    omega
  have hcard := Fintype.card_le_of_injective place hinj
  rwa [Fintype.card_fin, Fintype.card_fin] at hcard

/-- The ancestor at a place of a history is the archived ledger with so many of the transactions. -/
theorem exists_ancestor (hsound : a.Sound) (hl : l ∈ a.ledgers) {s : Nat} (hs : s ≤ l.seq) :
    ∃ m ∈ a.ledgers, m.txs = l.txs.take s ∧ l.ancestor s = .ok m.id := by
  obtain ⟨m, hm, htxs, hid⟩ := hsound.ancestor hl s hs
  refine ⟨m, hm, htxs, ?_⟩
  rw [Ledger.ancestor_of_le hs, hid]

end Sound

end Archive

/-! ## Ledgers in the hands of users -/

/-- An archive and the ledgers that its users hold. -/
structure Holdings where
  archive : Archive
  held : List Ledger

namespace Holdings

/-- Genesis needs no archive. -/
def start : Holdings := ⟨.empty, [.genesis]⟩

/-- One call: a child of a ledger that is held is accepted, or a ledger is looked up. -/
inductive Step : Holdings → Holdings → Prop
  | accept {h : Holdings} {parent : Ledger} (hp : parent ∈ h.held) (tx : Nat) :
      Step h ⟨(h.archive.accept parent tx).2, (h.archive.accept parent tx).1 :: h.held⟩
  | lookup {h : Holdings} {id : Nat} {l : Ledger} (hl : h.archive.lookup id = some l) :
      Step h ⟨h.archive, l :: h.held⟩

/-- Any calls, one after another. -/
def Run : Holdings → Holdings → Prop := Relation.ReflTransGen Step

/-- What users hold is what the archive has. -/
structure Agree (h : Holdings) : Prop where
  sound : h.archive.Sound
  mem_held : ∀ {l : Ledger}, l ∈ h.held ↔ l ∈ h.archive.ledgers

theorem agree_start : start.Agree := ⟨.empty, Iff.rfl⟩

variable {h later : Holdings}

theorem Agree.step (hagree : h.Agree) (hstep : h.Step later) : later.Agree := by
  cases hstep with
  | accept hp tx =>
    have hparent := hagree.mem_held.mp hp
    refine ⟨hagree.sound.accept hparent tx, fun {l} => ?_⟩
    rw [List.mem_cons, Archive.mem_accept_iff hagree.sound hparent, hagree.mem_held]
  | lookup hl =>
    refine ⟨hagree.sound, fun {k} => ?_⟩
    rw [List.mem_cons, hagree.mem_held, or_iff_right_of_imp]
    rintro rfl
    exact List.mem_of_getElem? hl

theorem Step.ledgers_prefix (hstep : h.Step later) :
    h.archive.ledgers <+: later.archive.ledgers := by
  cases hstep with
  | accept hp tx => exact Archive.ledgers_prefix_accept _ _ tx
  | lookup hl => exact List.prefix_rfl

namespace Run

theorem agree (hrun : start.Run h) : h.Agree := by
  induction hrun with
  | refl => exact agree_start
  | tail _ hstep ih => exact ih.step hstep

theorem ledgers_prefix (hrun : h.Run later) : h.archive.ledgers <+: later.archive.ledgers := by
  induction hrun with
  | refl => exact List.prefix_rfl
  | tail _ hstep ih => exact ih.trans hstep.ledgers_prefix

/-- A ledger that an archive finds it will always find. -/
theorem lookup_later (hrun : h.Run later) {id : Nat} {l : Ledger}
    (hl : h.archive.lookup id = some l) : later.archive.lookup id = some l := by
  obtain ⟨hlt, rfl⟩ := List.getElem?_eq_some_iff.mp hl
  exact List.prefix_iff_getElem?.mp hrun.ledgers_prefix id hlt

end Run

/-- The ledgers that users hold are content-addressed. Their identifiers are the numbers below the
size of the archive, which counts the different transaction lists, and each is found under its
identifier from then on, history and all. Identifiers, transaction lists and ledgers determine each
other, and the ancestor at a place of a history has so many of the transactions. -/
theorem run_content_addressed (hrun : start.Run h) (hlater : h.Run later) :
    (∀ id, (∃ l ∈ h.held, l.id = id) ↔ id < h.archive.size) ∧
    (∀ parent ∈ h.held, ∀ tx,
      (h.archive.accept parent tx).1.txs = parent.txs ++ [tx] ∧
      (h.archive.accept parent tx).1.seq = parent.seq + 1 ∧
      (h.archive.accept parent tx).2.size =
        if ∃ l ∈ h.held, l.txs = parent.txs ++ [tx] then h.archive.size else h.archive.size + 1) ∧
    (∀ x ∈ h.held, ∀ y ∈ h.held,
      (x.id = y.id ↔ x.txs = y.txs) ∧ (x.txs = y.txs ↔ x.sameAs y = true) ∧
        (x.sameAs y = true ↔ x = y)) ∧
    ∀ l ∈ h.held, l.seq = l.txs.length ∧ l.seq < h.archive.size ∧
      (∀ s ≤ l.seq, ∃ m ∈ h.held, m.txs = l.txs.take s ∧ l.ancestor s = .ok m.id) ∧
      later.archive.lookup l.id = some l := by
  obtain ⟨hsound, hheld⟩ := hrun.agree
  simp only [hheld]
  refine ⟨fun id => hsound.exists_id_iff, ?_, ?_, ?_⟩
  · intro parent hp tx
    have htxs := Archive.txs_accept h.archive parent tx
    refine ⟨htxs, ?_, Archive.size_accept h.archive parent tx⟩
    rw [Ledger.seq, htxs, List.length_append]
    rfl
  · intro x hx y hy
    have hids := hsound.id_eq_id_iff hx hy
    have hsame : x.sameAs y = true ↔ x.txs = y.txs := by
      rw [Ledger.sameAs, Bool.and_eq_true, beq_iff_eq, beq_iff_eq, hids, and_self]
    refine ⟨hids, hsame.symm, hsame.trans ⟨hsound.eq_of_txs hx hy, ?_⟩⟩
    rintro rfl
    rfl
  · intro l hl
    refine ⟨rfl, hsound.seq_lt_size hl, fun s hs => hsound.exists_ancestor hl hs, ?_⟩
    exact hlater.lookup_later (hsound.lookup_eq_some_iff.mpr ⟨hl, rfl⟩)

/-- A child that is accepted again, this time of a parent that was looked up. -/
theorem run_content_addressed_fork :
    let h : Holdings := ⟨Fork.archive, [Fork.right, Fork.left, Fork.trunk, .genesis]⟩
    let later : Holdings := ⟨Fork.archive, Fork.left :: Fork.trunk :: h.held⟩
    start.Run h ∧ h.Run later ∧ Fork.archive.size = 4 ∧
      (∀ id, (∃ l ∈ h.held, l.id = id) ↔ id < 4) ∧
      (∃ m ∈ h.held, m.txs = [7] ∧ Fork.left.ancestor 1 = .ok m.id) ∧
      later.archive.lookup 2 = some Fork.left := by
  intro h later
  have hrun : start.Run h := by
    have hfirst : start.Run ⟨_, _⟩ := .single (.accept (List.mem_singleton_self _) 7)
    have hsecond : start.Run ⟨_, _⟩ := hfirst.tail (.accept (List.mem_cons_self) 8)
    exact hsecond.tail (.accept (List.mem_cons_of_mem _ List.mem_cons_self) 9)
  have hlater : h.Run later := by
    have hfound : Fork.archive.lookup 1 = some Fork.trunk := rfl
    let found : Holdings := ⟨Fork.archive, Fork.trunk :: h.held⟩
    have hparent : Fork.trunk ∈ found.held := List.mem_cons_self
    have hagain : found.Step later := .accept hparent 8
    exact .tail (.single (.lookup hfound)) hagain
  obtain ⟨hids, -, -, hledgers⟩ := run_content_addressed hrun hlater
  have hleft : Fork.left ∈ h.held := by decide
  obtain ⟨-, -, hancestors, hlookup⟩ := hledgers Fork.left hleft
  exact ⟨hrun, hlater, rfl, hids, hancestors 1 (by decide), hlookup⟩

end Holdings

end ForkChoice

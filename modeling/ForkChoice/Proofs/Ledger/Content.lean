import ForkChoice.Ledger

/-!
# Identifiers stand for histories

An archive that grew from genesis by accepting children of its own ledgers is content-addressed:
an identifier, wherever it occurs in a history, stands for one list of transactions.

* `Archive.Reachable`: the archives that can arise.
* `Archive.Sound`: the invariant of these archives.
* `Archive.Reachable.sound`: every reachable archive is sound.
* `Archive.Sound.idAt_eq_idAt`: two histories show the same identifier exactly where they have the
  same transactions behind them.
* `Archive.Sound.accept_mem`: a ledger handed out by `accept` is the one that the archive holds.
* `Ledger.leadsTo_iff`: descent is the prefix order on transaction lists.
* `Ledger.leadsTo_of_seq_le`, `Ledger.leadsTo_antisymm`: descent orders the ledgers on one path.
-/

namespace ForkChoice

namespace Ledger

theorem id_eq_get (l : Ledger) {s : Nat} (h : s ≤ l.seq) (hs : l.seq ≤ s) : l.idAt s h = l.id := by
  have : s = l.seq := Nat.le_antisymm h hs
  subst this
  rfl

theorem ancestor_of_le {l : Ledger} {s : Nat} (h : s ≤ l.seq) : l.ancestor s = .ok (l.idAt s h) :=
  dif_pos h

/-- A ledger is known by its transactions and the identifiers of its history. -/
theorem ext_idAt {x y : Ledger} (htxs : x.txs = y.txs)
    (hids : ∀ s (hx : s ≤ x.seq) (hy : s ≤ y.seq), x.idAt s hx = y.idAt s hy) : x = y := by
  cases x with
  | mk xtxs xhistory xlength =>
    cases y with
    | mk ytxs yhistory ylength =>
      cases htxs
      have hhistory : xhistory = yhistory := by
        apply List.ext_getElem (xlength.trans ylength.symm)
        intro i hx hy
        exact hids i (by simp only [seq]; omega) (by simp only [seq]; omega)
      subst hhistory
      rfl

theorem idAt_extend {l : Ledger} (tx id : Nat) {s : Nat} (h : s ≤ l.seq)
    (h' : s ≤ (l.extend tx id).seq) : (l.extend tx id).idAt s h' = l.idAt s h := by
  have hs : s < l.history.length := Nat.lt_of_le_of_lt h l.seq_lt_length
  simp [idAt, extend, List.getElem_append_left hs]

/-- Whether the history of `m` leads to `l`: the two are the same, or `m` descends from `l`. -/
def leadsTo (m l : Ledger) : Bool := m == l || m.descendsFrom l

end Ledger

namespace Archive

theorem accept_of_known {a : Archive} {parent : Ledger} {tx id : Nat}
    (h : a.idOf? (parent.txs ++ [tx]) = some id) :
    a.accept parent tx = (parent.extend tx id, a) := by
  simp only [accept, h]

theorem accept_of_new {a : Archive} {parent : Ledger} {tx : Nat}
    (h : a.idOf? (parent.txs ++ [tx]) = none) :
    a.accept parent tx = (parent.extend tx a.size, ⟨a.ledgers ++ [parent.extend tx a.size]⟩) := by
  simp only [accept, h]

theorem txs_of_idOf? {a : Archive} {txs : List Nat} {id : Nat} (h : a.idOf? txs = some id) :
    ∃ hlt : id < a.ledgers.length, a.ledgers[id].txs = txs := by
  obtain ⟨hlt, htxs, -⟩ := List.findIdx?_eq_some_iff_getElem.mp h
  exact ⟨hlt, eq_of_beq htxs⟩

theorem ne_of_idOf? {a : Archive} {txs : List Nat} (h : a.idOf? txs = none) :
    ∀ m ∈ a.ledgers, m.txs ≠ txs := by
  intro m hm
  simpa using List.findIdx?_eq_none_iff.mp h m hm

/-- Transactions keep their identifier. -/
theorem idOf?_accept {a : Archive} {txs : List Nat} {id : Nat} (h : a.idOf? txs = some id)
    (parent : Ledger) (tx : Nat) : (a.accept parent tx).2.idOf? txs = some id := by
  cases hid : a.idOf? (parent.txs ++ [tx]) with
  | some old =>
    rw [accept_of_known hid]
    exact h
  | none =>
    rw [accept_of_new hid, idOf?, List.findIdx?_append]
    rw [idOf?] at h
    rw [h, Option.some_or]

/-- A child is its parent with one more transaction, under the identifier of its transactions. -/
theorem exists_accept (a : Archive) (parent : Ledger) (tx : Nat) :
    ∃ id, (a.accept parent tx).1 = parent.extend tx id ∧
      (a.accept parent tx).2.idOf? (parent.txs ++ [tx]) = some id := by
  cases hid : a.idOf? (parent.txs ++ [tx]) with
  | some id =>
    rw [accept_of_known hid]
    exact ⟨id, rfl, hid⟩
  | none =>
    rw [accept_of_new hid]
    refine ⟨a.size, rfl, ?_⟩
    rw [idOf?, List.findIdx?_append]
    rw [idOf?] at hid
    simp [hid, Ledger.extend, size]

/-- The archives that arise when children of held ledgers are accepted. -/
inductive Reachable : Archive → Prop
  | empty : Reachable .empty
  | accept {a : Archive} {parent : Ledger} {tx : Nat} (h : Reachable a)
      (hp : parent ∈ a.ledgers) : Reachable (a.accept parent tx).2

/-- Each ledger stands at the place of its identifier, no two have the same transactions, and every
entry of a history is the identifier of the archived ledger that the history had reached there. -/
structure Sound (a : Archive) : Prop where
  genesis_mem : Ledger.genesis ∈ a.ledgers
  id_eq : ∀ {i : Nat} {l : Ledger}, a.ledgers[i]? = some l → l.id = i
  eq_of_txs : ∀ {x y : Ledger}, x ∈ a.ledgers → y ∈ a.ledgers → x.txs = y.txs → x = y
  ancestor : ∀ {l : Ledger}, l ∈ a.ledgers → ∀ s (h : s ≤ l.seq),
    ∃ m ∈ a.ledgers, m.txs = l.txs.take s ∧ m.id = l.idAt s h

namespace Sound

variable {a : Archive}

theorem eq_of_id (ha : a.Sound) {x y : Ledger} (hx : x ∈ a.ledgers) (hy : y ∈ a.ledgers)
    (h : x.id = y.id) : x = y := by
  obtain ⟨i, hi⟩ := List.mem_iff_getElem?.mp hx
  obtain ⟨j, hj⟩ := List.mem_iff_getElem?.mp hy
  have hij : i = j := by rw [← ha.id_eq hi, ← ha.id_eq hj, h]
  subst hij
  exact Option.some.inj (hi.symm.trans hj)

/-- Identifiers in histories agree exactly when the transactions behind them do. -/
theorem idAt_eq_idAt (ha : a.Sound) {x y : Ledger} (hx : x ∈ a.ledgers) (hy : y ∈ a.ledgers)
    {s t : Nat} (hs : s ≤ x.seq) (ht : t ≤ y.seq) :
    x.idAt s hs = y.idAt t ht ↔ x.txs.take s = y.txs.take t := by
  obtain ⟨m, hm, hmtxs, hmid⟩ := ha.ancestor hx s hs
  obtain ⟨n, hn, hntxs, hnid⟩ := ha.ancestor hy t ht
  rw [← hmid, ← hnid, ← hmtxs, ← hntxs]
  constructor
  · intro h
    rw [ha.eq_of_id hm hn h]
  · intro h
    rw [ha.eq_of_txs hm hn h]

theorem idAt_eq_id (ha : a.Sound) {x y : Ledger} (hx : x ∈ a.ledgers) (hy : y ∈ a.ledgers)
    {s : Nat} (hs : s ≤ x.seq) : x.idAt s hs = y.id ↔ x.txs.take s = y.txs := by
  have h := ha.idAt_eq_idAt hx hy hs (Nat.le_refl y.seq)
  rwa [show y.txs.take y.seq = y.txs from List.take_length] at h

/-- The archived ledger at a place of a history. -/
theorem exists_txs (ha : a.Sound) {l : Ledger} (hl : l ∈ a.ledgers) {p : List Nat}
    (hp : p <+: l.txs) : ∃ m ∈ a.ledgers, m.txs = p := by
  obtain ⟨m, hm, hmtxs, -⟩ := ha.ancestor hl p.length hp.length_le
  exact ⟨m, hm, hmtxs.trans (List.prefix_iff_eq_take.mp hp).symm⟩

theorem empty : Archive.empty.Sound where
  genesis_mem := List.mem_singleton.mpr rfl
  id_eq := by
    intro i l h
    obtain ⟨hi, rfl⟩ := List.getElem?_eq_some_iff.mp h
    have : i = 0 := by simpa [Archive.empty] using hi
    subst this
    rfl
  eq_of_txs := by
    intro x y hx hy _
    rw [List.mem_singleton.mp hx, List.mem_singleton.mp hy]
  ancestor := by
    intro l hl s h
    cases List.mem_singleton.mp hl
    have : s = 0 := by simpa using h
    subst this
    exact ⟨Ledger.genesis, hl, rfl, rfl⟩

theorem accept_mem (ha : a.Sound) {parent : Ledger} (hp : parent ∈ a.ledgers) (tx : Nat) :
    (a.accept parent tx).1 ∈ (a.accept parent tx).2.ledgers := by
  cases hid : a.idOf? (parent.txs ++ [tx]) with
  | none =>
    rw [accept_of_new hid]
    exact List.mem_append_right _ (List.mem_singleton.mpr rfl)
  | some id =>
    rw [accept_of_known hid]
    obtain ⟨hlt, htxs⟩ := txs_of_idOf? hid
    -- the archived ledger with these transactions has the history of this child
    let m := a.ledgers[id]
    have hm : m ∈ a.ledgers := List.getElem_mem hlt
    have hmtxs : m.txs = parent.txs ++ [tx] := htxs
    have hmid : m.id = id := ha.id_eq (List.getElem?_eq_getElem hlt)
    have hext : parent.extend tx id = m := by
      refine Ledger.ext_idAt hmtxs.symm fun s hs hs' => ?_
      rcases Nat.lt_or_ge parent.seq s with hlast | hbefore
      · rw [Ledger.seq_extend] at hs
        rw [Ledger.id_eq_get m hs' (by simp only [Ledger.seq, hmtxs] at *; simp; omega), hmid]
        rw [Ledger.id_eq_get _ _ (by rw [Ledger.seq_extend]; omega), Ledger.id_extend]
      · rw [Ledger.idAt_extend tx id hbefore, ha.idAt_eq_idAt hp hm hbefore hs', hmtxs]
        rw [List.take_append_of_le_length hbefore]
    rw [hext]
    exact hm

theorem accept (ha : a.Sound) {parent : Ledger} (hp : parent ∈ a.ledgers) (tx : Nat) :
    (a.accept parent tx).2.Sound := by
  cases hid : a.idOf? (parent.txs ++ [tx]) with
  | some id =>
    rw [accept_of_known hid]
    exact ha
  | none =>
    rw [accept_of_new hid]
    have hnew := ne_of_idOf? hid
    refine ⟨List.mem_append_left _ ha.genesis_mem, ?_, ?_, ?_⟩
    · intro i l h
      rw [List.getElem?_append] at h
      split at h
      · exact ha.id_eq h
      · obtain ⟨h0, rfl⟩ := List.getElem?_eq_some_iff.mp h
        simp only [List.length_singleton] at h0
        simp only [List.getElem_singleton, Ledger.id_extend, size]
        omega
    · intro x y hx hy hxy
      rcases List.mem_append.mp hx with hx | hx <;> rcases List.mem_append.mp hy with hy | hy
      · exact ha.eq_of_txs hx hy hxy
      · exact absurd (hxy.trans (by rw [List.mem_singleton.mp hy]; rfl)) (hnew x hx)
      · exact absurd (hxy.symm.trans (by rw [List.mem_singleton.mp hx]; rfl)) (hnew y hy)
      · rw [List.mem_singleton.mp hx, List.mem_singleton.mp hy]
    · intro l hl s hs
      rcases List.mem_append.mp hl with hl | hl
      · obtain ⟨m, hm, hmtxs, hmid⟩ := ha.ancestor hl s hs
        exact ⟨m, List.mem_append_left _ hm, hmtxs, hmid⟩
      · obtain rfl := List.mem_singleton.mp hl
        rcases Nat.lt_or_ge parent.seq s with hlast | hbefore
        · refine ⟨_, List.mem_append_right _ hl, ?_, (Ledger.id_eq_get _ hs (by rw [Ledger.seq_extend]; omega)).symm⟩
          rw [List.take_of_length_le]
          simp only [Ledger.seq, Ledger.extend] at *
          simp only [List.length_append, List.length_singleton]
          omega
        · obtain ⟨m, hm, hmtxs, hmid⟩ := ha.ancestor hp s hbefore
          refine ⟨m, List.mem_append_left _ hm, ?_, ?_⟩
          · rw [hmtxs]
            simp only [Ledger.extend]
            rw [List.take_append_of_le_length hbefore]
          · rw [hmid, Ledger.idAt_extend _ _ hbefore]

end Sound

theorem Reachable.sound {a : Archive} (h : a.Reachable) : a.Sound := by
  induction h with
  | empty => exact Sound.empty
  | accept _ hp ih => exact ih.accept hp _

end Archive

/-! ## A fork

Two ledgers with one parent, small enough to follow by hand. -/

namespace Fork

def trunk : Ledger := Ledger.genesis.extend 7 1

def left : Ledger := trunk.extend 8 2

def right : Ledger := trunk.extend 9 3

/-- The archive after the three ledgers were accepted. -/
def archive : Archive :=
  (((Archive.empty.accept .genesis 7).2.accept trunk 8).2.accept trunk 9).2

theorem archive_reachable : archive.Reachable :=
  ((Archive.Reachable.empty.accept (by decide)).accept (by decide)).accept (by decide)

end Fork

/-! ## Descent -/

theorem Ledger.descendsFrom_iff {a : Archive} (ha : a.Sound) {l m : Ledger} (hl : l ∈ a.ledgers)
    (hm : m ∈ a.ledgers) : m.descendsFrom l = true ↔ l.seq < m.seq ∧ m.txs.take l.seq = l.txs := by
  unfold descendsFrom
  split
  · rename_i h
    simp [h, ha.idAt_eq_id hm hl (Nat.le_of_lt h)]
  · rename_i h
    simp [h]

/-- A history leads to a ledger when its transactions begin with those of the ledger. -/
theorem Ledger.leadsTo_iff {a : Archive} (ha : a.Sound) {l m : Ledger} (hl : l ∈ a.ledgers)
    (hm : m ∈ a.ledgers) : m.leadsTo l = true ↔ l.txs <+: m.txs := by
  rw [leadsTo, Bool.or_eq_true, beq_iff_eq, descendsFrom_iff ha hl hm, List.prefix_iff_eq_take]
  constructor
  · rintro (rfl | ⟨-, h⟩)
    · exact List.take_length.symm
    · exact h.symm
  · intro h
    rcases Nat.lt_or_ge l.seq m.seq with hs | hs
    · exact Or.inr ⟨hs, h.symm⟩
    · exact Or.inl (ha.eq_of_txs hm hl (h.trans (List.take_of_length_le hs)).symm)

namespace Ledger

theorem seq_le_of_leadsTo {l m : Ledger} (h : m.leadsTo l = true) : l.seq ≤ m.seq := by
  rw [leadsTo, Bool.or_eq_true, beq_iff_eq] at h
  rcases h with rfl | h
  · exact Nat.le_refl _
  · unfold descendsFrom at h
    split at h
    · omega
    · cases h

theorem not_leadsTo_of_lt {l m : Ledger} (h : m.seq < l.seq) : ¬ m.leadsTo l = true := by
  intro hleads
  have := seq_le_of_leadsTo hleads
  omega

theorem not_descendsFrom_self (l : Ledger) : ¬ l.descendsFrom l = true := by
  rw [descendsFrom, dif_neg (Nat.lt_irrefl _)]
  exact Bool.false_ne_true

theorem leadsTo_refl (l : Ledger) : l.leadsTo l = true := by
  rw [leadsTo, beq_self_eq_true, Bool.true_or]

section Order

variable {a : Archive} {k l m : Ledger} (ha : a.Sound) (hk : k ∈ a.ledgers) (hl : l ∈ a.ledgers)
  (hm : m ∈ a.ledgers)

include ha hl

theorem leadsTo_genesis : l.leadsTo .genesis = true :=
  (leadsTo_iff ha ha.genesis_mem hl).mpr List.nil_prefix

include hk

theorem leadsTo_antisymm (hkl : k.leadsTo l = true) (hlk : l.leadsTo k = true) : k = l := by
  have hlength := Nat.le_antisymm (seq_le_of_leadsTo hlk) (seq_le_of_leadsTo hkl)
  rw [leadsTo_iff ha hk hl] at hlk
  exact ha.eq_of_txs hk hl (hlk.eq_of_length hlength)

include hm

theorem leadsTo_trans (hml : m.leadsTo l = true) (hlk : l.leadsTo k = true) :
    m.leadsTo k = true := by
  rw [leadsTo_iff ha hl hm] at hml
  rw [leadsTo_iff ha hk hl] at hlk
  rw [leadsTo_iff ha hk hm]
  exact hlk.trans hml

/-- Of two ledgers on one path, the later one leads to the other. -/
theorem leadsTo_of_seq_le (hmk : m.leadsTo k = true) (hml : m.leadsTo l = true)
    (hseq : k.seq ≤ l.seq) : l.leadsTo k = true := by
  rw [leadsTo_iff ha hk hm] at hmk
  rw [leadsTo_iff ha hl hm] at hml
  rw [leadsTo_iff ha hk hl]
  exact List.prefix_of_prefix_length_le hmk hml hseq

end Order

end Ledger

end ForkChoice

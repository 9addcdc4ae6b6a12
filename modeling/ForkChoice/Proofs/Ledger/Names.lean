import ForkChoice.Ledger.Naming
import ForkChoice.Proofs.Ledger.Content
import Mathlib.Data.List.Basic
import Mathlib.Data.List.Induction
import Mathlib.Data.List.Nodup
import Mathlib.Tactic.Tauto

/-!
# Names mirror histories

The ledger of a name has the ledgers of the prefixes for its history, whoever else has ledgers
accepted by the same archive. A name can be formed as long as the characters that it adds to its
longest known prefix were never spent.

* `Naming.Formed`: what holds of names, archive and transactions at any time, also while the
  ancestors of a name are still being made.
* `Naming.Formed.history`, `Naming.Formed.eq_of_id`: names against histories and identifiers.
* `Naming.fresh`: the characters that a name adds to its longest known prefix.
* `Naming.resolveReversed_ok`, `Naming.resolveReversed_error`: when a name can be formed.
* `Naming.run_names`: any requests, up to the first fault.
-/

namespace ForkChoice

namespace Naming

/-- The ledger of a name that is given by its characters. -/
def ledgerOf (n : Naming) (w : List Char) : Option Ledger := n.known[String.ofList w]?

variable {n m : Naming} {v w r : List Char} {c d : Char} {k l parent : Ledger}

theorem ledgerOf_toList (n : Naming) (name : String) : n.ledgerOf name.toList = n.known[name]? := by
  rw [ledgerOf, String.ofList_toList]

/-- What holds of the names known so far. The ledger of a name goes on from the ledger of the name
without its last character by a transaction of its own, and its last character is spent. -/
structure Formed (n : Naming) : Prop where
  root : n.ledgerOf [] = some .genesis
  archived : ∀ {w l}, n.ledgerOf w = some l → n.archive.idOf? l.txs = some l.id
  grown : ∀ {w c l}, n.ledgerOf (w ++ [c]) = some l →
    ∃ parent tx, n.ledgerOf w = some parent ∧ l = parent.extend tx l.id ∧ tx ≤ n.issued
  apart : ∀ {v w c d k l}, n.ledgerOf (v ++ [c]) = some k → n.ledgerOf (w ++ [d]) = some l →
    k.txs.getLast? = l.txs.getLast? → v ++ [c] = w ++ [d]
  spends : ∀ {w c l}, n.ledgerOf (w ++ [c]) = some l → c ∈ n.spent

/-- No other name may end in this character. -/
def spend (n : Naming) (c : Char) : Naming := { n with spent := n.spent.insert c }

theorem mem_spent_spend : d ∈ (n.spend c).spent ↔ d = c ∨ d ∈ n.spent := by
  rw [spend, Std.ExtTreeSet.mem_insert, Std.compare_eq_iff_eq, eq_comm]

theorem getLast?_extend (parent : Ledger) (tx id : Nat) :
    (parent.extend tx id).txs.getLast? = some tx := List.getLast?_concat

namespace Formed

/-- The history of a ledger spells its name. -/
theorem history (h : n.Formed) (hl : n.ledgerOf w = some l) :
    l.seq = w.length ∧
      ∀ i ≤ w.length, ∃ m, n.ledgerOf (w.take i) = some m ∧ l.ancestor i = .ok m.id := by
  induction w using List.reverseRecOn generalizing l with
  | nil =>
    obtain rfl := Option.some.inj (h.root.symm.trans hl)
    refine ⟨rfl, fun i hi => ?_⟩
    obtain rfl : i = 0 := Nat.le_zero.mp hi
    exact ⟨.genesis, hl, rfl⟩
  | append_singleton w c ih =>
    obtain ⟨parent, tx, hparent, hext, -⟩ := h.grown hl
    obtain ⟨hseq, hancestors⟩ := ih hparent
    have hlength : l.seq = w.length + 1 := by rw [hext, Ledger.seq_extend, hseq]
    rw [List.length_append, List.length_singleton]
    refine ⟨hlength, fun i hi => ?_⟩
    rcases Nat.lt_or_ge w.length i with hlast | hbefore
    · -- the whole name
      obtain rfl : i = w.length + 1 := by omega
      refine ⟨l, ?_, ?_⟩
      · rw [List.take_of_length_le (by simp), hl]
      · rw [← hlength, Ledger.ancestor_of_le (Nat.le_refl _)]
        rfl
    · obtain ⟨m, hm, hid⟩ := hancestors i hbefore
      refine ⟨m, ?_, ?_⟩
      · rw [List.take_append_of_le_length hbefore, hm]
      · have hle : i ≤ parent.seq := by omega
        rw [Ledger.ancestor_of_le hle] at hid
        rw [hext, Ledger.ancestor_of_le (by rw [Ledger.seq_extend]; omega),
          Ledger.idAt_extend tx l.id hle, hid]

theorem exists_prefix (h : n.Formed) (hw : (n.ledgerOf w).isSome) (hv : v <+: w) :
    (n.ledgerOf v).isSome := by
  obtain ⟨l, hl⟩ := Option.isSome_iff_exists.mp hw
  obtain ⟨m, hm, -⟩ := (h.history hl).2 v.length hv.length_le
  rw [← List.prefix_iff_eq_take.mp hv] at hm
  exact Option.isSome_of_eq_some hm

theorem eq_of_txs (h : n.Formed) (hk : n.ledgerOf v = some k) (hl : n.ledgerOf w = some l)
    (htxs : k.txs = l.txs) : v = w := by
  have hlength : v.length = w.length := by
    rw [← (h.history hk).1, ← (h.history hl).1, Ledger.seq, Ledger.seq, htxs]
  rcases List.eq_nil_or_concat' v with rfl | ⟨v, c, rfl⟩
  · exact (List.length_eq_zero_iff.mp hlength.symm).symm
  · rcases List.eq_nil_or_concat' w with rfl | ⟨w, d, rfl⟩
    · simp at hlength
    · exact h.apart hk hl (congrArg List.getLast? htxs)

/-- Different names have different identifiers. -/
theorem eq_of_id (h : n.Formed) (hk : n.ledgerOf v = some k) (hl : n.ledgerOf w = some l)
    (hid : k.id = l.id) : v = w := by
  obtain ⟨hlt, hktxs⟩ := Archive.txs_of_idOf? (h.archived hk)
  obtain ⟨hlt', hltxs⟩ := Archive.txs_of_idOf? (h.archived hl)
  have htxs : k.txs = l.txs := by
    rw [← hktxs, ← hltxs]
    simp only [hid]
  exact h.eq_of_txs hk hl htxs

/-- Ledgers of others do not matter. -/
theorem accept (h : n.Formed) (parent : Ledger) (tx : Nat) : (n.accept parent tx).2.Formed :=
  { h with archived := fun hl => Archive.idOf?_accept (h.archived hl) parent tx }

theorem spend (h : n.Formed) (c : Char) : (n.spend c).Formed :=
  { h with spends := fun hl => mem_spent_spend.mpr (Or.inr (h.spends hl)) }

end Formed

/-! ## One more name -/

/-- The child of `parent` that gets a name. -/
def create (n : Naming) (parent : Ledger) (w : List Char) : Ledger × Naming :=
  let made := { n with issued := n.issued + 1 }.accept parent (n.issued + 1)
  (made.1, { made.2 with known := made.2.known.insert (String.ofList w) made.1 })

theorem ledgerOf_create (n : Naming) (parent : Ledger) (v w : List Char) :
    (n.create parent w).2.ledgerOf v =
      if w = v then some (n.create parent w).1 else n.ledgerOf v := by
  rw [ledgerOf, create, Std.ExtTreeMap.getElem?_insert]
  simp only [Std.compare_eq_iff_eq, String.ofList_inj]
  rfl

theorem ledgerOf_create_self (n : Naming) (parent : Ledger) (w : List Char) :
    (n.create parent w).2.ledgerOf w = some (n.create parent w).1 := by
  rw [ledgerOf_create, if_pos rfl]

theorem ledgerOf_create_of_some (hnew : n.ledgerOf w = none) (hl : n.ledgerOf v = some l) :
    (n.create parent w).2.ledgerOf v = some l := by
  rw [ledgerOf_create, if_neg, hl]
  rintro rfl
  rw [hl] at hnew
  cases hnew

theorem exists_create (n : Naming) (parent : Ledger) (w : List Char) :
    ∃ id, (n.create parent w).1 = parent.extend (n.issued + 1) id ∧
      (n.create parent w).2.archive.idOf? (parent.txs ++ [n.issued + 1]) = some id :=
  n.archive.exists_accept parent (n.issued + 1)

theorem Formed.create (h : n.Formed) (hparent : n.ledgerOf w = some parent)
    (hnew : n.ledgerOf (w ++ [c]) = none) (hspent : c ∈ n.spent) :
    (n.create parent (w ++ [c])).2.Formed := by
  obtain ⟨id, hext, hid⟩ := n.exists_create parent (w ++ [c])
  have hold {v : List Char} {l : Ledger} (hne : w ++ [c] ≠ v)
      (hl : (n.create parent (w ++ [c])).2.ledgerOf v = some l) : n.ledgerOf v = some l := by
    rwa [ledgerOf_create, if_neg hne] at hl
  have hself {l : Ledger} (hl : (n.create parent (w ++ [c])).2.ledgerOf (w ++ [c]) = some l) :
      l = parent.extend (n.issued + 1) id := by
    rw [ledgerOf_create_self, hext] at hl
    exact (Option.some.inj hl).symm
  -- the transaction of the new name was issued for no name before
  have hlast {v : List Char} {d : Char} {l : Ledger} (hl : n.ledgerOf (v ++ [d]) = some l) :
      l.txs.getLast? ≠ some (n.issued + 1) := by
    obtain ⟨_, tx, -, hgrown, hissued⟩ := h.grown hl
    rw [hgrown, getLast?_extend]
    intro heq
    have := Option.some.inj heq
    omega
  constructor
  case root => exact ledgerOf_create_of_some hnew h.root
  case archived =>
    intro v l hl
    by_cases hne : w ++ [c] = v
    · subst hne
      obtain rfl := hself hl
      rw [Ledger.id_extend]
      exact hid
    · exact Archive.idOf?_accept (h.archived (hold hne hl)) parent (n.issued + 1)
  case grown =>
    intro v d l hl
    by_cases hne : w ++ [c] = v ++ [d]
    · obtain ⟨rfl, -⟩ := List.append_inj' hne rfl
      rw [← hne] at hl
      obtain rfl := hself hl
      refine ⟨parent, n.issued + 1, ledgerOf_create_of_some hnew hparent, ?_, Nat.le_refl _⟩
      rw [Ledger.id_extend]
    · obtain ⟨before, tx, hbefore, hgrown, hissued⟩ := h.grown (hold hne hl)
      exact ⟨before, tx, ledgerOf_create_of_some hnew hbefore, hgrown, Nat.le_succ_of_le hissued⟩
  case apart =>
    intro u v d e k l hk hl heq
    by_cases hku : w ++ [c] = u ++ [d] <;> by_cases hlv : w ++ [c] = v ++ [e]
    · exact hku.symm.trans hlv
    · rw [← hku] at hk
      rw [hself hk, getLast?_extend] at heq
      exact absurd heq.symm (hlast (hold hlv hl))
    · rw [← hlv] at hl
      rw [hself hl, getLast?_extend] at heq
      exact absurd heq (hlast (hold hku hk))
    · exact h.apart (hold hku hk) (hold hlv hl) heq
  case spends =>
    intro v d l hl
    by_cases hne : w ++ [c] = v ++ [d]
    · obtain ⟨-, hcd⟩ := List.append_inj' hne rfl
      obtain rfl := List.singleton_inj.mp hcd
      exact hspent
    · exact h.spends (hold hne hl)

/-! ## The fresh part of a name -/

/-- The characters that a name adds to its longest known prefix, both spelled backwards. -/
def fresh (n : Naming) : List Char → List Char
  | [] => []
  | c :: rest => if (n.ledgerOf (rest.reverse ++ [c])).isSome then [] else c :: n.fresh rest

theorem fresh_of_some (hl : n.ledgerOf (r.reverse ++ [c]) = some l) : n.fresh (c :: r) = [] := by
  rw [fresh, hl]
  rfl

theorem fresh_of_none (hnew : n.ledgerOf (r.reverse ++ [c]) = none) :
    n.fresh (c :: r) = c :: n.fresh r := by
  rw [fresh, hnew]
  rfl

/-- What is fresh depends on the known names alone. -/
theorem fresh_spend (n : Naming) (c : Char) (r : List Char) : (n.spend c).fresh r = n.fresh r := by
  induction r with
  | nil => rfl
  | cons d r ih =>
    rw [fresh, fresh, ih]
    rfl

theorem Formed.exists_stem (h : n.Formed) (r : List Char) :
    ∃ stem, r.reverse = stem ++ (n.fresh r).reverse ∧ (n.ledgerOf stem).isSome ∧
      ∀ v, (n.ledgerOf v).isSome → v <+: r.reverse → v <+: stem := by
  induction r with
  | nil => exact ⟨[], rfl, Option.isSome_of_eq_some h.root, fun v _ hv => hv⟩
  | cons c r ih =>
    rw [List.reverse_cons]
    cases hl : n.ledgerOf (r.reverse ++ [c]) with
    | some l =>
      rw [fresh_of_some hl]
      exact ⟨r.reverse ++ [c], (List.append_nil _).symm, Option.isSome_of_eq_some hl,
        fun v _ hv => hv⟩
    | none =>
      obtain ⟨stem, hr, hstem, hlongest⟩ := ih
      refine ⟨stem, ?_, hstem, fun v hv hpre => ?_⟩
      · rw [fresh_of_none hl, List.reverse_cons, ← List.append_assoc, ← hr]
      · rcases List.prefix_concat_iff.mp hpre with rfl | hpre
        · rw [hl] at hv
          cases hv
        · exact hlongest v hv hpre

theorem Formed.mem_fresh_iff (h : n.Formed) :
    c ∈ n.fresh r ↔ ∃ w, w ++ [c] <+: r.reverse ∧ n.ledgerOf (w ++ [c]) = none := by
  induction r with
  | nil => simp [fresh]
  | cons d r ih =>
    rw [List.reverse_cons]
    cases hl : n.ledgerOf (r.reverse ++ [d]) with
    | some l =>
      rw [fresh_of_some hl]
      refine iff_of_false List.not_mem_nil ?_
      rintro ⟨w, hpre, hnone⟩
      have := h.exists_prefix (Option.isSome_of_eq_some hl) hpre
      rw [hnone] at this
      cases this
    | none =>
      rw [fresh_of_none hl, List.mem_cons, ih]
      constructor
      · rintro (rfl | ⟨w, hpre, hnone⟩)
        · exact ⟨r.reverse, List.prefix_rfl, hl⟩
        · exact ⟨w, hpre.trans (List.prefix_append _ _), hnone⟩
      · rintro ⟨w, hpre, hnone⟩
        rcases List.prefix_concat_iff.mp hpre with heq | hpre
        · obtain ⟨-, hcd⟩ := List.append_inj' heq rfl
          exact Or.inl (List.singleton_inj.mp hcd)
        · exact Or.inr ⟨w, hpre, hnone⟩

/-! ## Resolving a name -/

theorem resolveReversed_known (hl : n.ledgerOf r.reverse = some l) :
    resolveReversed r n = .ok (l, n) := by
  cases r with
  | nil =>
    have hroot : n.known[""]? = some l := hl
    rw [resolveReversed, Std.ExtTreeMap.getD_eq_getD_getElem?, hroot]
    rfl
  | cons c r =>
    have hname : n.known[String.ofList (c :: r).reverse]? = some l := hl
    rw [resolveReversed, hname]

theorem resolveReversed_spent (hnew : n.ledgerOf (c :: r).reverse = none) (hspent : c ∈ n.spent) :
    resolveReversed (c :: r) n = .error (.reusedName (String.ofList (c :: r).reverse)) := by
  have hname : n.known[String.ofList (c :: r).reverse]? = none := hnew
  rw [resolveReversed, hname]
  exact if_pos (Std.ExtTreeSet.contains_iff_mem.mpr hspent)

theorem resolveReversed_new (hnew : n.ledgerOf (c :: r).reverse = none) (hspent : c ∉ n.spent) :
    resolveReversed (c :: r) n =
      (resolveReversed r (n.spend c)).map fun found =>
        found.2.create found.1 (c :: r).reverse := by
  have hname : n.known[String.ofList (c :: r).reverse]? = none := hnew
  rw [resolveReversed, hname]
  dsimp only [spend]
  rw [if_neg fun hmem => hspent (Std.ExtTreeSet.contains_iff_mem.mp hmem)]
  cases resolveReversed r { n with spent := n.spent.insert c } with
  | error fault => rfl
  | ok found => rfl

/-- What resolving a name that is spelled backwards leads to. -/
structure Resolved (n : Naming) (r : List Char) (l : Ledger) (m : Naming) : Prop where
  formed : m.Formed
  found : m.ledgerOf r.reverse = some l
  kept : ∀ {w k}, n.ledgerOf w = some k → m.ledgerOf w = some k
  isSome_iff : ∀ w, (m.ledgerOf w).isSome ↔ (n.ledgerOf w).isSome ∨ w <+: r.reverse
  mem_spent : ∀ c, c ∈ m.spent ↔ c ∈ n.spent ∨ c ∈ n.fresh r

theorem Formed.resolved_self (h : n.Formed) (hl : n.ledgerOf r.reverse = some l) :
    n.Resolved r l n where
  formed := h
  found := hl
  kept := id
  isSome_iff w := by
    refine (or_iff_left_of_imp fun hpre => ?_).symm
    exact h.exists_prefix (Option.isSome_of_eq_some hl) hpre
  mem_spent c := by
    refine (or_iff_left_of_imp fun hc => ?_).symm
    obtain ⟨w, hpre, hnone⟩ := h.mem_fresh_iff.mp hc
    have := h.exists_prefix (Option.isSome_of_eq_some hl) hpre
    rw [hnone] at this
    cases this

theorem Resolved.create (hnew : n.ledgerOf (r.reverse ++ [c]) = none)
    (h : (n.spend c).Resolved r parent m) :
    n.Resolved (c :: r) (m.create parent (c :: r).reverse).1
      (m.create parent (c :: r).reverse).2 := by
  rw [List.reverse_cons]
  have hstill : m.ledgerOf (r.reverse ++ [c]) = none := by
    rw [← Option.not_isSome_iff_eq_none, h.isSome_iff]
    rintro (hbefore | hpre)
    · have : (n.ledgerOf (r.reverse ++ [c])).isSome := hbefore
      rw [hnew] at this
      cases this
    · have := hpre.length_le
      rw [List.length_append, List.length_singleton] at this
      omega
  have hspent : c ∈ m.spent :=
    (h.mem_spent c).mpr (Or.inl (mem_spent_spend.mpr (Or.inl rfl)))
  constructor
  case formed => exact h.formed.create h.found hstill hspent
  case found =>
    rw [List.reverse_cons]
    exact ledgerOf_create_self m parent _
  case kept =>
    intro w k hk
    exact ledgerOf_create_of_some hstill (h.kept hk)
  case isSome_iff =>
    intro w
    rw [List.reverse_cons, List.prefix_concat_iff, ledgerOf_create]
    by_cases hw : r.reverse ++ [c] = w
    · simp [hw]
    · rw [if_neg hw, h.isSome_iff]
      have hself : ¬ w = r.reverse ++ [c] := fun heq => hw heq.symm
      rw [or_iff_right hself]
      rfl
  case mem_spent =>
    intro d
    have hsame : d ∈ (m.create parent (r.reverse ++ [c])).2.spent ↔ d ∈ m.spent := Iff.rfl
    rw [hsame, h.mem_spent, fresh_of_none hnew, List.mem_cons, fresh_spend, mem_spent_spend]
    tauto

/-- Whether the fresh part of a name can be spent. -/
def Spendable (n : Naming) (r : List Char) : Prop :=
  (n.fresh r).Nodup ∧ ∀ c ∈ n.fresh r, c ∉ n.spent

/-- The first character of a fresh part is spent before the others are. -/
theorem spendable_cons (hnew : n.ledgerOf (r.reverse ++ [c]) = none) :
    n.Spendable (c :: r) ↔ c ∉ n.spent ∧ (n.spend c).Spendable r := by
  rw [Spendable, Spendable, fresh_of_none hnew, fresh_spend, List.nodup_cons, List.forall_mem_cons]
  simp only [mem_spent_spend, not_or]
  constructor
  · rintro ⟨⟨hc, hnodup⟩, hspent, hrest⟩
    refine ⟨hspent, hnodup, fun d hd => ⟨?_, hrest d hd⟩⟩
    rintro rfl
    exact hc hd
  · rintro ⟨hspent, hnodup, hrest⟩
    exact ⟨⟨fun hc => (hrest c hc).1 rfl, hnodup⟩, hspent, fun d hd => (hrest d hd).2⟩

theorem spendable_of_some (hl : n.ledgerOf (r.reverse ++ [c]) = some l) :
    n.Spendable (c :: r) := by
  rw [Spendable, fresh_of_some hl]
  exact ⟨List.nodup_nil, fun d hd => absurd hd List.not_mem_nil⟩

/-- A name whose fresh part can be spent is resolved. -/
theorem resolveReversed_ok (h : n.Formed) (hspend : n.Spendable r) :
    ∃ l m, resolveReversed r n = .ok (l, m) ∧ n.Resolved r l m := by
  induction r generalizing n with
  | nil => exact ⟨.genesis, n, resolveReversed_known h.root, h.resolved_self h.root⟩
  | cons c r ih =>
    cases hl : n.ledgerOf (c :: r).reverse with
    | some l => exact ⟨l, n, resolveReversed_known hl, h.resolved_self hl⟩
    | none =>
      have hnew := hl
      rw [List.reverse_cons] at hnew
      obtain ⟨hspent, hrest⟩ := (spendable_cons hnew).mp hspend
      obtain ⟨parent, m, hparent, hresolved⟩ := ih (h.spend c) hrest
      refine ⟨_, _, ?_, hresolved.create hnew⟩
      rw [resolveReversed_new hl hspent, hparent]
      rfl

/-- A name whose fresh part cannot be spent is not resolved. -/
theorem resolveReversed_error (hspend : ¬ n.Spendable r) :
    ∃ name, resolveReversed r n = .error (.reusedName name) := by
  induction r generalizing n with
  | nil => exact absurd ⟨List.nodup_nil, fun c hc => absurd hc List.not_mem_nil⟩ hspend
  | cons c r ih =>
    cases hl : n.ledgerOf (c :: r).reverse with
    | some l =>
      rw [List.reverse_cons] at hl
      exact absurd (spendable_of_some hl) hspend
    | none =>
      by_cases hspent : c ∈ n.spent
      · exact ⟨_, resolveReversed_spent hl hspent⟩
      · rw [resolveReversed_new hl hspent]
        rw [List.reverse_cons] at hl
        have hrest : ¬ (n.spend c).Spendable r := by
          intro hrest
          exact hspend ((spendable_cons hl).mpr ⟨hspent, hrest⟩)
        obtain ⟨name, hname⟩ := ih hrest
        exact ⟨name, by rw [hname]; rfl⟩

theorem resolved_of_ok (h : n.Formed) (hok : resolveReversed r n = .ok (l, m)) :
    n.Resolved r l m := by
  by_cases hspend : n.Spendable r
  · obtain ⟨l', m', hfound, hresolved⟩ := resolveReversed_ok h hspend
    obtain ⟨rfl, rfl⟩ := Prod.mk.inj (Except.ok.inj (hfound.symm.trans hok))
    exact hresolved
  · obtain ⟨name, hname⟩ := resolveReversed_error hspend
    rw [hname] at hok
    cases hok

/-! ## Requests -/

/-- What can be asked: the ledger of a name, or a child of a ledger that gets no name. -/
inductive Request where
  | resolve (name : String)
  | accept (parent : Ledger) (tx : Nat)

def answer (n : Naming) : Request → Except Fault (Ledger × Naming)
  | .resolve name => n.resolve name
  | .accept parent tx => .ok (n.accept parent tx)

/-- Requests one after another, up to the first fault. -/
def run (n : Naming) : List Request → Except Fault Naming
  | [] => .ok n
  | request :: requests =>
    match n.answer request with
    | .error fault => .error fault
    | .ok (_, m) => m.run requests

/-- Between two requests exactly the last characters of the known names are spent. -/
structure Settled (n : Naming) : Prop where
  formed : n.Formed
  mem_spent : ∀ c, c ∈ n.spent ↔ ∃ w, (n.ledgerOf (w ++ [c])).isSome

/-- What some requests lead to: names stay known, and the prefixes of the names asked for become
known. -/
structure Grown (n : Naming) (requests : List Request) (m : Naming) : Prop where
  settled : m.Settled
  kept : ∀ {w k}, n.ledgerOf w = some k → m.ledgerOf w = some k
  isSome_iff : ∀ w, (m.ledgerOf w).isSome ↔
    (n.ledgerOf w).isSome ∨ ∃ name, .resolve name ∈ requests ∧ w <+: name.toList

theorem ledgerOf_empty (w : List Char) :
    Naming.empty.ledgerOf w = if w = [] then some .genesis else none := by
  have hroot : "" = String.ofList w ↔ w = [] := by
    rw [show "" = String.ofList [] from rfl, String.ofList_inj, eq_comm]
  rw [ledgerOf, Naming.empty, Std.ExtTreeMap.getElem?_insert, Std.ExtTreeMap.getElem?_empty]
  simp only [Std.compare_eq_iff_eq, hroot]

theorem settled_empty : Settled .empty := by
  have hnone (w : List Char) (c : Char) : Naming.empty.ledgerOf (w ++ [c]) = none := by
    rw [ledgerOf_empty, if_neg (List.append_ne_nil_of_right_ne_nil w (List.cons_ne_nil c []))]
  constructor
  case formed =>
    constructor
    case root => exact ledgerOf_empty []
    case archived =>
      intro w l hl
      rw [ledgerOf_empty] at hl
      split at hl
      · obtain rfl := Option.some.inj hl
        rfl
      · cases hl
    case grown =>
      intro w c l hl
      rw [hnone] at hl
      cases hl
    case apart =>
      intro v w c d k l hk
      rw [hnone] at hk
      cases hk
    case spends =>
      intro w c l hl
      rw [hnone] at hl
      cases hl
  case mem_spent =>
    intro c
    refine iff_of_false Std.ExtTreeSet.not_mem_empty ?_
    rintro ⟨w, hw⟩
    rw [hnone] at hw
    cases hw

theorem Settled.grown_nil (h : n.Settled) : n.Grown [] n where
  settled := h
  kept := id
  isSome_iff w := by simp

theorem Grown.trans {requests requests' : List Request} {p : Naming} (h : n.Grown requests m)
    (h' : m.Grown requests' p) : n.Grown (requests ++ requests') p where
  settled := h'.settled
  kept hk := h'.kept (h.kept hk)
  isSome_iff w := by
    rw [h'.isSome_iff, h.isSome_iff]
    simp only [List.mem_append, or_and_right, exists_or, or_assoc]

theorem Settled.resolve {name : String} (h : n.Settled)
    (hresolved : n.Resolved name.toList.reverse l m) : n.Grown [.resolve name] m where
  settled := by
    refine ⟨hresolved.formed, fun c => ?_⟩
    rw [hresolved.mem_spent, h.mem_spent, h.formed.mem_fresh_iff, ← exists_or]
    apply exists_congr
    intro w
    rw [hresolved.isSome_iff, ← Option.not_isSome_iff_eq_none]
    tauto
  kept := hresolved.kept
  isSome_iff w := by
    rw [hresolved.isSome_iff, List.reverse_reverse]
    simp

theorem Settled.accept (h : n.Settled) (parent : Ledger) (tx : Nat) :
    n.Grown [.accept parent tx] (n.accept parent tx).2 where
  settled := ⟨h.formed.accept parent tx, h.mem_spent⟩
  kept := id
  isSome_iff w := by
    refine (or_iff_left ?_).symm
    rintro ⟨name, hname, -⟩
    cases List.mem_singleton.mp hname

theorem Settled.answer {request : Request} (h : n.Settled)
    (hanswer : n.answer request = .ok (l, m)) : n.Grown [request] m := by
  cases request with
  | resolve name => exact h.resolve (resolved_of_ok h.formed hanswer)
  | accept parent tx =>
    obtain ⟨-, rfl⟩ := Prod.mk.inj (Except.ok.inj hanswer)
    exact h.accept parent tx

theorem Settled.run {requests : List Request} (h : n.Settled) (hrun : n.run requests = .ok m) :
    n.Grown requests m := by
  induction requests generalizing n with
  | nil =>
    obtain rfl := Except.ok.inj hrun
    exact h.grown_nil
  | cons request requests ih =>
    rw [Naming.run] at hrun
    split at hrun
    · cases hrun
    · rename_i l p hanswer
      have hfirst := h.answer hanswer
      exact hfirst.trans (ih hfirst.settled hrun)

theorem run_concat {requests : List Request} {request : Request} (hrun : n.run requests = .ok m)
    {p : Naming} (hanswer : m.answer request = .ok (l, p)) :
    n.run (requests ++ [request]) = .ok p := by
  induction requests generalizing n with
  | nil =>
    obtain rfl := Except.ok.inj hrun
    rw [List.nil_append, Naming.run, hanswer]
    rfl
  | cons first requests ih =>
    rw [Naming.run] at hrun
    rw [List.cons_append, Naming.run]
    cases hfirst : n.answer first with
    | error fault =>
      rw [hfirst] at hrun
      cases hrun
    | ok found =>
      rw [hfirst] at hrun
      exact ih hrun

/-! ## Names as texts -/

theorem mem_known_iff {name : String} : name ∈ n.known ↔ (n.ledgerOf name.toList).isSome := by
  rw [ledgerOf_toList, Std.ExtTreeMap.mem_iff_isSome_getElem?]

theorem ofList_mem_known_iff : String.ofList w ∈ n.known ↔ (n.ledgerOf w).isSome := by
  rw [mem_known_iff, String.toList_ofList]

theorem resolve_known {name : String} (hl : n.known[name]? = some l) :
    n.resolve name = .ok (l, n) := by
  apply resolveReversed_known
  rw [List.reverse_reverse, ledgerOf_toList, hl]

/-- The characters that are spent end the known names. -/
theorem Settled.mem_spent_iff (h : n.Settled) :
    c ∈ n.spent ↔ ∃ earlier ∈ n.known, earlier.toList.getLast? = some c := by
  rw [h.mem_spent]
  constructor
  · rintro ⟨w, hw⟩
    refine ⟨String.ofList (w ++ [c]), ofList_mem_known_iff.mpr hw, ?_⟩
    rw [String.toList_ofList, List.getLast?_concat]
  · rintro ⟨earlier, hknown, hlast⟩
    obtain ⟨w, hw⟩ := List.getLast?_eq_some_iff.mp hlast
    rw [mem_known_iff, hw] at hknown
    exact ⟨w, hknown⟩

theorem Settled.exists_resolve_iff (h : n.Settled) (r : List Char) :
    (∃ l m, resolveReversed r n = .ok (l, m)) ↔ (n.fresh r).reverse.Nodup ∧
      ∀ c ∈ (n.fresh r).reverse, ∀ earlier ∈ n.known, earlier.toList.getLast? ≠ some c := by
  have hspend : n.Spendable r ↔ (n.fresh r).reverse.Nodup ∧
      ∀ c ∈ (n.fresh r).reverse, ∀ earlier ∈ n.known, earlier.toList.getLast? ≠ some c := by
    rw [Spendable, List.nodup_reverse]
    simp only [List.mem_reverse, h.mem_spent_iff, not_exists, not_and, ne_eq]
  rw [← hspend]
  constructor
  · rintro ⟨l, m, hok⟩
    by_contra hbad
    obtain ⟨name, hname⟩ := resolveReversed_error hbad
    rw [hname] at hok
    cases hok
  · intro hgood
    obtain ⟨l, m, hok, -⟩ := resolveReversed_ok h.formed hgood
    exact ⟨l, m, hok⟩

/-- Names over any requests that were carried out. Known are the prefixes of the names asked for,
and a known name is resolved without a change to a ledger whose history spells it. Any name is
resolved just when the characters behind its longest known prefix are all different and end no known
name; what was resolved is known from then on, and no two names share an identifier. -/
theorem run_names {requests : List Request} (hrun : Naming.empty.run requests = .ok n) :
    (∀ name, name ∈ n.known ↔
      name = "" ∨ ∃ asked, .resolve asked ∈ requests ∧ name.toList <+: asked.toList) ∧
    (∀ (name : String) (l : Ledger), n.known[name]? = some l →
      n.resolve name = .ok (l, n) ∧ l.seq = name.length ∧
      ∀ i ≤ name.length, ∃ m, n.known[String.ofList (name.toList.take i)]? = some m ∧
        l.ancestor i = .ok m.id) ∧
    (∀ (v w : String) (k l : Ledger), n.known[v]? = some k → n.known[w]? = some l →
      k.id = l.id → v = w) ∧
    (∀ name : String, ∃ stem fresh, name.toList = stem ++ fresh ∧
      String.ofList stem ∈ n.known ∧
      (∀ longer ∈ n.known, longer.toList <+: name.toList → longer.toList <+: stem) ∧
      ((∃ l m, n.resolve name = .ok (l, m)) ↔
        fresh.Nodup ∧ ∀ c ∈ fresh, ∀ earlier ∈ n.known, earlier.toList.getLast? ≠ some c)) ∧
    ∀ name l m, n.resolve name = .ok (l, m) →
      Naming.empty.run (requests ++ [.resolve name]) = .ok m ∧ m.known[name]? = some l ∧
      ∀ later p, m.run later = .ok p → p.resolve name = .ok (l, p) := by
  have hgrown := settled_empty.run hrun
  have hsettled := hgrown.settled
  refine ⟨fun name => ?_, fun name l hl => ?_, fun v w k l hk hl hid => ?_, fun name => ?_,
    fun name l m hresolve => ?_⟩
  · rw [mem_known_iff, hgrown.isSome_iff, ledgerOf_empty, ← String.toList_eq_nil_iff]
    split <;> simp [*]
  · rw [← ledgerOf_toList] at hl
    obtain ⟨hseq, hancestors⟩ := hsettled.formed.history hl
    rw [String.length_toList] at hseq hancestors
    exact ⟨resolve_known ((ledgerOf_toList n name).symm.trans hl), hseq, hancestors⟩
  · rw [← ledgerOf_toList] at hk hl
    exact String.toList_injective (hsettled.formed.eq_of_id hk hl hid)
  · obtain ⟨stem, hname, hstem, hlongest⟩ := hsettled.formed.exists_stem name.toList.reverse
    rw [List.reverse_reverse] at hname hlongest
    refine ⟨stem, _, hname, ofList_mem_known_iff.mpr hstem, fun longer hknown hpre => ?_,
      hsettled.exists_resolve_iff name.toList.reverse⟩
    exact hlongest longer.toList (mem_known_iff.mp hknown) hpre
  · have hresolved := resolved_of_ok hsettled.formed hresolve
    have hm := (hsettled.resolve hresolved).settled
    have hl := hresolved.found
    rw [List.reverse_reverse] at hl
    refine ⟨run_concat hrun hresolve, (ledgerOf_toList m name).symm.trans hl,
      fun later p hlater => ?_⟩
    have hkept := (hm.run hlater).kept hl
    exact resolve_known ((ledgerOf_toList p name).symm.trans hkept)

/-- After `ab`, whose first ledger somebody else has accepted as well, the name `cb` cannot be
formed but `abc` can. -/
theorem run_names_fork :
    ∃ n, Naming.empty.run [.resolve "ab", .accept .genesis 1] = .ok n ∧
      (¬ ∃ l m, n.resolve "cb" = .ok (l, m)) ∧
      ∃ l m, n.resolve "abc" = .ok (l, m) ∧ l.seq = 3 ∧
        ∃ b, m.known["ab"]? = some b ∧ l.ancestor 2 = .ok b.id := by
  have hok : (Naming.empty.run [.resolve "ab", .accept .genesis 1]).isOk = true := by
    decide +kernel
  cases hrun : Naming.empty.run [.resolve "ab", .accept .genesis 1] with
  | error fault =>
    rw [hrun] at hok
    cases hok
  | ok n =>
    obtain ⟨hknown, -, -, hresolves, hresult⟩ := run_names hrun
    have hpre : ∀ name ∈ n.known, name.toList <+: ['a', 'b'] := by
      intro name hname
      rcases (hknown name).mp hname with rfl | ⟨asked, hasked, hpre⟩
      · exact List.nil_prefix
      · have : asked = "ab" := by simpa using hasked
        rwa [this] at hpre
    have hab : "ab" ∈ n.known := (hknown "ab").mpr (Or.inr ⟨"ab", by simp, List.prefix_rfl⟩)
    refine ⟨n, rfl, ?_, ?_⟩
    · obtain ⟨stem, fresh, hname, hstem, -, hiff⟩ := hresolves "cb"
      have hnil : stem = [] := by
        have hfront := hpre _ hstem
        rw [String.toList_ofList] at hfront
        cases stem with
        | nil => rfl
        | cons d stem =>
          have hc : 'c' = d := (List.cons.inj hname).1
          have ha : d = 'a' := (List.cons_prefix_cons.mp hfront).1
          exact absurd (hc.trans ha) (by decide)
      rw [hiff]
      rintro ⟨-, hnew⟩
      rw [hnil, List.nil_append] at hname
      exact hnew 'b' (hname ▸ by decide) "ab" hab rfl
    · obtain ⟨stem, fresh, hname, hstem, hlongest, hiff⟩ := hresolves "abc"
      have hstem : stem = ['a', 'b'] := by
        have hfront := hpre _ hstem
        rw [String.toList_ofList] at hfront
        have hback : ['a', 'b'] <+: stem := hlongest "ab" hab (by decide)
        exact hfront.eq_of_length_le hback.length_le
      rw [hstem] at hname
      have hsplit : ['a', 'b'] ++ ['c'] = ['a', 'b'] ++ fresh := hname
      obtain rfl := List.append_cancel_left hsplit
      have hnew : ∀ c ∈ ['c'], ∀ earlier ∈ n.known, earlier.toList.getLast? ≠ some c := by
        intro c hc earlier hearlier hlast
        obtain rfl := List.mem_singleton.mp hc
        have hmem := (hpre earlier hearlier).subset (List.mem_of_getLast? hlast)
        exact absurd hmem (by decide)
      obtain ⟨l, m, hresolve⟩ := hiff.mpr ⟨List.nodup_singleton 'c', hnew⟩
      obtain ⟨hmore, hl, -⟩ := hresult "abc" l m hresolve
      obtain ⟨-, hseq, hancestors⟩ := (run_names hmore).2.1 "abc" l hl
      obtain ⟨b, hb, hid⟩ := hancestors 2 (by decide)
      exact ⟨l, m, hresolve, hseq, b, hb, hid⟩

end Naming

end ForkChoice

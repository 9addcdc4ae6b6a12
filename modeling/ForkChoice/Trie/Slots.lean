import Std.Data.ExtTreeMap

/-!
# Slots

An arena keeps values in slots and hands out a slot for each value put into it. Slots are known only
by what may be done with them, so that nothing depends on how an arena numbers or reuses them.

* `Slots`: the operations of an arena and what they are to do.
* `Slots.numbered`: an arena that counts its slots and uses none twice.
-/

namespace ForkChoice

/-- An arena for values in slots. A slot that was handed out and not freed since is occupied. -/
structure Slots (Slot α : Type) where
  Store : Type
  /-- The arena without occupied slots. -/
  empty : Store
  get : Store → Slot → Option α
  /-- Puts a value into a slot that the arena chooses. -/
  put : Store → α → Slot × Store
  set : Store → Slot → α → Store
  free : Store → Slot → Store
  get_empty : ∀ i, get empty i = none
  get_put_fresh : ∀ s x, get s (put s x).1 = none
  get_put_self : ∀ s x, get (put s x).2 (put s x).1 = some x
  get_put_of_ne : ∀ s x i, i ≠ (put s x).1 → get (put s x).2 i = get s i
  get_set_self : ∀ s i x, (get s i).isSome → get (set s i x) i = some x
  get_set_of_ne : ∀ s i x j, j ≠ i → get (set s i x) j = get s j
  get_free_self : ∀ s i, get (free s i) i = none
  get_free_of_ne : ∀ s i j, j ≠ i → get (free s i) j = get s j

namespace Slots

/-- Values under numbers, and a number from which on all are unused. -/
structure Numbered (α : Type) where
  values : Std.ExtTreeMap Nat α
  next : Nat
  unused : ∀ i, next ≤ i → values[i]? = none

namespace Numbered

variable {α : Type}

def put (s : Numbered α) (x : α) : Nat × Numbered α :=
  (s.next, {
    values := s.values.insert s.next x
    next := s.next + 1
    unused := by
      intro i hi
      rw [Std.ExtTreeMap.getElem?_insert, if_neg (mt Nat.compare_eq_eq.mp (by omega))]
      exact s.unused i (by omega) })

def set (s : Numbered α) (i : Nat) (x : α) : Numbered α where
  values := if i < s.next then s.values.insert i x else s.values
  next := s.next
  unused := by
    intro j hj
    split
    · rw [Std.ExtTreeMap.getElem?_insert, if_neg (mt Nat.compare_eq_eq.mp (by omega))]
      exact s.unused j hj
    · exact s.unused j hj

def free (s : Numbered α) (i : Nat) : Numbered α where
  values := s.values.erase i
  next := s.next
  unused := by
    intro j hj
    rw [Std.ExtTreeMap.getElem?_erase]
    split
    · rfl
    · exact s.unused j hj

end Numbered

/-- Slots are numbered in the order in which they are handed out. -/
def numbered (α : Type) : Slots Nat α where
  Store := Numbered α
  empty := ⟨∅, 0, by simp⟩
  get s i := s.values[i]?
  put := Numbered.put
  set := Numbered.set
  free := Numbered.free
  get_empty := by simp
  get_put_fresh s _ := s.unused s.next (Nat.le_refl _)
  get_put_self := by simp [Numbered.put]
  get_put_of_ne := by
    intro s x i hi
    simp only [Numbered.put] at hi ⊢
    rw [Std.ExtTreeMap.getElem?_insert, if_neg (mt Nat.compare_eq_eq.mp (Ne.symm hi))]
  get_set_self := by
    intro s i x hi
    have hlt : i < s.next := by
      refine Nat.lt_of_not_le fun hle => ?_
      simp [s.unused i hle] at hi
    simp [Numbered.set, hlt]
  get_set_of_ne := by
    intro s i x j hj
    simp only [Numbered.set]
    split
    · rw [Std.ExtTreeMap.getElem?_insert, if_neg (mt Nat.compare_eq_eq.mp (Ne.symm hj))]
    · rfl
  get_free_self := by simp [Numbered.free]
  get_free_of_ne := by
    intro s i j hj
    simp only [Numbered.free]
    rw [Std.ExtTreeMap.getElem?_erase, if_neg (mt Nat.compare_eq_eq.mp (Ne.symm hj))]

end Slots

end ForkChoice

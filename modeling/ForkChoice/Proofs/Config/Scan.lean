import ForkChoice.Config.Scan
import Mathlib.Data.List.Basic

/-!
# What scanners take off a text

A scanner takes a part off the front of a text when the text behind that part does not go on in a
way that belongs to it.

* `skipBlanks_cons`, `skipBlanks_toDigits`: texts without blanks in front.
* `scanDigits_append`: digits, as long as their number stays within the limit.
* `scanNumber_toDigits`: a number in decimal digits.
-/

namespace ForkChoice.Config

variable {c : Char} {cs ds rest : List Char} {n m used limit : Nat}

/-! ## Blanks -/

theorem skipBlanks_cons (h : isBlank c = false) : skipBlanks (c :: rest) = c :: rest := by
  rw [skipBlanks, List.dropWhile_cons, h]
  rfl

/-! ## Strings -/

/-- A character that stands for itself in a string. -/
def Plain (c : Char) : Prop := c ≠ '"' ∧ c ≠ '\\' ∧ 0x20 ≤ c.toNat

instance : DecidablePred Plain := fun _ => inferInstanceAs (Decidable (_ ∧ _ ∧ _))

/-! ## Digits -/

/-- A text does not go on with a digit. -/
def Undigited (cs : List Char) : Prop := ∀ d ∈ cs.head?, d.isDigit = false

-- the generated equations of `scanDigits` take too long to derive, so its steps are read off by
-- definition
theorem scanDigits_of_push? (h : c.isDigit = true) (hpush : push? limit n c = some m) :
    scanDigits limit n used (c :: rest) = scanDigits limit m (used + 1) rest := by
  change (if c.isDigit then _ else _) = _
  rw [if_pos h]
  rw [hpush]

theorem scanDigits_undigited (h : Undigited rest) :
    scanDigits limit n used rest = (n, used, rest) := by
  cases rest with
  | nil => rfl
  | cons c rest =>
    change (if c.isDigit then _ else _) = _
    rw [h c rfl]
    rfl

theorem push?_of_le (h : 10 * n + (c.toNat - '0'.toNat) ≤ limit) :
    push? limit n c = some (10 * n + (c.toNat - '0'.toNat)) := by
  rw [push?, digitValue, Nat.mul_comm n, if_pos h]

theorem le_ofDigitChars (ds : List Char) (n : Nat) : n ≤ Nat.ofDigitChars 10 ds n := by
  rw [Nat.ofDigitChars_eq_ofDigitChars_zero]
  have := Nat.le_mul_of_pos_left n (Nat.pow_pos (n := ds.length) (show 0 < 10 by omega))
  omega

/-- Digits are scanned to the end, if their number stays within the limit. -/
theorem scanDigits_append (hds : ∀ d ∈ ds, d.isDigit = true) (hrest : Undigited rest)
    (used : Nat) (hlimit : Nat.ofDigitChars 10 ds n ≤ limit) :
    scanDigits limit n used (ds ++ rest) =
      (Nat.ofDigitChars 10 ds n, used + ds.length, rest) := by
  induction ds generalizing n used with
  | nil => exact scanDigits_undigited hrest
  | cons c ds ih =>
    obtain ⟨hc, hds⟩ := List.forall_mem_cons.mp hds
    rw [Nat.ofDigitChars_cons] at hlimit ⊢
    have hpush := push?_of_le (Nat.le_trans (le_ofDigitChars ds _) hlimit)
    rw [List.cons_append, scanDigits_of_push? hc hpush, ih hds (used + 1) hlimit,
      List.length_cons, Nat.add_assoc, Nat.add_comm 1]

/-! ## Numbers -/

/-- Only zero is written with a zero in front. -/
theorem head?_toDigits_ne_zero (h : 0 < n) : (Nat.toDigits 10 n).head? ≠ some '0' := by
  induction n using Nat.strongRecOn with
  | ind n ih =>
    by_cases hsmall : n < 10
    · rw [Nat.toDigits_of_lt_base hsmall, List.head?_cons]
      intro hzero
      have := Nat.digitChar_eq_zero.mp (Option.some.inj hzero)
      omega
    · rw [Nat.toDigits_of_base_le (by decide) (Nat.le_of_not_lt hsmall),
        List.head?_append_of_ne_nil _ Nat.toDigits_ne_nil]
      exact ih (n / 10) (by omega) (by omega)

theorem isDigit_of_mem_toDigits : ∀ d ∈ Nat.toDigits 10 n, d.isDigit = true :=
  fun _ hd => Nat.isDigit_of_mem_toDigits (by decide) (by decide) hd

/-- The text behind an integer does not make it longer or a floating point number. -/
def EndsInteger (cs : List Char) : Prop :=
  ∀ d ∈ cs.head?, d.isDigit = false ∧ d ≠ '.' ∧ d ≠ 'e' ∧ d ≠ 'E'

theorem endsInteger_cons (h : c.isDigit = false ∧ c ≠ '.' ∧ c ≠ 'e' ∧ c ≠ 'E') :
    EndsInteger (c :: rest) := by
  intro d hd
  obtain rfl := Option.some.inj hd
  exact h

theorem EndsInteger.undigited (h : EndsInteger rest) : Undigited rest := fun d hd => (h d hd).1

theorem exists_head?_toDigits (n : Nat) (rest : List Char) :
    ∃ d, (Nat.toDigits 10 n ++ rest).head? = some d := by
  rw [List.head?_append_of_ne_nil _ Nat.toDigits_ne_nil]
  exact ⟨_, List.head?_eq_some_head Nat.toDigits_ne_nil⟩

theorem isDigit_of_head? {d : Char} (h : (Nat.toDigits 10 n ++ rest).head? = some d) :
    d.isDigit = true := by
  rw [List.head?_append_of_ne_nil _ Nat.toDigits_ne_nil] at h
  exact isDigit_of_mem_toDigits d (List.mem_of_head? h)

/-- The digits in front of a point or an exponent. -/
theorem exists_significand (hn : n ≤ maxInteger) (hrest : Undigited rest) :
    ∃ used, (if (Nat.toDigits 10 n ++ rest).head? = some '0' then
        (0, 1, (Nat.toDigits 10 n ++ rest).drop 1)
      else scanDigits maxInteger 0 0 (Nat.toDigits 10 n ++ rest)) = (n, used, rest) := by
  cases Nat.eq_zero_or_pos n with
  | inl hzero =>
    subst hzero
    exact ⟨1, rfl⟩
  | inr hpos =>
    rw [List.head?_append_of_ne_nil _ Nat.toDigits_ne_nil, if_neg (head?_toDigits_ne_zero hpos)]
    have hvalue : Nat.ofDigitChars 10 (Nat.toDigits 10 n) 0 = n := Nat.ofDigitChars_ten_toDigits
    rw [scanDigits_append isDigit_of_mem_toDigits hrest 0 (hvalue.symm ▸ hn), hvalue]
    exact ⟨_, rfl⟩

theorem expectDigit_of_head? {d : Char} (h : cs.head? = some d) (hd : d.isDigit = true) :
    expectDigit cs = .ok () := by
  cases cs with
  | nil => cases h
  | cons c cs =>
    obtain rfl := Option.some.inj h
    exact if_pos hd

theorem isBlank_of_isDigit (h : c.isDigit = true) : isBlank c = false := by
  have hne (d : Char) (hd : d.isDigit = false) : ¬ c = d := by
    rintro rfl
    exact Bool.false_ne_true (hd.symm.trans h)
  simp [isBlank, hne ' ' rfl, hne '\n' rfl, hne '\t' rfl, hne '\r' rfl]

theorem skipBlanks_toDigits :
    skipBlanks (Nat.toDigits 10 n ++ rest) = Nat.toDigits 10 n ++ rest := by
  obtain ⟨d, hd⟩ := exists_head?_toDigits n rest
  obtain ⟨ds, hds⟩ := List.head?_eq_some_iff.mp hd
  rw [hds]
  exact skipBlanks_cons (isBlank_of_isDigit (isDigit_of_head? hd))

theorem scanMagnitude_toDigits (hn : n ≤ maxInteger) (hrest : EndsInteger rest) :
    scanMagnitude false (Nat.toDigits 10 n ++ rest) = .ok (.integer n, rest) := by
  obtain ⟨d, hd⟩ := exists_head?_toDigits n rest
  obtain ⟨used, hfront⟩ := exists_significand hn hrest.undigited
  rw [scanMagnitude, expectDigit_of_head? hd (isDigit_of_head? hd)]
  simp only [bind, Except.bind, hfront]
  cases rest with
  | nil => rfl
  | cons c rest =>
    obtain ⟨hdigit, hpoint, hlower, hupper⟩ := hrest c rfl
    split
    · rename_i htail
      exact absurd (List.cons.inj htail).1 hpoint
    · rename_i htail
      exact absurd (List.cons.inj htail).1 hlower
    · rename_i htail
      exact absurd (List.cons.inj htail).1 hupper
    · rename_i htail
      obtain ⟨rfl, rfl⟩ := List.cons.inj htail
      rw [hdigit]
      rfl
    · rename_i htail
      cases htail

theorem scanNumber_of_isDigit (h : c.isDigit = true) :
    scanNumber (c :: cs) = scanMagnitude false (c :: cs) := by
  unfold scanNumber
  split
  · rename_i hminus
    obtain ⟨rfl, rfl⟩ := List.cons.inj hminus
    cases h
  · rfl

/-- A number in decimal digits is scanned as it was written. -/
theorem scanNumber_toDigits (hn : n ≤ maxInteger) (hrest : EndsInteger rest) :
    scanNumber (Nat.toDigits 10 n ++ rest) = .ok (.integer n, rest) := by
  obtain ⟨d, hd⟩ := exists_head?_toDigits n rest
  obtain ⟨ds, hds⟩ := List.head?_eq_some_iff.mp hd
  rw [← scanMagnitude_toDigits hn hrest, hds]
  exact scanNumber_of_isDigit (isDigit_of_head? hd)

end ForkChoice.Config

import ForkChoice.Proofs.Config.Scan

/-!
# Strings and numbers in any spelling

* `Spells`, `scanString_spells`: a string is scanned to its characters, escaped or not.
* `scanNumber_integer`: a number that is scanned as an integer is used up.
* `Comes`: what is known of a reader's result, and of its rejection if there is none.
-/

namespace ForkChoice.Config

variable {c : Char} {cs ds text rest : List Char}

/-! ## Strings -/

/-- The characters that stand for another one, or for themselves, behind a backslash. -/
def shorthands : List (Char × Char) :=
  [('"', '"'), ('\\', '\\'), ('/', '/'), ('b', '\x08'), ('f', '\x0c'), ('n', '\n'), ('r', '\r'),
    ('t', '\t')]

/-- Four hexadecimal digits and the number that they give. -/
inductive HexText : List Char → Nat → Prop
  | mk {a b c d : Char} {i j k l : Nat} (ha : hexValue? a = some i) (hb : hexValue? b = some j)
      (hc : hexValue? c = some k) (hd : hexValue? d = some l) :
      HexText [a, b, c, d] (((i * 16 + j) * 16 + k) * 16 + l)

/-- The texts that stand for a character behind a backslash. Half a surrogate pair stands for
none. -/
inductive Escape : List Char → Char → Prop
  | shorthand {c d : Char} (h : (c, d) ∈ shorthands) : Escape [c] d
  | code {digits : List Char} {n : Nat} (h : HexText digits n) (hn : n < 0xD800 ∨ 0xDFFF < n) :
      Escape ('u' :: digits) (Char.ofNat n)
  | pair {digits digits' : List Char} {high low : Nat} (h : HexText digits high)
      (h' : HexText digits' low) (hhigh : 0xD800 ≤ high ∧ high ≤ 0xDBFF)
      (hlow : 0xDC00 ≤ low ∧ low ≤ 0xDFFF) :
      Escape ('u' :: (digits ++ '\\' :: 'u' :: digits'))
        (Char.ofNat (0x10000 + (high - 0xD800) * 0x400 + (low - 0xDC00)))

/-- The texts between two quotes that stand for a string. -/
inductive Spells : List Char → List Char → Prop
  | nil : Spells [] []
  | plain {c : Char} {text s : List Char} (hc : Plain c) (h : Spells text s) :
      Spells (c :: text) (c :: s)
  | escaped {e text s : List Char} {c : Char} (he : Escape e c) (h : Spells text s) :
      Spells ('\\' :: (e ++ text)) (c :: s)

theorem spells_plain (h : ∀ c ∈ text, Plain c) : Spells text text := by
  induction text with
  | nil => exact .nil
  | cons c text ih =>
    obtain ⟨hc, htext⟩ := List.forall_mem_cons.mp h
    exact .plain hc (ih htext)

theorem scanHex_hexText {n : Nat} (h : HexText text n) (rest : List Char) :
    ∃ hshort, scanHex (text ++ rest) = .ok (n, ⟨rest, hshort⟩) := by
  cases h with
  | mk ha hb hc hd =>
    refine ⟨?_, ?_⟩
    · simp only [List.cons_append, List.nil_append, List.length_cons]
      omega
    · simp only [List.cons_append, List.nil_append, scanHex, ha, hb, hc, hd]

theorem scanCodePoint_code {n : Nat} (h : HexText text n) (hn : n < 0xD800 ∨ 0xDFFF < n)
    (rest : List Char) :
    ∃ hshort, scanCodePoint (text ++ rest) = .ok (Char.ofNat n, ⟨rest, hshort⟩) := by
  obtain ⟨hshort, hhex⟩ := scanHex_hexText h rest
  refine ⟨hshort, ?_⟩
  rw [scanCodePoint, hhex]
  dsimp only [bind, Except.bind]
  rw [if_neg (by omega), if_neg (by omega)]

theorem scanCodePoint_pair {text' : List Char} {high low : Nat} (h : HexText text high)
    (h' : HexText text' low) (hhigh : 0xD800 ≤ high ∧ high ≤ 0xDBFF)
    (hlow : 0xDC00 ≤ low ∧ low ≤ 0xDFFF) (rest : List Char) :
    ∃ hshort, scanCodePoint (text ++ '\\' :: 'u' :: (text' ++ rest)) =
      .ok (Char.ofNat (0x10000 + (high - 0xD800) * 0x400 + (low - 0xDC00)), ⟨rest, hshort⟩) := by
  obtain ⟨hshort, hhex⟩ := scanHex_hexText h ('\\' :: 'u' :: (text' ++ rest))
  obtain ⟨hshort', hhex'⟩ := scanHex_hexText h' rest
  have hlength : rest.length < (text ++ '\\' :: 'u' :: (text' ++ rest)).length := by
    simp only [List.length_append, List.length_cons] at hshort' ⊢
    omega
  have hsecond : ∃ hless, scanLowSurrogate high ('\\' :: 'u' :: (text' ++ rest)) =
      .ok (Char.ofNat (0x10000 + (high - 0xD800) * 0x400 + (low - 0xDC00)), ⟨rest, hless⟩) := by
    refine ⟨by simp only [List.length_append, List.length_cons]; omega, ?_⟩
    rw [scanLowSurrogate, hhex']
    · dsimp only [bind, Except.bind]
      rw [if_pos hlow]
  obtain ⟨hless, hsecond⟩ := hsecond
  refine ⟨hlength, ?_⟩
  rw [scanCodePoint, hhex]
  dsimp only [bind, Except.bind]
  rw [if_neg (by omega), if_pos hhigh, hsecond]

theorem scanEscape_escape {e : List Char} (h : Escape e c) (rest : List Char) :
    ∃ hshort, scanEscape (e ++ rest) = .ok (c, ⟨rest, hshort⟩) := by
  have hcode {cs : List Char} (d : Char) (hshort : rest.length < cs.length)
      (hscan : scanCodePoint cs = .ok (d, ⟨rest, hshort⟩)) :
      ∃ hless, scanEscape ('u' :: cs) = .ok (d, ⟨rest, hless⟩) := by
    refine ⟨Nat.lt_succ_of_lt hshort, ?_⟩
    have hopen : scanEscape ('u' :: cs) = scanCodePoint cs >>= fun found =>
        .ok (found.1, ⟨found.2.1, Nat.lt_succ_of_lt found.2.2⟩) := rfl
    rw [hopen, hscan]
    rfl
  cases h with
  | @shorthand c d h =>
    simp only [shorthands, List.mem_cons, Prod.mk.injEq, List.not_mem_nil, or_false] at h
    rcases h with ⟨rfl, rfl⟩ | ⟨rfl, rfl⟩ | ⟨rfl, rfl⟩ | ⟨rfl, rfl⟩ | ⟨rfl, rfl⟩ | ⟨rfl, rfl⟩ |
      ⟨rfl, rfl⟩ | ⟨rfl, rfl⟩
    all_goals exact ⟨Nat.lt_succ_self _, rfl⟩
  | code h hn =>
    obtain ⟨hshort, hscan⟩ := scanCodePoint_code h hn rest
    exact hcode _ hshort hscan
  | pair h h' hhigh hlow =>
    obtain ⟨hshort, hscan⟩ := scanCodePoint_pair h h' hhigh hlow rest
    rw [List.cons_append, List.append_assoc]
    exact hcode _ hshort hscan

/-- A string is scanned in any spelling. -/
theorem scanString_spells {s : List Char} (h : Spells text s) (rest : List Char) :
    scanString (text ++ '"' :: rest) = .ok (s, rest) := by
  induction h with
  | nil =>
    rw [List.nil_append, scanString]
    rfl
  | plain hc h ih =>
    obtain ⟨hquote, hescape, hprintable⟩ := hc
    rw [List.cons_append, scanString, if_neg hquote, if_neg hescape, if_neg (by omega), ih]
    rfl
  | @escaped e text s c he h ih =>
    obtain ⟨hshort, hscan⟩ := scanEscape_escape he (text ++ '"' :: rest)
    rw [List.cons_append, List.append_assoc, scanString, if_neg (by decide), if_pos rfl, hscan]
    dsimp only
    rw [ih]
    rfl

/-! ## Results and reasons -/

/-- What is known of a result, and of the reason why there is none. -/
def Comes {ε α : Type} (x : Except ε α) (E : ε → Prop) (P : α → Prop) : Prop :=
  match x with
  | .ok v => P v
  | .error e => E e

namespace Comes

variable {ε α β : Type} {x : Except ε α} {E : ε → Prop} {P : α → Prop} {Q : β → Prop}

theorem bind {g : α → Except ε β} (hx : Comes x E P) (hg : ∀ v, P v → Comes (g v) E Q) :
    Comes (x >>= g) E Q := by
  cases x with
  | error e => exact hx
  | ok v => exact hg v hx

theorem imp {P' : α → Prop} (h : Comes x E P) (hp : ∀ v, P v → P' v) : Comes x E P' := by
  cases x with
  | error e => exact h
  | ok v => exact hp v h

theorem trivial (x : Except ε α) : Comes x (fun _ => True) fun _ => True := by
  cases x
  all_goals exact True.intro

theorem result {v : α} (h : Comes x E P) (hx : x = .ok v) : P v := by
  subst hx
  exact h

end Comes

/-! ## Numbers -/

/-- A number with a point, an exponent or too many digits. -/
def Number.IsFloat : Number → Prop
  | .integer _ => False
  | .float .. => True

variable {negative : Bool} {significand : Nat} {power : Int}

theorem comes_float : Comes (float negative significand power) (fun _ => True) Number.IsFloat := by
  unfold float
  split
  all_goals exact True.intro

theorem comes_scanExponent :
    Comes (scanExponent negative significand power cs) (fun _ => True) (·.1.IsFloat) := by
  unfold scanExponent
  -- the sign of the exponent
  split
  refine Comes.bind (.trivial _) fun _ _ => ?_
  dsimp only
  split
  · split
    all_goals exact True.intro
  · exact comes_float.bind fun number hnumber => hnumber

theorem comes_scanTail :
    Comes (scanTail negative significand power cs) (fun _ => True) (·.1.IsFloat) := by
  unfold scanTail
  split
  · exact comes_scanExponent
  · exact comes_scanExponent
  · exact comes_float.bind fun number hnumber => hnumber

theorem comes_scanFraction :
    Comes (scanFraction negative significand power cs) (fun _ => True) (·.1.IsFloat) := by
  unfold scanFraction
  exact Comes.bind (.trivial _) fun _ _ => comes_scanTail

theorem skipDigits_append (hds : ∀ d ∈ ds, d.isDigit = true) (hrest : Undigited rest) :
    skipDigits (ds ++ rest) = rest := by
  rw [skipDigits, List.dropWhile_append_of_pos hds]
  cases rest with
  | nil => rfl
  | cons c rest => rw [List.dropWhile_cons, hrest c rfl]; rfl

theorem scanDigits_eq (limit n used : Nat) (cs : List Char) :
    ∃ ds, (∀ d ∈ ds, d.isDigit = true) ∧ cs = ds ++ (scanDigits limit n used cs).2.2 := by
  induction cs generalizing n used with
  | nil => exact ⟨[], by simp, rfl⟩
  | cons c cs ih =>
    by_cases hc : c.isDigit
    · cases hpush : push? limit n c with
      | some m =>
        obtain ⟨ds, hds, hcs⟩ := ih m (used + 1)
        rw [scanDigits_of_push? hc hpush]
        exact ⟨c :: ds, List.forall_mem_cons.mpr ⟨hc, hds⟩, congrArg (c :: ·) hcs⟩
      | none =>
        refine ⟨[], by simp, ?_⟩
        change _ = (if c.isDigit then _ else _ : Nat × Nat × List Char).2.2
        rw [if_pos hc, hpush]
    · refine ⟨[], by simp, ?_⟩
      change _ = (if c.isDigit then _ else _ : Nat × Nat × List Char).2.2
      rw [if_neg hc]

/-- A number starts with digits in front of the point or the exponent. -/
theorem significand_eq (cs : List Char) : ∃ ds, (∀ d ∈ ds, d.isDigit = true) ∧
    cs = ds ++ (if cs.head? = some '0' then (0, 1, cs.drop 1)
      else scanDigits maxInteger 0 0 cs : Nat × Nat × List Char).2.2 := by
  split
  · rename_i hzero
    obtain ⟨ds, rfl⟩ := List.head?_eq_some_iff.mp hzero
    exact ⟨['0'], List.forall_mem_singleton.mpr rfl, rfl⟩
  · exact scanDigits_eq _ _ _ _

/-- An integer ends with its digits. -/
theorem scanMagnitude_integer {value : Int}
    (h : scanMagnitude negative cs = .ok (.integer value, rest)) :
    rest = skipDigits cs ∧ EndsInteger rest := by
  obtain ⟨ds, hds, hcs⟩ := significand_eq cs
  unfold scanMagnitude at h
  cases hfirst : expectDigit cs with
  | error e =>
    rw [hfirst] at h
    cases h
  | ok _ =>
    rw [hfirst] at h
    generalize (if cs.head? = some '0' then (0, 1, cs.drop 1)
      else scanDigits maxInteger 0 0 cs : Nat × Nat × List Char) = front at h hcs
    obtain ⟨significand, used, tail⟩ := front
    dsimp only [bind, Except.bind] at h hcs
    have hends (htail : rest = tail) (hend : EndsInteger tail) :
        rest = skipDigits cs ∧ EndsInteger rest := by
      rw [htail, hcs, skipDigits_append hds hend.undigited]
      exact ⟨rfl, hend⟩
    split at h
    · exact (comes_scanFraction.result h).elim
    · exact (comes_scanExponent.result h).elim
    · exact (comes_scanExponent.result h).elim
    · rename_i c behind hpoint hlower hupper
      split at h
      · -- digits that no longer fit
        split at h
        · cases h
        · split at h
          · exact (comes_scanFraction.result h).elim
          · exact (comes_scanTail.result h).elim
      · rename_i hdigit
        split at h
        · cases h
        · cases h
          exact hends rfl (endsInteger_cons ⟨eq_false_of_ne_true hdigit, hpoint, hlower, hupper⟩)
    · split at h
      · cases h
      · cases h
        exact hends rfl nofun

/-- The texts of numbers: digits behind a sign or none, and what a point or the letter of an
exponent begins. Not all of them are read. -/
inductive NumberText : List Char → Prop
  | mk {sign digits tail : List Char} (hsign : sign = [] ∨ sign = ['-']) (hsome : digits ≠ [])
      (hdigits : ∀ d ∈ digits, d.isDigit = true)
      (htail : ∀ d ∈ tail.head?, d = '.' ∨ d = 'e' ∨ d = 'E') :
      NumberText (sign ++ (digits ++ tail))

theorem undigited_append {tail : List Char} (htail : ∀ d ∈ tail.head?, d = '.' ∨ d = 'e' ∨ d = 'E')
    (hrest : Undigited rest) : Undigited (tail ++ rest) := by
  cases tail with
  | nil => exact hrest
  | cons d tail =>
    intro e he
    obtain rfl := Option.some.inj he
    rcases htail d rfl with rfl | rfl | rfl
    all_goals rfl

/-- A number that is scanned as an integer is used up. -/
theorem scanNumber_integer {value : Int} {left : List Char} (h : NumberText text)
    (hrest : EndsInteger rest) (hscan : scanNumber (text ++ rest) = .ok (.integer value, left)) :
    left = rest := by
  obtain ⟨hsign, hsome, hdigits, htail⟩ := h
  rename_i sign digits tail
  have hmagnitude : ∃ negative, scanMagnitude negative (digits ++ (tail ++ rest)) =
      .ok (.integer value, left) := by
    rw [List.append_assoc, List.append_assoc] at hscan
    rcases hsign with rfl | rfl
    · obtain ⟨d, ds, rfl⟩ := List.exists_cons_of_ne_nil hsome
      exact ⟨false, (scanNumber_of_isDigit (hdigits d List.mem_cons_self)).symm.trans hscan⟩
    · exact ⟨true, hscan⟩
  obtain ⟨negative, hmagnitude⟩ := hmagnitude
  obtain ⟨hleft, hends⟩ := scanMagnitude_integer hmagnitude
  rw [skipDigits_append hdigits (undigited_append htail hrest.undigited)] at hleft
  subst hleft
  cases tail with
  | nil => rfl
  | cons d tail =>
    -- what a point or an exponent begins is never left behind an integer
    obtain ⟨-, hpoint, hlower, hupper⟩ := hends d rfl
    rcases htail d rfl with rfl | rfl | rfl
    · exact absurd rfl hpoint
    · exact absurd rfl hlower
    · exact absurd rfl hupper

end ForkChoice.Config

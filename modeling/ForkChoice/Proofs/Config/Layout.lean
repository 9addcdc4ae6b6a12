import ForkChoice.Proofs.Config.Reader
import Mathlib.Data.List.DropRight

/-!
# Configurations in any layout

* `MapOf`, `ListOf`: the texts that give durations by name or in order, with blanks between any two
  parts.
* `ObjectOf`: the texts of maps with any keys and values.
* `readQuote_entry`: an entry is read to its value, wherever blanks stand.
* `comes_readSeconds`: any other value than a number of seconds is rejected.
-/

namespace ForkChoice.Config

open Timing (Field)

variable {α : Type} {c : Char} {key rest text w : List Char} {name : String}
  {opened : List Field} {timing : Timing} {f : Field}

/-! ## Layouts -/

/-- A text of blanks only. -/
def Blank (w : List Char) : Prop := ∀ c ∈ w, isBlank c = true

instance (w : List Char) : Decidable (Blank w) :=
  decidable_of_iff (w.all isBlank = true) List.all_eq_true

/-- A text with blanks before and behind it. -/
inductive Padded (Inner : List Char → Prop) : List Char → Prop
  | mk {before inner behind : List Char} (hbefore : Blank before) (h : Inner inner)
      (hbehind : Blank behind) : Padded Inner (before ++ (inner ++ behind))

/-- A string in quotes, in any spelling. -/
inductive Quoted (s : String) : List Char → Prop
  | mk {text : List Char} (h : Spells text s.toList) : Quoted s ('"' :: (text ++ ['"']))

/-- A key and its value. -/
inductive Entry (name : String) (Value : List Char → Prop) : List Char → Prop
  | mk {key value : List Char} (hkey : Padded (Quoted name) key) (hvalue : Padded Value value) :
      Entry name Value (key ++ ':' :: value)

/-- One part or more, with commas between them. -/
inductive Commas (Part : α → List Char → Prop) : List α → List Char → Prop
  | one {x : α} {text : List Char} (h : Part x text) : Commas Part [x] text
  | more {x : α} {xs : List α} {text later : List Char} (h : Part x text)
      (hlater : Commas Part xs later) : Commas Part (x :: xs) (text ++ ',' :: later)

/-- Parts with commas between them, or blanks only, between two brackets. -/
inductive Enclosed (left right : Char) (Part : α → List Char → Prop) : List α → List Char → Prop
  | blank {w : List Char} (h : Blank w) : Enclosed left right Part [] (left :: (w ++ [right]))
  | parts {xs : List α} {text : List Char} (h : Commas Part xs text) :
      Enclosed left right Part xs (left :: (text ++ [right]))

/-- The texts that may stand for a value: numbers, and all that does not start like a number. What
starts otherwise is no number of seconds, so it does not count how it goes on. -/
inductive Value : List Char → Prop
  | number {text : List Char} (h : NumberText text) : Value text
  | other {c : Char} {text : List Char} (hblank : isBlank c = false)
      (hc : ¬ (c = '-' ∨ c.isDigit)) : Value (c :: text)

/-- A number of seconds in decimal digits. -/
def Digits (n : UInt64) (text : List Char) : Prop := text = Nat.toDigits 10 n.toNat

/-- The texts of maps with these keys, whatever the values. -/
def ObjectOf (names : List String) : List Char → Prop :=
  Padded (Enclosed '\x7b' '\x7d' (fun name => Entry name Value) names)

/-- The texts of maps with these fields in this order. -/
def MapOf (entries : List (Field × UInt64)) : List Char → Prop :=
  Padded (Enclosed '\x7b' '\x7d' (fun e => Entry e.1.key (Digits e.2)) entries)

/-- The texts of lists with these numbers. -/
def ListOf (values : List UInt64) : List Char → Prop :=
  Padded (Enclosed '[' ']' (fun n => Padded (Digits n)) values)

/-! ## Blanks -/

theorem Padded.bare {Inner : List Char → Prop} (h : Inner text) : Padded Inner text := by
  have hpadded := Padded.mk (by decide : Blank []) h (by decide : Blank [])
  rwa [List.append_nil] at hpadded

theorem skipBlanks_append (hw : Blank w) (rest : List Char) :
    skipBlanks (w ++ rest) = skipBlanks rest := List.dropWhile_append_of_pos hw

theorem skipBlanks_append_cons (hw : Blank w) (hc : isBlank c = false) (rest : List Char) :
    skipBlanks (w ++ c :: rest) = c :: rest :=
  (skipBlanks_append hw _).trans (skipBlanks_cons hc)

/-- What stands between two brackets. -/
theorem Padded.skipBlanks_enclosed {left right : Char} {Part : α → List Char → Prop} {xs : List α}
    (hleft : isBlank left = false) (h : Padded (Enclosed left right Part xs) text) :
    ∃ inner w, Blank w ∧ skipBlanks text = left :: (inner ++ right :: w) ∧
      (xs = [] ∧ Blank inner ∨ Commas Part xs inner) := by
  obtain ⟨hbefore, henclosed, hbehind⟩ := h
  rename_i behind
  cases henclosed with
  | @blank inner hinner =>
    refine ⟨inner, behind, hbehind, ?_, Or.inl ⟨rfl, hinner⟩⟩
    rw [List.cons_append, List.append_assoc]
    exact skipBlanks_append_cons hbefore hleft _
  | @parts xs inner hparts =>
    refine ⟨inner, behind, hbehind, ?_, Or.inr hparts⟩
    rw [List.cons_append, List.append_assoc]
    exact skipBlanks_append_cons hbefore hleft _

/-- A text of parts starts like its first part. -/
theorem Commas.exists_front {Part : α → List Char → Prop} {xs : List α} {P : Char → Prop}
    (hpart : ∀ {x text}, Part x text → ∀ rest,
      ∃ c behind, skipBlanks (text ++ rest) = c :: behind ∧ P c)
    (h : Commas Part xs text) (rest : List Char) :
    ∃ c behind, skipBlanks (text ++ rest) = c :: behind ∧ P c := by
  cases h with
  | one h => exact hpart h rest
  | more h hlater =>
    rw [List.append_assoc]
    exact hpart h _

theorem endsInteger_append (hw : Blank w) (hrest : EndsInteger rest) : EndsInteger (w ++ rest) := by
  cases w with
  | nil => exact hrest
  | cons c w =>
    have hblank := hw c List.mem_cons_self
    rw [isBlank, Bool.or_eq_true, Bool.or_eq_true, Bool.or_eq_true, decide_eq_true_eq,
      decide_eq_true_eq, decide_eq_true_eq, decide_eq_true_eq] at hblank
    rcases hblank with ((rfl | rfl) | rfl) | rfl
    all_goals exact endsInteger_cons (by decide)

theorem readSeconds_skipBlanks (cs : List Char) :
    readSeconds (skipBlanks cs) = readSeconds cs := by
  have htwice : skipBlanks (skipBlanks cs) = skipBlanks cs := List.dropWhile_idempotent isBlank cs
  rw [readSeconds, readSeconds, htwice]

/-! ## Values -/

/-- The text is at fault, not the durations that it gives. -/
def OfText : Rejection → Prop
  | .broken _ => True
  | .mismatch _ => True
  | .flawed _ => False

theorem comes_scanned (x : Except Break α) : Comes (scanned x) OfText fun v => x = .ok v := by
  cases x with
  | error how => exact True.intro
  | ok v => rfl

theorem comes_reject (due : Due) (cs : List Char) (P : α → Prop) :
    Comes (reject due cs) OfText P := (comes_scanned _).bind fun _ _ => True.intro

theorem comes_duration (value : Int) : Comes (duration value) OfText fun _ => True := by
  unfold duration
  split
  all_goals exact True.intro

theorem NumberText.exists_head (h : NumberText text) :
    ∃ c cs, text = c :: cs ∧ (c = '-' ∨ c.isDigit = true) := by
  obtain ⟨rfl | rfl, hsome, hdigits, htail⟩ := h
  · rename_i digits tail
    obtain ⟨d, ds, rfl⟩ := List.exists_cons_of_ne_nil hsome
    exact ⟨d, ds ++ tail, rfl, Or.inr (hdigits d List.mem_cons_self)⟩
  · exact ⟨'-', _, rfl, Or.inl rfl⟩

/-- A value behind blanks is rejected or used up. -/
theorem comes_readSeconds {value : List Char} (hbefore : Blank w) (hvalue : Value value)
    (hrest : EndsInteger rest) :
    Comes (readSeconds (w ++ (value ++ rest))) OfText (·.2 = rest) := by
  unfold readSeconds
  rw [skipBlanks_append hbefore]
  cases hvalue with
  | number h =>
    obtain ⟨c, cs, rfl, hc⟩ := h.exists_head
    have hblank : isBlank c = false := by
      rcases hc with rfl | hdigit
      · rfl
      · exact isBlank_of_isDigit hdigit
    rw [List.cons_append, skipBlanks_cons hblank]
    dsimp only
    rw [if_pos hc]
    refine (comes_scanned _).bind fun ⟨number, left⟩ hscan => ?_
    cases number with
    | integer value =>
      exact (comes_duration value).bind fun d _ => scanNumber_integer h hrest hscan
    | float negative value => exact True.intro
  | other hblank hc =>
    rw [List.cons_append, skipBlanks_cons hblank]
    dsimp only
    rw [if_neg hc]
    exact comes_reject .seconds _ _

/-- The duration of so many seconds. -/
def seconds (n : UInt64) : Duration := .ofSeconds n.toNat n.toNat_lt

/-- A number of seconds between blanks is read as it was written. -/
theorem readSeconds_padded {value : List Char} {n : UInt64} (h : Padded (Digits n) value)
    (hrest : EndsInteger rest) :
    ∃ w, Blank w ∧ readSeconds (value ++ rest) = .ok (seconds n, w ++ rest) := by
  obtain ⟨hbefore, rfl, hbehind⟩ := h
  rename_i before behind
  refine ⟨behind, hbehind, readSeconds_toDigits ?_ n.toNat_lt (endsInteger_append hbehind hrest)⟩
  rw [List.append_assoc, List.append_assoc, skipBlanks_append hbefore]
  exact skipBlanks_toDigits

theorem Padded.exists_digit {n : UInt64} (h : Padded (Digits n) text) (rest : List Char) :
    ∃ d behind, skipBlanks (text ++ rest) = d :: behind ∧ d.isDigit = true := by
  obtain ⟨hbefore, rfl, hbehind⟩ := h
  rename_i behind
  obtain ⟨d, hd⟩ := exists_head?_toDigits n.toNat (behind ++ rest)
  obtain ⟨ds, hds⟩ := List.head?_eq_some_iff.mp hd
  rw [List.append_assoc, List.append_assoc, skipBlanks_append hbefore, skipBlanks_toDigits]
  exact ⟨d, ds, hds, isDigit_of_head? hd⟩

/-! ## Entries -/

theorem Padded.skipBlanks_quoted (h : Padded (Quoted name) key) :
    ∃ spelled w, Spells spelled name.toList ∧ Blank w ∧
      ∀ rest, skipBlanks (key ++ rest) = '"' :: (spelled ++ '"' :: (w ++ rest)) := by
  obtain ⟨hbefore, ⟨hspells⟩, hbehind⟩ := h
  rename_i before behind spelled
  refine ⟨spelled, behind, hspells, hbehind, fun rest => ?_⟩
  simp only [List.append_assoc, List.cons_append, List.nil_append]
  exact skipBlanks_append_cons hbefore rfl _

theorem Entry.exists_quote {Inner : List Char → Prop} (h : Entry name Inner text)
    (rest : List Char) : ∃ c behind, skipBlanks (text ++ rest) = c :: behind ∧ c = '"' := by
  obtain ⟨hkey, hvalue⟩ := h
  obtain ⟨spelled, w, -, -, hskip⟩ := hkey.skipBlanks_quoted
  rw [List.append_assoc]
  exact ⟨'"', _, hskip _, rfl⟩

theorem readEntry_eq (opened : List Field) (timing : Timing) (cs : List Char) :
    readEntry opened timing cs = readKey opened cs >>= fun key =>
      (readColon key.2 >>= readSeconds) >>= fun found =>
        readMoreEntries (opened.erase key.1.1) (timing.set found.1 key.1.1) found.2 := by
  rw [readEntry]
  cases readKey opened cs with
  | error e => rfl
  | ok key =>
    dsimp only [bind, Except.bind]
    cases readColon key.2 with
    | error e => rfl
    | ok rest =>
      dsimp only
      cases readSeconds rest with
      | error e => rfl
      | ok found => rfl

theorem key_of_ofKey? (h : Field.ofKey? name = some f) : f.key = name := by
  have hfound := List.find?_some h
  exact beq_iff_eq.mp hfound

theorem eq_of_key {g : Field} (h : g.key = f.key) : g = f := by
  have hsome : some g = some f := by rw [← Field.ofKey?_key, ← Field.ofKey?_key, h]
  exact Option.some.inj hsome

/-- An open field is read to its value. -/
theorem readQuote_open (hf : f ∈ opened) (hkey : Padded (Quoted f.key) key) :
    (readQuote (key ++ ':' :: rest) >>= readEntry opened timing) =
      readSeconds rest >>= fun found =>
        readMoreEntries (opened.erase f) (timing.set found.1 f) found.2 := by
  obtain ⟨spelled, w, hspells, hw, hskip⟩ := hkey.skipBlanks_quoted
  rw [readQuote, hskip]
  change readEntry opened timing _ = _
  rw [readEntry_eq, readKey_spells hf hspells]
  change (readColon (w ++ ':' :: rest) >>= readSeconds) >>= _ = _
  rw [readColon, skipBlanks_append_cons hw rfl]
  rfl

/-- Any other key is rejected. -/
theorem comes_readQuote_closed (hname : ∀ f ∈ opened, f.key ≠ name)
    (hkey : Padded (Quoted name) key) (P : Timing × List Char → Prop) :
    Comes (readQuote (key ++ rest) >>= readEntry opened timing) OfText P := by
  obtain ⟨spelled, w, hspells, hw, hskip⟩ := hkey.skipBlanks_quoted
  rw [readQuote, hskip]
  change Comes (readEntry opened timing _) OfText P
  rw [readEntry_eq, readKey, scanString_spells hspells]
  dsimp only [scanned, bind, Except.bind]
  rw [String.ofList_toList]
  cases hfield : Field.ofKey? name with
  | none => exact True.intro
  | some f =>
    have hclosed : f ∉ opened := fun hf => hname f hf (key_of_ofKey? hfield)
    dsimp only
    rw [dif_neg hclosed]
    exact True.intro

/-- A field with its number of seconds is read as it was written. -/
theorem readQuote_entry {n : UInt64} (hf : f ∈ opened) (h : Entry f.key (Digits n) text)
    (hrest : EndsInteger rest) :
    ∃ w, Blank w ∧ (readQuote (text ++ rest) >>= readEntry opened timing) =
      readMoreEntries (opened.erase f) (timing.set (seconds n) f) (w ++ rest) := by
  obtain ⟨hkey, hvalue⟩ := h
  obtain ⟨w, hw, hread⟩ := readSeconds_padded hvalue hrest
  refine ⟨w, hw, ?_⟩
  rw [List.append_assoc, List.cons_append, readQuote_open hf hkey, hread]
  rfl

/-- What is known of a text behind an entry is known of the entry too, if its key is open. -/
theorem comes_readQuote_entry {P : Timing × List Char → Prop} (h : Entry name Value text)
    (hrest : EndsInteger rest)
    (hmore : ∀ f ∈ opened, f.key = name → ∀ timing w, Blank w →
      Comes (readMoreEntries (opened.erase f) timing (w ++ rest)) OfText P) :
    Comes (readQuote (text ++ rest) >>= readEntry opened timing) OfText P := by
  obtain ⟨hkey, hvalue⟩ := h
  rw [List.append_assoc, List.cons_append]
  by_cases hopen : ∃ f ∈ opened, f.key = name
  · obtain ⟨f, hf, rfl⟩ := hopen
    obtain ⟨hbefore, hvalue, hbehind⟩ := hvalue
    rename_i behind
    rw [readQuote_open hf hkey, List.append_assoc, List.append_assoc]
    refine (comes_readSeconds hbefore hvalue (endsInteger_append hbehind hrest)).bind
      fun found hfound => ?_
    rw [hfound]
    exact hmore f hf rfl _ behind hbehind
  · exact comes_readQuote_closed (fun f hf hname => hopen ⟨f, hf, hname⟩) hkey P

end ForkChoice.Config

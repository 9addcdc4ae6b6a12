import ForkChoice.Config.Reader
import ForkChoice.Proofs.Config.Tokens
import ForkChoice.Proofs.Time

/-!
# What is read from a text

* `readSeconds_toDigits`: a number of seconds in decimal digits.
* `readEntry_key`, `readMoreEntries_comma`, `readMoreEntries_close`: the entries of a map.
* `Timing.InSeconds`: every duration is a whole number of seconds.
* `Reads`, `reads_readTiming`: what holds of all that is read, above all that it is in whole seconds.
* `read_eq_ok`: the timing of a configuration.
-/

namespace ForkChoice

namespace Duration

/-- The duration without what is left of a second. -/
def whole (d : Duration) : Duration := ofSeconds d.seconds d.seconds_lt

theorem whole_eq (h : nanosPerSecond ∣ d.ns) : whole d = d := ext (Nat.div_mul_cancel h)

theorem dvd_ns_ofSeconds (s : Nat) (h : s < 0x10000000000000000) :
    nanosPerSecond ∣ (ofSeconds s h).ns := Nat.dvd_mul_left nanosPerSecond s

end Duration

namespace Timing

/-- Every duration is a whole number of seconds. -/
def InSeconds (timing : Timing) : Prop := ∀ f, nanosPerSecond ∣ (timing.get f).ns

theorem inSeconds_default : InSeconds {} := by
  intro f
  cases f
  all_goals decide

theorem ext_get {t u : Timing} (h : ∀ f, t.get f = u.get f) : t = u := by
  have hwall := h .wall
  have hsight := h .sight
  have hearly := h .early
  have hexpiry := h .expiry
  have hfreshness := h .freshness
  cases t
  cases u
  simp only [get] at hwall hsight hearly hexpiry hfreshness
  rw [hwall, hsight, hearly, hexpiry, hfreshness]

theorem get_set (timing : Timing) (d : Duration) (f g : Field) :
    (timing.set d f).get g = if g = f then d else timing.get g := by
  cases f
  all_goals cases g
  all_goals rfl

theorem InSeconds.set {timing : Timing} (h : timing.InSeconds) {d : Duration}
    (hd : nanosPerSecond ∣ d.ns) (f : Field) : (timing.set d f).InSeconds := by
  intro g
  rw [get_set]
  split
  · exact hd
  · exact h g

/-- A timing passes the check as it is. -/
theorem check_cases (timing : Timing) :
    timing.check = .ok timing ∨ ∃ flaw, timing.check = .error flaw := by
  unfold check
  split
  · exact Or.inr ⟨_, rfl⟩
  · exact Or.inl rfl

theorem Field.ofKey?_key (f : Field) : ofKey? f.key = some f := by
  cases f
  all_goals rfl

end Timing

namespace Config

open Timing (Field)

variable {cs behind text value rest : List Char} {n : Nat} {opened : List Field} {timing : Timing}
  {f : Field}

/-! ## Values -/

theorem duration_natCast (hn : n < 0x10000000000000000) :
    duration (n : Int) = .ok (.ofSeconds n hn) := by
  rw [duration, dif_pos ⟨by omega, by omega⟩]
  simp only [Int.toNat_natCast]

theorem readSeconds_of_scan {c : Char} {number : Int} {d : Duration}
    (hvalue : skipBlanks value = c :: cs) (hc : c.isDigit = true)
    (hscan : scanNumber (c :: cs) = .ok (.integer number, rest)) (hd : duration number = .ok d) :
    readSeconds value = .ok (d, rest) := by
  rw [readSeconds, hvalue]
  dsimp only
  rw [if_pos (Or.inr hc), hscan]
  dsimp only [scanned, bind, Except.bind]
  rw [hd]

/-- A number of seconds in decimal digits is read as it was written. -/
theorem readSeconds_toDigits (hvalue : skipBlanks value = Nat.toDigits 10 n ++ rest)
    (hn : n < 0x10000000000000000) (hrest : EndsInteger rest) :
    readSeconds value = .ok (.ofSeconds n hn, rest) := by
  have hmax : n ≤ maxInteger := by
    rw [maxInteger]
    omega
  have hscan := scanNumber_toDigits hmax hrest
  obtain ⟨d, hd⟩ := exists_head?_toDigits n rest
  obtain ⟨ds, hds⟩ := List.head?_eq_some_iff.mp hd
  rw [hds] at hscan hvalue
  exact readSeconds_of_scan hvalue (isDigit_of_head? hd) hscan (duration_natCast hn)

/-! ## Entries -/

theorem plain_key (f : Field) : ∀ c ∈ f.key.toList, Plain c := by
  have hall : f.key.toList.all (fun c => decide (Plain c)) = true := by
    cases f
    all_goals rfl
  intro c hc
  exact of_decide_eq_true (List.all_eq_true.mp hall c hc)

theorem readKey_spells (hf : f ∈ opened) (h : Spells text f.key.toList) :
    readKey opened (text ++ '"' :: rest) = .ok (⟨f, hf⟩, rest) := by
  rw [readKey, scanString_spells h]
  dsimp only [scanned, bind, Except.bind]
  rw [String.ofList_toList, Field.ofKey?_key]
  exact dif_pos hf

theorem readKey_key (hf : f ∈ opened) :
    readKey opened (f.key.toList ++ '"' :: rest) = .ok (⟨f, hf⟩, rest) :=
  readKey_spells hf (spells_plain (plain_key f))

/-- An entry of a map is read from behind the quote that opens its key. -/
theorem readEntry_key (hf : f ∈ opened) (hcolon : skipBlanks behind = ':' :: value)
    (hvalue : skipBlanks value = Nat.toDigits 10 n ++ rest) (hn : n < 0x10000000000000000)
    (hrest : EndsInteger rest) :
    readEntry opened timing (f.key.toList ++ '"' :: behind) =
      readMoreEntries (opened.erase f) (timing.set (.ofSeconds n hn) f) rest := by
  have hboth : (readColon behind >>= readSeconds) = .ok (.ofSeconds n hn, rest) := by
    rw [readColon, hcolon]
    exact readSeconds_toDigits hvalue hn hrest
  rw [readEntry, readKey_key hf]
  dsimp only
  rw [hboth]

theorem readMoreEntries_close (h : skipBlanks cs = '\x7d' :: rest) :
    readMoreEntries opened timing cs = .ok (timing, rest) := by
  rw [readMoreEntries, h]
  rfl

theorem readMoreEntries_comma (h : skipBlanks cs = ',' :: rest) :
    readMoreEntries opened timing cs = readQuote rest >>= readEntry opened timing := by
  simp only [readMoreEntries, h]
  cases readQuote rest with
  | error e => rfl
  | ok rest => rfl

theorem readMap_quote (h : skipBlanks cs = '"' :: rest) :
    readMap cs = readQuote cs >>= readEntry Field.all {} := by
  have hblanks : readQuote ('"' :: rest) = readQuote cs := by
    rw [readQuote, readQuote, h]
    rfl
  rw [readMap, h]
  exact congrArg (· >>= readEntry Field.all {}) hblanks

/-- A text that starts with a brace gives what the map says, if only blanks stand behind it. -/
theorem readTiming_map {text : String} (h : skipBlanks text.toList = '\x7b' :: cs) :
    readTiming text = readMap cs >>= fun found =>
      if (skipBlanks found.2).isEmpty then .ok found.1 else .error (.broken .malformed) := by
  rw [readTiming, h]
  rfl

/-! ## Whole seconds -/

/-- What is read, if anything, has a property. -/
def Reads {α : Type} (x : Except Rejection α) (P : α → Prop) : Prop := ∀ v, x = .ok v → P v

namespace Reads

variable {α β : Type} {P : α → Prop} {Q : β → Prop}

theorem error (e : Rejection) : Reads (.error e) P := nofun

theorem ok {v : α} (h : P v) : Reads (.ok v) P := by
  intro w hw
  cases hw
  exact h

theorem bind {x : Except Rejection α} {g : α → Except Rejection β} (hx : Reads x P)
    (hg : ∀ v, P v → Reads (g v) Q) : Reads (x >>= g) Q := by
  cases x with
  | error e => exact error e
  | ok v => exact hg v (hx v rfl)

theorem trivial (x : Except Rejection α) : Reads x fun _ => True := fun _ _ => True.intro

end Reads

theorem reads_duration (number : Int) : Reads (duration number) (nanosPerSecond ∣ ·.ns) := by
  unfold duration
  split
  · exact .ok (Duration.dvd_ns_ofSeconds _ _)
  · exact .error _

theorem reads_reject {α : Type} (due : Due) (cs : List Char) (P : α → Prop) :
    Reads (reject due cs) P := Reads.bind (.trivial _) fun _ _ => .error _

theorem reads_readSeconds (cs : List Char) :
    Reads (readSeconds cs) (nanosPerSecond ∣ ·.1.ns) := by
  unfold readSeconds
  dsimp only
  split
  · split
    · refine Reads.bind (.trivial _) fun scan _ => ?_
      split
      · exact (reads_duration _).bind fun d hd => .ok hd
      · exact .error _
    · exact reads_reject _ _ _
  · exact .error _

theorem reads_readEntry (opened : List Field) (timing : Timing) (cs : List Char) :
    timing.InSeconds → Reads (readEntry opened timing cs) (·.1.InSeconds) := by
  -- along the recursion, with the same for what stands behind an entry
  apply readEntry.induct
    (fun opened timing cs =>
      timing.InSeconds → Reads (readEntry opened timing cs) (·.1.InSeconds))
    (fun opened timing cs =>
      timing.InSeconds → Reads (readMoreEntries opened timing cs) (·.1.InSeconds))
  case case1 =>
    intro opened timing cs e hkey h
    rw [readEntry, hkey]
    exact .error e
  case case2 =>
    intro opened timing cs f rest hkey e hvalue h
    rw [readEntry, hkey]
    dsimp only
    rw [hvalue]
    exact .error e
  case case3 =>
    intro opened timing cs f rest hkey d behind hvalue ih h
    have hd := (Reads.bind (.trivial _) fun value _ => reads_readSeconds value) _ hvalue
    rw [readEntry, hkey]
    dsimp only
    rw [hvalue]
    exact ih (h.set hd f.1)
  case case4 =>
    intro opened timing cs hend h
    rw [readMoreEntries, hend]
    exact .error _
  case case5 =>
    intro opened timing cs rest hclose h
    rw [readMoreEntries_close hclose]
    exact .ok h
  case case6 =>
    intro opened timing cs rest hcomma e hquote h
    rw [readMoreEntries_comma hcomma, hquote]
    exact .error e
  case case7 =>
    intro opened timing cs rest hcomma behind hquote ih h
    rw [readMoreEntries_comma hcomma, hquote]
    exact ih h
  case case8 =>
    intro opened timing cs hend hclose hcomma h
    rw [readMoreEntries]
    split
    · exact .error _
    · exact absurd ‹_› (hclose _)
    · exact absurd ‹_› (hcomma _)
    · exact .error _

theorem reads_readMap (cs : List Char) : Reads (readMap cs) (·.1.InSeconds) := by
  unfold readMap
  split
  · exact .ok Timing.inSeconds_default
  · exact Reads.bind (.trivial _) fun rest _ =>
      reads_readEntry Field.all {} rest Timing.inSeconds_default

theorem reads_readMoreValues (h : timing.InSeconds) (fields : List Field) (cs : List Char) :
    Reads (readMoreValues timing fields cs) (·.1.InSeconds) := by
  induction fields generalizing timing cs with
  | nil =>
    rw [readMoreValues]
    exact Reads.bind (.trivial _) fun rest _ => .ok h
  | cons f fields ih =>
    rw [readMoreValues]
    split
    · exact .error _
    · exact .ok h
    · split
      · exact .error _
      · exact (reads_readSeconds _).bind fun value hvalue => ih (h.set hvalue f) value.2
    · exact .error _

theorem reads_readList (cs : List Char) : Reads (readList cs) (·.1.InSeconds) := by
  unfold readList
  split
  · exact .ok Timing.inSeconds_default
  · exact (reads_readSeconds _).bind fun value hvalue =>
      reads_readMoreValues (Timing.inSeconds_default.set hvalue .wall) _ value.2

/-- What a text gives is in whole seconds, whatever its form. -/
theorem reads_readTiming (text : String) : Reads (readTiming text) Timing.InSeconds := by
  have hend (found : Timing × List Char) (h : found.1.InSeconds) :
      Reads (if (skipBlanks found.2).isEmpty then .ok found.1 else .error (.broken .malformed))
        Timing.InSeconds := by
    split
    · exact .ok h
    · exact .error _
  unfold readTiming
  dsimp only
  split
  · exact (reads_readMap _).bind hend
  · exact (reads_readList _).bind hend
  · exact (reads_reject _ _ _).bind hend

/-- The timing of a configuration is the one that the text gives, if it passes the check. -/
theorem read_eq_ok {text : String} :
    read text = .ok timing ↔ readTiming text = .ok timing ∧ timing.check = .ok timing := by
  rw [read]
  cases readTiming text with
  | error e => exact iff_of_false nofun fun h => nomatch h.1
  | ok found =>
    dsimp only [bind, Except.bind]
    rw [Except.ok.injEq]
    rcases found.check_cases with hpass | ⟨flaw, hflaw⟩
    · rw [hpass, Except.ok.injEq, iff_self_and]
      rintro rfl
      exact hpass
    · rw [hflaw]
      refine iff_of_false nofun fun h => ?_
      rw [h.1, h.2] at hflaw
      cases hflaw

end Config

end ForkChoice

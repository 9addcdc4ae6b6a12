import ForkChoice.Decimal.Shortest

/-!
# Scanning configuration texts

A scanner takes something off the front of a text and returns the rest. A text can break in two
ways: it ends too early, or it goes on with a character that fits nowhere.

* `skipBlanks`, `scanWord`: blanks and fixed words.
* `scanString`: a quoted string, from behind its opening quote.
* `scanNumber`: a number, which is an integer only if it has 64 bits and is written as one.
-/

namespace ForkChoice.Config

/-- How a text breaks. -/
inductive Break where
  /-- A character fits nowhere, or a number is too large. -/
  | malformed
  /-- The text ends too early. -/
  | truncated
  deriving DecidableEq, Repr

/-- Space, line feed, tab and carriage return may stand between any two parts. -/
def isBlank (c : Char) : Bool := c = ' ' || c = '\n' || c = '\t' || c = '\r'

/-- The text from its first character on that is not blank. -/
def skipBlanks (cs : List Char) : List Char := cs.dropWhile isBlank

/-- The text behind a fixed word. -/
def scanWord : List Char → List Char → Except Break (List Char)
  | [], rest => .ok rest
  | _ :: _, [] => .error .truncated
  | c :: word, d :: rest => if c = d then scanWord word rest else .error .malformed

/-! ## Strings -/

/-- The text left over after at least one character of another was used up. -/
abbrev Shorter (cs : List Char) := { rest : List Char // rest.length < cs.length }

def hexValue? (c : Char) : Option Nat :=
  if '0' ≤ c ∧ c ≤ '9' then some (c.toNat - '0'.toNat)
  else if 'a' ≤ c ∧ c ≤ 'f' then some (c.toNat - 'a'.toNat + 10)
  else if 'A' ≤ c ∧ c ≤ 'F' then some (c.toNat - 'A'.toNat + 10)
  else none

/-- The number in four hexadecimal digits. A text of fewer than four bytes ends too early. -/
def scanHex : (cs : List Char) → Except Break (Nat × Shorter cs)
  | a :: b :: c :: d :: rest =>
    match hexValue? a, hexValue? b, hexValue? c, hexValue? d with
    | some a, some b, some c, some d =>
      .ok (((a * 16 + b) * 16 + c) * 16 + d, ⟨rest, by simp only [List.length_cons]; omega⟩)
    | _, _, _, _ => .error .malformed
  | cs => .error (if cs.foldl (fun size c => size + c.utf8Size) 0 < 4 then .truncated else .malformed)

/-- The character that a second half of a surrogate pair completes. -/
def scanLowSurrogate (high : Nat) : (cs : List Char) → Except Break (Char × Shorter cs)
  | [] => .error .truncated
  | ['\\'] => .error .truncated
  | '\\' :: 'u' :: cs => do
    let (low, rest) ← scanHex cs
    if 0xDC00 ≤ low ∧ low ≤ 0xDFFF then
      .ok (Char.ofNat (0x10000 + (high - 0xD800) * 0x400 + (low - 0xDC00)),
        ⟨rest, by have := rest.2; simp only [List.length_cons]; omega⟩)
    else .error .malformed
  | _ => .error .malformed

/-- The character named by the digits behind `\u`. Half a surrogate pair is no character. -/
def scanCodePoint (cs : List Char) : Except Break (Char × Shorter cs) := do
  let (code, rest) ← scanHex cs
  if 0xDC00 ≤ code ∧ code ≤ 0xDFFF then .error .malformed
  else if 0xD800 ≤ code ∧ code ≤ 0xDBFF then do
    let (c, rest') ← scanLowSurrogate code rest
    .ok (c, ⟨rest', Nat.lt_trans rest'.2 rest.2⟩)
  else .ok (Char.ofNat code, rest)

/-- The character that stands behind a backslash. -/
def scanEscape : (cs : List Char) → Except Break (Char × Shorter cs)
  | [] => .error .truncated
  | c :: cs =>
    let simple (d : Char) : Except Break (Char × Shorter (c :: cs)) := .ok (d, ⟨cs, by simp⟩)
    if c = '"' ∨ c = '\\' ∨ c = '/' then simple c
    else if c = 'b' then simple '\x08'
    else if c = 'f' then simple '\x0c'
    else if c = 'n' then simple '\n'
    else if c = 'r' then simple '\r'
    else if c = 't' then simple '\t'
    else if c = 'u' then do
      let (d, rest) ← scanCodePoint cs
      .ok (d, ⟨rest, by have := rest.2; simp only [List.length_cons]; omega⟩)
    else .error .malformed

/-- The characters up to the closing quote, and the text behind it. -/
def scanString (cs : List Char) : Except Break (List Char × List Char) :=
  match cs with
  | [] => .error .truncated
  | c :: rest =>
    if c = '"' then .ok ([], rest)
    else if c = '\\' then
      match scanEscape rest with
      | .ok (d, left) => (scanString left).map fun (ds, behind) => (d :: ds, behind)
      | .error e => .error e
    else if c.toNat < 0x20 then .error .malformed
    else (scanString rest).map fun (ds, behind) => (c :: ds, behind)
termination_by cs.length
decreasing_by
  · have := left.2; simp only [List.length_cons]; omega
  · simp

/-! ## Numbers -/

open Decimal in
/-- A number as it was written. -/
inductive Number where
  | integer (value : Int)
  /-- A number with a point or an exponent, out of the range of integers, or minus zero. -/
  | float (negative : Bool) (value : Binary)

def maxInteger : Nat := 0xffffffffffffffff

/-- The largest exponent that is read. -/
def maxExponent : Nat := 0x7fffffff

def digitValue (c : Char) : Nat := c.toNat - '0'.toNat

/-- A number with another digit behind it, if it stays within a limit. -/
def push? (limit n : Nat) (c : Char) : Option Nat :=
  if n * 10 + digitValue c ≤ limit then some (n * 10 + digitValue c) else none

/-- The number in the digits at the front of a text, up to a limit, with the number of digits that
are part of it and the text from the first digit on that is not. -/
def scanDigits (limit : Nat) : Nat → Nat → List Char → Nat × Nat × List Char
  | n, used, [] => (n, used, [])
  | n, used, c :: rest =>
    if c.isDigit then
      match push? limit n c with
      | some m => scanDigits limit m (used + 1) rest
      | none => (n, used, c :: rest)
    else (n, used, c :: rest)

def skipDigits (cs : List Char) : List Char := cs.dropWhile Char.isDigit

/-- A text that has to start with a digit. -/
def expectDigit : List Char → Except Break Unit
  | [] => .error .truncated
  | c :: _ => if c.isDigit then .ok () else .error .malformed

/-- The floating point number `significand * 10 ^ power`. -/
def float (negative : Bool) (significand : Nat) (power : Int) : Except Break Number :=
  match (Decimal.Binary.ofNat? significand).bind (·.scale? power) with
  | some value => .ok (.float negative value)
  | none => .error .malformed

/-- The rest of a number from behind the letter of its exponent. An exponent too large to be read
leaves only zero in range, unless it is negative. -/
def scanExponent (negative : Bool) (significand : Nat) (power : Int) (cs : List Char) :
    Except Break (Number × List Char) := do
  let (down, cs) := match cs with
    | '+' :: rest => (false, rest)
    | '-' :: rest => (true, rest)
    | cs => (false, cs)
  expectDigit cs
  let (exponent, _, rest) := scanDigits maxExponent 0 0 cs
  if (expectDigit rest).isOk then
    if significand ≠ 0 ∧ !down then .error .malformed
    else .ok (.float negative .zero, skipDigits rest)
  else do
    let number ← float negative significand (if down then power - exponent else power + exponent)
    .ok (number, rest)

/-- The rest of a floating point number that may still have an exponent. -/
def scanTail (negative : Bool) (significand : Nat) (power : Int) (cs : List Char) :
    Except Break (Number × List Char) :=
  match cs with
  | 'e' :: rest => scanExponent negative significand power rest
  | 'E' :: rest => scanExponent negative significand power rest
  | rest => do
    let number ← float negative significand power
    .ok (number, rest)

/-- The rest of a number from behind its point. Digits that no longer fit are left out. -/
def scanFraction (negative : Bool) (significand : Nat) (power : Int) (cs : List Char) :
    Except Break (Number × List Char) := do
  expectDigit cs
  let (significand, used, rest) := scanDigits maxInteger significand 0 cs
  scanTail negative significand (power - used) (skipDigits rest)

/-- An integer as it was written: minus zero and integers out of range are floating point numbers. -/
def integer (negative : Bool) (n : Nat) : Except Break Number :=
  if !negative then .ok (.integer n)
  else if 0 < n ∧ n ≤ 0x8000000000000000 then .ok (.integer (-n))
  else float true n 0

/-- The rest of a number from behind its sign. -/
def scanMagnitude (negative : Bool) (cs : List Char) : Except Break (Number × List Char) := do
  expectDigit cs
  let (significand, _, rest) := if cs.head? = some '0' then (0, 1, cs.drop 1)
    else scanDigits maxInteger 0 0 cs
  match rest with
  | '.' :: rest => scanFraction negative significand 0 rest
  | 'e' :: rest => scanExponent negative significand 0 rest
  | 'E' :: rest => scanExponent negative significand 0 rest
  | c :: _ =>
    if c.isDigit then
      if significand = 0 then .error .malformed
      else
        let dropped := (rest.takeWhile Char.isDigit).length
        match skipDigits rest with
        | '.' :: rest => scanFraction negative significand dropped rest
        | rest => scanTail negative significand dropped rest
    else do
      let number ← integer negative significand
      .ok (number, rest)
  | [] => do
    let number ← integer negative significand
    .ok (number, [])

/-- A number and the text behind it. -/
def scanNumber : List Char → Except Break (Number × List Char)
  | '-' :: rest => scanMagnitude true rest
  | cs => scanMagnitude false cs

end ForkChoice.Config

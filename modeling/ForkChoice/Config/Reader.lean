import ForkChoice.Config.Rejection

/-!
# Reading configurations

A configuration gives durations in whole seconds, either by name between braces or in order between
brackets. What it leaves out keeps its default. The first thing wrong in reading order counts.

* `readTiming`: the timing that a text gives.
* `read`: the same, if it makes sense.
-/

namespace ForkChoice.Config

/-- A scanner's answer within a larger text. -/
def scanned {α : Type} : Except Break α → Except Rejection α
  | .ok a => .ok a
  | .error how => .error (.broken how)

/-- The value at the front of a text that is not of the kind that is due there. A list or map is
named at its opening bracket. -/
def findValue (cs : List Char) : Except Break Found :=
  match cs with
  | [] => .error .truncated
  | '[' :: _ => .ok .sequence
  | '\x7b' :: _ => .ok .map
  | '"' :: rest => (scanString rest).map fun (text, _) => .string (String.ofList text)
  | 'n' :: rest => (scanWord ['u', 'l', 'l'] rest).map fun _ => .null
  | 't' :: rest => (scanWord ['r', 'u', 'e'] rest).map fun _ => .boolean true
  | 'f' :: rest => (scanWord ['a', 'l', 's', 'e'] rest).map fun _ => .boolean false
  | c :: _ =>
    if c = '-' ∨ c.isDigit then (scanNumber cs).map fun (number, _) => .number number
    else .error .malformed

/-- The rejection of a text for the value at its front. -/
def reject {α : Type} (due : Due) (cs : List Char) : Except Rejection α := do
  let found ← scanned (findValue cs)
  .error (.mismatch (.wrongType found due))

/-- The duration of so many seconds, which have to fit in 64 bits. -/
def duration (value : Int) : Except Rejection Duration :=
  if h : 0 ≤ value ∧ value < 0x10000000000000000 then
    .ok (.ofSeconds value.toNat (by omega))
  else .error (.mismatch (.negative value))

def readSeconds (cs : List Char) : Except Rejection (Duration × List Char) :=
  let cs := skipBlanks cs
  match cs with
  | c :: _ =>
    if c = '-' ∨ c.isDigit then do
      let (number, rest) ← scanned (scanNumber cs)
      match number with
      | .integer value => do
        let d ← duration value
        .ok (d, rest)
      | .float .. => .error (.mismatch (.wrongType (.number number) .seconds))
    else reject .seconds cs
  | [] => .error (.broken .truncated)

/-! ## Maps -/

/-- The field that a key names, from behind the opening quote, and the text behind it. Only fields
that are still open may be named. -/
def readKey (opened : List Timing.Field) (cs : List Char) :
    Except Rejection ({ f : Timing.Field // f ∈ opened } × List Char) := do
  let (name, rest) ← scanned (scanString cs)
  match Timing.Field.ofKey? (String.ofList name) with
  | none => .error (.mismatch (.unknownKey (String.ofList name)))
  | some f =>
    if h : f ∈ opened then .ok (⟨f, h⟩, rest) else .error (.mismatch (.repeatedKey f))

def readColon (cs : List Char) : Except Rejection (List Char) :=
  match skipBlanks cs with
  | [] => .error (.broken .truncated)
  | ':' :: rest => .ok rest
  | _ => .error (.broken .malformed)

def readQuote (cs : List Char) : Except Rejection (List Char) :=
  match skipBlanks cs with
  | [] => .error (.broken .truncated)
  | '"' :: rest => .ok rest
  | _ => .error (.broken .malformed)

mutual

/-- One more entry of a map, from behind the quote that opens its key, and all behind it. -/
def readEntry (opened : List Timing.Field) (timing : Timing) (cs : List Char) :
    Except Rejection (Timing × List Char) :=
  match readKey opened cs with
  | .error e => .error e
  | .ok (f, rest) =>
    match readColon rest >>= readSeconds with
    | .error e => .error e
    | .ok (d, rest) => readMoreEntries (opened.erase f.1) (timing.set d f.1) rest
termination_by 2 * opened.length
decreasing_by
  have := List.length_erase_of_mem f.2
  have := List.length_pos_of_mem f.2
  omega

/-- The map behind an entry. -/
def readMoreEntries (opened : List Timing.Field) (timing : Timing) (cs : List Char) :
    Except Rejection (Timing × List Char) :=
  match skipBlanks cs with
  | [] => .error (.broken .truncated)
  | '\x7d' :: rest => .ok (timing, rest)
  | ',' :: rest =>
    match readQuote rest with
    | .error e => .error e
    | .ok rest => readEntry opened timing rest
  | _ => .error (.broken .malformed)
termination_by 2 * opened.length + 1

end

/-- A map from behind its opening brace. -/
def readMap (cs : List Char) : Except Rejection (Timing × List Char) :=
  match skipBlanks cs with
  | '\x7d' :: rest => .ok ({}, rest)
  | cs => readQuote cs >>= readEntry Timing.Field.all {}

/-! ## Lists -/

def readListEnd (cs : List Char) : Except Rejection (List Char) :=
  match skipBlanks cs with
  | [] => .error (.broken .truncated)
  | ']' :: rest => .ok rest
  | _ => .error (.broken .malformed)

/-- The values of the fields that a list still has room for, behind at least one value. -/
def readMoreValues (timing : Timing) :
    List Timing.Field → List Char → Except Rejection (Timing × List Char)
  | [], cs => do
    let rest ← readListEnd cs
    .ok (timing, rest)
  | f :: fields, cs =>
    match skipBlanks cs with
    | [] => .error (.broken .truncated)
    | ']' :: rest => .ok (timing, rest)
    | ',' :: rest =>
      match skipBlanks rest with
      | ']' :: _ => .error (.broken .malformed)
      | rest => do
        let (d, rest) ← readSeconds rest
        readMoreValues (timing.set d f) fields rest
    | _ => .error (.broken .malformed)

/-- A list from behind its opening bracket. -/
def readList (cs : List Char) : Except Rejection (Timing × List Char) :=
  match skipBlanks cs with
  | ']' :: rest => .ok ({}, rest)
  | cs => do
    let (d, rest) ← readSeconds cs
    readMoreValues (Timing.set {} d .wall) (Timing.Field.all.drop 1) rest

/-! ## Whole texts -/

/-- The timing that a text gives. Only blanks may stand behind it. -/
def readTiming (text : String) : Except Rejection Timing := do
  let cs := skipBlanks text.toList
  let (timing, rest) ← match cs with
    | '\x7b' :: rest => readMap rest
    | '[' :: rest => readList rest
    | cs => reject .timing cs
  if (skipBlanks rest).isEmpty then .ok timing else .error (.broken .malformed)

/-- The timing that a text gives, if it has no flaw. -/
def read (text : String) : Except Rejection Timing := do
  let timing ← readTiming text
  match timing.check with
  | .ok timing => .ok timing
  | .error flaw => .error (.flawed flaw)

end ForkChoice.Config

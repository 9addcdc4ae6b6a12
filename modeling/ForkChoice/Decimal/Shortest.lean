import ForkChoice.Decimal.Binary

/-!
# Shortest decimals

* `Binary.shortest`: the decimal with the fewest digits that reads back as the number, of those the
  nearest one.
* `Binary.text`: its digits with a point or an exponent.
-/

namespace ForkChoice.Decimal

/-- A decimal `digits * 10 ^ power`. -/
structure Scientific where
  digits : Nat
  power : Int
  deriving DecidableEq, Repr

def digitsOf (n : Nat) : List Char := Nat.toDigits 10 n

namespace Binary

/-- A quotient that lies between the ends of a closed or open interval of quotients. -/
def within (closed : Bool) (lo hi x : Nat × Nat) : Bool :=
  if closed then lo.1 * x.2 ≤ x.1 * lo.2 && x.1 * hi.2 ≤ hi.1 * x.2
  else lo.1 * x.2 < x.1 * lo.2 && x.1 * hi.2 < hi.1 * x.2

/-- The point halfway to the number below. Below a power of two the numbers stand closer. -/
def lowerEnd (b : Binary) : Nat × Nat :=
  if b.mantissa = 0x10000000000000 ∧ minExponent < b.exponent then
    shifted (4 * b.mantissa - 1) 1 (b.exponent - 2)
  else shifted (2 * b.mantissa - 1) 1 (b.exponent - 1)

/-- The point halfway to the number above. -/
def upperEnd (b : Binary) : Nat × Nat := shifted (2 * b.mantissa + 1) 1 (b.exponent - 1)

/-- Whether a decimal reads back as the number. The ends go to the even mantissa. -/
def readsBack (b : Binary) (s : Scientific) : Bool :=
  within (b.mantissa % 2 == 0) b.lowerEnd b.upperEnd
    (s.digits * Nat.pow 10 s.power.toNat, Nat.pow 10 (-s.power).toNat)

/-- The power of ten of the first digit of a number that is not zero. -/
def leadingPower (b : Binary) : Int :=
  let (num, den) := b.ratio
  if den ≤ num then (digitsOf (num / den)).length - 1
  else -((digitsOf ((den + num - 1) / num - 1)).length : Int)

/-- The multiples of a power of ten just below and just above a number, the nearer one first and
the even one first if both are equally near. -/
def neighbors (b : Binary) (power : Int) : List Scientific :=
  let num := b.ratio.1 * Nat.pow 10 (-power).toNat
  let den := b.ratio.2 * Nat.pow 10 power.toNat
  let below : Scientific := ⟨num / den, power⟩
  let above : Scientific := ⟨num / den + 1, power⟩
  if roundEven num den = num / den then [below, above] else [above, below]

/-- The decimal with the fewest digits that reads back, of at most 17 digits. A power of ten just
above the number is met on the first grid, where it has a zero too many. -/
def shortest (b : Binary) : Scientific :=
  if b.mantissa = 0 then ⟨0, 0⟩
  else
    let grids := (List.range 17).map fun n : Nat => b.leadingPower - n
    match (grids.flatMap b.neighbors).find? b.readsBack with
    | some ⟨10, power⟩ => ⟨1, power + 1⟩
    | some s => s
    | none => ⟨0, 0⟩

/-- The powers of the first digit for which no exponent is written. -/
def isPositional (power : Int) : Bool := -5 ≤ power && power ≤ 15

/-- Digits with the point after the first `place` of them, filled up with zeros on either side. At
least one digit stands after the point. -/
def positional (digits : List Char) (place : Int) : List Char :=
  if place ≤ 0 then ['0', '.'] ++ List.replicate (-place).toNat '0' ++ digits
  else
    let whole := digits.take place.toNat
    let rest := digits.drop place.toNat
    whole ++ List.replicate (place.toNat - digits.length) '0' ++ ['.'] ++
      (if rest.isEmpty then ['0'] else rest)

def exponentText (power : Int) : List Char :=
  ['e', if power < 0 then '-' else '+'] ++ digitsOf power.natAbs

/-- Digits with the point after the first one, and an exponent. -/
def withExponent (digits : List Char) (power : Int) : List Char :=
  match digits with
  | [] => []
  | [d] => d :: exponentText power
  | d :: rest => d :: '.' :: rest ++ exponentText power

/-- The shortest text that reads back as the number, with a point or an exponent. -/
def text (b : Binary) : String :=
  let s := b.shortest
  let digits := digitsOf s.digits
  let power := s.power + (digits.length - 1)
  String.ofList <|
    if isPositional power then positional digits (power + 1) else withExponent digits power

end Binary

end ForkChoice.Decimal

/-!
# Binary floating point

Numbers with 53 binary digits, as `mantissa * 2 ^ exponent`, without a sign.

* `Binary.nearest?`: the number nearest to a quotient, an even mantissa in the middle.
* `Binary.mul?`, `Binary.div?`: product and quotient, rounded once.
* `Binary.scale?`: a number times a power of ten, rounded after each step.
-/

namespace ForkChoice.Decimal

/-- A floating point number that is not negative. -/
structure Binary where
  mantissa : Nat
  exponent : Int
  deriving DecidableEq, Repr

/-- A quotient rounded to the nearest integer, and to an even one in the middle. -/
def roundEven (num den : Nat) : Nat :=
  let twice := 2 * (num % den)
  if twice < den then num / den
  else if den < twice then num / den + 1
  else num / den + num / den % 2

namespace Binary

def minExponent : Int := -1074

def maxExponent : Int := 971

def zero : Binary := ⟨0, minExponent⟩

/-- A quotient times a power of two, as numerator and denominator. -/
def shifted (num den : Nat) (power : Int) : Nat × Nat :=
  (num <<< power.toNat, den <<< (-power).toNat)

/-- The exponent under which a quotient has 53 digits before the point, if it is not too small. -/
def exponentFor (num den : Nat) : Int :=
  let guess : Int := num.log2 - den.log2 - 52
  let (n, d) := shifted num den (-guess)
  max (if n < 0x10000000000000 * d then guess - 1 else guess) minExponent

/-- The nearest number to a quotient; there is none past the largest one. -/
def nearest? (num den : Nat) : Option Binary :=
  if num = 0 then some zero
  else
    let exponent := exponentFor num den
    let (n, d) := shifted num den (-exponent)
    let mantissa := roundEven n d
    let rounded : Binary :=
      if mantissa = 0x20000000000000 then ⟨0x10000000000000, exponent + 1⟩ else ⟨mantissa, exponent⟩
    if rounded.exponent ≤ maxExponent then some rounded else none

/-- A natural number, if there is one near. -/
def ofNat? (n : Nat) : Option Binary := nearest? n 1

/-- A number as numerator and denominator. -/
def ratio (b : Binary) : Nat × Nat := shifted b.mantissa 1 b.exponent

def mul? (a b : Binary) : Option Binary :=
  nearest? (a.ratio.1 * b.ratio.1) (a.ratio.2 * b.ratio.2)

def div? (a b : Binary) : Option Binary :=
  nearest? (a.ratio.1 * b.ratio.2) (a.ratio.2 * b.ratio.1)

def maxPower : Nat := 308

/-- Divides by a power of ten, in several steps if the power itself is too large. -/
def divPower? (b : Binary) (power : Nat) : Option Binary :=
  if power ≤ maxPower then do b.div? (← ofNat? (Nat.pow 10 power))
  else if b.mantissa = 0 then some b
  else do (← b.div? (← ofNat? (Nat.pow 10 maxPower))).divPower? (power - maxPower)
termination_by power
decreasing_by simp [maxPower] at *; omega

/-- Multiplies by a power of ten. A power that is itself too large leaves only zero in range. -/
def mulPower? (b : Binary) (power : Nat) : Option Binary :=
  if power ≤ maxPower then do b.mul? (← ofNat? (Nat.pow 10 power))
  else if b.mantissa = 0 then some b
  else none

def scale? (b : Binary) (power : Int) : Option Binary :=
  if 0 ≤ power then b.mulPower? power.toNat else b.divPower? (-power).toNat

end Binary

end ForkChoice.Decimal

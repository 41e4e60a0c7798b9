namespace SchemaCodec.Decimal

/-! Binary floating-point numbers of 64 bits, as a mantissa below `2 ^ 53` and a power of two. -/

inductive Binary64 where
  | finite (negative : Bool) (mantissa : Nat) (exponent : Int)
  | infinite (negative : Bool)
  | notANumber
  deriving DecidableEq, Repr

namespace Binary64

def leastExponent : Int := -1074

def greatestExponent : Int := 971

/-- The quotient rounded to the nearest natural number; a half goes to the even neighbour. -/
def roundDiv (dividend divisor : Nat) : Nat :=
  let quotient := dividend / divisor
  let twice := 2 * (dividend % divisor)
  if divisor < twice ∨ twice = divisor ∧ quotient % 2 = 1 then quotient + 1 else quotient

/-- The fraction `numerator / (denominator * 2 ^ exponent)`. -/
def scale (numerator denominator : Nat) (exponent : Int) : Nat × Nat :=
  if exponent < 0 then (numerator * Nat.pow 2 (-exponent).toNat, denominator)
  else (numerator, denominator * Nat.pow 2 exponent.toNat)

/-- The exponent at which a positive fraction has a mantissa of 53 bits, as far as the range of
exponents allows. -/
def exponentFor (numerator denominator : Nat) : Int :=
  let guess : Int := (numerator.log2 : Int) - denominator.log2 - 52
  let (n, d) := scale numerator denominator guess
  let exponent := if n / d < Nat.pow 2 52 then guess - 1 else guess
  max exponent leastExponent

/-- The number nearest to a fraction; a tie goes to the even mantissa. -/
def nearest (negative : Bool) (numerator denominator : Nat) : Binary64 :=
  if numerator = 0 then .finite negative 0 leastExponent
  else
    let exponent := exponentFor numerator denominator
    let (n, d) := scale numerator denominator exponent
    let mantissa := roundDiv n d
    let (mantissa, exponent) :=
      if mantissa = Nat.pow 2 53 then (Nat.pow 2 52, exponent + 1) else (mantissa, exponent)
    if greatestExponent < exponent then .infinite negative
    else .finite negative mantissa exponent

def ofNat (n : Nat) : Binary64 :=
  nearest false n 1

/-- The multiple of the least positive number that a finite number is. -/
def units (negative : Bool) (mantissa : Nat) (exponent : Int) : Int :=
  let size : Int := mantissa * Nat.pow 2 (exponent - leastExponent).toNat
  if negative then -size else size

def add : Binary64 → Binary64 → Binary64
  | .notANumber, _ => .notANumber
  | _, .notANumber => .notANumber
  | .infinite a, .infinite b => if a = b then .infinite a else .notANumber
  | .infinite a, .finite .. => .infinite a
  | .finite .., .infinite b => .infinite b
  | .finite a m e, .finite b n f =>
    let sum := units a m e + units b n f
    if sum = 0 then .finite (a && b) 0 leastExponent
    else nearest (sum < 0) sum.natAbs (Nat.pow 2 (-leastExponent).toNat)

def divNat (n : Nat) : Binary64 → Binary64
  | .finite negative mantissa exponent =>
    let (numerator, denominator) := scale mantissa n (-exponent)
    nearest negative numerator denominator
  | other => other

end Binary64

end SchemaCodec.Decimal

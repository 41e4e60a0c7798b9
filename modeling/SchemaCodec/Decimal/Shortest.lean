import SchemaCodec.Decimal.Binary64

namespace SchemaCodec.Decimal

/-! The fewest decimal digits that read back as a given binary number. -/

/-- The decimal number `digits * 10 ^ exponent`. -/
structure Digits where
  digits : Nat
  exponent : Int
  deriving DecidableEq, Repr

namespace Shortest

/-- A positive number `numerator / denominator` with the ends of the interval that rounds to it,
each over the same denominator. -/
structure Interval where
  low : Nat
  value : Nat
  high : Nat
  denominator : Nat
  closed : Bool

/-- The interval of a number `mantissa * 2 ^ exponent`. Below a power of two the next number is only
half as far away as above it. -/
def interval (mantissa : Nat) (exponent : Int) : Interval :=
  let narrow := mantissa = Nat.pow 2 52 ∧ Binary64.leastExponent < exponent
  let low := if narrow then 4 * mantissa - 1 else 4 * mantissa - 2
  let up := Nat.pow 2 (exponent - 2).toNat
  let down := Nat.pow 2 (2 - exponent).toNat
  ⟨low * up, 4 * mantissa * up, (4 * mantissa + 2) * up, down, mantissa % 2 = 0⟩

/-- Whether `digits * 10 ^ exponent` rounds to the number. -/
def Interval.contains (i : Interval) (candidate : Digits) : Bool :=
  let left := candidate.digits * Nat.pow 10 candidate.exponent.toNat * i.denominator
  let right (bound : Nat) := bound * Nat.pow 10 (-candidate.exponent).toNat
  if i.closed then right i.low ≤ left && left ≤ right i.high
  else right i.low < left && left < right i.high

/-- The power of ten of the first digit of a positive fraction. -/
def leadingExponent (numerator denominator : Nat) : Int :=
  if denominator ≤ numerator then ((Nat.toDigits 10 (numerator / denominator)).length : Int) - 1
  else -((Nat.toDigits 10 ((denominator - 1) / numerator)).length : Int)

/-- The neighbours of the number among the decimals of the given exponent, the nearer one first. -/
def neighbours (i : Interval) (exponent : Int) : Digits × Digits :=
  let numerator := i.value * Nat.pow 10 (-exponent).toNat
  let denominator := i.denominator * Nat.pow 10 exponent.toNat
  let below := numerator / denominator
  let above := below + 1
  if Binary64.roundDiv numerator denominator = below then (⟨below, exponent⟩, ⟨above, exponent⟩)
  else (⟨above, exponent⟩, ⟨below, exponent⟩)

/-- Search grids of decimals, each ten times finer than the one before, for one that rounds to the
number. -/
def search (i : Interval) : (tries : Nat) → (exponent : Int) → Digits
  | 0, exponent => (neighbours i exponent).1
  | tries + 1, exponent =>
    let (near, far) := neighbours i exponent
    if i.contains near then near
    else if i.contains far then far
    else search i tries (exponent - 1)

end Shortest

/-- The shortest decimal that rounds to a positive binary number. -/
def shortest (mantissa : Nat) (exponent : Int) : Digits :=
  let i := Shortest.interval mantissa exponent
  Shortest.search i 17 (Shortest.leadingExponent i.value i.denominator)

structure Layout where
  /-- The least power of ten of the first digit that is written without an exponent. -/
  leastPositional : Int
  /-- The least power of ten above that which is written with an exponent. -/
  leastScientific : Int
  /-- The least number of digits of an exponent. -/
  exponentWidth : Nat

def positional (digits : List Char) (leading : Int) : List Char :=
  if leading < 0 then '0' :: '.' :: List.replicate (-leading - 1).toNat '0' ++ digits
  else
    let whole := leading.toNat + 1
    let padded := digits ++ List.replicate (whole - digits.length) '0'
    match padded.drop whole with
    | [] => padded
    | fraction => padded.take whole ++ '.' :: fraction

def scientific (layout : Layout) (digits : List Char) (leading : Int) : List Char :=
  let point := match digits with
    | first :: second :: rest => first :: '.' :: second :: rest
    | digits => digits
  let size := Nat.toDigits 10 leading.natAbs
  let exponent := List.replicate (layout.exponentWidth - size.length) '0' ++ size
  point ++ 'e' :: (if leading < 0 then '-' else '+') :: exponent

def dropTrailingZeros (digits : List Char) : List Char :=
  (digits.reverse.dropWhile (· = '0')).reverse

def Binary64.text (layout : Layout) : Binary64 → String
  | .notANumber => "NaN"
  | .infinite negative => if negative then "-Inf" else "+Inf"
  | .finite negative mantissa exponent =>
    let sign := if negative then ['-'] else []
    if mantissa = 0 then String.ofList (sign ++ ['0'])
    else
      let decimal := shortest mantissa exponent
      let digits := Nat.toDigits 10 decimal.digits
      let leading := decimal.exponent + digits.length - 1
      let digits := dropTrailingZeros digits
      let body :=
        if layout.leastPositional ≤ leading ∧ leading < layout.leastScientific then
          positional digits leading
        else scientific layout digits leading
      String.ofList (sign ++ body)

/-- Numbers from `0.0001` to below a million are written without an exponent, and an exponent has
two digits at least. -/
def compact : Layout :=
  ⟨-4, 6, 2⟩

end SchemaCodec.Decimal

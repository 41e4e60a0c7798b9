import SchemaCodec.Decimal.Binary64

namespace SchemaCodec.Decimal

/-! Numerals: the written forms of integers and binary numbers, with base letters and underscores
between digits. -/

namespace Numeral

def digitValue? (c : Char) : Option Nat :=
  if '0' ≤ c ∧ c ≤ '9' then some (c.toNat - 0x30)
  else if 'a' ≤ c ∧ c ≤ 'z' then some (c.toNat - 0x57)
  else if 'A' ≤ c ∧ c ≤ 'Z' then some (c.toNat - 0x37)
  else none

def isDigitIn (base : Nat) (c : Char) : Bool :=
  match digitValue? c with
  | some value => value < base
  | none => false

/-- The value of digits in a base; other characters do not count. -/
def value (base : Nat) (digits : List Char) : Nat :=
  digits.foldl (fun total c =>
    match digitValue? c with
    | some digit => total * base + digit
    | none => total) 0

def splitSign : List Char → Bool × List Char
  | '-' :: rest => (true, rest)
  | '+' :: rest => (false, rest)
  | text => (false, text)

def letterBase? (c : Char) : Option Nat :=
  if c = 'b' ∨ c = 'B' then some 2
  else if c = 'o' ∨ c = 'O' then some 8
  else if c = 'x' ∨ c = 'X' then some 16
  else none

inductive Mark where
  | digit
  | underscore
  | other
  deriving DecidableEq

/-- Whether every underscore stands behind a digit and before one. -/
def spaced (hex : Bool) : Mark → List Char → Bool
  | last, [] => last != .underscore
  | last, c :: rest =>
    if isDigitIn (if hex then 16 else 10) c then spaced hex .digit rest
    else if c = '_' then last == .digit && spaced hex .underscore rest
    else last != .underscore && spaced hex .other rest

/-- Whether the underscores of an unsigned numeral stand where they may: between digits, or between
a base and a digit. -/
def underscoresFit (text : List Char) : Bool :=
  match text with
  | '0' :: letter :: rest =>
    match letterBase? letter with
    | some base => spaced (base == 16) .digit rest
    | none => spaced false .other text
  | _ => spaced false .other text

/-- The base of an unsigned integer numeral and its digits: a leading zero without a letter means
octal. -/
def splitBase (text : List Char) : Nat × List Char :=
  match text with
  | '0' :: letter :: next :: rest =>
    match letterBase? letter with
    | some base => (base, next :: rest)
    | none => (8, letter :: next :: rest)
  | '0' :: rest => (8, rest)
  | _ => (10, text)

/-- The natural number a numeral stands for, without a bound. -/
def natural? (text : List Char) : Option Nat :=
  let (base, digits) := splitBase text
  if text ≠ [] ∧ digits.all (fun c => c == '_' || isDigitIn base c) ∧
      (underscoresFit text || !text.contains '_') then
    some (value base digits)
  else none

/-- The integer of the given sign and size, if it fits into 64 bits. -/
def withSign? (negative : Bool) (size : Nat) : Option Int :=
  if negative then if size ≤ Nat.pow 2 63 then some (-size) else none
  else if size < Nat.pow 2 63 then some size else none

def integer? (text : List Char) : Option Int :=
  let (negative, digits) := splitSign text
  (natural? digits).bind (withSign? negative)

/-- Whether a text is no 64-bit integer because of its size: the digits at its start stand for a
number that does not fit. -/
def isTooLarge (text : List Char) : Bool :=
  let (negative, digits) := splitSign text
  let (base, body) := splitBase digits
  decide (Nat.pow 2 64 ≤ value base (body.takeWhile fun c => c == '_' || isDigitIn base c)) ||
    (natural? digits).any fun size => (withSign? negative size).isNone

def word? (text : List Char) : Option Nat :=
  match natural? text with
  | some n => if n < Nat.pow 2 64 then some n else none
  | none => none

def digits? (base : Nat) (text : List Char) : Option Nat :=
  if text ≠ [] ∧ text.all (isDigitIn base) then some (value base text) else none

/-- The integer that digits in a base with an optional sign stand for, if it fits into 64 bits with
a sign. -/
def signed? (base : Nat) (text : List Char) : Option Int :=
  let (negative, digits) := splitSign text
  (digits? base digits).bind (withSign? negative)

/-- The integer that decimal digits with an optional sign stand for, if it fits into 64 bits with a
sign. -/
def decimal? (text : List Char) : Option Int :=
  signed? 10 text

def lowerAscii (text : List Char) : List Char :=
  text.map Char.toLower

/-- The exponent part of a numeral: its value, or zero if there is none. The value is cut at five
digits, far outside the range of exponents. -/
def exponent? (mark : Char) (needed : Bool) : List Char → Option Int
  | [] => if needed then none else some 0
  | c :: rest =>
    if c.toLower = mark then
      let (negative, digits) := splitSign rest
      match digits with
      | first :: _ =>
        if first.isDigit ∧ digits.all (fun c => c == '_' || c.isDigit) then
          let size := value 10 ((digits.filter Char.isDigit).dropWhile (· = '0') |>.take 5)
          some (if negative then -size else size)
        else none
      | [] => none
    else none

/-- Split a mantissa from what follows it: the digits before and behind the point, and the rest. -/
def splitMantissa (base : Nat) (text : List Char) : List Char × List Char × List Char :=
  let isPart (c : Char) := c == '_' || isDigitIn base c
  let whole := text.takeWhile isPart
  match text.dropWhile isPart with
  | '.' :: rest => (whole, rest.takeWhile isPart, rest.dropWhile isPart)
  | rest => (whole, [], rest)

def magnitude? (negative : Bool) (text : List Char) : Option Binary64 :=
  let (base, power, mark, body) := match text with
    | '0' :: letter :: next :: rest =>
      if letter = 'x' ∨ letter = 'X' then (16, 4, 'p', next :: rest) else (10, 1, 'e', text)
    | _ => (10, 1, 'e', text)
  let (whole, fraction, rest) := splitMantissa base body
  let digits := (whole ++ fraction).filter (· ≠ '_')
  if digits = [] then none
  else match exponent? mark (base == 16) rest with
    | none => none
    | some exponent =>
      let places := (fraction.filter (· ≠ '_')).length
      let radix := if base = 16 then 2 else 10
      let exponent := exponent - power * places
      let mantissa := value base digits
      some (.nearest negative (mantissa * Nat.pow radix exponent.toNat)
        (Nat.pow radix (-exponent).toNat))

/-- The binary number a numeral stands for. Numbers out of range have none. -/
def binary64? (text : List Char) : Option Binary64 :=
  let (negative, body) := splitSign text
  let signed := body.length < text.length
  let word := lowerAscii body
  if word = "inf".toList ∨ word = "infinity".toList then some (.infinite negative)
  else if word = "nan".toList ∧ ¬signed then some .notANumber
  else if text.contains '_' ∧ ¬underscoresFit body then none
  else match magnitude? negative body with
    | some (.infinite _) => none
    | number => number

end Numeral

end SchemaCodec.Decimal

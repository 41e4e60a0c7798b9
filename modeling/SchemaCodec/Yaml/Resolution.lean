import SchemaCodec.Decimal.Numeral
import SchemaCodec.Text.Cut

namespace SchemaCodec.Yaml

/-! Resolution: which kind of value the text of a scalar stands for. -/

inductive Resolved where
  | null
  | bool (value : Bool)
  | integer (value : Int)
  | float (value : Decimal.Binary64)
  | text
  deriving DecidableEq, Repr

def boolOf? (text : String) : Option Bool :=
  if ["true", "True", "TRUE"].contains text then some true
  else if ["false", "False", "FALSE"].contains text then some false
  else none

def isNull (text : String) : Bool :=
  ["", "~", "null", "Null", "NULL"].contains text

def specialFloat? (text : String) : Option Decimal.Binary64 :=
  if [".nan", ".NaN", ".NAN"].contains text then some .notANumber
  else if [".inf", ".Inf", ".INF", "+.inf", "+.Inf", "+.INF"].contains text then
    some (.infinite false)
  else if ["-.inf", "-.Inf", "-.INF"].contains text then some (.infinite true)
  else none

/-- Digits behind an exponent letter and maybe a sign, or nothing. -/
def isExponent : List Char → Bool
  | [] => true
  | c :: rest =>
    let digits := (Decimal.Numeral.splitSign rest).2
    (c == 'e' || c == 'E') && !digits.isEmpty && digits.all Char.isDigit

/-- Decimal digits with an optional sign, point and exponent. Digits may be missing on one side of
the point. -/
def isDecimal (text : List Char) : Bool :=
  let body := (Decimal.Numeral.splitSign text).2
  let whole := body.takeWhile Char.isDigit
  match body.dropWhile Char.isDigit with
  | '.' :: rest =>
    let fraction := rest.takeWhile Char.isDigit
    !(whole.isEmpty && fraction.isEmpty) && isExponent (rest.dropWhile Char.isDigit)
  | rest => !whole.isEmpty && isExponent rest

/-- An integer in a base of its own, with the sign behind the letter of the base. -/
def lateSigned? (text : List Char) : Option Int :=
  let unsigned (base : Nat) (digits : List Char) : Option Int :=
    match Decimal.Numeral.signed? base digits, Decimal.Numeral.digits? base digits with
    | some n, _ => some n
    | none, some n => if n < Nat.pow 2 64 then some n else none
    | none, none => none
  match text with
  | '0' :: 'b' :: rest => unsigned 2 rest
  | '-' :: '0' :: 'b' :: rest => Decimal.Numeral.signed? 2 ('-' :: rest)
  | '0' :: 'o' :: rest => unsigned 8 rest
  | '-' :: '0' :: 'o' :: rest => Decimal.Numeral.signed? 8 ('-' :: rest)
  | _ => none

def integerOf? (plain : List Char) : Option Int :=
  match Decimal.Numeral.integer? plain with
  | some n => some n
  | none => (Decimal.Numeral.word? plain).map Int.ofNat

def floatOf? (plain : List Char) : Option Decimal.Binary64 :=
  if isDecimal plain then Decimal.Numeral.binary64? plain else none

def resolveNumber (text : List Char) : Resolved :=
  let plain := text.filter (· ≠ '_')
  match integerOf? plain, floatOf? plain, lateSigned? plain with
  | some n, _, _ => .integer n
  | none, some f, _ => .float f
  | none, none, some n => .integer n
  | none, none, none => .text

def resolve (text : String) : Resolved :=
  match boolOf? text, specialFloat? text with
  | some value, _ => .bool value
  | none, some value => .float value
  | none, none =>
    if isNull text then .null
    else match text.toList with
      | [] => .null
      | c :: rest =>
        if c = '.' then
          match Decimal.Numeral.binary64? (c :: rest) with
          | some value => .float value
          | none => .text
        else if c.isDigit || c == '+' || c == '-' then resolveNumber (c :: rest)
        else .text

def shortTag (tag : String) : String :=
  match "tag:yaml.org,2002:".toList.isPrefixOf? tag.toList with
  | some rest => "!!" ++ String.ofList rest
  | none => tag

/-- The tag of a scalar in its short form; a lone exclamation mark is none. -/
def givenTag? (tag : Option String) : Option String :=
  match tag with
  | some "!" => none
  | some tag => some (shortTag tag)
  | none => none

end SchemaCodec.Yaml

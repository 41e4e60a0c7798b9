import SchemaCodec.Document.Basic
import SchemaCodec.Text.Utf8

namespace SchemaCodec.Json

open SchemaCodec

/-! Tokens of JSON text. Commas and colons only separate: they are skipped like blanks wherever a
token is looked for. -/

inductive Token where
  | openObject
  | closeObject
  | openArray
  | closeArray
  | scalar (value : Document)

inductive Scan where
  | token (token : Token) (rest : List UInt8)
  | finished
  | malformed

def isBlank (b : UInt8) : Bool :=
  b == 0x20 || b == 0x09 || b == 0x0a || b == 0x0d

def isFiller (b : UInt8) : Bool :=
  isBlank b || b == 0x2c || b == 0x3a

def isDigit (b : UInt8) : Bool :=
  0x30 ≤ b && b ≤ 0x39

/-- The bytes a number may hold behind its first. Their order is not checked. -/
def isNumeric (b : UInt8) : Bool :=
  isDigit b || b == 0x2e || b == 0x65 || b == 0x45 || b == 0x2b || b == 0x2d

/-- The value of a hexadecimal digit; any other byte counts as zero. -/
def hexValue (b : UInt8) : Nat :=
  if isDigit b then b.toNat - 0x30
  else if 0x61 ≤ b && b ≤ 0x66 then b.toNat - 0x57
  else if 0x41 ≤ b && b ≤ 0x46 then b.toNat - 0x37
  else 0

def hexUnit (a b c d : UInt8) : Nat :=
  ((hexValue a * 16 + hexValue b) * 16 + hexValue c) * 16 + hexValue d

def isHighSurrogate (unit : Nat) : Bool :=
  0xd800 ≤ unit && unit < 0xdc00

def isLowSurrogate (unit : Nat) : Bool :=
  0xdc00 ≤ unit && unit < 0xe000

def surrogatePair (high low : Nat) : Nat :=
  0x10000 + (high - 0xd800) * 0x400 + (low - 0xdc00)

def unitBytes (code : Nat) : List UInt8 :=
  String.utf8EncodeChar (Char.ofNat code)

def replacementBytes : List UInt8 :=
  String.utf8EncodeChar Text.replacement

def escapedByte? (b : UInt8) : Option UInt8 :=
  if b = 0x22 ∨ b = 0x5c ∨ b = 0x2f then some b
  else if b = 0x62 then some 0x08
  else if b = 0x66 then some 0x0c
  else if b = 0x6e then some 0x0a
  else if b = 0x72 then some 0x0d
  else if b = 0x74 then some 0x09
  else none

/-- What an open high surrogate turns into when no low one follows. -/
def flushSurrogate : Option Nat → List UInt8
  | none => []
  | some _ => replacementBytes

/-- The bytes of a string up to its closing quote, and what follows the quote. `high` is a high
surrogate that the escape just before has left open. -/
def unescape (high : Option Nat) : List UInt8 → Option (List UInt8 × List UInt8)
  | [] => none
  | 0x5c :: 0x75 :: a :: b :: c :: d :: rest =>
    let unit := hexUnit a b c d
    match high with
    | some first =>
      if isLowSurrogate unit then
        (unescape none rest).map fun (bytes, rest) =>
          (unitBytes (surrogatePair first unit) ++ bytes, rest)
      else if isHighSurrogate unit then
        (unescape (some unit) rest).map fun (bytes, rest) => (replacementBytes ++ bytes, rest)
      else
        (unescape none rest).map fun (bytes, rest) =>
          (replacementBytes ++ unitBytes unit ++ bytes, rest)
    | none =>
      if isHighSurrogate unit then unescape (some unit) rest
      else if isLowSurrogate unit then
        (unescape none rest).map fun (bytes, rest) => (replacementBytes ++ bytes, rest)
      else
        (unescape none rest).map fun (bytes, rest) => (unitBytes unit ++ bytes, rest)
  | 0x5c :: e :: rest =>
    match escapedByte? e with
    | some b =>
      (unescape none rest).map fun (bytes, rest) => (flushSurrogate high ++ b :: bytes, rest)
    | none => none
  | b :: rest =>
    if b = 0x22 then some (flushSurrogate high, rest)
    else if b = 0x5c then none
    else (unescape none rest).map fun (bytes, rest) => (flushSurrogate high ++ b :: bytes, rest)

def scanWord (word : List UInt8) (value : Document) (rest : List UInt8) : Scan :=
  match word.isPrefixOf? rest with
  | some rest => .token (.scalar value) rest
  | none => .malformed

def scan (text : List UInt8) : Scan :=
  match text.dropWhile isFiller with
  | [] => .finished
  | b :: rest =>
    if b = 0x7b then .token .openObject rest
    else if b = 0x7d then .token .closeObject rest
    else if b = 0x5b then .token .openArray rest
    else if b = 0x5d then .token .closeArray rest
    else if b = 0x22 then
      match unescape none rest with
      | some (bytes, rest) => .token (.scalar (.string (Text.decodeLossy bytes))) rest
      | none => .malformed
    else if b = 0x2d ∨ isDigit b then
      let digits := b :: rest.takeWhile isNumeric
      .token (.scalar (.number (Text.decodeLossy digits))) (rest.dropWhile isNumeric)
    else if b = 0x74 then scanWord [0x72, 0x75, 0x65] (.bool true) rest
    else if b = 0x66 then scanWord [0x61, 0x6c, 0x73, 0x65] (.bool false) rest
    else if b = 0x6e then scanWord [0x75, 0x6c, 0x6c] .null rest
    else .malformed

/-- Whether an object or array goes on: its text neither ends nor closes at the next byte that is
not blank. -/
def hasMore (text : List UInt8) : Bool :=
  match text.dropWhile isBlank with
  | [] => false
  | b :: _ => b != 0x7d && b != 0x5d

end SchemaCodec.Json

import SchemaCodec.Codec.Basic
import SchemaCodec.Decimal.Shortest

namespace SchemaCodec.Codec

open SchemaCodec

/-! Strings, property names and literals as source text of a script. -/

def escapeChar (c : Char) : List Char :=
  if c = '\\' ∨ c = '\x27' then ['\\', c]
  else if c = '\n' then ['\\', 'n']
  else if c = '\r' then ['\\', 'r']
  else [c]

def stringChars (text : List Char) : List Char :=
  '\x27' :: text.flatMap escapeChar ++ ['\x27']

def stringText (text : String) : String :=
  String.ofList (stringChars text.toList)

/-- Letters, digits and the underscore, of ASCII only. -/
def isWordChar (c : Char) : Bool :=
  c.isAlphanum || c == '_'

/-- Whether a key can stand as a property name without quotes. -/
def isBareKey (key : List Char) : Bool :=
  match key with
  | [] => false
  | first :: _ => !first.isDigit && key.all isWordChar

def propertyNameChars (key : List Char) : List Char :=
  if isBareKey key then key else stringChars key

def propertyName (key : String) : String :=
  String.ofList (propertyNameChars key.toList)

def Literal.text : Literal → String
  | .string text => stringText text
  | .number text => text
  | .bool value => if value then "true" else "false"
  | .integer value => toString value
  | .float value => value.text Decimal.compact
  | .missing => "<nil>"

end SchemaCodec.Codec

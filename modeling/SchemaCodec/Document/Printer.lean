import SchemaCodec.Document.Basic
import SchemaCodec.Text.Quoted
import SchemaCodec.Text.Utf8

namespace SchemaCodec.Document

open SchemaCodec

/-! The compact JSON text of a document. Only what JSON or a script could misread is escaped. -/

def escapeChar (c : Char) : List Char :=
  match c with
  | '"' => ['\\', '"']
  | '\\' => ['\\', '\\']
  | '\n' => ['\\', 'n']
  | '\r' => ['\\', 'r']
  | '\t' => ['\\', 't']
  | c =>
    if c.toNat < 0x20 ∨ c = '\u2028' ∨ c = '\u2029' then
      '\\' :: 'u' :: Text.hexDigits 4 c.toNat
    else [c]

def escapePiece : Text.Piece → List Char
  | .char c => escapeChar c
  | .stray _ => '\\' :: 'u' :: Text.hexDigits 4 Text.replacement.toNat

def writeString (text : String) (rest : List Char) : List Char :=
  '"' :: text.toList.flatMap escapeChar ++ '"' :: rest

def quote (text : String) : String :=
  String.ofList (writeString text [])

/-- Byte text as a JSON string; a stray byte is written as an escape. -/
def quoteBytes (bytes : List UInt8) : String :=
  String.ofList ('"' :: (Text.pieces bytes).flatMap escapePiece ++ ['"'])

mutual

def write : Document → List Char → List Char
  | .null, rest => 'n' :: 'u' :: 'l' :: 'l' :: rest
  | .bool true, rest => 't' :: 'r' :: 'u' :: 'e' :: rest
  | .bool false, rest => 'f' :: 'a' :: 'l' :: 's' :: 'e' :: rest
  | .number text, rest => text.toList ++ rest
  | .string text, rest => writeString text rest
  | .array items, rest => '[' :: writeItems items (']' :: rest)
  | .object members, rest => '\x7b' :: writeMembers members ('\x7d' :: rest)

def writeItems : List Document → List Char → List Char
  | [], rest => rest
  | [item], rest => item.write rest
  | item :: next :: items, rest => item.write (',' :: writeItems (next :: items) rest)

def writeMembers : List (String × Document) → List Char → List Char
  | [], rest => rest
  | [(key, value)], rest => writeString key (':' :: value.write rest)
  | (key, value) :: next :: members, rest =>
    writeString key (':' :: value.write (',' :: writeMembers (next :: members) rest))

end

def encode (d : Document) : String :=
  String.ofList (d.write [])

end SchemaCodec.Document

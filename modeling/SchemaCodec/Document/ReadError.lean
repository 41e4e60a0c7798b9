import SchemaCodec.Pointer
import SchemaCodec.Text.Quoted

namespace SchemaCodec.Document

open SchemaCodec

/-! Why a text is not read as a document. -/

structure Position where
  line : Nat
  column : Nat
  deriving DecidableEq, Repr

def Position.text (position : Position) : String :=
  s!"{position.line}:{position.column}"

inductive ReadError where
  /-- The text breaks the rules of its format. -/
  | malformed
  /-- The text ends where a value is due. -/
  | unexpectedEnd
  /-- The text ends inside an object or array. -/
  | unclosed
  /-- More text follows the document. -/
  | trailingData
  /-- A closing bracket stands where a value is due. -/
  | unexpectedDelimiter (delimiter : Char) (path : Pointer)
  | expectedKey (path : Pointer)
  /-- A key occurs twice in the object at `path`. -/
  | duplicateKey (key : String) (path : Pointer)
  /-- A key occurs twice, at two known positions. -/
  | repeatedKey (key : String) (first second : Position)
  | invalidInteger (text : String) (position : Position)
  | invalidFloat (text : String) (position : Position)
  /-- The document is a part of itself: reading it does not come to an end. -/
  | endless
  deriving DecidableEq, Repr

def ReadError.message : ReadError → String
  | .malformed => "malformed text"
  | .unexpectedEnd => "unexpected EOF"
  | .unclosed => "EOF"
  | .trailingData => "jsonschema: trailing data after document"
  | .unexpectedDelimiter delimiter path =>
    "jsonschema: unexpected delimiter " ++ Text.quotedChar delimiter ++ " at " ++
      Pointer.shown path.text
  | .expectedKey path => "jsonschema: expected object key at " ++ Pointer.shown path.text
  | .duplicateKey key path =>
    "duplicate key " ++ Text.quoted key ++ " at " ++ Pointer.shown path.text
  | .repeatedKey key first second =>
    "duplicate key " ++ Text.quoted key ++ " at " ++ second.text ++
      " (first at " ++ first.text ++ ")"
  | .invalidInteger text position =>
    "jsonschema: invalid integer " ++ Text.quoted text ++ " at " ++ position.text
  | .invalidFloat text position =>
    "jsonschema: non-JSON float " ++ Text.quoted text ++ " at " ++ position.text
  | .endless => "document inside of itself"

end SchemaCodec.Document

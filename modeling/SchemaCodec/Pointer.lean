namespace SchemaCodec

/-! Positions inside a document: the keys and indices that lead to a value, written in the form of
JSON Pointer. -/

abbrev Pointer := List String

namespace Pointer

def escapeChar (c : Char) : List Char :=
  if c = '~' then ['~', '0'] else if c = '/' then ['~', '1'] else [c]

def escape (token : String) : String :=
  String.ofList (token.toList.flatMap escapeChar)

/-- The written form: every step behind a slash, nothing for the root. -/
def text : Pointer → String
  | [] => ""
  | token :: rest => "/" ++ escape token ++ text rest

/-- The written form in messages, where the root is a lone slash. -/
def shown (path : String) : String :=
  if path = "" then "/" else path

end Pointer

end SchemaCodec

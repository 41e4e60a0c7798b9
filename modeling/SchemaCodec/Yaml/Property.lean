import SchemaCodec.Text.Utf8
import SchemaCodec.Yaml.Scalar
import SchemaCodec.Yaml.Token

namespace SchemaCodec.Yaml

/-! Properties and directives: anchors and tags of nodes, and the lines before a document that begin
with a percent sign. Each is read behind its first character. -/

def scanName (cursor : Cursor) : Option (String × Cursor) :=
  let (name, next) := cursor.span isWord
  let isClosed := next.gapAt 0 ||
    next.next?.any ['?', ':', ',', ']', '\x7d', '%', '@', '\x60'].contains
  if name.isEmpty || !isClosed then none else some (String.ofList name, next)

def isUriMark (c : Char) : Bool :=
  [';', '/', '?', ':', '@', '&', '=', '+', '$', ',', '.', '!', '~', '*', '\x27', '(', ')', '[', ']',
    '%'].contains c

def widthOf (byte : Nat) : Nat :=
  if byte < 0x80 then 1
  else if 0xC0 ≤ byte ∧ byte < 0xE0 then 2
  else if 0xE0 ≤ byte ∧ byte < 0xF0 then 3
  else if 0xF0 ≤ byte ∧ byte < 0xF8 then 4
  else 0

def escapedByte? : List Char → Option Nat
  | '%' :: a :: b :: _ => hexNumber? 0 [a, b]
  | _ => none

/-- Escaped bytes that continue a character. -/
def escapedTail : Nat → List Char → Option (List UInt8)
  | 0, _ => some []
  | n + 1, text =>
    match escapedByte? text with
    | some byte =>
      if 0x80 ≤ byte ∧ byte < 0xC0 then
        (escapedTail n (text.drop 3)).map (UInt8.ofNat byte :: ·)
      else none
    | none => none

def escapedChar? (text : List Char) : Option (List UInt8) :=
  match escapedByte? text with
  | none => none
  | some byte =>
    if widthOf byte = 0 then none
    else (escapedTail (widthOf byte - 1) (text.drop 3)).map (UInt8.ofNat byte :: ·)

def scanUri : Nat → List UInt8 → Cursor → Option (List UInt8 × Cursor)
  | 0, _, _ => none
  | fuel + 1, read, cursor =>
    match cursor.next? with
    | none => some (read, cursor)
    | some c =>
      if c = '%' then
        match escapedChar? cursor.rest with
        | none => none
        | some bytes => scanUri fuel (read ++ bytes) (cursor.skipMany (3 * bytes.length))
      else if isWord c || isUriMark c then
        scanUri fuel (read ++ Text.encode [c]) cursor.skip
      else some (read, cursor)

/-- A tag behind some characters of it, which must not be empty. -/
def scanTagText (head : List Char) (cursor : Cursor) : Option (String × Cursor) :=
  match scanUri (cursor.rest.length + 1) [] cursor with
  | none => none
  | some (bytes, next) =>
    if head.isEmpty && bytes.isEmpty then none
    else some (String.ofList (head.drop 1) ++ Text.decodeLossy bytes, next)

/-- What looks like the handle of a tag: an exclamation mark, maybe a name and another mark. -/
def scanHandle (cursor : Cursor) : Option (List Char × Cursor) :=
  if !cursor.isAt '!' then none
  else
    let (name, next) := cursor.skip.span isWord
    if next.isAt '!' then some ('!' :: name ++ ['!'], next.skip) else some ('!' :: name, next)

def scanTag (cursor : Cursor) : Option (Token.Kind × Cursor) :=
  let found : Option (String × String × Cursor) :=
    if cursor.char? 1 = some '<' then do
      let (suffix, next) ← scanTagText [] cursor.skip.skip
      if next.isAt '>' then some ("", suffix, next.skip) else none
    else do
      let (handle, next) ← scanHandle cursor
      if 1 < handle.length && handle.getLast? = some '!' then
        let (suffix, next) ← scanTagText [] next
        some (String.ofList handle, suffix, next)
      else
        let (suffix, next) ← scanTagText handle next
        some (if suffix = "" then ("", "!", next) else ("!", suffix, next))
  match found with
  | none => none
  | some (handle, suffix, next) => if next.gapAt 0 then some (.tag handle suffix, next) else none

def scanVersionPart (cursor : Cursor) : Option (Nat × Cursor) :=
  let (digits, next) := cursor.span Char.isDigit
  if digits.isEmpty || 2 < digits.length then none
  else some (digits.foldl (fun n c => n * 10 + (c.toNat - 0x30)) 0, next)

def scanVersion (cursor : Cursor) : Option (Token.Kind × Cursor) := do
  let (major, next) ← scanVersionPart cursor.skipBlanks
  if !next.isAt '.' then none
  let (minor, next) ← scanVersionPart next.skip
  return (.versionDirective major minor, next)

def scanTagDirective (cursor : Cursor) : Option (Token.Kind × Cursor) := do
  let (handle, next) ← scanHandle cursor.skipBlanks
  let isHandle := handle = ['!'] || (1 < handle.length && handle.getLast? = some '!')
  if !isHandle || !next.blankAt 0 then none
  let (uri, next) ← scanTagText [] next.skipBlanks
  if !next.gapAt 0 then none
  return (.tagDirective (String.ofList handle) uri, next)

def scanDirective (cursor : Cursor) : Option (Token.Kind × Mark × Cursor) := do
  let (name, next) := cursor.skip.span isWord
  if name.isEmpty || !next.gapAt 0 then none
  let (directive, next) ←
    if name = "YAML".toList then scanVersion next
    else if name = "TAG".toList then scanTagDirective next
    else none
  let stop := next.mark
  let next := next.skipBlanks
  let next := if next.isAt '#' then next.skipLineText else next
  if !next.lineEndAt 0 then none
  return (directive, stop, next.skipBreak)

end SchemaCodec.Yaml

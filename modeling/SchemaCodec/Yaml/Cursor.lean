namespace SchemaCodec.Yaml

/-! Cursors: places in a text, with what follows there. -/

def isBlank (c : Char) : Bool :=
  c == ' ' || c == '\t'

/-- Line feeds, carriage returns, next lines, and line and paragraph separators. -/
def isBreak (c : Char) : Bool :=
  c == '\n' || c == '\r' || c == '\u0085' || c == '\u2028' || c == '\u2029'

def isWord (c : Char) : Bool :=
  c.isAlphanum || c == '_' || c == '-'

/-- A place in a text. Lines and columns are counted from zero. -/
structure Mark where
  index : Nat
  line : Nat
  column : Nat
  deriving DecidableEq, Repr, Inhabited

/-- A place and the text behind it, with the number of line breaks since the last character that is
not blank. -/
structure Cursor where
  rest : List Char
  mark : Mark
  breaks : Nat

namespace Cursor

def start (text : List Char) : Cursor :=
  ⟨text, ⟨0, 0, 0⟩, 0⟩

def column (cursor : Cursor) : Nat :=
  cursor.mark.column

/-- The character at a distance; none at the end of the text. -/
def char? (cursor : Cursor) (distance : Nat) : Option Char :=
  cursor.rest[distance]?

def next? (cursor : Cursor) : Option Char :=
  cursor.rest.head?

def isAt (cursor : Cursor) (c : Char) : Bool :=
  cursor.next? == some c

def atEnd (cursor : Cursor) : Bool :=
  cursor.rest.isEmpty

def blankAt (cursor : Cursor) (distance : Nat) : Bool :=
  (cursor.char? distance).any isBlank

def breakAt (cursor : Cursor) (distance : Nat) : Bool :=
  (cursor.char? distance).any isBreak

def lineEndAt (cursor : Cursor) (distance : Nat) : Bool :=
  (cursor.char? distance).all isBreak

def gapAt (cursor : Cursor) (distance : Nat) : Bool :=
  (cursor.char? distance).all fun c => isBlank c || isBreak c

def skip (cursor : Cursor) : Cursor :=
  match cursor.rest with
  | [] => cursor
  | c :: rest =>
    { rest := rest
      mark := ⟨cursor.mark.index + 1, cursor.mark.line, cursor.mark.column + 1⟩
      breaks := if isBlank c then cursor.breaks else 0 }

def skipMany : Nat → Cursor → Cursor
  | 0, cursor => cursor
  | n + 1, cursor => skipMany n cursor.skip

def spanFrom (holds : Char → Bool) (read : List Char) (cursor : Cursor) :
    List Char → List Char × Cursor
  | [] => (read.reverse, cursor)
  | c :: rest =>
    if holds c then spanFrom holds (c :: read) cursor.skip rest else (read.reverse, cursor)

/-- The characters of a class up to the first other one, and the place behind them. -/
def span (cursor : Cursor) (holds : Char → Bool) : List Char × Cursor :=
  spanFrom holds [] cursor cursor.rest

def skipWhile (cursor : Cursor) (holds : Char → Bool) : Cursor :=
  (cursor.span holds).2

def skipBlanks (cursor : Cursor) : Cursor :=
  cursor.skipWhile isBlank

def skipLineText (cursor : Cursor) : Cursor :=
  cursor.skipWhile fun c => !isBreak c

/-- The line break at a place, in the form in which it counts, and the start of the next line. -/
def readBreak (cursor : Cursor) : List Char × Cursor :=
  let next (width : Nat) (rest : List Char) : Cursor :=
    { rest := rest
      mark := ⟨cursor.mark.index + width, cursor.mark.line + 1, 0⟩
      breaks := cursor.breaks + 1 }
  match cursor.rest with
  | '\r' :: '\n' :: rest => (['\n'], next 2 rest)
  | c :: rest =>
    if isBreak c then
      ([if c == '\u2028' || c == '\u2029' then c else '\n'], next 1 rest)
    else ([], cursor)
  | [] => ([], cursor)

def skipBreak (cursor : Cursor) : Cursor :=
  cursor.readBreak.2

/-- Whether a line of three such characters starts here, as between documents. -/
def isMarker (cursor : Cursor) (c : Char) : Bool :=
  cursor.column == 0 && cursor.char? 0 == some c && cursor.char? 1 == some c &&
    cursor.char? 2 == some c && cursor.gapAt 3

def atMarker (cursor : Cursor) : Bool :=
  cursor.isMarker '-' || cursor.isMarker '.'

end Cursor

end SchemaCodec.Yaml

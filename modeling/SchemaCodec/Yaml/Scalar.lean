import SchemaCodec.Yaml.Cursor

namespace SchemaCodec.Yaml

/-! Scalars: the texts of plain, quoted and block scalars. Where there is no scalar of the kind that
begins, the result is `none`. -/

/-! Blanks between words -/

/-- What stands between two words: blanks of a line, or line breaks. -/
structure Gap where
  blanks : List Char
  firstBreak : List Char
  moreBreaks : List Char
  /-- Whether blanks no longer count, because a line break went before. -/
  folded : Bool

namespace Gap

/-- A gap that begins behind an escaped line break, or not. -/
def opened (folded : Bool) : Gap :=
  ⟨[], [], [], folded⟩

/-- One line break counts as a space, and of more the first does not count. -/
def text (gap : Gap) : List Char :=
  if gap.folded then
    if gap.firstBreak = ['\n'] then
      if gap.moreBreaks = [] then [' '] else gap.moreBreaks
    else gap.firstBreak ++ gap.moreBreaks
  else gap.blanks

/-- The gap at a place. Behind a line break no tab may stand left of the given column. -/
def scanWithin (margin : Nat) : Nat → Gap → Cursor → Option (Gap × Cursor)
  | 0, gap, cursor => some (gap, cursor)
  | fuel + 1, gap, cursor =>
    match cursor.next? with
    | none => some (gap, cursor)
    | some c =>
      if isBlank c then
        if gap.folded then
          if c = '\t' ∧ cursor.column < margin then none
          else scanWithin margin fuel gap cursor.skip
        else scanWithin margin fuel { gap with blanks := gap.blanks ++ [c] } cursor.skip
      else if isBreak c then
        let (text, next) := cursor.readBreak
        if gap.folded then
          scanWithin margin fuel { gap with moreBreaks := gap.moreBreaks ++ text } next
        else scanWithin margin fuel ⟨[], text, [], true⟩ next
      else some (gap, cursor)

def scan (margin : Nat) (gap : Gap) (cursor : Cursor) : Option (Gap × Cursor) :=
  scanWithin margin cursor.rest.length gap cursor

end Gap

/-! Plain scalars -/

/-- Whether a plain scalar ends before a character, inside of brackets or not. -/
def endsPlain (inFlow : Bool) (c : Char) (next : Option Char) : Bool :=
  (c == ':' && next.all fun c => isBlank c || isBreak c) ||
    (inFlow && [',', '?', '[', ']', '\x7b', '\x7d'].contains c)

/-- The characters of a word, in reverse and before those given, and the place behind it. -/
def plainWord (inFlow : Bool) (read : List Char) (cursor : Cursor) :
    List Char → List Char × Cursor
  | [] => (read, cursor)
  | c :: rest =>
    if isBlank c || isBreak c || endsPlain inFlow c rest.head? then (read, cursor)
    else plainWord inFlow (c :: read) cursor.skip rest

/-- A plain scalar: its text, the end of its last word, and the place where reading goes on. -/
structure Plain where
  text : List Char
  stop : Mark
  next : Cursor
  /-- Whether line breaks follow the last word. -/
  ended : Bool

/-- Read on behind some words, given in reverse, and a gap. -/
def plainWithin (inFlow : Bool) (margin : Nat) :
    Nat → List Char → Mark → Gap → Cursor → Option Plain
  | 0, read, stop, gap, cursor => some ⟨read.reverse, stop, cursor, gap.folded⟩
  | fuel + 1, read, stop, gap, cursor =>
    if cursor.atMarker || cursor.isAt '#' then some ⟨read.reverse, stop, cursor, gap.folded⟩
    else
      let (word, next) := plainWord inFlow [] cursor cursor.rest
      let (read, stop, gap) :=
        if word.isEmpty then (read, stop, gap)
        else (word ++ gap.text.reverse ++ read, next.mark, Gap.opened false)
      if !(next.blankAt 0 || next.breakAt 0) then
        some ⟨read.reverse, stop, next, gap.folded⟩
      else match gap.scan margin next with
        | none => none
        | some (gap, next) =>
          if !inFlow && next.column < margin then some ⟨read.reverse, stop, next, gap.folded⟩
          else plainWithin inFlow margin fuel read stop gap next

/-- The plain scalar at a place. Its lines are indented at least to the margin. -/
def scanPlain (inFlow : Bool) (margin : Nat) (cursor : Cursor) : Option Plain :=
  plainWithin inFlow margin (cursor.rest.length + 1) [] cursor.mark (.opened false) cursor

/-! Quoted scalars -/

def hexValue? (c : Char) : Option Nat :=
  if '0' ≤ c ∧ c ≤ '9' then some (c.toNat - 0x30)
  else if 'a' ≤ c ∧ c ≤ 'f' then some (c.toNat - 0x57)
  else if 'A' ≤ c ∧ c ≤ 'F' then some (c.toNat - 0x37)
  else none

def hexNumber? : Nat → List Char → Option Nat
  | n, [] => some n
  | n, c :: rest => match hexValue? c with
    | some digit => hexNumber? (n * 16 + digit) rest
    | none => none

def letterEscape? : Char → Option Char
  | '0' => some '\x00'
  | 'a' => some '\x07'
  | 'b' => some '\x08'
  | 't' => some '\t'
  | '\t' => some '\t'
  | 'n' => some '\n'
  | 'v' => some '\x0b'
  | 'f' => some '\x0c'
  | 'r' => some '\r'
  | 'e' => some '\x1b'
  | ' ' => some ' '
  | '"' => some '"'
  | '\x27' => some '\x27'
  | '\\' => some '\\'
  | 'N' => some '\u0085'
  | '_' => some '\u00a0'
  | 'L' => some '\u2028'
  | 'P' => some '\u2029'
  | _ => none

def escapeWidth? : Char → Option Nat
  | 'x' => some 2
  | 'u' => some 4
  | 'U' => some 8
  | _ => none

/-- The character that the escape behind a backslash stands for, and the length of the escape. -/
def escape? : List Char → Option (Char × Nat)
  | [] => none
  | letter :: rest =>
    match letterEscape? letter, escapeWidth? letter with
    | some c, _ => some (c, 1)
    | none, none => none
    | none, some width =>
      if rest.length < width then none
      else match hexNumber? 0 (rest.take width) with
        | none => none
        | some n =>
          if (0xD800 ≤ n ∧ n ≤ 0xDFFF) ∨ 0x10FFFF < n then none
          else some (Char.ofNat n, width + 1)

/-- Where a word of a quoted scalar ends: at the quote, at a gap, or behind an escaped line
break. -/
inductive WordEnd where
  | quote
  | gap
  | escapedBreak
  deriving DecidableEq, Repr

/-- A word of a quoted scalar, in reverse and before the characters given. -/
def quotedWord (isDouble : Bool) : Nat → List Char → Cursor →
    Option (List Char × WordEnd × Cursor)
  | 0, _, _ => none
  | fuel + 1, read, cursor =>
    match cursor.rest with
    | [] => some (read, .gap, cursor)
    | c :: rest =>
      if isBlank c || isBreak c then some (read, .gap, cursor)
      else if isDouble then
        if c = '"' then some (read, .quote, cursor)
        else if c = '\\' then
          if rest.head?.any isBreak then some (read, .escapedBreak, cursor.skip.skipBreak)
          else match escape? rest with
            | none => none
            | some (e, width) =>
              quotedWord isDouble fuel (e :: read) (cursor.skipMany (width + 1))
        else quotedWord isDouble fuel (c :: read) cursor.skip
      else if c = '\x27' then
        if rest.head? = some '\x27' then quotedWord isDouble fuel (c :: read) cursor.skip.skip
        else some (read, .quote, cursor)
      else quotedWord isDouble fuel (c :: read) cursor.skip

/-- Read on behind some characters, given in reverse, up to the closing quote. -/
def quotedWithin (isDouble : Bool) : Nat → List Char → Cursor → Option (List Char × Cursor)
  | 0, _, _ => none
  | fuel + 1, read, cursor =>
    if cursor.atMarker || cursor.atEnd then none
    else match quotedWord isDouble (cursor.rest.length + 1) read cursor with
      | none => none
      | some (read, .quote, next) => some (read.reverse, next.skip)
      | some (read, wordEnd, next) =>
        match Gap.scan 0 (.opened (wordEnd == .escapedBreak)) next with
        | none => none
        | some (gap, next) => quotedWithin isDouble fuel (gap.text.reverse ++ read) next

def scanQuoted (isDouble : Bool) (cursor : Cursor) : Option (List Char × Cursor) :=
  quotedWithin isDouble (cursor.rest.length + 1) [] cursor.skip

/-! Block scalars -/

inductive Chomping where
  | strip
  | clip
  | keep
  deriving DecidableEq, Repr

/-- The header of a block scalar: what happens at its end, and how far it is indented, if that is
told. -/
structure BlockHeader where
  chomping : Chomping
  indent : Option Nat

def chomping? : Option Char → Option Chomping
  | some '+' => some .keep
  | some '-' => some .strip
  | _ => none

def blockIndent? (c : Option Char) : Option Nat :=
  match c with
  | some c => if c.isDigit then some (c.toNat - 0x30) else none
  | none => none

def blockHeader (cursor : Cursor) : Option (BlockHeader × Cursor) :=
  let header (chomping : Option Chomping) (indent : Option Nat) (next : Cursor) :=
    if indent = some 0 then none else some (⟨chomping.getD .clip, indent⟩, next)
  match chomping? cursor.next? with
  | some chomping =>
    let next := cursor.skip
    match blockIndent? next.next? with
    | some indent => header (some chomping) (some indent) next.skip
    | none => header (some chomping) none next
  | none => match blockIndent? cursor.next? with
    | some indent =>
      let next := cursor.skip
      match chomping? next.next? with
      | some chomping => header (some chomping) (some indent) next.skip
      | none => header none (some indent) next
    | none => header none none cursor

/-- Skip the empty lines at a place. Without an indentation, the widest of them is found. -/
def blockBreaks (indent : Option Nat) : Nat → Nat → List Char → Cursor →
    Option (Nat × List Char × Cursor)
  | 0, _, _, _ => none
  | fuel + 1, widest, read, cursor =>
    let inMargin (column : Nat) := indent.all (column < ·)
    let next := match indent with
      | none => cursor.skipWhile (· == ' ')
      | some indent =>
        let spaces := (cursor.rest.takeWhile (· == ' ')).length
        cursor.skipMany (min spaces (indent - cursor.column))
    let widest := max widest next.column
    if inMargin next.column && next.isAt '\t' then none
    else if next.breakAt 0 then
      let (text, next) := next.readBreak
      blockBreaks indent fuel widest (read ++ text) next
    else some (widest, read, next)

/-- The state between two lines of a block scalar: the text so far, in reverse, the break behind the
last line and those of the empty lines that follow, and whether the last line begins with a
blank. -/
structure BlockText where
  read : List Char
  lastBreak : List Char
  emptyLines : List Char
  indented : Bool

/-- The text in which one more line follows. In a folded scalar a single break between two lines
that do not begin with blanks counts as a space. -/
def BlockText.join (folded : Bool) (text : BlockText) (indented : Bool) : List Char :=
  let lineBreak :=
    if folded && !text.indented && !indented && text.lastBreak = ['\n'] then
      if text.emptyLines = [] then [' '] else []
    else text.lastBreak
  text.emptyLines.reverse ++ lineBreak.reverse ++ text.read

def blockLines (folded : Bool) (indent : Nat) : Nat → BlockText → Cursor →
    Option (BlockText × Cursor)
  | 0, _, _ => none
  | fuel + 1, text, cursor =>
    if cursor.column = indent ∧ ¬cursor.atEnd then
      let indented := cursor.blankAt 0
      let (line, next) := cursor.span fun c => !isBreak c
      let (lastBreak, next) := next.readBreak
      match blockBreaks (some indent) (next.rest.length + 1) 0 [] next with
      | none => none
      | some (_, emptyLines, next) =>
        blockLines folded indent fuel
          ⟨line.reverse ++ text.join folded indented, lastBreak, emptyLines, indented⟩ next
    else some (text, cursor)

/-- The text of the block scalar at a place, and the place behind it. Its lines are indented more
than the given column, if there is one. -/
def scanBlock (parent : Int) (cursor : Cursor) : Option (List Char × Cursor) :=
  let folded := cursor.isAt '>'
  match blockHeader cursor.skip with
  | none => none
  | some (header, next) =>
    let next := next.skipBlanks
    let next := if next.isAt '#' then next.skipLineText else next
    if !next.lineEndAt 0 then none
    else
      let next := next.skipBreak
      let indent := header.indent.map fun n => if 0 ≤ parent then parent.toNat + n else n
      match blockBreaks indent (next.rest.length + 1) 0 [] next with
      | none => none
      | some (widest, emptyLines, next) =>
        let indent := indent.getD (max (max widest (parent + 1).toNat) 1)
        match blockLines folded indent (next.rest.length + 1) ⟨[], [], emptyLines, false⟩ next with
        | none => none
        | some (text, next) =>
          let tail := match header.chomping with
            | .strip => []
            | .clip => text.lastBreak
            | .keep => text.lastBreak ++ text.emptyLines
          some (text.read.reverse ++ tail, next)

end SchemaCodec.Yaml

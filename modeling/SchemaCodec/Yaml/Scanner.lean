import SchemaCodec.Yaml.Property

namespace SchemaCodec.Yaml

/-! Scanners: tokens are found one by one. What turns out to be a key only at the colon behind it
gets its mark in front of tokens that were found before. -/

/-- A place where a key without a mark may begin. -/
structure SimpleKey where
  possible : Bool
  /-- Whether anything but a key is an error. -/
  required : Bool
  /-- Whether the token of the place waits for the decision. -/
  awaited : Bool
  /-- The number of the token that begins at the place. -/
  number : Nat
  mark : Mark

structure Scanner where
  cursor : Cursor
  /-- Whether the text behind the last character cannot be read. -/
  broken : Bool
  indent : Int
  /-- Indentations further out. -/
  indents : List Int
  flowLevel : Nat
  keyAllowed : Bool
  key : SimpleKey
  /-- Keys of brackets further out. -/
  keys : List SimpleKey
  /-- Tokens that have been found and not taken. -/
  queue : List Token
  taken : Nat
  /-- The kind of the token that was found last. -/
  last : Token.Kind

namespace Scanner

def noKey : SimpleKey :=
  ⟨false, false, false, 0, default⟩

def start (chars : List Char) (broken : Bool) : Scanner where
  cursor := Cursor.start chars
  broken := broken
  indent := -1
  indents := []
  flowLevel := 0
  keyAllowed := true
  key := noKey
  keys := []
  queue := [⟨.streamStart, default, default⟩]
  taken := 0
  last := .streamStart

def column (s : Scanner) : Int :=
  s.cursor.column

def inFlow (s : Scanner) : Bool :=
  0 < s.flowLevel

def push (s : Scanner) (kind : Token.Kind) (start stop : Mark) : Scanner :=
  { s with queue := s.queue ++ [⟨kind, start, stop⟩], last := kind }

/-- Add a token in front of the one of the given number. -/
def insert (s : Scanner) (kind : Token.Kind) (number : Nat) (mark : Mark) : Scanner :=
  { s with queue := s.queue.insertIdx (number - s.taken) ⟨kind, mark, mark⟩ }

/-! Indentation -/

def maxDepth : Nat := 10000

def unrollTo (column : Int) (mark : Mark) : List Int → Scanner → Scanner
  | [], s => s
  | outer :: rest, s =>
    if column < s.indent then
      unrollTo column mark rest
        { s.push .blockEnd mark mark with indent := outer, indents := rest }
    else s

def unroll (s : Scanner) (column : Int) : Scanner :=
  if s.inFlow then s else unrollTo column s.cursor.mark s.indents s

def roll (s : Scanner) (column : Int) (place : Scanner → Scanner) : Option Scanner :=
  if s.inFlow || column ≤ s.indent then some s
  else if maxDepth ≤ s.indents.length then none
  else some (place { s with indents := s.indent :: s.indents, indent := column })

/-! Keys without a mark -/

def nextNumber (s : Scanner) : Nat :=
  s.taken + s.queue.length

def dropKey (s : Scanner) : Option Scanner :=
  if s.key.possible then
    if s.key.required then none
    else some { s with key := { s.key with possible := false, awaited := false } }
  else some s

def saveKey (s : Scanner) : Option Scanner :=
  if s.keyAllowed then do
    let required := !s.inFlow && s.indent == s.column
    let dropped ← s.dropKey
    some { dropped with key := ⟨true, required, true, s.nextNumber, s.cursor.mark⟩ }
  else some s

/-- A key has one line and at most 1024 characters. -/
def isStale (s : Scanner) (key : SimpleKey) : Bool :=
  key.mark.line < s.cursor.mark.line || key.mark.index + 1024 < s.cursor.mark.index

/-- Whether a key may begin at a place, with the place as it is then. An error if there must be a
key that cannot be. -/
def checkKey (s : Scanner) (key : SimpleKey) : Option (Bool × SimpleKey) :=
  if !key.possible then some (false, key)
  else if s.isStale key then
    if key.required then none else some (false, { key with possible := false })
  else some (true, key)

/-! Blanks and comments -/

/-- The place of the next comment behind blanks and line breaks, if one follows a comment within
512 characters. -/
def nextComment? (window : Nat) : Nat → List Char → Option Nat
  | _, [] => none
  | distance, c :: rest =>
    if window ≤ distance then none
    else if isBlank c || isBreak c then nextComment? window (distance + 1) rest
    else if c = '#' then some distance
    else none

def skipOver : Nat → Cursor → Cursor
  | 0, cursor => cursor
  | n + 1, cursor =>
    if cursor.breakAt 0 then
      match cursor.rest with
      | '\r' :: '\n' :: _ => skipOver (n - 1) cursor.skipBreak
      | _ => skipOver n cursor.skipBreak
    else skipOver n cursor.skip

def skipComments : Nat → Cursor → Cursor
  | 0, cursor => cursor
  | fuel + 1, cursor =>
    let next := cursor.skipLineText
    match nextComment? 512 1 (next.rest.drop 1) with
    | some distance => skipComments fuel (skipOver distance next)
    | none => next

/-- Skip blanks, comments and line breaks. A key may begin on a new line. -/
def skipToToken : Nat → Scanner → Scanner
  | 0, s => s
  | fuel + 1, s =>
    let cursor := s.cursor
    let cursor := if cursor.column = 0 ∧ cursor.isAt '\uFEFF' then cursor.skip else cursor
    let cursor := cursor.skipWhile fun c =>
      c == ' ' || ((s.inFlow || !s.keyAllowed) && c == '\t')
    let cursor :=
      if cursor.isAt '#' then skipComments (cursor.rest.length + 1) cursor else cursor
    if cursor.breakAt 0 then
      skipToToken fuel
        { s with cursor := cursor.skipBreak, keyAllowed := s.keyAllowed || !s.inFlow }
    else { s with cursor := cursor }

def skipLineComment (s : Scanner) : Scanner :=
  if s.last = .blockEntry ∨ 0 < s.cursor.breaks then s
  else
    let next := s.cursor.skipBlanks
    if next.isAt '#' ∧ next.mark.index < s.cursor.mark.index + 512 then
      { s with cursor := next.skipLineText }
    else s

/-! Tokens -/

def pushWidth (s : Scanner) (kind : Token.Kind) (width : Nat) : Scanner :=
  let next := s.cursor.skipMany width
  { s.push kind s.cursor.mark next.mark with cursor := next }

def fetchStreamEnd (s : Scanner) : Option Scanner :=
  let cursor := s.cursor
  let mark := if cursor.column = 0 then cursor.mark
    else ⟨cursor.mark.index, cursor.mark.line + 1, 0⟩
  let s := unroll { s with cursor := { cursor with mark := mark } } (-1)
  s.dropKey.map fun s => { s.push .streamEnd mark mark with keyAllowed := false }

def fetchDirective (s : Scanner) : Option Scanner := do
  let s ← (s.unroll (-1)).dropKey
  let (directive, stop, next) ← scanDirective s.cursor
  some { s.push directive s.cursor.mark stop with cursor := next, keyAllowed := false }

def fetchMarker (s : Scanner) (kind : Token.Kind) : Option Scanner :=
  (s.unroll (-1)).dropKey.map fun s => { s.pushWidth kind 3 with keyAllowed := false }

def fetchFlowStart (s : Scanner) (kind : Token.Kind) : Option Scanner := do
  let s ← s.saveKey
  if maxDepth ≤ s.flowLevel then none
  let inner : SimpleKey := ⟨false, false, false, s.nextNumber, s.cursor.mark⟩
  let s := { s with keys := s.key :: s.keys, key := inner, flowLevel := s.flowLevel + 1,
                    keyAllowed := true }
  some (s.pushWidth kind 1)

/-- The key of the outer brackets comes back. A key of the same token no longer waits. -/
def fetchFlowEnd (s : Scanner) (kind : Token.Kind) : Option Scanner := do
  let s ← s.dropKey
  let s := match s.keys with
    | [] => s
    | outer :: rest =>
      let awaited := outer.awaited && outer.number != s.key.number
      { s with key := { outer with awaited := awaited }, keys := rest,
               flowLevel := s.flowLevel - 1 }
  some ({ s with keyAllowed := false }.pushWidth kind 1)

def fetchFlowEntry (s : Scanner) : Option Scanner :=
  s.dropKey.map fun s => { s with keyAllowed := true }.pushWidth .flowEntry 1

def rollHere (s : Scanner) (kind : Token.Kind) : Option Scanner :=
  if s.inFlow then some s
  else if !s.keyAllowed then none
  else s.roll s.column fun s => s.push kind s.cursor.mark s.cursor.mark

def fetchBlockEntry (s : Scanner) : Option Scanner := do
  let s ← s.rollHere .blockSequenceStart
  let s ← s.dropKey
  some ({ s with keyAllowed := true }.pushWidth .blockEntry 1)

def fetchKey (s : Scanner) : Option Scanner := do
  let s ← s.rollHere .blockMappingStart
  let s ← s.dropKey
  some ({ s with keyAllowed := !s.inFlow }.pushWidth .key 1)

/-- A value follows a key without a mark, which gets its mark now, or one with a mark. -/
def fetchValue (s : Scanner) : Option Scanner := do
  let (isKey, key) ← s.checkKey s.key
  if isKey then
    let s := s.insert .key key.number key.mark
    let s ← s.roll key.mark.column fun s => s.insert .blockMappingStart key.number key.mark
    let key := { key with possible := false, awaited := false }
    some ({ s with key := key, keyAllowed := false }.pushWidth .value 1)
  else
    let s ← { s with key := key }.rollHere .blockMappingStart
    some ({ s with keyAllowed := !s.inFlow }.pushWidth .value 1)

def fetchKeyable (s : Scanner) (scan : Cursor → Option (Token.Kind × Mark × Cursor)) :
    Option Scanner := do
  let s ← s.saveKey
  let (kind, stop, next) ← scan s.cursor
  some { s.push kind s.cursor.mark stop with cursor := next, keyAllowed := false }

def fetchAnchor (s : Scanner) (kind : String → Token.Kind) : Option Scanner :=
  s.fetchKeyable fun cursor => do
    let (name, next) ← scanName cursor.skip
    some (kind name, next.mark, next)

def fetchTag (s : Scanner) : Option Scanner :=
  s.fetchKeyable fun cursor => do
    let (kind, next) ← scanTag cursor
    some (kind, next.mark, next)

def fetchQuoted (s : Scanner) (isDouble : Bool) : Option Scanner :=
  s.fetchKeyable fun cursor => do
    let (text, next) ← scanQuoted isDouble cursor
    some (.scalar (String.ofList text) false, next.mark, next)

def fetchPlain (s : Scanner) : Option Scanner := do
  let s ← s.saveKey
  let plain ← scanPlain s.inFlow (s.indent + 1).toNat s.cursor
  let token := Token.Kind.scalar (String.ofList plain.text) true
  some { s.push token s.cursor.mark plain.stop with cursor := plain.next, keyAllowed := plain.ended }

def fetchBlock (s : Scanner) : Option Scanner := do
  let s ← s.dropKey
  let (text, next) ← scanBlock s.indent s.cursor
  some { s.push (.scalar (String.ofList text) false) s.cursor.mark next.mark with
         cursor := next, keyAllowed := true }

def isIndicator (c : Char) : Bool :=
  ['-', '?', ':', ',', '[', ']', '\x7b', '\x7d', '#', '&', '*', '!', '|', '>', '\x27', '"', '%',
    '@', '\x60'].contains c

/-- Whether a plain scalar begins at a character. Some indicators may begin one if no gap follows
them. -/
def beginsPlain (s : Scanner) (c : Char) : Bool :=
  !(isBlank c || isBreak c || isIndicator c) ||
    (c == '-' && !s.cursor.blankAt 1) ||
    (!s.inFlow && (c == '?' || c == ':') && !s.cursor.gapAt 1)

def fetchAt (s : Scanner) (c : Char) : Option Scanner :=
  let marked := s.inFlow || s.cursor.gapAt 1
  match c with
  | '[' => s.fetchFlowStart .flowSequenceStart
  | '\x7b' => s.fetchFlowStart .flowMappingStart
  | ']' => s.fetchFlowEnd .flowSequenceEnd
  | '\x7d' => s.fetchFlowEnd .flowMappingEnd
  | ',' => s.fetchFlowEntry
  | '*' => s.fetchAnchor .alias
  | '&' => s.fetchAnchor .anchor
  | '!' => s.fetchTag
  | '\x27' => s.fetchQuoted false
  | '"' => s.fetchQuoted true
  | _ =>
    if c = '-' ∧ s.cursor.gapAt 1 then s.fetchBlockEntry
    else if c = '?' ∧ marked then s.fetchKey
    else if c = ':' ∧ marked then s.fetchValue
    else if (c = '|' ∨ c = '>') ∧ ¬s.inFlow then s.fetchBlock
    else if s.beginsPlain c then s.fetchPlain
    else none

def fetch (s : Scanner) : Option Scanner :=
  let s := skipToToken (s.cursor.rest.length + 1) s
  let s := s.unroll s.column
  if s.broken && s.cursor.rest.length < 4 then none
  else match s.cursor.next? with
    | none => s.fetchStreamEnd
    | some c =>
      if s.cursor.column = 0 ∧ c = '%' then s.fetchDirective
      else if s.cursor.isMarker '-' then s.fetchMarker .documentStart
      else if s.cursor.isMarker '.' then s.fetchMarker .documentEnd
      else (s.fetchAt c).map skipLineComment

/-- Whether the first token of the queue may be preceded by one that is not found yet, with the
places of keys as they are then. -/
def isAwaited (s : Scanner) : Option (Bool × Scanner) :=
  let isHead (key : SimpleKey) := key.awaited && key.number == s.taken
  if isHead s.key then (s.checkKey s.key).map fun (waits, key) => (waits, { s with key := key })
  else match s.keys.find? isHead with
    | none => some (false, s)
    | some key => (s.checkKey key).map fun (waits, changed) =>
      (waits, { s with keys := s.keys.map fun k => if isHead k then changed else k })

/-- Find tokens until the first one is certain and two more are known. -/
def fillWithin : Nat → Scanner → Option Scanner
  | 0, s => some s
  | fuel + 1, s =>
    if s.queue.length < 3 then
      match s.fetch with
      | none => none
      | some s => fillWithin fuel s
    else match s.isAwaited with
      | none => none
      | some (false, s) => some s
      | some (true, s) => match s.fetch with
        | none => none
        | some s => fillWithin fuel s

def peek (s : Scanner) : Option (Token × Scanner) :=
  match fillWithin (s.cursor.rest.length + 8) s with
  | none => none
  | some s => match s.queue with
    | [] => none
    | token :: _ => some (token, s)

def drop (s : Scanner) : Scanner :=
  { s with queue := s.queue.tail, taken := s.taken + 1 }

end Scanner

end SchemaCodec.Yaml

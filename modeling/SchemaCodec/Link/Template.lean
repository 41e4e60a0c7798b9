namespace SchemaCodec.Link.Template

/-! Addresses with variables: texts in which expressions stand between braces. An address is only
checked, never expanded. -/

inductive Problem where
  | escape
  | character
  | encoding
  | operator
  | name
  | length
  | modifier
  | unclosed
  deriving DecidableEq, Repr

def Problem.text : Problem → String
  | .escape => "incomplete pct-encodeed"
  | .character => "unacceptable character (hint: use %XX encoding)"
  | .encoding => "invalid UTF-8 sequence"
  | .operator => "unimplemented operator (op-reserved)"
  | .name => "unacceptable variable name"
  | .length => "max-length must be (0, 9999]"
  | .modifier => "unrecognized value modifier"
  | .unclosed => "incomplete expression"

/-- A problem with the part of the template that was read when it came up. The last character of
that part is the one to blame, or else the one after it. -/
structure Error where
  problem : Problem
  blamesLast : Bool
  read : List Char
  deriving DecidableEq, Repr

def Error.message (e : Error) : String :=
  e.problem.text ++ ": " ++ String.ofList e.read ++ (if e.blamesLast then "|" else "_")

def isHexDigit (c : Char) : Bool :=
  c.isDigit || ('a' ≤ c && c ≤ 'f') || ('A' ≤ c && c ≤ 'F')

def isLiteral (c : Char) : Bool :=
  let n := c.toNat
  if n < 0x80 then
    c.isAlphanum || ['!', '#', '$', '&', '\x27', '(', ')', '*', '+', ',', '-', '.', '/', ':', ';',
      '=', '?', '@', '[', ']', '_', '~'].contains c
  else if n < 0x10000 then
    (0xA0 ≤ n && n ≤ 0xD7FF) || (0xE000 ≤ n && n ≤ 0xFDCF) || (0xFDF0 ≤ n && n ≤ 0xFFEF)
  else n % 0x10000 < 0xFFFE && !(0xE0000 ≤ n && n < 0xE1000)

def isNameChar (c : Char) : Bool :=
  c.isAlphanum || c == '_'

inductive Mode where
  | outside
  /-- At the start of an expression. -/
  | opened
  /-- In a name, behind the given character of it. -/
  | name (last : Option Char)
  /-- In the length of a variable's part, behind the digits of the given number. -/
  | length (value : Nat)
  /-- Behind a variable. -/
  | behind
  deriving DecidableEq, Repr

/-- Whether a name that has this last character is complete. -/
def isComplete (last : Option Char) : Bool :=
  last.isSome && last != some '.'

/-- What a character leads to: another mode, in which the character has been read, or a problem. The
character of a problem is read if it is the one to blame. -/
def step (mode : Mode) (c : Char) : Except (Problem × Bool) Mode :=
  if c.toNat = 0xFFFD then .error (.encoding, false)
  else match mode with
    | .outside =>
      if c = '\x7b' then .ok .opened
      else if isLiteral c then .ok .outside
      else .error (.character, false)
    | .opened =>
      if ['+', '#', '.', '/', ';', '?', '&'].contains c then .ok (.name none)
      else if ['=', ',', '!', '@', '|'].contains c then .error (.operator, true)
      else inName none
    | .name last => inName last
    | .length value =>
      if c.isDigit then
        let next := value * 10 + (c.toNat - '0'.toNat)
        if next = 0 ∨ 9999 < next then .error (.length, true) else .ok (.length next)
      else if value = 0 then .error (.length, false)
      else afterVariable
    | .behind => afterVariable
where
  afterVariable : Except (Problem × Bool) Mode :=
    if c = ',' then .ok (.name none)
    else if c = '\x7d' then .ok .outside
    else .error (.modifier, false)
  inName (last : Option Char) : Except (Problem × Bool) Mode :=
    if c = ':' ∨ c = '*' then
      if isComplete last then .ok (if c = ':' then .length 0 else .behind)
      else .error (.name, true)
    else if c = ',' ∨ c = '\x7d' then
      if isComplete last then afterVariable else .error (.name, true)
    else if c = '.' then
      if isComplete last then .ok (.name (some c)) else .error (.name, true)
    else if isNameChar c then .ok (.name (some c))
    else .error (.name, false)

/-- Whether an escape may start in a mode, and the mode behind it. -/
def afterEscape? : Mode → Option Mode
  | .outside => some .outside
  | .opened | .name _ => some (.name (some '%'))
  | _ => none

/-- Whether the character of a problem has been read. Of the characters that end a name, only the
colon and the asterisk have. -/
def isRead (problem : Problem) (blamesLast : Bool) (c : Char) : Bool :=
  blamesLast && !(problem == .name && (c == ',' || c == '\x7d'))

/-- Check the rest of a template; what has been read so far is given in reverse. -/
def checkFrom (mode : Mode) (read : List Char) : List Char → Except Error Unit
  | [] => match mode with
    | .outside => .ok ()
    | _ => .error ⟨.unclosed, false, read.reverse⟩
  | c :: rest =>
    match if c = '%' then afterEscape? mode else none with
    | some next => match rest with
      | a :: b :: rest =>
        if isHexDigit a && isHexDigit b then checkFrom next (b :: a :: c :: read) rest
        else .error ⟨.escape, false, read.reverse⟩
      | _ => .error ⟨.escape, false, read.reverse⟩
    | none => match step mode c with
      | .ok next => checkFrom next (c :: read) rest
      | .error (problem, blamesLast) =>
        .error ⟨problem, blamesLast,
          (if isRead problem blamesLast c then c :: read else read).reverse⟩

def check (template : String) : Except Error Unit :=
  checkFrom .outside [] template.toList

end SchemaCodec.Link.Template

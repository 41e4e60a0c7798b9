import SchemaCodec.Path

namespace SchemaCodec.Glob

/-! Patterns of paths: `*` and `?` within a segment, `**` for any number of segments, classes of
characters in brackets, and alternatives in braces. -/

def isMeta (c : Char) : Bool :=
  c == '*' || c == '?' || c == '[' || c == '\x7b'

/-- The position of the last slash before any character with a meaning of its own, `index` being the
position at which the text begins and `found` the last slash before that. -/
def lastSlash? (index : Nat) (found : Option Nat) : List Char → Option Nat
  | [] => found
  | ['\\'] => found
  | '\\' :: _ :: rest => lastSlash? (index + 2) found rest
  | c :: rest =>
    if c = '/' then lastSlash? (index + 1) (some index) rest
    else if isMeta c then found
    else lastSlash? (index + 1) found rest

/-- The directory that all matches lie in, and the pattern of the paths from there. -/
def split (pattern : String) : String × String :=
  let text := pattern.toList
  match lastSlash? 0 none text with
  | none => (".", pattern)
  | some 0 => ("/", String.ofList (text.drop 1))
  | some n => (String.ofList (text.take n), String.ofList (text.drop (n + 1)))

/-- Where in a pattern a character stands. -/
inductive Place where
  | outside
  | escaped
  /-- Behind an opening bracket. -/
  | opened
  /-- Behind the mark that negates a class. -/
  | negated
  | inside
  | insideEscaped
  deriving DecidableEq, Repr

/-- Whether brackets and braces are closed, `depth` braces being open. -/
def isValidFrom (depth : Nat) : Place → List Char → Bool
  | place, [] => place == .outside && depth == 0
  | .escaped, _ :: rest => isValidFrom depth .outside rest
  | .insideEscaped, _ :: rest => isValidFrom depth .inside rest
  | .outside, c :: rest =>
    match c with
    | '\\' => isValidFrom depth .escaped rest
    | '[' => isValidFrom depth .opened rest
    | '\x7b' => isValidFrom (depth + 1) .outside rest
    | '\x7d' => depth != 0 && isValidFrom (depth - 1) .outside rest
    | _ => isValidFrom depth .outside rest
  | .inside, c :: rest =>
    match c with
    | '\\' => isValidFrom depth .insideEscaped rest
    | ']' => isValidFrom depth .outside rest
    | _ => isValidFrom depth .inside rest
  | place, c :: rest =>
    match c with
    | ']' => false
    | '\\' => isValidFrom depth .insideEscaped rest
    | _ =>
      if place = .opened ∧ (c = '^' ∨ c = '!') then isValidFrom depth .negated rest
      else isValidFrom depth .inside rest

def isValid (pattern : String) : Bool :=
  isValidFrom 0 .outside pattern.toList

def openBrace? (inClass : Bool) : List Char → Option (List Char × List Char)
  | [] => none
  | '\\' :: c :: rest =>
    (openBrace? inClass rest).map fun (before, after) => ('\\' :: c :: before, after)
  | c :: rest =>
    if c = '\x7b' ∧ ¬inClass then some ([], rest)
    else
      let inClass := if c = '[' then true else if c = ']' then false else inClass
      (openBrace? inClass rest).map fun (before, after) => (c :: before, after)

/-- The text up to the brace that closes `depth` braces more than it opens, and what follows. -/
def closeBrace? (depth : Nat) : List Char → Option (List Char × List Char)
  | [] => none
  | '\\' :: c :: rest =>
    (closeBrace? depth rest).map fun (inner, after) => ('\\' :: c :: inner, after)
  | c :: rest =>
    if c = '\x7d' ∧ depth = 0 then some ([], rest)
    else
      let depth := if c = '\x7b' then depth + 1 else if c = '\x7d' then depth - 1 else depth
      (closeBrace? depth rest).map fun (inner, after) => (c :: inner, after)

/-- The parts between the commas that stand in no further brace. -/
def alternatives (depth : Nat) : List Char → List (List Char)
  | [] => [[]]
  | '\\' :: c :: rest =>
    match alternatives depth rest with
    | part :: parts => ('\\' :: c :: part) :: parts
    | [] => [['\\', c]]
  | c :: rest =>
    if c = ',' ∧ depth = 0 then [] :: alternatives depth rest
    else
      let depth := if c = '\x7b' then depth + 1 else if c = '\x7d' then depth - 1 else depth
      match alternatives depth rest with
      | part :: parts => (c :: part) :: parts
      | [] => [[c]]

/-- The patterns without braces that a pattern stands for; `choose` picks from the alternatives in
braces. Every brace costs one unit of fuel. -/
def withoutBraces (choose : List (List Char) → List (List Char)) :
    (fuel : Nat) → List Char → List (List Char)
  | 0, _ => []
  | fuel + 1, pattern =>
    match openBrace? false pattern with
    | none => [pattern]
    | some (before, rest) =>
      match closeBrace? 0 rest with
      | none => []
      | some (inner, after) =>
        (choose (alternatives 0 inner)).flatMap fun part =>
          withoutBraces choose fuel (before ++ part ++ after)

def branches (choose : List (List Char) → List (List Char)) (pattern : List Char) :
    List (List Char) :=
  withoutBraces choose (pattern.length + 1) pattern

inductive Atom where
  | char (c : Char)
  | any
  | star
  | range (isNegated : Bool) (ranges : List (Char × Char))
  deriving DecidableEq, Repr

/-- The ranges of a class; a character that is part of no range is a range of its own. The flag tells
whether a character is escaped. -/
def rangesOf : List (Bool × Char) → List (Char × Char)
  | [] => []
  | (_, low) :: (false, '-') :: (_, high) :: rest => (low, low) :: (low, high) :: rangesOf rest
  | (_, c) :: rest => (c, c) :: rangesOf rest

mutual
def atoms? : List Char → Option (List Atom)
  | [] => some []
  | ['\\'] => none
  | '\\' :: c :: rest => (atoms? rest).map (.char c :: ·)
  | '[' :: '^' :: rest => class? true [] rest
  | '[' :: '!' :: rest => class? true [] rest
  | '[' :: rest => class? false [] rest
  | '*' :: rest => (atoms? rest).map (.star :: ·)
  | '?' :: rest => (atoms? rest).map (.any :: ·)
  | c :: rest => (atoms? rest).map (.char c :: ·)

/-- The units of a pattern from within a class, whose characters so far are kept last one first. -/
def class? (isNegated : Bool) (seen : List (Bool × Char)) : List Char → Option (List Atom)
  | [] => none
  | ['\\'] => none
  | '\\' :: c :: rest => class? isNegated ((true, c) :: seen) rest
  | c :: rest =>
    if c = ']' then
      if seen = [] then none
      else (atoms? rest).map (.range isNegated (rangesOf seen.reverse) :: ·)
    else class? isNegated ((false, c) :: seen) rest
end

/-- The ends of a text that begin within its first segment or right behind it. -/
def endsInSegment : List Char → List (List Char)
  | [] => [[]]
  | c :: rest => if c = '/' then [c :: rest] else (c :: rest) :: endsInSegment rest

/-- The ends of a text that begin behind a slash. -/
def endsBehindSlash : List Char → List (List Char)
  | [] => []
  | c :: rest => if c = '/' then rest :: endsBehindSlash rest else endsBehindSlash rest

/-- Whether what is left of a pattern matches when the path has ended. -/
def matchesEnd : List Atom → Bool
  | [] => true
  | [.star] => true
  | [.star, .star] => true
  | [.char '/', .star, .star] => true
  | [.star, .star, .char '/'] => true
  | [.char '/', .star, .star, .char '/'] => true
  | _ => false

/-- Whether a pattern matches a path, both from the beginning of a segment if `atStart`. -/
def matchesFrom (atStart : Bool) : List Atom → List Char → Bool
  | atoms, [] => matchesEnd atoms
  | [], _ :: _ => false
  | .star :: .star :: .char '/' :: rest, c :: path =>
    if atStart then
      ((c :: path) :: endsBehindSlash (c :: path)).any fun path => matchesFrom true rest path
    else (endsInSegment (c :: path)).any fun path => matchesFrom false (.char '/' :: rest) path
  | .star :: .star :: rest, c :: path =>
    atStart && rest.isEmpty ||
      (endsInSegment (c :: path)).any fun path => matchesFrom false rest path
  | .star :: rest, c :: path =>
    (endsInSegment (c :: path)).any fun path => matchesFrom false rest path
  | .any :: rest, c :: path => c != '/' && matchesFrom false rest path
  | .range isNegated ranges :: rest, c :: path =>
    (ranges.any fun (low, high) => decide (low ≤ c ∧ c ≤ high)) != isNegated &&
      matchesFrom false rest path
  | .char expected :: rest, c :: path => c == expected && matchesFrom (c == '/') rest path

def branchMatches (pattern path : List Char) : Bool :=
  (atoms? pattern).any fun atoms => matchesFrom true atoms path

/-- Whether a pattern matches a path. A malformed pattern matches none. -/
def isMatch (pattern path : String) : Bool :=
  (branches id pattern.toList).any fun branch => branchMatches branch path.toList

end SchemaCodec.Glob

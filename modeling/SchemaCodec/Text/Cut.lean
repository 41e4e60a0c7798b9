namespace SchemaCodec.Text

/-! Cutting text at separators. -/

/-- The parts between the occurrences of a separator: one more than there are separators. -/
def splitOn (separator : Char) : List Char → List (List Char)
  | [] => [[]]
  | c :: rest =>
    if c = separator then [] :: splitOn separator rest
    else match splitOn separator rest with
      | [] => [[c]]
      | part :: parts => (c :: part) :: parts

def cut? (separator : Char) : List Char → Option (List Char × List Char)
  | [] => none
  | c :: rest =>
    if c = separator then some ([], rest)
    else (cut? separator rest).map fun (before, after) => (c :: before, after)

def cutLast? (separator : Char) (text : List Char) : Option (List Char × List Char) :=
  (cut? separator text.reverse).map fun (after, before) => (before.reverse, after.reverse)

def cutAt? (mark : List Char) : List Char → Option (List Char × List Char)
  | [] => if mark = [] then some ([], []) else none
  | c :: rest =>
    match mark.isPrefixOf? (c :: rest) with
    | some after => some ([], after)
    | none => (cutAt? mark rest).map fun (before, after) => (c :: before, after)

/-- The text before the first occurrence of a separator, or all of it. -/
def before (separator : Char) (text : List Char) : List Char :=
  text.takeWhile (· ≠ separator)

/-- The text behind the last occurrence of a separator, or all of it. -/
def afterLast (separator : Char) (text : List Char) : List Char :=
  (text.reverse.takeWhile (· ≠ separator)).reverse

def join (separator : List Char) : List (List Char) → List Char
  | [] => []
  | [part] => part
  | part :: next :: parts => part ++ separator ++ join separator (next :: parts)

end SchemaCodec.Text

import SchemaCodec.FileSystem
import SchemaCodec.Glob.Pattern

namespace SchemaCodec.Glob

/-! The files that a pattern matches. -/

/-- Whether a character with a meaning of its own stands in a text without being escaped. -/
def hasMeta : List Char → Bool
  | [] => false
  | ['\\'] => false
  | '\\' :: _ :: rest => hasMeta rest
  | c :: rest => isMeta c || hasMeta rest

def unescape : List Char → List Char
  | [] => []
  | '\\' :: c :: rest =>
    if isMeta c ∨ c = ']' ∨ c = '\x7d' then c :: unescape rest else '\\' :: unescape (c :: rest)
  | c :: rest => c :: unescape rest

/-- The parts of a pattern between the slashes that are not escaped. -/
def segmentsOf : List Char → List (List Char)
  | [] => [[]]
  | '\\' :: c :: rest =>
    match segmentsOf rest with
    | part :: parts => ('\\' :: c :: part) :: parts
    | [] => [['\\', c]]
  | c :: rest =>
    if c = '/' then [] :: segmentsOf rest
    else match segmentsOf rest with
      | part :: parts => (c :: part) :: parts
      | [] => [[c]]

/-- Where one segment of a pattern leads from a directory: to directories, or if it is the last one
to files as well. -/
def follow (fs : FileSystem) (base : List String) (isLast : Bool) (segment : List Char)
    (directory : List String) : List (List String) :=
  if segment = ['*', '*'] then
    directory :: (fs.below (base ++ directory)).filterMap fun (path, isDirectory) =>
      if isDirectory || isLast then some (directory ++ path) else none
  else
    (fs.children (base ++ directory)).filterMap fun (name, isDirectory) =>
      if (isDirectory || isLast) && branchMatches segment name.toList then
        some (directory ++ [name])
      else none

def followAll (fs : FileSystem) (base : List String) :
    List (List Char) → List (List String) → List (List String)
  | [], found => found
  | segment :: rest, directories =>
    followAll fs base rest (directories.flatMap (follow fs base rest.isEmpty segment))

def found (fs : FileSystem) (base : String) (pattern : List Char) : List String :=
  if hasMeta pattern then
    match fs.find base with
    | .ok (location, .directory) =>
      (followAll fs location (segmentsOf pattern) [[]]).map fun path =>
        Path.join [base, String.intercalate "/" path]
    | _ => []
  else
    let path := String.ofList (unescape pattern)
    if fs.has (base ++ "/" ++ path) then [Path.join [base, path]] else []

/-- Alternatives of which the last, if it is empty, does not count. -/
def dropLastEmpty (parts : List (List Char)) : List (List Char) :=
  if parts.getLast? = some [] then parts.dropLast else parts

def sorted (paths : List String) : List String :=
  paths.mergeSort fun a b => decide (a ≤ b)

/-- The paths that a pattern matches, in order; none if the pattern is malformed. -/
def files? (fs : FileSystem) (pattern : String) : Option (List String) :=
  if pattern = "" then some []
  else
    let pattern := Path.clean pattern
    let (base, rest) := split pattern
    if rest = "" ∨ rest = "." ∨ rest = ".." then
      if isValid pattern then
        let path := String.ofList (unescape pattern.toList)
        some (if fs.has path then [path] else [])
      else none
    else if isValid rest then
      match branches dropLastEmpty rest.toList with
      | [branch] => some (sorted (found fs base branch))
      | branches => some (sorted (branches.flatMap (found fs base)).eraseDups)
    else none

end SchemaCodec.Glob

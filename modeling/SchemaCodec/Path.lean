import SchemaCodec.Text.Cut

namespace SchemaCodec.Path

open SchemaCodec

/-! Slash-separated paths. -/

def segments (path : String) : List String :=
  (Text.splitOn '/' path.toList).map String.ofList

def isRooted (path : String) : Bool :=
  path.toList.head? == some '/'

/-- Walk one segment further from a position, whose segments are kept last one first. An empty
segment or a dot stays; two dots go up, as far as that is possible. -/
def walk (rooted : Bool) (position : List String) (segment : String) : List String :=
  if segment = "" ∨ segment = "." then position
  else if segment = ".." then
    match position with
    | [] => if rooted then [] else [".."]
    | last :: rest => if last = ".." then ".." :: position else rest
  else segment :: position

/-- The segments that are left of a path when all detours are taken out. -/
def steps (path : String) : List String :=
  ((segments path).foldl (walk (isRooted path)) []).reverse

def ofSteps (rooted : Bool) (steps : List String) : String :=
  let joined := String.intercalate "/" steps
  if rooted then "/" ++ joined else if joined = "" then "." else joined

/-- The shortest path with the same meaning. -/
def clean (path : String) : String :=
  ofSteps (isRooted path) (steps path)

/-- Put paths behind each other; empty ones do not count. -/
def join (paths : List String) : String :=
  match paths.filter (· ≠ "") with
  | [] => ""
  | paths => clean (String.intercalate "/" paths)

def parent (path : String) : String :=
  match Text.cutLast? '/' path.toList with
  | some (before, _) => String.ofList before
  | none => ""

def cleanSegments (path : String) : List String :=
  (segments (clean path)).filter (· ≠ "")

/-- Drop what two lists have in common at their start. -/
def dropCommon [DecidableEq α] : List α → List α → List α × List α
  | x :: xs, y :: ys => if x = y then dropCommon xs ys else (x :: xs, y :: ys)
  | xs, ys => (xs, ys)

/-- The way from a directory to a target: up to the last common segment and down again. -/
def relative (directory target : String) : String :=
  let (up, down) := dropCommon (cleanSegments directory) (cleanSegments target)
  String.intercalate "/" (up.map (fun _ => "..") ++ down)

end SchemaCodec.Path

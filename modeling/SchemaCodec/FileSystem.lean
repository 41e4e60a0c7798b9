import SchemaCodec.Path

namespace SchemaCodec

/-! File systems as values: directories, files with their contents, and a working directory. A
location is the list of the segments that lead to it from the root. -/

inductive FileSystem.Entry where
  | directory
  | file (content : List UInt8)
  deriving DecidableEq, Repr

structure FileSystem where
  /-- The location of the working directory. -/
  here : List String
  directories : List (List String)
  files : List (List String × List UInt8)
  deriving DecidableEq, Repr

namespace FileSystem

inductive Error where
  | missing
  | notDirectory
  | isDirectory
  deriving DecidableEq, Repr

def Error.text : Error → String
  | .missing => "no such file or directory"
  | .notDirectory => "not a directory"
  | .isDirectory => "is a directory"

structure Fault where
  operation : String
  path : String
  error : Error
  deriving DecidableEq, Repr

def Fault.message (fault : Fault) : String :=
  fault.operation ++ " " ++ fault.path ++ ": " ++ fault.error.text

/-- The locations from the root to a location, the root left out. -/
def stages (location : List String) : List (List String) :=
  (List.range location.length).map fun n => location.take (n + 1)

def bare (here : List String) : FileSystem :=
  ⟨here, stages here, []⟩

def entry? (fs : FileSystem) (location : List String) : Option Entry :=
  match fs.files.lookup location with
  | some content => some (.file content)
  | none =>
    if location = [] ∨ fs.directories.contains location then some .directory else none

def step (fs : FileSystem) (location : List String) (segment : String) :
    Except Error (List String) :=
  match fs.entry? location with
  | none => .error .missing
  | some (.file _) => .error .notDirectory
  | some .directory =>
    if segment = "" ∨ segment = "." then .ok location
    else if segment = ".." then .ok location.dropLast
    else .ok (location ++ [segment])

/-- The location a path leads to. All before its last segment must exist. -/
def locate (fs : FileSystem) (path : String) : Except Error (List String) :=
  if path = "" then .error .missing
  else (Path.segments path).foldlM fs.step (if Path.isRooted path then [] else fs.here)

def find (fs : FileSystem) (path : String) : Except Error (List String × Entry) := do
  let location ← fs.locate path
  match fs.entry? location with
  | some entry => return (location, entry)
  | none => throw .missing

def has (fs : FileSystem) (path : String) : Bool :=
  (fs.find path).toBool

def read (fs : FileSystem) (path : String) : Except Fault (List UInt8) :=
  match fs.find path with
  | .ok (_, .file content) => .ok content
  | .ok (_, .directory) => .error ⟨"read", path, .isDirectory⟩
  | .error error => .error ⟨"open", path, error⟩

def put (fs : FileSystem) (location : List String) (content : List UInt8) : FileSystem :=
  { fs with files := (location, content) :: fs.files.filter fun (other, _) => other ≠ location }

def write (fs : FileSystem) (path : String) (content : List UInt8) : Except Fault FileSystem :=
  match fs.locate path with
  | .error error => .error ⟨"open", path, error⟩
  | .ok location =>
    if fs.entry? location = some .directory then .error ⟨"open", path, .isDirectory⟩
    else .ok (fs.put location content)

def makeDirectory (fs : FileSystem) (path : String) : Except Fault FileSystem :=
  match fs.locate path with
  | .error error => .error ⟨"mkdir", path, error⟩
  | .ok location =>
    match fs.entry? location with
    | some .directory => .ok fs
    | some (.file _) => .error ⟨"mkdir", path, .notDirectory⟩
    | none => .ok { fs with directories := location :: fs.directories }

def pathStages (path : String) : List String :=
  (stages (Path.steps path)).map (Path.ofSteps (Path.isRooted path))

def makeDirectories (fs : FileSystem) (path : String) : Except Fault FileSystem :=
  (pathStages path).foldlM makeDirectory fs

def remove (fs : FileSystem) (path : String) : FileSystem :=
  match fs.locate path with
  | .ok location => { fs with files := fs.files.filter fun (other, _) => other ≠ location }
  | .error _ => fs

/-- What lies below a location: where from there, and whether it is a directory. -/
def below (fs : FileSystem) (location : List String) : List (List String × Bool) :=
  let way? (isDirectory : Bool) (other : List String) : Option (List String × Bool) :=
    match location.isPrefixOf? other with
    | some (first :: rest) => some (first :: rest, isDirectory)
    | _ => none
  fs.directories.filterMap (way? true) ++ (fs.files.map Prod.fst).filterMap (way? false)

def children (fs : FileSystem) (location : List String) : List (String × Bool) :=
  (fs.below location).filterMap fun (path, isDirectory) =>
    match path with
    | [name] => some (name, isDirectory)
    | _ => none

def absolute (fs : FileSystem) (path : String) : String :=
  if Path.isRooted path then Path.clean path
  else Path.join [Path.ofSteps true fs.here, path]

end FileSystem

end SchemaCodec

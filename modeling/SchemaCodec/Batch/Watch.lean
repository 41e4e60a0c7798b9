import SchemaCodec.Batch.Run

namespace SchemaCodec.Batch

/-! Watching: files are converted again when they change. -/

inductive Operation where
  | create
  | remove
  | write
  | rename
  | chmod
  deriving DecidableEq, Repr

namespace Operation

def name : Operation → String
  | .create => "CREATE"
  | .remove => "REMOVE"
  | .write => "WRITE"
  | .rename => "RENAME"
  | .chmod => "CHMOD"

def all : List Operation :=
  [.create, .remove, .write, .rename, .chmod]

/-- Whether an operation may leave a new content. -/
def isChange (operation : Operation) : Bool :=
  operation == .create || operation == .write

end Operation

structure Change where
  path : String
  operations : List Operation
  deriving DecidableEq, Repr

def Change.name (change : Change) : String :=
  if change.operations = [] then "[no events]"
  else "|".intercalate ((Operation.all.filter change.operations.contains).map Operation.name)

/-- Convert the file that has changed, if the pattern matches it. Tells whether it does. -/
def handle (batch : Batch) (session : Session) (change : Change) : Session × Bool :=
  if change.operations.any Operation.isChange &&
      Glob.isMatch batch.settings.inputFile change.path then
    let file := Log.Value.text change.path
    let session := batch.log session .debug [("event", .text change.name), ("file", file)]
      "schema file changed"
    let (session, outcome) := batch.processFile session change.path
    match outcome.failure with
    | none => (session, true)
    | some failure =>
      if failure.isEndless then (session, true)
      else
        (batch.log session .error [("error", .text failure.message), ("file", file)]
          "regeneration failed", true)
  else (session, false)

def directoryOf (file : String) : String :=
  match Text.cutLast? '/' file.toList with
  | some (directory, _) => Path.clean (String.ofList (directory ++ ['/']))
  | none => "."

/-- The directories to watch: the one that all matches lie in, and those of the files that match
now. -/
def watchDirs (batch : Batch) (fs : FileSystem) : Except Failure (List String) := do
  let files ← batch.files fs
  return ((Glob.split batch.settings.inputFile).1 :: files.map directoryOf).eraseDups

def startWatching (batch : Batch) (session : Session) : Session × Except Failure Unit :=
  match batch.watchDirs session.fileSystem with
  | .error failure => (session, .error failure)
  | .ok directories =>
    match directories.mapM session.fileSystem.find with
    | .error error => (session, .error (.unwatchable error))
    | .ok _ =>
      let fields := [("dirs", Log.Value.texts directories),
        ("glob", .text batch.settings.inputFile)]
      (batch.log session .info fields "watching schema files for changes", .ok ())

end SchemaCodec.Batch

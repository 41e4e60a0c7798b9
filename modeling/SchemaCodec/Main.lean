import SchemaCodec.CommandLine.Run

/-! The program: it takes in the files that a command line speaks of, executes the command line on
them, and puts into effect what came of it. -/

namespace SchemaCodec.Program

open SchemaCodec

partial def observe (fs : FileSystem) (path : String) : IO FileSystem := do
  let full := fs.absolute path
  let place := (← IO.currentDir) / full
  let location := Path.steps full
  if ← place.isDir then
    let fs := { fs with
      directories := (FileSystem.stages location ++ fs.directories).eraseDups }
    let mut seen := fs
    for entry in ← place.readDir do
      seen ← observe seen (full ++ "/" ++ entry.fileName)
    return seen
  else if ← place.pathExists then
    let fs := { fs with
      directories := (FileSystem.stages location.dropLast ++ fs.directories).eraseDups }
    return fs.put location (← IO.FS.readBinFile place).toList
  else return fs

def environment : IO Environment := do
  let bytes ← try IO.FS.readBinFile "/proc/self/environ" catch _ => return ⟨[]⟩
  let entries := Text.splitOn (Char.ofNat 0) (Text.decodeLossy bytes.toList).toList
  return ⟨entries.filterMap fun entry =>
    (Text.cut? '=' entry).map fun (name, value) => (String.ofList name, String.ofList value)⟩

/-- The time since 1970 in nanoseconds, counted from the start of the system. -/
def now : IO Nat := do
  let lines ← try IO.FS.lines "/proc/stat" catch _ => pure #[]
  let started := lines.toList.findSome? fun line =>
    ("btime ".toList.isPrefixOf? line.toList).bind (Decimal.Numeral.digits? 10)
  return started.getD 0 * Batch.Metrics.nanosecondsPerSecond + (← IO.monoNanosNow)

/-- The files that a command line speaks of: its settings file, and what its settings name. -/
def gather (environment : Environment) (arguments : List String) : IO FileSystem := do
  let fs := FileSystem.bare (Path.steps (← IO.currentDir).toString)
  match CommandLine.plan arguments with
  | .ok (.convert flags) =>
    let fs ← if flags.configFile = "" then pure fs else observe fs flags.configFile
    match CommandLine.batchOf fs environment flags with
    | .error _ => return fs
    | .ok batch =>
      let fs ← observe fs (Glob.split (Path.clean batch.settings.inputFile)).1
      let fs ← if batch.settings.outputDir = "" then pure fs
        else observe fs batch.settings.outputDir
      if batch.settings.metricsFile = "" then return fs
      else observe fs (Batch.directoryOf batch.settings.metricsFile)
  | _ => return fs

def commit (before after : FileSystem) : IO Unit := do
  for (location, content) in after.files do
    if before.files.lookup location != some content then
      let root := (← IO.currentDir) / "/"
      IO.FS.createDirAll (root / Path.ofSteps true location.dropLast)
      IO.FS.writeBinFile (root / Path.ofSteps true location) content.toByteArray

def settle (before : FileSystem) (session : Batch.Session) : IO Unit := do
  commit before session.fileSystem
  IO.print session.output
  IO.eprint session.errors

partial def watch (batch : Batch) (before : FileSystem) : IO Unit := do
  IO.sleep 500
  let bare := FileSystem.bare before.here
  let now ← observe bare (Glob.split (Path.clean batch.settings.inputFile)).1
  let mut seen := before
  for (location, content) in now.files do
    if before.files.lookup location != some content then
      let full := Path.ofSteps true location
      let path := if Path.isRooted batch.settings.inputFile then full
        else Path.relative (Path.ofSteps true before.here) full
      let current := seen.put location content
      let operation := if (before.files.lookup location).isSome then .write else .create
      let (session, _) := batch.handle { fileSystem := current } ⟨path, [operation]⟩
      settle current session
      seen := session.fileSystem
  watch batch seen

end SchemaCodec.Program

open SchemaCodec SchemaCodec.Program

def main (arguments : List String) : IO UInt32 := do
  let environment ← environment
  let fs ← gather environment arguments
  let time ← now
  let (session, result) := CommandLine.execute fs environment false arguments fun _ => time
  settle fs session
  match result with
  | .error failure =>
    IO.eprintln failure.message
    return 1
  | .ok () =>
    match CommandLine.plan arguments with
    | .ok (.convert flags) =>
      match CommandLine.batchOf fs environment flags with
      | .ok batch => if batch.settings.watch then watch batch session.fileSystem
      | .error _ => pure ()
    | _ => pure ()
    return 0

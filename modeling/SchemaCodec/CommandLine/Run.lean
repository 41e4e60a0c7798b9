import SchemaCodec.Batch.Watch
import SchemaCodec.CommandLine.Command
import SchemaCodec.Settings.File

namespace SchemaCodec.CommandLine

/-! The execution of command lines. -/

inductive Failure where
  | usage (cause : UsageError)
  | settingsFile (cause : Settings.LoadError)
  | settings (cause : Settings.Invalid)
  | logLevel (cause : Log.ThresholdError)
  | batch (cause : Batch.Failure)
  deriving Repr

def Failure.message : Failure → String
  | .usage cause => cause.message
  | .settingsFile cause => cause.message
  | .settings cause => "invalid configuration: " ++ cause.message
  | .logLevel cause => "log level: " ++ cause.message
  | .batch cause => cause.message

/-- The settings before the flags: those of a file, or else of the environment. -/
def baseSettings (fs : FileSystem) (environment : Environment) (configFile : String) :
    Except Settings.LoadError Settings :=
  if configFile = "" then .ok environment.settings else Settings.load fs environment configFile

def resolve (fs : FileSystem) (environment : Environment) (flags : Flags) :
    Except Failure Settings := do
  let settings ← (baseSettings fs environment flags.configFile).mapError .settingsFile
  let settings := (settings.override flags.overrides).withDefaults
  settings.check.mapError .settings
  return settings

def batchOf (fs : FileSystem) (environment : Environment) (flags : Flags) :
    Except Failure Batch := do
  let settings ← resolve fs environment flags
  let threshold ← (Log.Threshold.parse settings.logLevel).mapError .logLevel
  return ⟨settings, some threshold⟩

/-- Run a batch, then begin to watch if the settings say so. -/
def runBatch (batch : Batch) (session : Batch.Session) (isCancelled : Bool) :
    Batch.Session × Except Failure Unit :=
  match batch.run session isCancelled with
  | (session, .error failure) => (session, .error (.batch failure))
  | (session, .ok ()) =>
    if batch.settings.watch then
      let (session, result) := batch.startWatching session
      (session, result.mapError .batch)
    else (session, .ok ())

def perform (session : Batch.Session) (environment : Environment) (isCancelled : Bool)
    (arguments : List String) : Batch.Session × Except Failure Unit :=
  match plan arguments with
  | .error cause => (session, .error (.usage cause))
  | .ok (.print text) => (session.print text, .ok ())
  | .ok (.convert flags) =>
    match batchOf session.fileSystem environment flags with
    | .error failure => (session, .error failure)
    | .ok batch => runBatch batch session isCancelled

/-- Execute a command line. A failure is told at the end. -/
def execute (fs : FileSystem) (environment : Environment) (isCancelled : Bool)
    (arguments : List String) (clock : Nat → Nat := fun _ => 0) :
    Batch.Session × Except Failure Unit :=
  match perform { fileSystem := fs, clock := clock } environment isCancelled arguments with
  | (session, .ok ()) => (session, .ok ())
  | (session, .error failure) =>
    (session.complain ("Error: " ++ failure.message ++ "\n"), .error failure)

end SchemaCodec.CommandLine

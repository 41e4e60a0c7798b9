import SchemaCodec.Batch.File
import SchemaCodec.Batch.Metrics
import SchemaCodec.Glob.Files

namespace SchemaCodec

/-! Batches: the conversion of all files that a pattern matches. A batch that comes to a file whose
reading does not end goes no further. -/

/-- What is given for a batch: its settings, and from which level on it logs, if at all. -/
structure Batch where
  settings : Settings
  threshold : Option Log.Threshold

namespace Batch

/-- The world of a batch: the files, the counts, what has been printed, and the clock. -/
structure Session where
  fileSystem : FileSystem
  metrics : Metrics := {}
  output : String := ""
  errors : String := ""
  /-- The times that the clock will show, one for each look at it, in nanoseconds. -/
  clock : Nat → Nat := fun _ => 0

namespace Session

def print (session : Session) (text : String) : Session :=
  { session with output := session.output ++ text }

def complain (session : Session) (text : String) : Session :=
  { session with errors := session.errors ++ text }

def tick (session : Session) (looks : Nat) : Session :=
  { session with clock := fun look => session.clock (looks + look) }

def timed (session : Session) : Session :=
  { session with metrics := session.metrics.addDuration (session.clock 1 - session.clock 0) }.tick 2

def stamped (session : Session) : Session :=
  { session with metrics := { session.metrics with lastRun := session.clock 0 } }.tick 1

end Session

def log (batch : Batch) (session : Session) (level : Log.Level)
    (fields : List (String × Log.Value)) (message : String) : Session :=
  session.complain (Log.Line.text ⟨level, fields, message⟩ batch.threshold)

def files (batch : Batch) (fs : FileSystem) : Except Failure (List String) :=
  match Glob.files? fs batch.settings.inputFile with
  | some files => .ok files
  | none => .error (.pattern batch.settings.inputFile)

/-- Take in what came of a file: its text, its files and its counts. -/
def record (batch : Batch) (session : Session) (file : String) (outcome : FileOutcome) : Session :=
  let session := { session with fileSystem := outcome.fileSystem }.complain
    (String.join (outcome.notices.map (Notice.text batch.threshold file)))
  match outcome.failure with
  | some failure =>
    let session := { session with metrics := session.metrics.addFailed }
    batch.log session .error [("error", .text failure.message), ("file", .text file)]
      "generation failed"
  | none =>
    let session := session.print batch.settings.qed
    let session :=
      { session with metrics := session.metrics.addOk (Issue.count outcome.result.issues) }
    let fields := [("file", Log.Value.text file), ("output", .text outcome.result.outputFile),
      ("written", .flag outcome.result.written)]
    batch.log session .info fields "generated"

def processFile (batch : Batch) (session : Session) (file : String) : Session × FileOutcome :=
  let outcome := convertFile batch.settings session.fileSystem file
  if outcome.isEndless then (session, outcome)
  else (batch.record session.timed file outcome, outcome)

def crash (session : Session) (file : String) : Session :=
  session.complain
    ("schemats crash while processing " ++ session.fileSystem.absolute file ++ "\n")

/-- Convert files one after the other. The first failure is the last, unless the settings say
otherwise. -/
def processAll (batch : Batch) (session : Session) : List String → Session × List Cause
  | [] => (session, [])
  | file :: rest =>
    let (session, outcome) := batch.processFile session file
    match outcome.failure with
    | none => batch.processAll session rest
    | some failure =>
      if failure.isEndless then (session, [.file file failure])
      else if batch.settings.continueOnError then
        let (session, causes) := batch.processAll (crash session file) rest
        (session, .file file failure :: causes)
      else (crash session file, [.file file failure])

def writeMetrics (batch : Batch) (session : Session) : Session × List Cause :=
  if batch.settings.metricsFile = "" then (session, [])
  else
    match session.fileSystem.write batch.settings.metricsFile
        session.metrics.text.toUTF8.toList with
    | .ok fs => ({ session with fileSystem := fs }, [])
    | .error fault => (session, [.metrics fault])

def verdict (causes : List Cause) : Except Failure Unit :=
  if causes.isEmpty then .ok () else .error (.causes causes)

/-- Write the metrics, unless the last file has never come to its end. -/
def finish (batch : Batch) (session : Session) (causes : List Cause) :
    Session × Except Failure Unit :=
  if causes.any Cause.isEndless then (session, verdict causes)
  else
    let (session, more) := batch.writeMetrics session.stamped
    (session, verdict (causes ++ more))

def greeting (batch : Batch) (files : List String) : String :=
  "Converting " ++ toString files.length ++ " schema files from " ++ batch.settings.inputFile ++
    ".\n"

/-- Convert all files that the pattern matches. A batch that has been cancelled converts none. -/
def run (batch : Batch) (session : Session) (isCancelled : Bool) :
    Session × Except Failure Unit :=
  match batch.files session.fileSystem with
  | .error failure => (session, .error failure)
  | .ok files =>
    let session := session.print (batch.greeting files)
    let (session, causes) :=
      if isCancelled then (session, if files = [] then [] else [.cancelled])
      else batch.processAll session files
    batch.finish session causes

end Batch

end SchemaCodec

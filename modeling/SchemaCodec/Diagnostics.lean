namespace SchemaCodec

/-! Diagnostics: what is reported about one input file, and whether its result may be used. -/

inductive Severity where
  | info
  | warning
  | error
  deriving DecidableEq, Repr

def Severity.name : Severity → String
  | .info => "INFO"
  | .warning => "WARNING"
  | .error => "ERROR"

/-- The worst that has been reported so far. -/
inductive Level where
  | ok
  | warning
  | error
  deriving DecidableEq, Repr

namespace Level

def name : Level → String
  | .ok => "OK"
  | .warning => "WARNING"
  | .error => "ERROR"

def all : List Level :=
  [.ok, .warning, .error]

def nameAt (position : Int) : String :=
  let missing := "Level(" ++ toString position ++ ")"
  if position < 0 then missing
  else match all[position.toNat]? with
    | some level => level.name
    | none => missing

def escalate (level : Level) : Severity → Level
  | .info => level
  | .warning => if level = .error then .error else .warning
  | .error => .error

end Level

/-- One diagnostic. An error may have a cause. -/
structure Report where
  severity : Severity
  message : String
  cause : Option String
  deriving DecidableEq, Repr

namespace Report

def info (message : String) : Report :=
  ⟨.info, message, none⟩

def warning (message : String) : Report :=
  ⟨.warning, message, none⟩

def error (message : String) (cause : Option String) : Report :=
  ⟨.error, message, cause⟩

def text (file : String) (report : Report) : String :=
  report.severity.name ++ ": " ++ report.message ++ "\n  in " ++ file ++ "\n"

end Report

inductive Refusal where
  | errors (causes : List String)
  | warnings
  deriving DecidableEq, Repr

def Refusal.message : Refusal → String
  | .errors [] => "Bailing because of errors"
  | .errors causes => "Bailing because of errors: " ++ "\n".intercalate causes
  | .warnings => "Bailing because of warnings"

structure Tracker where
  file : String
  level : Level
  entries : List Report
  causes : List String
  written : String

namespace Tracker

def fresh (file : String) : Tracker :=
  ⟨file, .ok, [], [], ""⟩

def report (tracker : Tracker) (report : Report) : Tracker where
  file := tracker.file
  level := tracker.level.escalate report.severity
  entries := tracker.entries ++ [report]
  causes := tracker.causes ++ report.cause.toList
  written := tracker.written ++ report.text tracker.file

def reportAll (tracker : Tracker) (reports : List Report) : Tracker :=
  reports.foldl Tracker.report tracker

def count (tracker : Tracker) (severity : String) : Nat :=
  (tracker.entries.filter fun entry => entry.severity.name == severity).length

/-- Errors always forbid the use of a result, warnings only in strict mode. -/
def refusal? (tracker : Tracker) (strict : Bool) : Option Refusal :=
  match tracker.level with
  | .error => some (.errors tracker.causes)
  | .warning => if strict then some .warnings else none
  | .ok => none

end Tracker

end SchemaCodec

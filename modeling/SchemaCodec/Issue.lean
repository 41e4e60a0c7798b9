import SchemaCodec.Conversion.Fault
import SchemaCodec.Diagnostics

namespace SchemaCodec

/-! Issues: diagnostics and faults in the form in which they are handed out. -/

structure Issue where
  /-- The place in the input; empty if it is not known. -/
  path : String
  severity : String
  message : String
  cause : Option String
  deriving DecidableEq, Repr

namespace Issue

def ofReport (report : Report) : Issue :=
  ⟨"", report.severity.name, report.message, none⟩

/-- A problem that has a place. Without a detail of its own it is named by the rule it breaks. -/
def ofLocated (fault : Fault.Located) : Issue :=
  let rule := fault.problem.rule.text
  let detail := fault.problem.detail
  ⟨fault.location.path, Severity.error.name, if detail = "" then rule else detail, some rule⟩

def text (issue : Issue) : String :=
  issue.severity ++ ": " ++ issue.message ++
    (if issue.path = "" then "" else " at " ++ issue.path)

def maxShown : Nat := 3

def summary (issues : List Issue) : String :=
  "; ".intercalate ((issues.take maxShown).map text) ++
    (if maxShown < issues.length then "; ... (total " ++ toString issues.length ++ ")" else "")

def count (issues : List Issue) (severity : Severity) : Nat :=
  (issues.filter fun issue => issue.severity == severity.name).length

end Issue

end SchemaCodec

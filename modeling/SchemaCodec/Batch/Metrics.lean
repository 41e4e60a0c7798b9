import SchemaCodec.Decimal.Shortest
import SchemaCodec.Diagnostics

namespace SchemaCodec.Batch

/-! What a batch counts and times, and the text form of that. Times are in nanoseconds. -/

open Decimal (Binary64)

structure Metrics where
  ok : Nat := 0
  failed : Nat := 0
  infos : Nat := 0
  warnings : Nat := 0
  errors : Nat := 0
  /-- How long each file took. -/
  durations : List Nat := []
  /-- When the last run came to its end. -/
  lastRun : Nat := 0
  deriving DecidableEq, Repr

namespace Metrics

def addDuration (metrics : Metrics) (duration : Nat) : Metrics :=
  { metrics with durations := metrics.durations ++ [duration] }

def addFailed (metrics : Metrics) : Metrics :=
  { metrics with failed := metrics.failed + 1 }

def addOk (metrics : Metrics) (count : Severity → Nat) : Metrics :=
  { metrics with
    ok := metrics.ok + 1
    infos := metrics.infos + count .info
    warnings := metrics.warnings + count .warning
    errors := metrics.errors + count .error }

def total (metrics : Metrics) : Nat :=
  metrics.ok + metrics.failed

/-! Times -/

def nanosecondsPerSecond : Nat := 1000000000

/-- The seconds of a duration. Whole seconds and the rest are rounded each on its own. -/
def seconds (duration : Nat) : Binary64 :=
  .add (.ofNat (duration / nanosecondsPerSecond))
    (.nearest false (duration % nanosecondsPerSecond) nanosecondsPerSecond)

def totalSeconds (metrics : Metrics) : Binary64 :=
  metrics.durations.foldl (fun sum duration => sum.add (seconds duration)) (.ofNat 0)

def lastRunSeconds (metrics : Metrics) : Binary64 :=
  (Binary64.ofNat metrics.lastRun).divNat nanosecondsPerSecond

def bounds : List (String × Nat) :=
  [("0.001", 1000000), ("0.005", 5000000), ("0.01", 10000000), ("0.025", 25000000),
    ("0.05", 50000000), ("0.1", 100000000), ("0.25", 250000000), ("0.5", 500000000),
    ("1", 1000000000)]

def numberText (number : Binary64) : String :=
  number.text Decimal.compact

/-! Text -/

structure Sample where
  label : Option (String × String)
  count : Nat
  deriving DecidableEq, Repr

structure Measure where
  ending : String
  label : Option (String × String)
  number : String
  deriving DecidableEq, Repr

structure Family where
  name : String
  help : String
  kind : String
  measures : List Measure
  /-- What the name of a single count ends in. -/
  ending : String
  samples : List Sample
  deriving DecidableEq, Repr

def labelled (label : String) (counts : List (String × Nat)) : List Sample :=
  (counts.filter fun (_, n) => n ≠ 0).map fun (value, n) => ⟨some (label, value), n⟩

/-- How many files took no longer than each bound, and how long they took together. -/
def durationMeasures (metrics : Metrics) : List Measure :=
  let bucket (bound : String) (count : Nat) : Measure :=
    ⟨"_bucket", some ("le", bound), numberText (.ofNat count)⟩
  bounds.map (fun (text, bound) => bucket text (metrics.durations.countP (· ≤ bound))) ++
    [bucket "+Inf" metrics.durations.length, ⟨"_sum", none, numberText metrics.totalSeconds⟩]

/-- All families, in the order of their names, with their counts in the order of the labels. -/
def families (metrics : Metrics) : List Family :=
  [{ name := "schemats_diagnostics_total"
     help := "Diagnostics reported by severity"
     kind := "counter"
     measures := []
     ending := ""
     samples := labelled "severity"
      [(Severity.error.name, metrics.errors), (Severity.info.name, metrics.infos),
        (Severity.warning.name, metrics.warnings)] },
   { name := "schemats_file_duration_seconds"
     help := "Time spent generating one module"
     kind := "histogram"
     measures := metrics.durationMeasures
     ending := "_count"
     samples := [⟨none, metrics.durations.length⟩] },
   { name := "schemats_files_total"
     help := "Schema files processed by result"
     kind := "counter"
     measures := []
     ending := ""
     samples := labelled "result" [("failed", metrics.failed), ("ok", metrics.ok)] },
   { name := "schemats_last_run_timestamp_seconds"
     help := "Unix time the last run finished"
     kind := "gauge"
     measures := [⟨"", none, numberText metrics.lastRunSeconds⟩]
     ending := ""
     samples := [] }]

def line (name : String) (label : Option (String × String)) (number : String) : String :=
  let label := match label with
    | some (key, value) => "\x7b" ++ key ++ "=\"" ++ value ++ "\"\x7d"
    | none => ""
  name ++ label ++ " " ++ number

def Family.numberLines (family : Family) : List String :=
  family.measures.map (fun measure =>
    line (family.name ++ measure.ending) measure.label measure.number) ++
  family.samples.map fun sample =>
    line (family.name ++ family.ending) sample.label (numberText (.ofNat sample.count))

def Family.lines (family : Family) : List String :=
  match family.numberLines with
  | [] => []
  | lines => ("# HELP " ++ family.name ++ " " ++ family.help) ::
    ("# TYPE " ++ family.name ++ " " ++ family.kind) :: lines

def text (metrics : Metrics) : String :=
  String.join ((metrics.families.flatMap Family.lines).map (· ++ "\n"))

end Metrics

end SchemaCodec.Batch

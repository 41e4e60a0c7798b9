import SchemaCodec.Decimal.Numeral

namespace SchemaCodec.Log

/-! Levels of log lines. -/

inductive Level where
  | debug
  | info
  | error
  deriving DecidableEq, Repr

namespace Level

def name : Level → String
  | .debug => "debug"
  | .info => "info"
  | .error => "error"

def rank : Level → Int
  | .debug => 0
  | .info => 1
  | .error => 3

end Level

inductive ThresholdError where
  | unknown (text : String)
  | outOfBounds (value : Int)
  deriving DecidableEq, Repr

def ThresholdError.message : ThresholdError → String
  | .unknown text => "Unknown Level String: '" ++ text ++ "', defaulting to NoLevel"
  | .outOfBounds value => "Out-Of-Bounds Level: '" ++ toString value ++ "', defaulting to NoLevel"

/-- A threshold: lines of a lower rank are not written. -/
structure Threshold where
  rank : Int
  deriving DecidableEq, Repr

namespace Threshold

def named : List (String × Int) :=
  [("trace", -1), ("debug", 0), ("info", 1), ("warn", 2), ("error", 3), ("fatal", 4), ("panic", 5),
    ("disabled", 7), ("", 6)]

/-- The small form of a letter; a long s counts as an s. -/
def fold (c : Char) : Char :=
  if c = '\u017f' then 's' else c.toLower

/-- A threshold by its name in any case, or by its rank in one signed byte. -/
def parse (text : String) : Except ThresholdError Threshold :=
  match named.lookup (String.ofList (text.toList.map fold)) with
  | some rank => .ok ⟨rank⟩
  | none =>
    match Decimal.Numeral.decimal? text.toList with
    | none => .error (.unknown text)
    | some rank =>
      if -128 ≤ rank ∧ rank ≤ 127 then .ok ⟨rank⟩ else .error (.outOfBounds rank)

def admits (threshold : Threshold) (level : Level) : Bool :=
  decide (threshold.rank ≤ level.rank)

end Threshold

end SchemaCodec.Log

import SchemaCodec.Log.Level
import SchemaCodec.Text.Quoted

namespace SchemaCodec.Log

/-! Log lines: one JSON object on each. -/

inductive Value where
  | text (text : String)
  | flag (value : Bool)
  | count (n : Nat)
  | texts (texts : List String)
  deriving DecidableEq, Repr

structure Line where
  level : Level
  fields : List (String × Value)
  message : String
  deriving DecidableEq, Repr

def escape (c : Char) : List Char :=
  if c = '"' ∨ c = '\\' then ['\\', c]
  else match c.toNat with
    | 0x08 => ['\\', 'b']
    | 0x0c => ['\\', 'f']
    | 0x0a => ['\\', 'n']
    | 0x0d => ['\\', 'r']
    | 0x09 => ['\\', 't']
    | code =>
      if code < 0x20 ∨ code = 0x7f then '\\' :: 'u' :: Text.hexDigits 4 code else [c]

def quoted (text : String) : String :=
  String.ofList ('"' :: text.toList.flatMap escape ++ ['"'])

def Value.encode : Value → String
  | .text content => quoted content
  | .flag value => if value then "true" else "false"
  | .count n => toString n
  | .texts items => "[" ++ ",".intercalate (items.map quoted) ++ "]"

namespace Line

/-- The time on every line: no clock is kept. -/
def time : String :=
  "1970-01-01T00:00:00Z"

def members (line : Line) : List (String × Value) :=
  ("level", .text line.level.name) :: line.fields ++
    [("time", .text time), ("message", .text line.message)]

def encode (line : Line) : String :=
  let members := line.members.map fun (key, value) => quoted key ++ ":" ++ value.encode
  "\x7b" ++ ",".intercalate members ++ "\x7d\n"

/-- The text of a line under a threshold; without one nothing is logged. -/
def text (line : Line) (threshold : Option Threshold) : String :=
  if threshold.any (·.admits line.level) then line.encode else ""

end Line

end SchemaCodec.Log

import SchemaCodec.Settings.Basic
import SchemaCodec.Text.Blank
import SchemaCodec.Text.Utf8

namespace SchemaCodec

/-! Environment variables: the settings they hold, and their use inside texts. -/

structure Environment where
  entries : List (String × String)
  deriving DecidableEq, Repr

namespace Environment

/-- The value of a variable; one that is not set is empty. -/
def get (environment : Environment) (name : String) : String :=
  (environment.entries.lookup name).getD ""

/-- The value of a variable that says something. -/
def value? (environment : Environment) (name : String) : Option String :=
  let value := environment.get name
  if value = "" then none else some value

def isYes (value : String) : Bool :=
  ["true", "1", "yes", "on"].contains
    (String.ofList ((Text.trim value.toList).map Char.toLower))

/-- What the variables say about the settings. A hash length that is no number says nothing. -/
def overrides (environment : Environment) : Settings.Overrides where
  inputFile := environment.value? "SCHEMATS_INPUT_FILE"
  outputDir := environment.value? "SCHEMATS_OUTPUT_DIR"
  strict := (environment.value? "SCHEMATS_STRICT").map isYes
  maskNull := (environment.value? "SCHEMATS_MASK_NULL").map isYes
  emit := (environment.value? "SCHEMATS_EMIT").map isYes
  base := environment.value? "SCHEMATS_BASE"
  imports := (environment.value? "SCHEMATS_IMPORT").map fun value =>
    (Text.words value.toList).map String.ofList
  hashAlgorithm := environment.value? "SCHEMATS_IMPORT_HASH_ALGORITHM"
  hashLength := (environment.value? "SCHEMATS_IMPORT_HASH_LENGTH").bind fun value =>
    Decimal.Numeral.decimal? value.toList
  continueOnError := (environment.value? "SCHEMATS_CONTINUE_ON_ERROR").map isYes
  logLevel := environment.value? "SCHEMATS_LOG_LEVEL"
  metricsFile := environment.value? "SCHEMATS_METRICS_TEXTFILE"

def settings (environment : Environment) : Settings :=
  (({} : Settings).override environment.overrides).withDefaults

def ascii (byte : UInt8) : Char :=
  Char.ofNat byte.toNat

/-- Characters that are names of variables on their own. -/
def isSpecial (c : Char) : Bool :=
  "*#$@!?-".toList.contains c || c.isDigit

def isNamePart (c : Char) : Bool :=
  c == '_' || c.isAlphanum

inductive Use where
  | variable (name : List UInt8)
  /-- Braces without a name; they vanish. -/
  | nothing
  /-- The dollar sign stands for itself. -/
  | dollar
  deriving DecidableEq, Repr

/-- What the text behind a dollar sign says, and how many bytes of it belong to that. -/
def useOf (text : List UInt8) : Use × Nat :=
  match text with
  | [] => (.dollar, 0)
  | byte :: rest =>
    if ascii byte = '\x7b' then
      let isClosing (b : UInt8) : Bool := ascii b == '\x7d'
      match rest with
      | mark :: close :: _ =>
        if isSpecial (ascii mark) ∧ isClosing close then (.variable [mark], 3)
        else braced isClosing rest
      | _ => braced isClosing rest
    else if isSpecial (ascii byte) then (.variable [byte], 1)
    else
      let name := text.takeWhile fun b => isNamePart (ascii b)
      if name = [] then (.dollar, 0) else (.variable name, name.length)
where
  braced (isClosing : UInt8 → Bool) (rest : List UInt8) : Use × Nat :=
    let name := rest.takeWhile fun b => !isClosing b
    if name.length = rest.length then (.nothing, 1)
    else if name = [] then (.nothing, 2)
    else (.variable name, name.length + 2)

def expand (environment : Environment) : List UInt8 → List UInt8
  | [] => []
  | byte :: rest =>
    if ascii byte = '$' ∧ rest ≠ [] then
      match useOf rest with
      | (.variable name, length) =>
        Text.encode (environment.get (Text.decodeLossy name)).toList ++
          environment.expand (rest.drop length)
      | (.nothing, length) => environment.expand (rest.drop length)
      | (.dollar, _) => byte :: environment.expand rest
    else byte :: environment.expand rest
termination_by text => text.length
decreasing_by all_goals simp only [List.length_drop, List.length_cons]; omega

end Environment

end SchemaCodec

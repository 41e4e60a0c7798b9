import SchemaCodec.Settings.Basic
import SchemaCodec.Text.Cut

namespace SchemaCodec.CommandLine

/-! Flags of the command line. -/

structure Flags where
  /-- The settings file; none if empty. -/
  configFile : String := ""
  overrides : Settings.Overrides := {}
  help : Bool := false
  deriving DecidableEq, Repr

inductive Flag.Kind where
  | text (typeName : String) (set : String → Flags → Flags)
  | number (set : Int → Flags → Flags)
  /-- A flag that is on if no value is given. -/
  | switch (isOnByDefault : Bool) (set : Bool → Flags → Flags)

structure Flag where
  name : String
  letter : Option Char
  about : String
  kind : Flag.Kind

namespace Flag

def isSwitch (flag : Flag) : Bool :=
  match flag.kind with
  | .switch .. => true
  | _ => false

def setting (set : α → Settings.Overrides → Settings.Overrides) (value : α) (flags : Flags) :
    Flags :=
  { flags with overrides := set value flags.overrides }

def ofText (name : String) (letter : Option Char) (about : String)
    (set : String → Settings.Overrides → Settings.Overrides) : Flag :=
  ⟨name, letter, about, .text "string" (setting set)⟩

def ofSwitch (name : String) (letter : Option Char) (about : String) (isOnByDefault : Bool)
    (set : Bool → Settings.Overrides → Settings.Overrides) : Flag :=
  ⟨name, letter, about, .switch isOnByDefault (setting set)⟩

def help (command : String) : Flag :=
  ⟨"help", some 'h', "help for " ++ command,
    .switch false fun value flags => { flags with help := value }⟩

/-- The flags that say something about the settings, in the order of their names. Import mappings add
up, of all others the last one counts. -/
def ofSettings : List Flag :=
  [ofText "base" none "URI prefix stripped to compute output paths"
    fun v o => { o with base := some v },
   ⟨"config", some 'c', "config file path",
    .text "string" fun v flags => { flags with configFile := v }⟩,
   ofSwitch "continue-on-error" none "keep converting after a file fails" false
    fun v o => { o with continueOnError := some v },
   ofSwitch "emit" none "write generated modules" true fun v o => { o with emit := some v },
   ⟨"import", none, "URI^location import rewrite (repeatable)", .text "stringArray"
    (setting fun v o => { o with imports := some (o.imports.getD [] ++ [v]) })⟩,
   ofText "import-hash-algorithm" none "hash used for import aliases"
    fun v o => { o with hashAlgorithm := some v },
   ⟨"import-hash-length", none, "hex digits of import hash, 0 disables",
    .number (setting fun v o => { o with hashLength := some v })⟩,
   ofText "input-file" (some 'i') "glob of schema files to convert"
    fun v o => { o with inputFile := some v },
   ofText "log-level" none "log level (debug, info, warn, error)"
    fun v o => { o with logLevel := some v },
   ofSwitch "mask-null" none "distinguish null from absent properties" false
    fun v o => { o with maskNull := some v },
   ofText "metrics-textfile" none "write prometheus metrics to this file"
    fun v o => { o with metricsFile := some v },
   ofText "output-dir" (some 'o') "directory generated modules are written to"
    fun v o => { o with outputDir := some v },
   ofText "qed" none "text written to stdout after each file" fun v o => { o with qed := some v },
   ofSwitch "strict" none "treat warnings as fatal" false fun v o => { o with strict := some v },
   ofSwitch "watch" (some 'w') "regenerate when schema files change" false
    fun v o => { o with watch := some v }]

def usage (flag : Flag) : String :=
  let letter := match flag.letter with
    | some c => "  -" ++ c.toString ++ ", --"
    | none => "      --"
  let value := match flag.kind with
    | .text typeName _ => " " ++ typeName
    | .number _ => " int"
    | .switch .. => ""
  letter ++ flag.name ++ value

def purpose (flag : Flag) : String :=
  match flag.kind with
  | .switch true _ => flag.about ++ " (default true)"
  | _ => flag.about

def table (flags : List Flag) : String :=
  let flags := flags.mergeSort fun a b => decide (a.name ≤ b.name)
  let width := flags.foldl (fun width flag => max width flag.usage.length) 0 + 3
  String.join (flags.map fun flag =>
    flag.usage.pushn ' ' (width - flag.usage.length) ++ flag.purpose ++ "\n")

end Flag

inductive UsageError where
  | badSyntax (argument : String)
  | unknownFlag (name : String)
  /-- No flag has this letter, the first of `letters`. -/
  | unknownLetter (letter : Char) (letters : String)
  | missingValue (name : String)
  | missingLetterValue (letter : Char) (letters : String)
  | noBool (value : String) (flag : String)
  | noInteger (value : String) (flag : String) (isTooLarge : Bool)
  | unknownCommand (name : String)
  deriving DecidableEq, Repr

namespace UsageError

/-- A letter in a message. Those outside of ASCII all look the same. -/
def shownLetter (letter : Char) : String :=
  Text.quotedChar (if letter.toNat < 0x80 then letter else '\u00c3')

def message : UsageError → String
  | .badSyntax argument => "bad flag syntax: " ++ argument
  | .unknownFlag name => "unknown flag: --" ++ name
  | .unknownLetter letter letters =>
    "unknown shorthand flag: " ++ shownLetter letter ++ " in -" ++ letters
  | .missingValue name => "flag needs an argument: --" ++ name
  | .missingLetterValue letter letters =>
    "flag needs an argument: " ++ shownLetter letter ++ " in -" ++ letters
  | .noBool value flag =>
    "invalid argument " ++ Text.quoted value ++ " for " ++ Text.quoted flag ++
      " flag: strconv.ParseBool: parsing " ++ Text.quoted value ++ ": invalid syntax"
  | .noInteger value flag isTooLarge =>
    "invalid argument " ++ Text.quoted value ++ " for " ++ Text.quoted flag ++
      " flag: strconv.ParseInt: parsing " ++ Text.quoted value ++
      (if isTooLarge then ": value out of range" else ": invalid syntax")
  | .unknownCommand name => "unknown command " ++ Text.quoted name ++ " for \"schemats\""

end UsageError

namespace Flag

def shown (flag : Flag) : String :=
  match flag.letter with
  | some c => "-" ++ c.toString ++ ", --" ++ flag.name
  | none => "--" ++ flag.name

def boolOf? (text : String) : Option Bool :=
  if ["1", "t", "T", "TRUE", "true", "True"].contains text then some true
  else if ["0", "f", "F", "FALSE", "false", "False"].contains text then some false
  else none

def apply (flag : Flag) (value : String) (flags : Flags) : Except UsageError Flags :=
  match flag.kind with
  | .text _ set => .ok (set value flags)
  | .number set =>
    match Decimal.Numeral.integer? value.toList with
    | some n => .ok (set n flags)
    | none =>
      .error (.noInteger value flag.shown (Decimal.Numeral.isTooLarge value.toList))
  | .switch _ set =>
    match boolOf? value with
    | some b => .ok (set b flags)
    | none => .error (.noBool value flag.shown)

end Flag

end SchemaCodec.CommandLine

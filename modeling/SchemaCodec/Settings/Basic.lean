import SchemaCodec.Digest.Algorithm
import SchemaCodec.Log.Level
import SchemaCodec.Reference.Resolver

namespace SchemaCodec

/-! Settings of a batch of schema files. -/

structure Settings where
  /-- The pattern of the schema files. -/
  inputFile : String := ""
  outputDir : String := ""
  strict : Bool := false
  maskNull : Bool := false
  /-- Whether modules are written; if nothing is said, they are. -/
  emit : Option Bool := none
  base : String := ""
  /-- Mappings from URIs to locations, in written form. -/
  imports : List String := []
  hashAlgorithm : String := ""
  hashLength : Int := 0
  /-- What is printed after each converted file. -/
  qed : String := ""
  continueOnError : Bool := false
  logLevel : String := ""
  metricsFile : String := ""
  watch : Bool := false
  deriving DecidableEq, Repr

namespace Settings

def shouldEmit (settings : Settings) : Bool :=
  settings.emit.getD true

structure Overrides where
  inputFile : Option String := none
  outputDir : Option String := none
  strict : Option Bool := none
  maskNull : Option Bool := none
  emit : Option Bool := none
  base : Option String := none
  imports : Option (List String) := none
  hashAlgorithm : Option String := none
  hashLength : Option Int := none
  qed : Option String := none
  continueOnError : Option Bool := none
  logLevel : Option String := none
  metricsFile : Option String := none
  watch : Option Bool := none
  deriving DecidableEq, Repr

/-- What a source says replaces what was set before. -/
def override (settings : Settings) (overrides : Overrides) : Settings where
  inputFile := overrides.inputFile.getD settings.inputFile
  outputDir := overrides.outputDir.getD settings.outputDir
  strict := overrides.strict.getD settings.strict
  maskNull := overrides.maskNull.getD settings.maskNull
  emit := overrides.emit <|> settings.emit
  base := overrides.base.getD settings.base
  imports := overrides.imports.getD settings.imports
  hashAlgorithm := overrides.hashAlgorithm.getD settings.hashAlgorithm
  hashLength := overrides.hashLength.getD settings.hashLength
  qed := overrides.qed.getD settings.qed
  continueOnError := overrides.continueOnError.getD settings.continueOnError
  logLevel := overrides.logLevel.getD settings.logLevel
  metricsFile := overrides.metricsFile.getD settings.metricsFile
  watch := overrides.watch.getD settings.watch

def defaultQed : String :=
  "."

def defaultLogLevel : String :=
  "warn"

def orDefault (fallback text : String) : String :=
  if text = "" then fallback else text

def withDefaults (settings : Settings) : Settings :=
  { settings with
    hashAlgorithm := orDefault Digest.Algorithm.defaultName settings.hashAlgorithm
    qed := orDefault defaultQed settings.qed
    logLevel := orDefault defaultLogLevel settings.logLevel }

inductive Invalid where
  | noInputFile
  | noOutputDir
  | negativeHashLength (length : Int)
  | unknownHashAlgorithm
  | mapping (cause : ImportMapping.Error)
  | logLevel (cause : Log.ThresholdError)
  deriving DecidableEq, Repr

def Invalid.message : Invalid → String
  | .noInputFile => "input_file is required"
  | .noOutputDir => "output_dir is required unless emit is false"
  | .negativeHashLength length =>
    "import_hash_length must not be negative, got " ++ toString length
  | .unknownHashAlgorithm =>
    "import_hash_algorithm must be one of: " ++ ", ".intercalate Digest.Algorithm.names
  | .mapping cause => "import: " ++ cause.message
  | .logLevel cause => "log_level: " ++ cause.message

def check (settings : Settings) : Except Invalid Unit := do
  if settings.inputFile = "" then throw .noInputFile
  if settings.outputDir = "" ∧ settings.shouldEmit then throw .noOutputDir
  if settings.hashLength < 0 then throw (.negativeHashLength settings.hashLength)
  if (Digest.Algorithm.ofName? settings.hashAlgorithm).isNone then throw .unknownHashAlgorithm
  let _ ← (ImportMapping.parseAll settings.imports).mapError .mapping
  let _ ← (Log.Threshold.parse settings.logLevel).mapError .logLevel

end Settings

end SchemaCodec

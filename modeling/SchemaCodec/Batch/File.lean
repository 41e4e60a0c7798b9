import SchemaCodec.Batch.Failure
import SchemaCodec.Batch.Output
import SchemaCodec.Json.Reader
import SchemaCodec.Log.Line
import SchemaCodec.Settings.Basic
import SchemaCodec.Yaml.Reader

namespace SchemaCodec.Batch

/-! The conversion of one file. -/

/-- The part of a path from the last dot of its last segment on. -/
def fileEnding (path : String) : String :=
  match Text.cutLast? '.' (Text.afterLast '/' path.toList) with
  | some (_, ending) => String.ofList ('.' :: ending)
  | none => ""

def isYaml (path : String) : Bool :=
  [".yaml", ".yml"].contains (String.ofList ((fileEnding path).toList.map Char.toLower))

def loadSchema (fs : FileSystem) (path : String) : Except FileFailure Document := do
  let content ← (fs.read path).mapError .unreadable
  (if isYaml path then Yaml.parse content else Json.parse content).mapError (.unparsable path)

inductive Notice where
  | outsideBase (uri : String)
  | event (event : Event)
  /-- The module is complete, with its number of definitions. -/
  | generated (definitions : Nat)
  deriving Repr

namespace Notice

def eventText (threshold : Option Log.Threshold) (file : String) : Event → String
  | .reported report =>
    let fields := [("severity", Log.Value.text report.severity.name), ("file", .text file)]
    Log.Line.text ⟨.debug, fields, report.message⟩ threshold ++ report.text file
  | .defined name isRoot =>
    let kind := if isRoot then ("root", Log.Value.flag true) else ("kind", .text "brand")
    Log.Line.text ⟨.debug, [("definition", .text name), kind], "compiled"⟩ threshold
  | .required _ => ""

def text (threshold : Option Log.Threshold) (file : String) : Notice → String
  | .outsideBase uri => "Document URI " ++ uri ++ " is outside of output base.\n"
  | .event about => eventText threshold file about
  | .generated count =>
    Log.Line.text ⟨.debug, [("file", .text file), ("definitions", .count count)], "generated"⟩
      threshold

end Notice

/-- What is known about a converted file, or one whose conversion has failed on the way. -/
structure FileResult where
  inputFile : String
  documentUri : String := ""
  outputFile : String := ""
  written : Bool := false
  issues : List Issue := []
  deriving DecidableEq, Repr

structure FileOutcome where
  result : FileResult
  notices : List Notice
  fileSystem : FileSystem
  failure : Option FileFailure

def FileOutcome.isEndless (outcome : FileOutcome) : Bool :=
  outcome.failure.any FileFailure.isEndless

def options (settings : Settings) (uri file : String) : Module.Options where
  imports := settings.imports
  documentUri := uri
  inputFile := file
  base := settings.base
  hashLength := settings.hashLength
  hashAlgorithm := settings.hashAlgorithm
  strict := settings.strict
  maskNull := settings.maskNull

/-- Write a module, and make the directory for it. What has been made stays, also if a later step
fails. -/
def emit (fs : FileSystem) (path : String) (generated : Module) :
    FileSystem × Option FileFailure :=
  let directory := Path.parent path
  match fs.makeDirectories (if directory = "" then "." else Path.clean directory) with
  | .error fault => (fs, some (.noDirectory fault))
  | .ok made =>
    match made.write path generated.text.toUTF8.toList with
    | .error fault => (made, some (.unwritable fault))
    | .ok written => (written, none)

def convertFile (settings : Settings) (fs : FileSystem) (file : String) : FileOutcome :=
  match loadSchema fs file with
  | .error failure => ⟨{ inputFile := file }, [], fs, some failure⟩
  | .ok schema =>
    let uri := documentUri fs schema file
    let result : FileResult := {
      inputFile := file
      documentUri := uri
      outputFile := outputPath settings.outputDir settings.base uri }
    let outside := if settings.base.toList.isPrefixOf uri.toList then [] else [.outsideBase uri]
    let outcome := Module.generate (options settings uri file) schema
    let notices := outside ++ outcome.events.map .event
    match outcome.result with
    | .error failure => ⟨result, notices, fs, some (.generation failure)⟩
    | .ok generated =>
      let notices := notices ++ [.generated generated.blocks.length]
      let result := { result with issues := generated.issues }
      if settings.shouldEmit then
        match emit fs result.outputFile generated with
        | (fs, some failure) => ⟨result, notices, fs, some failure⟩
        | (fs, none) => ⟨{ result with written := true }, notices, fs, none⟩
      else ⟨result, notices, fs, none⟩

end SchemaCodec.Batch

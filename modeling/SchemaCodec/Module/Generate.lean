import SchemaCodec.Codec.Order
import SchemaCodec.Conversion.Context
import SchemaCodec.Link.Endpoint
import SchemaCodec.Module.Basic
import SchemaCodec.Name

namespace SchemaCodec

/-! From documents to modules. -/

namespace Module

structure Options where
  /-- Mappings from URIs to locations, in written form. -/
  imports : List String
  documentUri : String
  inputFile : String
  base : String
  hashLength : Int
  hashAlgorithm : String
  /-- Whether warnings forbid the use of the module. -/
  strict : Bool
  maskNull : Bool

inductive Failure where
  | mapping (cause : ImportMapping.Error)
  | fault (cause : Fault)
  | refused (cause : Refusal)
  deriving Repr

namespace Failure

def message : Failure → String
  | .mapping cause => cause.message
  | .fault cause => cause.message
  | .refused cause => cause.message

def located? : Failure → Option Fault.Located
  | .fault (.located place) => some place
  | _ => none

def issue? (failure : Failure) : Option Issue :=
  failure.located?.map Issue.ofLocated

end Failure

open Conversion

def namedDefinitions (scope : Scope) (schema : Document) : Conversion (List Definition) :=
  match schema.get? "definitions" with
  | none => .pure []
  | some (.object members) =>
    each (fun (key, value) =>
      define scope (Location.root.down ["definitions", key]) (Name.ofKebab key) value) members
  | some _ => fail (Location.root.down ["definitions"]) (.notObject "definitions")

/-- All definitions of a document: those it names, its root, and those of its endpoint. A named
definition takes the place of a root of the same name. -/
def collect (scope : Scope) (defaultName : String) (schema : Document) :
    Conversion (List Definition) := do
  let named ← namedDefinitions scope schema
  if named.any fun definition => definition.name == defaultName then
    warn "naming clash, ignoring default export"
    return named
  if !schema.has "$schema" then warn "missing $schema declaration"
  require .codecs
  require (.defaultExport defaultName)
  let root ← defineRoot scope defaultName schema
  let endpoint ← Link.expand scope schema
  return named ++ root :: endpoint

/-- What is known about the definition of a name: the last one of that name counts. -/
def metadataOf (definitions : List Definition) (name : String) : Metadata :=
  match definitions.reverse.find? fun definition => definition.name == name with
  | some definition => definition.metadata
  | none => {}

def block (definitions : List Definition) (declaration : Declaration) : Conversion Block := do
  let metadata := metadataOf definitions declaration.name
  let block ← ofExcept (Block.ofDeclaration declaration metadata)
  if metadata.description.isNone then info "missing description"
  if block.examples.isSome then
    require .filledArrayType
    require .filledArrayCodec
  return block

/-- The blocks of the definitions, each behind those it depends on. -/
def blocksOf (definitions : List Definition) : Conversion (List Block) :=
  each (block definitions) (Declaration.sort (definitions.map Definition.declaration))

def headText (schema : Document) (key : String) : String :=
  match schema.get? key with
  | none => "undefined"
  | some (.string text) => text
  | some value => value.encode

def ofBlocks (schema : Document) (context : Context) (blocks : List Block) : Module where
  title := headText schema "title"
  description := headText schema "description"
  schemaId := headText schema "$id"
  imports := context.imports.values
  helpers := context.helpers.values
  blocks := blocks
  exports := context.exports.values
  issues := context.tracker.entries.map Issue.ofReport

structure Outcome where
  events : List Event
  result : Except Failure Module

def Options.scope (options : Options) (mappings : List ImportMapping) : Scope where
  maskNull := options.maskNull
  resolver := {
    base := options.base
    documentUri := options.documentUri
    imports := mappings
    hashLength := options.hashLength
    hashAlgorithm :=
      if options.hashAlgorithm = "" then Digest.Algorithm.defaultName else options.hashAlgorithm }

def convert (scope : Scope) (inputFile : String) (schema : Document) : Conversion (List Block) := do
  let definitions ← collect scope (Name.ofFilePath inputFile) schema
  blocksOf definitions

def generate (options : Options) (schema : Document) : Outcome :=
  match ImportMapping.parseAll options.imports with
  | .error cause => ⟨[], .error (.mapping cause)⟩
  | .ok mappings =>
    let conversion := convert (options.scope mappings) options.inputFile schema
    let context := (Context.fresh options.inputFile).absorb conversion.events
    ⟨conversion.events, match conversion.result with
      | .error cause => .error (.fault cause)
      | .ok blocks => match context.tracker.refusal? options.strict with
        | some cause => .error (.refused cause)
        | none => .ok (ofBlocks schema context blocks)⟩

def Outcome.diagnostics (outcome : Outcome) (inputFile : String) : String :=
  ((Context.fresh inputFile).absorb outcome.events).tracker.written

end Module

end SchemaCodec

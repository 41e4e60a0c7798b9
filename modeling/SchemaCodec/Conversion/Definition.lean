import SchemaCodec.Codec.Declaration
import SchemaCodec.Conversion.Compile

namespace SchemaCodec

/-! Definitions: declarations with what their schemas say about them beside the type. -/

structure InvalidExample where
  encoded : String
  description : String
  deriving DecidableEq, Repr

structure Metadata where
  title : Option String := none
  description : Option String := none
  examples : List Document := []
  invalid : List InvalidExample := []
  default : Option Document := none
  minimum : Option Document := none
  maximum : Option Document := none

namespace Metadata

def fail (location : Location) (name : String) : Except Fault α :=
  .error (.located ⟨location, .metadata name⟩)

def textAt? (location : Location) (schema : Document) (key : String) :
    Except Fault (Option String) :=
  match schema.get? key with
  | none => .ok none
  | some (.string text) => .ok (some text)
  | some _ => fail (location.down [key]) key

def examplesOf (location : Location) (schema : Document) : Except Fault (List Document) :=
  match schema.get? "examples" with
  | none => .ok []
  | some (.array items) => .ok items
  | some _ => fail (location.down ["examples"]) "examples"

def invalidExample (location : Location) : String × Document → Except Fault InvalidExample
  | (encoded, .string description) => .ok ⟨encoded, description⟩
  | (encoded, _) => fail (location.down ["invalid", encoded]) "invalid example description"

def invalidOf (location : Location) (schema : Document) : Except Fault (List InvalidExample) :=
  match schema.get? "invalid" with
  | none => .ok []
  | some (.object members) => members.mapM (invalidExample location)
  | some _ => fail (location.down ["invalid"]) "invalid examples"

/-- Booleans and references say nothing. -/
def ofSchema (location : Location) (schema : Document) : Except Fault Metadata := do
  if !schema.isObject || schema.has "$ref" then return {}
  let title ← textAt? location schema "title"
  let description ← textAt? location schema "description"
  let examples ← examplesOf location schema
  let invalid ← invalidOf location schema
  return ⟨title, description, examples, invalid, schema.get? "default", schema.get? "minimum",
    schema.get? "maximum"⟩

end Metadata

structure Definition where
  declaration : Declaration
  metadata : Metadata

namespace Definition

def name (definition : Definition) : String :=
  definition.declaration.name

def describe (definition : Definition) (title description : String) : Definition where
  declaration := definition.declaration
  metadata := { definition.metadata with title := some title, description := some description }

end Definition

namespace Conversion

/-- The codec of a top-level definition. Booleans and references have no constraints. -/
def definitionCodec (scope : Scope) (location : Location) (name : String) (schema : Document) :
    Conversion Codec := do
  match schema with
  | .bool accepts =>
    let inner ← compile scope true location schema
    return .brand inner (.constant accepts) name
  | _ => match ← referenceAt location schema with
    | some text =>
      let inner ← fromReference scope location schema text
      return .brand inner (.constant true) name
    | none =>
      let inner ← compile scope true location schema
      brand name inner schema

def define (scope : Scope) (location : Location) (name : String) (schema : Document) :
    Conversion Definition := do
  let metadata ← ofExcept (Metadata.ofSchema location schema)
  let codec ← definitionCodec scope location name schema
  record (.defined name false)
  return ⟨.plain name codec, metadata⟩

/-- The root's own title and description stand at the head of the module. -/
def rootDescription : String :=
  "The default export. More information at the top."

def rootCodec (scope : Scope) (schema : Document) : Conversion Codec := do
  match ← referenceAt .root schema with
  | some _ => errorCodec "schema root can not be a $ref object" none
  | none => compile scope true .root schema

def defineRoot (scope : Scope) (name : String) (schema : Document) : Conversion Definition := do
  let metadata ← ofExcept (Metadata.ofSchema .root schema)
  let inner ← rootCodec scope schema
  let codec ← brand name inner schema
  record (.defined name true)
  return Definition.describe ⟨.plain name codec, metadata⟩ name rootDescription

end Conversion

end SchemaCodec

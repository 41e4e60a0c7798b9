import SchemaCodec.Conversion.Keyword
import SchemaCodec.Conversion.Target

namespace SchemaCodec.Conversion

/-! Shapes: the codecs that each group of keywords contributes to a schema. Schemas inside of a
schema are converted by a function that is given. -/

abbrev Converter := Location → Document → Conversion Codec

/-- The union of what there is. -/
def unite : List Codec → List Codec
  | [] => []
  | [codec] => [codec]
  | codecs => [.union codecs]

def intersect : List Codec → List Codec
  | [] => []
  | [codec] => [codec]
  | codecs => [.intersection codecs]

def helperCodec (helper : Helper) : Conversion Codec := do
  require (.helper helper)
  return .custom helper.name helper.name []

def nullCodec (scope : Scope) : Conversion Codec :=
  if scope.maskNull then helperCodec .null else .pure .null

/-! Types -/

/-- Whether the keywords about properties contribute a codec. On its own, a ban on further
properties does not. -/
def hasObjectShape (schema : Document) : Bool :=
  schema.has "properties" || schema.has "patternProperties" || schema.has "propertyNames" ||
    (schema.get? "additionalProperties").any (!·.isFalse)

def hasArrayShape (schema : Document) : Bool :=
  (schema.get? "items").any (!·.isTrue)

/-- What one of the types contributes. Arrays and objects leave it to the keywords about their
parts. -/
def fromTypeName (scope : Scope) (schema type : Document) (name : String) :
    Conversion (List Codec) :=
  match name with
  | "string" => .pure [.string]
  | "number" => .pure [.number]
  | "integer" => .pure [.number]
  | "boolean" => .pure [.boolean]
  | "null" => do return [← nullCodec scope]
  | "array" => .pure (if hasArrayShape schema then [] else [.unknownArray])
  | "object" => .pure (if hasObjectShape schema then [] else [.unknownRecord])
  | _ => do
    warn (unsupportedText type.encode "type")
    return [.unknown]

def fromType (scope : Scope) (schema : Document) : Conversion (List Codec) :=
  match schema.get? "type" with
  | none => .pure []
  | some type => do
    let names := match type with
      | .array items => items
      | single => [single]
    let codecs ← each (fun name => fromTypeName scope schema type (name.string?.getD "")) names
    return unite codecs.flatten

/-! Objects -/

/-- The value of a keyword that only stands beside a type. -/
def valueUnder (type keyword : String) (problem : Fault.Problem) (location : Location)
    (schema : Document) : Conversion (Option Document) :=
  match schema.get? keyword with
  | none => .pure none
  | some value =>
    if schema.stringAt? "type" = some type then .pure (some value)
    else fail (location.down [keyword]) problem

def objectKeyword (keyword : String) (location : Location) (schema : Document) :
    Conversion (Option Document) :=
  valueUnder "object" keyword (.outsideObject keyword) location schema

def schemaMap (keyword : String) (location : Location) (schema : Document) :
    Conversion (Option (List (String × Document))) := do
  match ← objectKeyword keyword location schema with
  | none => return none
  | some (.object members) => return some members
  | some _ => fail (location.down [keyword]) (.notObject keyword)

def convertMap (convert : Converter) (keyword : String) (location : Location)
    (members : List (String × Document)) : Conversion (List (String × Codec)) :=
  each (fun member => do
    let codec ← convert (location.down [keyword, member.1]) member.2
    return (member.1, codec)) members

def fromProperties (convert : Converter) (location : Location) (schema : Document) :
    Conversion (List Codec) := do
  match ← schemaMap "properties" location schema with
  | none => return []
  | some members =>
    let codecs ← convertMap convert "properties" location members
    let shape := Codec.object .partialOf (codecs.map fun (key, codec) => .plain key codec)
    return [if schema.falseAt "additionalProperties" then .exact shape else shape]

def fromPropertyNames (convert : Converter) (location : Location) (schema : Document) :
    Conversion (List Codec) := do
  match ← objectKeyword "propertyNames" location schema with
  | none => return []
  | some names =>
    let domain ← convert (location.down ["propertyNames"]) names
    return [.record domain .unknown]

/-- Patterns are not told apart: any value may be of a property's type or of a pattern's. -/
def fromPatternProperties (convert : Converter) (location : Location) (schema : Document) :
    Conversion (List Codec) := do
  match ← schemaMap "patternProperties" location schema with
  | none => return []
  | some patterns =>
    warn "patternProperty support has limitations"
    let named ← convertMap convert "properties" location
      ((schema.get? "properties").getD .null).members
    let matched ← convertMap convert "patternProperties" location patterns
    return (unite ((named ++ matched).map Prod.snd)).map (.record .string)

/-- A ban on further properties contributes nothing: a record would ban the others as well. -/
def fromAdditionalProperties (convert : Converter) (location : Location) (schema : Document) :
    Conversion (List Codec) := do
  match ← objectKeyword "additionalProperties" location schema with
  | none => return []
  | some (.bool false) => return []
  | some value =>
    let codec ← convert (location.down ["additionalProperties"]) value
    return [.record .string codec]

def requiredProperty (location : Location) (item : Document × Nat) :
    Conversion (Codec.Property Codec) :=
  match item with
  | (.string key, _) => do return .plain key (← helperCodec .defined)
  | (_, index) => fail (location.down ["required", toString index]) .notKeys

def fromRequired (location : Location) (schema : Document) : Conversion (List Codec) :=
  match schema.get? "required" with
  | none => .pure []
  | some (.array keys) => do
    let properties ← each (requiredProperty location) keys.zipIdx
    return [.object .interface properties]
  | some _ => fail (location.down ["required"]) .notKeys

def fromObject (convert : Converter) (location : Location) (schema : Document) :
    Conversion (List Codec) := do
  let properties ← fromProperties convert location schema
  let names ← fromPropertyNames convert location schema
  let patterns ← fromPatternProperties convert location schema
  let others ← fromAdditionalProperties convert location schema
  let required ← fromRequired location schema
  return intersect (properties ++ names ++ patterns ++ others) ++ required

/-! Arrays -/

def convertList (convert : Converter) (keyword : String) (location : Location)
    (schemas : List Document) : Conversion (List Codec) :=
  each (fun (item : Document × Nat) =>
    convert (location.down [keyword, toString item.2]) item.1) schemas.zipIdx

/-- Items of one schema make an array, items of a list of schemas a tuple that must be closed. -/
def fromItems (convert : Converter) (location : Location) (schema : Document) :
    Conversion (List Codec) := do
  match ← valueUnder "array" "items" (.outsideArray "items") location schema with
  | none => return []
  | some (.bool true) => return []
  | some (.bool false) => return [.tuple []]
  | some (.array schemas) =>
    if schema.falseAt "additionalItems" then
      return [.tuple (← convertList convert "items" location schemas)]
    else fail (location.down ["items"]) .openTuple
  | some item => return [.array (← convert (location.down ["items"]) item)]

def fromArray (convert : Converter) (location : Location) (schema : Document) :
    Conversion (List Codec) := do
  let codecs ← fromItems convert location schema
  if schema.has "contains" then warn "contains field not supported"
  return codecs

/-! Values -/

def literal? : Document → Option Codec.Literal
  | .string text => some (.string text)
  | .number text => some (.number text)
  | .bool value => some (.bool value)
  | _ => none

def runtimeType : Document → String
  | .string _ => "string"
  | .number _ => "number"
  | .bool _ => "boolean"
  | _ => "object"

def enumMember (scope : Scope) (location : Location) (item : Document × Nat) :
    Conversion Codec :=
  match item with
  | (.null, _) => nullCodec scope
  | (value, index) => match literal? value with
    | some literal => .pure (.literal literal)
    | none =>
      fail (location.down ["enum", toString index]) (.notLiteral "ENUM" (runtimeType value))

def fromEnum (scope : Scope) (location : Location) (schema : Document) :
    Conversion (List Codec) :=
  match schema.get? "enum" with
  | none => .pure []
  | some (.array values) => do return unite (← each (enumMember scope location) values.zipIdx)
  | some _ => fail (location.down ["enum"]) .enumNotArray

def fromConst (location : Location) (schema : Document) : Conversion (List Codec) :=
  match schema.get? "const" with
  | none => .pure []
  | some value => match literal? value with
    | some literal => .pure [.literal literal]
    | none => fail (location.down ["const"]) (.notLiteral "CONST" (runtimeType value))

/-! Combinations -/

def fromAll (convert : Converter) (keyword : String) (location : Location) (schema : Document) :
    Conversion (List Codec) :=
  match schema.get? keyword with
  | none => .pure []
  | some (.array schemas) => convertList convert keyword location schemas
  | some _ => fail (location.down [keyword]) (.notArray keyword)

/-- What all keywords contribute. That exactly one of the schemas of `oneOf` fits is not
enforced. -/
def contributions (scope : Scope) (convert : Converter) (location : Location)
    (schema : Document) : Conversion (List Codec) := do
  let types ← fromType scope schema
  let object ← fromObject convert location schema
  let array ← fromArray convert location schema
  let enum ← fromEnum scope location schema
  let const ← fromConst location schema
  let allOf ← fromAll convert "allOf" location schema
  let anyOf ← fromAll convert "anyOf" location schema
  let oneOf ← fromAll convert "oneOf" location schema
  return types ++ object ++ array ++ enum ++ const ++ intersect allOf ++ unite anyOf ++ unite oneOf

end SchemaCodec.Conversion

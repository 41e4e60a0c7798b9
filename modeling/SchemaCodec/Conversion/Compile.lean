import SchemaCodec.Conversion.Shape

namespace SchemaCodec

/-! From schemas to codecs. -/

namespace Document

mutual
def depth : Document → Nat
  | .array items => depthOfItems items + 1
  | .object members => depthOfMembers members + 1
  | _ => 0

def depthOfItems : List Document → Nat
  | [] => 0
  | item :: rest => max item.depth (depthOfItems rest)

def depthOfMembers : List (String × Document) → Nat
  | [] => 0
  | (_, value) :: rest => max value.depth (depthOfMembers rest)
end

end Document

namespace Conversion

/-- Put together what the keywords contribute. A schema to which none contributes accepts any value
if it consists of constraints or annotations. -/
def compose (location : Location) (schema : Document) : List Codec → Conversion Codec
  | [] =>
    if Constraint.isConstrained schema || isAnnotation schema then .pure .unknown
    else fail location (.withoutMeaning schema)
  | [codec] => .pure codec
  | codecs => .pure (.intersection codecs)

/-- The codec of a schema, where the schemas inside it are converted as given. -/
def compileBy (convert : Converter) (scope : Scope) (isTop : Bool) (location : Location)
    (schema : Document) : Conversion Codec :=
  match schema with
  | .bool accepts => do
    require .codecs
    return if accepts then .unknown else .never
  | .object _ => do
    reportKeywords isTop schema
    match ← referenceAt location schema with
    | some text => fromReference scope location schema text
    | none =>
      require .codecs
      compose location schema (← contributions scope convert location schema)
  | _ => fail location (.notSchema schema.kind)

/-- The codec of a schema that is nested less than the given number of times. -/
def compileWithin (scope : Scope) : Nat → Bool → Location → Document → Conversion Codec
  | 0, _, location, schema => fail location (.withoutMeaning schema)
  | depth + 1, isTop, location, schema =>
    compileBy (compileWithin scope depth false) scope isTop location schema

/-- The codec of a schema. The schema of a top-level definition may have constraints. -/
def compile (scope : Scope) (isTop : Bool) (location : Location) (schema : Document) :
    Conversion Codec :=
  compileWithin scope (schema.depth + 1) isTop location schema

def condition (schema : Document) : Conversion Condition :=
  match Constraint.synthesize schema with
  | .ok condition => do
    warnAll (Constraint.warnings schema)
    return condition
  | .error cause => stop (.regexp cause)

def brand (name : String) (codec : Codec) (schema : Document) : Conversion Codec := do
  return .brand codec (← condition schema) name

end Conversion

end SchemaCodec

import SchemaCodec.Codec.Basic
import SchemaCodec.Conversion.Basic
import SchemaCodec.Reference.Basic

namespace SchemaCodec.Conversion

/-! Targets of references: definitions of the same module or of modules that are imported. -/

/-- Stands for a schema that was reported as an error; the generated module throws. -/
def placeholder : Codec :=
  let source := "throw new Error('schema conversion failed')"
  .custom source source []

/-- Report an error and go on with the placeholder. -/
def errorCodec (message : String) (cause : Option String) : Conversion Codec := do
  report (.error message cause)
  return placeholder

/-- The text of a reference; `none` if the schema is none. -/
def referenceAt (location : Location) (schema : Document) : Conversion (Option String) :=
  match schema.get? "$ref" with
  | none => .pure none
  | some (.string text) => .pure (some text)
  | some _ => fail (location.down ["$ref"]) .referenceNotString

/-- Whether a reference object has a member with a meaning of its own. -/
def hasCompany (schema : Document) : Bool :=
  schema.keys.any fun key => key != "$ref" && key != "$comment"

def fromReference (scope : Scope) (location : Location) (schema : Document) (text : String) :
    Conversion Codec := do
  if hasCompany schema then warn "unexpected key in a $ref object"
  match Reference.parse text with
  | .error e => errorCodec "Failed to parse reference" (some e.message)
  | .ok target =>
    if target.isLocal then return .custom target.name target.name [target.name]
    match scope.resolver.importName target.file text with
    | .error cause => fail (location.down ["$ref"]) (.importName cause)
    | .ok name =>
      require (.module name (scope.resolver.importPath target.file))
      let qualified := name ++ "." ++ target.name
      return .custom qualified qualified [name]

end SchemaCodec.Conversion

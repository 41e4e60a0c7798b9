import SchemaCodec.Conversion.Basic

namespace SchemaCodec.Conversion

/-! Keywords: which of them are taken into account where, and what is reported about the others. -/

def everywhere : List String :=
  ["$id", "$comment", "title", "description", "definitions", "type", "properties", "propertyNames",
   "patternProperties", "required", "additionalProperties", "allOf", "anyOf", "oneOf", "enum",
   "const", "items", "contains", "additionalItems"]

/-- Keywords with a meaning in the schemas of top-level definitions only. -/
def atTop : List String :=
  ["$schema", "minimum", "maximum", "multipleOf", "minLength", "maxLength", "pattern", "regexp",
   "format", "minItems", "maxItems", "uniqueItems", "default", "examples", "invalid", "links"]

/-- Keywords with a meaning below top-level definitions only. -/
def belowTop : List String :=
  ["$ref"]

def annotations : List String :=
  ["$id", "$schema", "$comment", "title", "description", "definitions", "default", "examples",
   "invalid", "links"]

def isAdmissible (isTop : Bool) (keyword : String) : Bool :=
  everywhere.contains keyword || (if isTop then atTop else belowTop).contains keyword

/-- A schema of annotations alone. -/
def isAnnotation (schema : Document) : Bool :=
  schema.keys.all annotations.contains

/-- The warning about a keyword, or a value of one, without a meaning where it stands. -/
def unsupportedText (item kind : String) : String :=
  item ++ " " ++ kind ++ " not supported" ++
    (if atTop.contains item then " outside top-level definitions" else "")

def unsupportedKeywords (isTop : Bool) (schema : Document) : List String :=
  (schema.keys.filter fun key => !isAdmissible isTop key).map (unsupportedText · "field")

/-- Types that are better named in a definition of their own. -/
def isPlainType (type : String) : Bool :=
  type == "string" || type == "number" || type == "integer"

def reportKeywords (isTop : Bool) (schema : Document) : Conversion Unit := do
  match schema.stringAt? "type" with
  | some type =>
    if !isTop && isPlainType type then
      info ("primitive type \"" ++ type ++ "\" used outside top-level definitions")
  | none => .pure ()
  warnAll (unsupportedKeywords isTop schema)

end SchemaCodec.Conversion

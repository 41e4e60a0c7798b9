import SchemaCodec.Codec.Layout
import SchemaCodec.Codec.SourceText

namespace SchemaCodec.Codec

open SchemaCodec

/-! The three ways to write a codec: as the static type of its values, as the type of the codec
itself, and as the codec. -/

inductive Dialect where
  | static
  | decoder
  | runtime
  deriving DecidableEq, Repr

namespace Dialect

def primitive : Dialect → Primitive → String
  | .static, .string => "string"
  | .static, .number => "number"
  | .static, .boolean => "boolean"
  | .static, .null => "null"
  | .static, .unknown => "unknown"
  | .static, .never => "never"
  | .static, .unknownArray => "Array<unknown>"
  | .static, .unknownRecord => "Record<string, unknown>"
  | .decoder, .string => "t.StringC"
  | .decoder, .number => "t.NumberC"
  | .decoder, .boolean => "t.BooleanC"
  | .decoder, .null => "t.NullC"
  | .decoder, .unknown => "t.UnknownC"
  | .decoder, .never => "t.NeverC"
  | .decoder, .unknownArray => "t.UnknownArrayC"
  | .decoder, .unknownRecord => "t.UnknownRecordC"
  | .runtime, .string => "t.string"
  | .runtime, .number => "t.number"
  | .runtime, .boolean => "t.boolean"
  | .runtime, .null => "t.null"
  | .runtime, .unknown => "t.unknown"
  | .runtime, .never => "t.never"
  | .runtime, .unknownArray => "t.UnknownArray"
  | .runtime, .unknownRecord => "t.UnknownRecord"

def literal : Dialect → Literal → String
  | .static, value => value.text
  | .decoder, value => "t.LiteralC<" ++ value.text ++ ">"
  | .runtime, value => "t.literal(" ++ value.text ++ ")"

def object : Dialect → Shape → String × String
  | .static, _ => ("\x7b", "\x7d")
  | .decoder, .interface => ("t.TypeC<\x7b", "\x7d>")
  | .decoder, .partialOf => ("t.PartialC<\x7b", "\x7d>")
  | .decoder, .strict => ("t.ExactC<t.TypeC<\x7b", "\x7d>>")
  | .runtime, .interface => ("t.type(\x7b", "\x7d)")
  | .runtime, .partialOf => ("t.partial(\x7b", "\x7d)")
  | .runtime, .strict => ("t.strict(\x7b", "\x7d)")

def wrapper : Dialect → Wrapper → String × String
  | .static, .exact => ("", "")
  | .static, .readonly => ("Readonly<", ">")
  | .static, .array => ("Array<", ">")
  | .static, .readonlyArray => ("ReadonlyArray<", ">")
  | .decoder, .exact => ("t.ExactC<", ">")
  | .decoder, .readonly => ("t.ReadonlyC<", ">")
  | .decoder, .array => ("t.ArrayC<", ">")
  | .decoder, .readonlyArray => ("t.ReadonlyArrayC<", ">")
  | .runtime, .exact => ("t.exact(", ")")
  | .runtime, .readonly => ("t.readonly(", ")")
  | .runtime, .array => ("t.array(", ")")
  | .runtime, .readonlyArray => ("t.readonlyArray(", ")")

/-- How the members of a group are set: the text before them, in front of each, between two of
them, and behind them. -/
structure Listing where
  opening : String
  lead : String
  separator : String
  closing : String

def group : Dialect → Group → Listing
  | .static, .tuple => ⟨"[", "", ",", "]"⟩
  | .static, .union => ⟨"(", "| ", "", ")"⟩
  | .static, .taggedUnion _ => ⟨"(", "| ", "", ")"⟩
  | .static, .intersection => ⟨"(", "& ", "", ")"⟩
  | .decoder, .tuple => ⟨"t.TupleC<[", "", ",", "]>"⟩
  | .decoder, .union => ⟨"t.UnionC<[", "", ",", "]>"⟩
  | .decoder, .taggedUnion _ => ⟨"t.UnionC<[", "", ",", "]>"⟩
  | .decoder, .intersection => ⟨"t.IntersectionC<[", "", ",", "]>"⟩
  | .runtime, .tuple => ⟨"t.tuple([", "", ",", "])"⟩
  | .runtime, .union => ⟨"t.union([", "", ",", "])"⟩
  | .runtime, .taggedUnion _ => ⟨"t.union([", "", ",", "])"⟩
  | .runtime, .intersection => ⟨"t.intersection([", "", ",", "])"⟩

def record : Dialect → String × String
  | .static => ("Record<", ">")
  | .decoder => ("t.RecordC<", ">")
  | .runtime => ("t.record(", ")")

def keyof : Dialect → Listing
  | .static => ⟨"(", "", "", ")"⟩
  | .decoder => ⟨"t.KeyofC<\x7b", "", ",", "\x7d>"⟩
  | .runtime => ⟨"t.keyof(\x7b", "", ",", "\x7d)"⟩

def key : Dialect → String → String
  | .static, key => "| " ++ stringText key
  | .decoder, key => propertyName key ++ ": unknown"
  | .runtime, key => propertyName key ++ ": null"

def identifier : Dialect → String → String
  | .static, name => name
  | .decoder, name => name ++ "C"
  | .runtime, name => name

def custom (static runtime : String) : Dialect → String
  | .static => static
  | .decoder => "typeof " ++ runtime
  | .runtime => runtime

/-- Only the static type marks a property that may be left out. -/
def mark : Dialect → Shape → (optional : Bool) → String
  | .static, .partialOf, _ => "?"
  | .static, _, true => "?"
  | _, _, _ => ""

end Dialect

def brandName (name : String) : String :=
  name ++ "Brand"

mutual

def layout (dialect : Dialect) : Codec → Layout
  | .hole => .leaf ""
  | .primitive p => .leaf (dialect.primitive p)
  | .literal value => .leaf (dialect.literal value)
  | .object shape properties =>
    let (opening, closing) := dialect.object shape
    .block opening (propertyElements dialect shape properties) "," closing
  | .wrapper w inner =>
    let (opening, closing) := dialect.wrapper w
    .wrap opening (layout dialect inner) closing
  | .group g members =>
    let listing := dialect.group g
    .block listing.opening (memberElements dialect listing.lead members) listing.separator
      listing.closing
  | .record domain codomain =>
    let (opening, closing) := dialect.record
    .pair opening (layout dialect domain) ", " (layout dialect codomain) closing
  | .keyof keys =>
    let listing := dialect.keyof
    .block listing.opening (keys.map fun key => ⟨"", "", .leaf (dialect.key key)⟩)
      listing.separator listing.closing
  | .identifier name => .leaf (dialect.identifier name)
  | .custom static runtime _ => .leaf (dialect.custom static runtime)
  | .brand inner condition name =>
    match dialect with
    | .static => .wrap "t.Branded<" (layout .static inner) (", " ++ brandName name ++ ">")
    | .decoder => .wrap "t.BrandC<" (layout .decoder inner) (", " ++ brandName name ++ ">")
    | .runtime =>
      let guard := .wrap "(x): x is t.Branded<" (layout .static inner)
        (", " ++ brandName name ++ "> => " ++ condition.applyTo "x")
      .block "t.brand("
        [⟨"", "", layout .runtime inner⟩, ⟨"", "", guard⟩, ⟨"", "", .leaf (stringText name)⟩]
        "," ")"

def propertyElements (dialect : Dialect) (shape : Shape) :
    List (Property Codec) → List (Element Layout)
  | [] => []
  | ⟨key, type, optional, description⟩ :: rest =>
    ⟨description, propertyName key ++ dialect.mark shape optional ++ ": ", layout dialect type⟩ ::
      propertyElements dialect shape rest

def memberElements (dialect : Dialect) (lead : String) : List Codec → List (Element Layout)
  | [] => []
  | member :: rest => ⟨"", lead, layout dialect member⟩ :: memberElements dialect lead rest

end

def print (dialect : Dialect) (codec : Codec) : String :=
  (codec.layout dialect).text

end SchemaCodec.Codec

import SchemaCodec.Codec.Dependencies
import SchemaCodec.Codec.Dialect

namespace SchemaCodec

/-! Declarations: named codecs at the top level of a module. -/

structure Declaration where
  name : String
  type : Codec
  exported : Bool
  isReadonly : Bool
  description : String

namespace Declaration

open Codec

def plain (name : String) (type : Codec) : Declaration :=
  ⟨name, type, true, false, ""⟩

def keyword (d : Declaration) : String :=
  if d.exported then "export " else ""

def comment (d : Declaration) : String :=
  String.ofList (Layout.comment d.description 0)

def body (d : Declaration) (dialect : Dialect) : String :=
  let text := d.type.print dialect
  if d.isReadonly then
    let (opening, closing) := dialect.wrapper .readonly
    opening ++ text ++ closing
  else text

def staticText (d : Declaration) : String :=
  d.comment ++ d.keyword ++ "type " ++ d.name ++ " = " ++ d.body .static

/-- The type of the codec. A custom codec has none that could be written. -/
def decoderText (d : Declaration) : String :=
  if d.type.isCustom then "// exists type " ++ d.name ++ "C extends t.AnyC"
  else d.comment ++ d.keyword ++ "type " ++ d.name ++ "C = " ++ d.body .decoder

def brandText (d : Declaration) (name : String) : String :=
  d.keyword ++ "interface " ++ brandName name ++ " \x7b\n" ++
    "  readonly " ++ name ++ ": unique symbol\n" ++ "\x7d\n"

def runtimeText (d : Declaration) : String :=
  let type := if d.type.isCustom then "" else ": " ++ d.name ++ "C"
  String.join (d.type.brands.map d.brandText) ++
    d.keyword ++ "const " ++ d.name ++ type ++ " = " ++ d.body .runtime

def codecText (d : Declaration) : String :=
  d.decoderText ++ "\n" ++ d.runtimeText

end Declaration

end SchemaCodec

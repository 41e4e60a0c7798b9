import SchemaCodec.Issue
import SchemaCodec.Module.Block

namespace SchemaCodec

/-! Modules: the files that are generated. -/

structure Module where
  title : String
  description : String
  schemaId : String
  imports : List String
  helpers : List String
  blocks : List Block
  exports : List String
  issues : List Issue

namespace Module

def headLines (m : Module) : List String :=
  ["/*", "", m.title, m.description, "",
   "!!! AUTO GENERATED BY SCHEMATS REFRAIN FROM MANUAL EDITING !!!",
   "See https://github.com/reoring/schemats", "", "*/", ""]

/-- The entries of the module. An entry may go over several lines. -/
def lines (m : Module) : List String :=
  m.headLines ++ m.imports ++ [""] ++ m.helpers ++ [""] ++
    ["export const schemaId = '" ++ m.schemaId ++ "';", ""] ++
    m.blocks.flatMap Block.lines ++ m.exports ++ ["", "// Success"]

def text (m : Module) : String :=
  String.join (m.lines.map (· ++ "\n"))

def names (m : Module) : List String :=
  m.blocks.map Block.name

end Module

end SchemaCodec

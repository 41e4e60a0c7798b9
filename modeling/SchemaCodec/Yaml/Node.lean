import SchemaCodec.Document.ReadError
import SchemaCodec.Yaml.Cursor

namespace SchemaCodec.Yaml

/-! Nodes: the trees that documents are made of. -/

inductive Node where
  /-- A scalar with its tag, if it has one. -/
  | scalar (position : Document.Position) (tag : Option String) (isPlain : Bool) (text : String)
  | sequence (position : Document.Position) (items : List Node)
  | mapping (position : Document.Position) (pairs : List (Node × Node))
  /-- Another name of a node further up. -/
  | alias (position : Document.Position) (name : String) (target : Node)
  /-- Another name of a node that this one is inside of. -/
  | circular (position : Document.Position) (name : String)
  deriving Repr

namespace Node

def position : Node → Document.Position
  | .scalar position .. => position
  | .sequence position _ => position
  | .mapping position _ => position
  | .alias position .. => position
  | .circular position _ => position

/-- The text of a scalar and the name of an alias; nothing for other nodes. -/
def text : Node → String
  | .scalar _ _ _ text => text
  | .alias _ name _ => name
  | .circular _ name => name
  | _ => ""

end Node

def Mark.position (mark : Mark) : Document.Position :=
  ⟨mark.line + 1, mark.column + 1⟩

end SchemaCodec.Yaml

import SchemaCodec.Decimal.Shortest
import SchemaCodec.Document.Draft
import SchemaCodec.Yaml.Resolution
import SchemaCodec.Yaml.Tree

namespace SchemaCodec.Yaml

open Document (Draft Table)

/-! From nodes to documents. -/

inductive ScalarKind where
  | null
  | bool
  | integer
  | float
  | text
  deriving DecidableEq, Repr

def Resolved.kind : Resolved → ScalarKind
  | .null => .null
  | .bool _ => .bool
  | .integer _ => .integer
  | .float _ => .float
  | .text => .text

/-- The kind that a tag tells, or else the text of a plain scalar. -/
def scalarKind (tag : Option String) (isPlain : Bool) (text : String) : ScalarKind :=
  match givenTag? tag with
  | some "!!null" => .null
  | some "!!bool" => .bool
  | some "!!int" => .integer
  | some "!!float" => .float
  | some _ => .text
  | none => if isPlain then (resolve text).kind else .text

/-- The value of a scalar. Integers that are out of range stay as they are written. -/
def scalarValue (position : Document.Position) (tag : Option String) (isPlain : Bool)
    (text : String) : Except Document.ReadError Document :=
  let chars := text.toList
  match scalarKind tag isPlain text with
  | .null => .ok .null
  | .bool => match boolOf? text with
    | some value => .ok (.bool value)
    | none => .error .malformed
  | .integer => match Decimal.Numeral.integer? chars with
    | some n => .ok (.number (toString n))
    | none =>
      if (Decimal.Numeral.binary64? chars).isSome then .ok (.number text)
      else .error (.invalidInteger text position)
  | .float => match Decimal.Numeral.binary64? chars with
    | some value => .ok (.number (value.text Decimal.compact))
    | none => .error (.invalidFloat text position)
  | .text => .ok (.string text)

namespace Node

mutual

def toDraft : Node → Except Document.ReadError Draft
  | .scalar position tag isPlain text => do
    return .whole (← scalarValue position tag isPlain text)
  | .sequence _ items => do return .list (← itemsOf items)
  | .mapping _ pairs => do return .object (← tableOf [] .empty pairs)
  | .alias _ _ target => target.toDraft
  | .circular .. => .error .endless

def itemsOf : List Node → Except Document.ReadError (List Draft)
  | [] => .ok []
  | item :: rest => do
    let first ← item.toDraft
    return first :: (← itemsOf rest)

/-- The pairs of a mapping behind the known ones, whose keys began at the given positions. No key
may occur twice. -/
def tableOf (begun : List (String × Document.Position)) (known : Table Draft) :
    List (Node × Node) → Except Document.ReadError (Table Draft)
  | [] => .ok known
  | (key, value) :: rest =>
    match begun.lookup key.text with
    | some first => .error (.repeatedKey key.text first key.position)
    | none => do
      let draft ← value.toDraft
      tableOf ((key.text, key.position) :: begun) (known.push key.text draft) rest

end

def toDocument (node : Node) : Except Document.ReadError Document :=
  node.toDraft.map Draft.document

end Node

def read (bytes : List UInt8) : Except Document.ReadError Draft :=
  match Node.ofBytes bytes with
  | none => .error .malformed
  | some none => .error .unexpectedEnd
  | some (some root) => root.toDraft

def parse (bytes : List UInt8) : Except Document.ReadError Document :=
  (read bytes).map Draft.document

end SchemaCodec.Yaml

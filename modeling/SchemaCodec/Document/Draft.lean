import SchemaCodec.Document.Basic
import SchemaCodec.Document.Table

namespace SchemaCodec.Document

/-! Drafts: documents as they are made and held. An object is a table of its members, and there may
be gaps where a value is missing. A gap reads as null. -/

inductive Draft where
  | gap
  | null
  | bool (value : Bool)
  | number (text : String)
  | string (text : String)
  | list (items : List Draft)
  | object (table : Table Draft)

namespace Draft

mutual

/-- The document a draft stands for. -/
def document : Draft → Document
  | .gap => .null
  | .null => .null
  | .bool value => .bool value
  | .number text => .number text
  | .string text => .string text
  | .list items => .array (documentItems items)
  | .object ⟨members, _⟩ => .object (documentMembers members)

def documentItems : List Draft → List Document
  | [] => []
  | item :: rest => item.document :: documentItems rest

def documentMembers : List (String × Draft) → List (String × Document)
  | [] => []
  | (key, value) :: rest => (key, value.document) :: documentMembers rest

end

mutual

def whole : Document → Draft
  | .null => .null
  | .bool value => .bool value
  | .number text => .number text
  | .string text => .string text
  | .array items => .list (wholeItems items)
  | .object members => .object (wholeMembers .empty members)

def wholeItems : List Document → List Draft
  | [] => []
  | item :: rest => whole item :: wholeItems rest

def wholeMembers (known : Table Draft) : List (String × Document) → Table Draft
  | [] => known
  | (key, value) :: rest => wholeMembers (known.push key (whole value)) rest

end

def ofPart : Option Document → Draft
  | some document => whole document
  | none => .gap

def isGap : Draft → Bool
  | .gap => true
  | _ => false

def items : Draft → List Draft
  | .list items => items
  | _ => []

def members : Draft → List (String × Draft)
  | .object table => table.members
  | _ => []

def keys (draft : Draft) : List String :=
  draft.members.map Prod.fst

def array (items : List (Option Document)) : Draft :=
  .list (items.map ofPart)

def ofParts (members : List (String × Draft)) : Draft :=
  .object (.ofMembers members)

/-- An object with gaps; each key keeps its last part. -/
def ofMembers (members : List (String × Option Document)) : Draft :=
  ofParts (members.map fun (key, part) => (key, ofPart part))

def get? (draft : Draft) (key : String) : Option Draft :=
  match draft with
  | .object table => table.get? key
  | _ => none

def item? (draft : Draft) (index : Nat) : Option Draft :=
  draft.items[index]?

def without (draft : Draft) (keys : List String) : Draft :=
  match draft with
  | .object table => .object (table.without keys)
  | _ => .object .empty

end Draft

end SchemaCodec.Document

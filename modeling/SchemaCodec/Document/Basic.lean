namespace SchemaCodec

/-! Documents: the values a schema file holds. Numbers keep their written form and objects keep
their members in the order of the file. -/

inductive Document where
  | null
  | bool (value : Bool)
  | number (text : String)
  | string (text : String)
  | array (items : List Document)
  | object (members : List (String × Document))
  deriving Inhabited, Repr, BEq

namespace Document

inductive Kind where
  | null
  | boolean
  | number
  | string
  | array
  | object
  deriving DecidableEq, Repr

namespace Kind

def name : Kind → String
  | .null => "null"
  | .boolean => "boolean"
  | .number => "number"
  | .string => "string"
  | .array => "array"
  | .object => "object"

def all : List Kind :=
  [.null, .boolean, .number, .string, .array, .object]

/-- The name of the kind at a position of `all`; there is none behind the last. -/
def nameAt (position : Int) : String :=
  if position < 0 then "unknown"
  else match all[position.toNat]? with
    | some kind => kind.name
    | none => "unknown"

end Kind

def kind : Document → Kind
  | .null => .null
  | .bool _ => .boolean
  | .number _ => .number
  | .string _ => .string
  | .array _ => .array
  | .object _ => .object

def isTrue : Document → Bool
  | .bool value => value
  | _ => false

def isFalse : Document → Bool
  | .bool value => !value
  | _ => false

def isArray (d : Document) : Bool :=
  d.kind == .array

def isObject (d : Document) : Bool :=
  d.kind == .object

def string? : Document → Option String
  | .string text => some text
  | _ => none

def number? : Document → Option String
  | .number text => some text
  | _ => none

/-- The elements of an array; other documents have none. -/
def items : Document → List Document
  | .array items => items
  | _ => []

/-- The members of an object; other documents have none. -/
def members : Document → List (String × Document)
  | .object members => members
  | _ => []

def keys (d : Document) : List String :=
  d.members.map Prod.fst

def size : Document → Nat
  | .array items => items.length
  | .object members => members.length
  | _ => 0

def get? (d : Document) (key : String) : Option Document :=
  d.members.lookup key

def has (d : Document) (key : String) : Bool :=
  (d.get? key).isSome

def stringAt? (d : Document) (key : String) : Option String :=
  d.get? key >>= string?

/-- Whether the member under a key is there and `true`. -/
def trueAt (d : Document) (key : String) : Bool :=
  (d.get? key).any isTrue

/-- Whether the member under a key is there and `false`. -/
def falseAt (d : Document) (key : String) : Bool :=
  (d.get? key).any isFalse

end Document

end SchemaCodec

import SchemaCodec.Codec.Condition
import SchemaCodec.Decimal.Binary64

namespace SchemaCodec

/-! Codecs: the combinator trees that schemas turn into. -/

namespace Codec

inductive Primitive where
  | string
  | number
  | boolean
  | null
  | unknown
  | never
  | unknownArray
  | unknownRecord
  deriving DecidableEq, Repr

inductive Literal where
  | string (text : String)
  /-- A number in its written form. -/
  | number (text : String)
  | bool (value : Bool)
  | integer (value : Int)
  | float (value : Decimal.Binary64)
  | missing
  deriving DecidableEq, Repr

inductive Shape where
  | interface
  | partialOf
  | strict
  deriving DecidableEq, Repr

inductive Wrapper where
  | exact
  | readonly
  | array
  | readonlyArray
  deriving DecidableEq, Repr

/-- Codecs over a list of others. -/
inductive Group where
  | tuple
  | union
  | taggedUnion (tag : String)
  | intersection
  deriving DecidableEq, Repr

structure Property (α : Type) where
  key : String
  type : α
  optional : Bool
  description : String
  deriving DecidableEq, Repr

inductive Kind where
  | primitive (primitive : Primitive)
  | literal
  | object (shape : Shape)
  | wrapper (wrapper : Wrapper)
  | tuple
  | record
  | union
  | taggedUnion
  | intersection
  | keyof
  | identifier
  | custom
  | brand
  deriving DecidableEq, Repr

namespace Kind

def name : Kind → String
  | .primitive .string => "string"
  | .primitive .number => "number"
  | .primitive .boolean => "boolean"
  | .primitive .null => "null"
  | .primitive .unknown => "unknown"
  | .primitive .never => "never"
  | .primitive .unknownArray => "unknown-array"
  | .primitive .unknownRecord => "unknown-record"
  | .literal => "literal"
  | .object .interface => "interface"
  | .object .partialOf => "partial"
  | .object .strict => "strict"
  | .wrapper .exact => "exact"
  | .wrapper .readonly => "readonly"
  | .wrapper .array => "array"
  | .wrapper .readonlyArray => "readonly-array"
  | .tuple => "tuple"
  | .record => "record"
  | .union => "union"
  | .taggedUnion => "tagged-union"
  | .intersection => "intersection"
  | .keyof => "keyof"
  | .identifier => "identifier"
  | .custom => "custom"
  | .brand => "brand"

def all : List Kind :=
  [.primitive .string, .primitive .number, .primitive .boolean, .primitive .null,
   .primitive .unknown, .primitive .never, .primitive .unknownArray, .primitive .unknownRecord,
   .literal, .object .interface, .object .partialOf, .object .strict, .wrapper .exact,
   .wrapper .readonly, .wrapper .array, .wrapper .readonlyArray, .tuple, .record, .union,
   .taggedUnion, .intersection, .keyof, .identifier, .custom, .brand]

def ofName? (text : String) : Option Kind :=
  all.find? fun kind => kind.name == text

def invalidName : String :=
  "invalid"

def nameAt (position : Int) : String :=
  if position < 0 then invalidName
  else match all[position.toNat]? with
    | some kind => kind.name
    | none => invalidName

end Kind

end Codec

/-- A combinator tree. A `hole` is a part that was left out. -/
inductive Codec where
  | hole
  | primitive (primitive : Codec.Primitive)
  | literal (literal : Codec.Literal)
  | object (shape : Codec.Shape) (properties : List (Codec.Property Codec))
  | wrapper (wrapper : Codec.Wrapper) (inner : Codec)
  | group (group : Codec.Group) (members : List Codec)
  | record (domain codomain : Codec)
  | keyof (keys : List String)
  | identifier (name : String)
  /-- Source text for the static type and the codec, and the names that text refers to. -/
  | custom (static runtime : String) (dependencies : List String)
  /-- A refinement of a codec by a condition, under a name of its own. -/
  | brand (inner : Codec) (condition : Condition) (name : String)
  deriving Inhabited

namespace Codec

def string : Codec := .primitive .string
def number : Codec := .primitive .number
def boolean : Codec := .primitive .boolean
def null : Codec := .primitive .null
def unknown : Codec := .primitive .unknown
def never : Codec := .primitive .never
def unknownArray : Codec := .primitive .unknownArray
def unknownRecord : Codec := .primitive .unknownRecord

def array (item : Codec) : Codec := .wrapper .array item
def exact (inner : Codec) : Codec := .wrapper .exact inner
def tuple (items : List Codec) : Codec := .group .tuple items
def union (members : List Codec) : Codec := .group .union members
def intersection (members : List Codec) : Codec := .group .intersection members

def Property.plain (key : String) (type : Codec) : Property Codec :=
  ⟨key, type, false, ""⟩

def kind? : Codec → Option Kind
  | .hole => none
  | .primitive p => some (.primitive p)
  | .literal _ => some .literal
  | .object shape _ => some (.object shape)
  | .wrapper w _ => some (.wrapper w)
  | .group .tuple _ => some .tuple
  | .group .union _ => some .union
  | .group (.taggedUnion _) _ => some .taggedUnion
  | .group .intersection _ => some .intersection
  | .record .. => some .record
  | .keyof _ => some .keyof
  | .identifier _ => some .identifier
  | .custom .. => some .custom
  | .brand .. => some .brand

def kindName (codec : Codec) : String :=
  match codec.kind? with
  | some kind => kind.name
  | none => "nil"

def isCustom : Codec → Bool
  | .custom .. => true
  | _ => false

/-- The parts of a codec in the order in which they are written. -/
def children : Codec → List Codec
  | .object _ properties => properties.map Property.type
  | .wrapper _ inner => [inner]
  | .group _ members => members
  | .record domain codomain => [domain, codomain]
  | .brand inner _ _ => [inner]
  | _ => []

end Codec

end SchemaCodec

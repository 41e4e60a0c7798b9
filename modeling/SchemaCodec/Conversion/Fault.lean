import SchemaCodec.Constraint
import SchemaCodec.Digest.Algorithm
import SchemaCodec.Document.Printer
import SchemaCodec.Link.Template
import SchemaCodec.Pointer

namespace SchemaCodec

/-! Faults: why a schema cannot be converted at all, and where in the document. -/

/-- A place in a document: the steps that lead there from a place that is given as text. -/
structure Location where
  base : String
  steps : Pointer
  deriving DecidableEq, Repr

namespace Location

def root : Location :=
  ⟨"", []⟩

def ofPath (path : String) : Location :=
  ⟨path, []⟩

def down (location : Location) (steps : Pointer) : Location :=
  ⟨location.base, location.steps ++ steps⟩

def path (location : Location) : String :=
  location.base ++ Pointer.text location.steps

end Location

inductive Fault.Rule where
  | objectKeyword
  | arrayKeyword
  | closedTuple
  | literalKind
  | representable
  | reference
  | metadata
  | hashAlgorithm (cause : Digest.UnknownAlgorithm)
  deriving DecidableEq, Repr

def Fault.Rule.text : Fault.Rule → String
  | .objectKeyword => "keyword is not supported outside explicit object definitions"
  | .arrayKeyword => "keyword is not supported outside explicit array definitions"
  | .closedTuple => "tuples with ...rest are not supported, set additionalItems false"
  | .literalKind => "unsupported literal kind"
  | .representable => "don't know how to represent schema"
  | .reference => "broken input: $ref must be a string"
  | .metadata => "unexpected format of schema metadata"
  | .hashAlgorithm cause => cause.message

inductive Fault.Problem where
  /-- Only booleans and objects are schemas. -/
  | notSchema (kind : Document.Kind)
  /-- No keyword says anything about the values. -/
  | withoutMeaning (schema : Document)
  | outsideObject (keyword : String)
  | outsideArray (keyword : String)
  | notObject (keyword : String)
  | notArray (keyword : String)
  | notKeys
  | openTuple
  | enumNotArray
  /-- Only strings, numbers and booleans are literals. -/
  | notLiteral (keyword type : String)
  | referenceNotString
  | metadata (name : String)
  | importName (cause : Digest.UnknownAlgorithm)
  deriving Repr

namespace Fault.Problem

def rule : Problem → Rule
  | .notSchema _ | .withoutMeaning _ | .notObject _ | .notArray _ | .notKeys => .representable
  | .outsideObject _ => .objectKeyword
  | .outsideArray _ => .arrayKeyword
  | .openTuple => .closedTuple
  | .enumNotArray | .notLiteral .. => .literalKind
  | .referenceNotString => .reference
  | .metadata _ => .metadata
  | .importName cause => .hashAlgorithm cause

def detail : Problem → String
  | .notSchema kind => "schema is a " ++ kind.name
  | .withoutMeaning schema => schema.encode
  | .outsideObject keyword => keyword
  | .outsideArray keyword => keyword
  | .notObject keyword => keyword ++ " must be an object"
  | .notArray keyword => keyword ++ " must be an array"
  | .notKeys => "required must be an array of strings"
  | .openTuple => ""
  | .enumNotArray => "enum must be an array"
  | .notLiteral keyword type => type ++ "s are not supported as part of " ++ keyword
  | .referenceNotString => ""
  | .metadata name => "Unexpected format of " ++ name
  | .importName _ => "import name"

end Fault.Problem

structure Fault.Located where
  location : Location
  problem : Problem
  deriving Repr

def Fault.Located.message (fault : Located) : String :=
  let detail := fault.problem.detail
  (if detail = "" then "" else detail ++ ": ") ++ fault.problem.rule.text ++ " at " ++
    Pointer.shown fault.location.path

/-- What is wrong with a link. Links are counted from zero. -/
inductive Fault.LinkProblem where
  | notArray
  | missing (link : Nat) (key : String)
  | notObject (link : Nat) (key : String)
  | addressNotString (link : Nat)
  | hintNotArray (link : Nat) (hint : String)
  deriving DecidableEq, Repr

def Fault.LinkProblem.message (problem : LinkProblem) : String :=
  let member (link : Nat) (key : String) := "/links/" ++ toString link ++ "/" ++ key
  "hyper: missing or malformed link member: " ++ match problem with
    | .notArray => "links must be an array"
    | .missing link key => member link key
    | .notObject link key => member link key ++ " must be an object"
    | .addressNotString link => member link "href" ++ " must be a string"
    | .hintNotArray link hint => member link "targetHints/" ++ hint ++ " must be an array"

inductive Fault where
  | located (fault : Fault.Located)
  | regexp (cause : Regexp.Error)
  | link (problem : Fault.LinkProblem)
  | address (template : String) (cause : Link.Template.Error)
  /-- An invalid example of a definition cannot be decoded at a position. -/
  | undecodable (definition encoded : String) (position : Nat)
  deriving Repr

def Fault.message : Fault → String
  | .located fault => fault.message
  | .regexp cause => cause.message
  | .link problem => problem.message
  | .address template cause =>
    "hyper: invalid href template: " ++ Text.quoted template ++ ": " ++ cause.message
  | .undecodable definition encoded position =>
    definition ++ ": invalid example is not base64: " ++ Text.quoted encoded ++
      ": illegal base64 data at input byte " ++ toString position

end SchemaCodec

import SchemaCodec.Codec.Condition
import SchemaCodec.Document.Printer
import SchemaCodec.Text.Cut
import SchemaCodec.Text.Quoted

namespace SchemaCodec

/-! Constraints: the keywords of a schema that refine its values, as conditions in the generated
code. A condition only restricts values of the kind its keyword is about. -/

structure Regexp where
  pattern : String
  flags : String
  deriving DecidableEq, Repr

namespace Regexp

inductive Error where
  | notDelimited (text : String)
  | missingPattern
  | wrongKind (kind : Document.Kind)
  deriving DecidableEq, Repr

def Error.message : Error → String
  | .notDelimited text => "checks: unknown regexp format: " ++ Text.quoted text
  | .missingPattern => "checks: unknown regexp format: object without string pattern"
  | .wrongKind kind => "checks: unknown regexp format: " ++ kind.name

/-- A text `/pattern/flags`, where the last slash ends the pattern. -/
def ofText (text : String) : Except Error Regexp :=
  match Text.cutLast? '/' text.toList with
  | some ('/' :: pattern, flags) => .ok ⟨String.ofList pattern, String.ofList flags⟩
  | _ => .error (.notDelimited text)

def ofDocument : Document → Except Error Regexp
  | .string text => ofText text
  | .object members =>
    match (Document.object members).stringAt? "pattern" with
    | some pattern => .ok ⟨pattern, ((Document.object members).stringAt? "flags").getD ""⟩
    | none => .error .missingPattern
  | d => .error (.wrongKind d.kind)

end Regexp

namespace Constraint

open Condition.Part

def onType (type : String) (test : List Condition.Part) : Condition :=
  ⟨[text "( typeof ", subject, text (" !== '" ++ type ++ "' || ")] ++ test ++ [text " )"]⟩

def onArray (test : List Condition.Part) : Condition :=
  ⟨[text "( Array.isArray(", subject, text ") === false || "] ++ test ++ [text " )"]⟩

def pattern (source : String) : Condition :=
  onType "string"
    [subject, text (".match(RegExp(" ++ Document.quote source ++ ")) !== null")]

def regexp (r : Regexp) : Condition :=
  onType "string"
    [subject, text (".match(RegExp(" ++ Document.quote r.pattern ++ ", " ++
      Document.quote r.flags ++ ")) !== null")]

def ipv4 : Condition :=
  onType "string"
    [text ("((octets) => octets.length === 4 && octets.map(Number).every((octet) => " ++
      "Number.isInteger(octet) && octet >= 0x00 && octet <= 0xff))("), subject,
      text ".split('.'))"]

def length (operator bound : String) : Condition :=
  onType "string" [subject, text (".length " ++ operator ++ " " ++ bound)]

def bound (operator bound : String) : Condition :=
  onType "number" [subject, text (" " ++ operator ++ " " ++ bound)]

def multipleOf (divisor : String) : Condition :=
  onType "number" [subject, text (" % " ++ divisor ++ " === 0")]

def integer : Condition :=
  ⟨[text "( Number.isInteger(", subject, text ") )"]⟩

def itemCount (operator bound : String) : Condition :=
  onArray [subject, text (".length " ++ operator ++ " " ++ bound)]

def uniqueItems : Condition :=
  onArray [subject, text ".length === [...new Set(", subject, text ")].length"]

def numberAt? (schema : Document) (key : String) : Option String :=
  schema.get? key >>= Document.number?

def regexpOf? (schema : Document) : Except Regexp.Error (Option Regexp) :=
  match schema.get? "regexp" with
  | none => .ok none
  | some value => (Regexp.ofDocument value).map some

/-- One condition for each constraint that is present, in an order that does not depend on the order
of the keywords. -/
def conditions (schema : Document) : Except Regexp.Error (List Condition) := do
  let expression ← regexpOf? schema
  let all : List (Option Condition) :=
    [(schema.stringAt? "pattern").map pattern,
     expression.map regexp,
     if schema.stringAt? "format" = some "ipv4" then some ipv4 else none,
     (numberAt? schema "minLength").map (length ">="),
     (numberAt? schema "maxLength").map (length "<="),
     (numberAt? schema "minimum").map (bound ">="),
     (numberAt? schema "maximum").map (bound "<="),
     (numberAt? schema "multipleOf").map multipleOf,
     if schema.stringAt? "type" = some "integer" then some integer else none,
     (numberAt? schema "minItems").map (itemCount ">="),
     (numberAt? schema "maxItems").map (itemCount "<="),
     if schema.trueAt "uniqueItems" then some uniqueItems else none]
  return all.filterMap id

def synthesize (schema : Document) : Except Regexp.Error Condition :=
  (conditions schema).map Condition.all

def warnings (schema : Document) : List String :=
  match schema.stringAt? "format" with
  | some format => if format = "ipv4" then [] else [format ++ " format not supported"]
  | none => []

/-- Whether a schema restricts its values by a constraint, be it one that cannot be read. -/
def isConstrained (schema : Document) : Bool :=
  match conditions schema with
  | .ok [] => false
  | _ => true

end Constraint

end SchemaCodec

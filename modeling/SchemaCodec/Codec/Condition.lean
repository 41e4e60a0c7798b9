namespace SchemaCodec

/-! Conditions on a value: source text in which the name of the value is left open. -/

/-- A stretch of text, or a place for the name of the value. -/
inductive Condition.Part where
  | text (source : String)
  | subject
  deriving DecidableEq, Repr

structure Condition where
  parts : List Condition.Part
  deriving DecidableEq, Repr

namespace Condition

def Part.applyTo (subject : String) : Part → String
  | .text source => source
  | .subject => subject

def applyTo (condition : Condition) (subject : String) : String :=
  String.join (condition.parts.map (Part.applyTo subject))

def constant (value : Bool) : Condition :=
  ⟨[.text (if value then "true" else "false")]⟩

/-- All of the conditions together; without any, the condition that always holds. -/
def all : List Condition → Condition
  | [] => constant true
  | [condition] => condition
  | condition :: next :: rest =>
    ⟨condition.parts ++ .text " && " :: (all (next :: rest)).parts⟩

end Condition

end SchemaCodec

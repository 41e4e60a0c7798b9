import SchemaCodec.Name
import SchemaCodec.Text.Quoted

namespace SchemaCodec

/-! References from one schema to another: a file, a definition of the same document, or a
definition of a file. -/

/-- What a reference points to. An empty file is the document that holds the reference. -/
structure Reference where
  file : String
  name : String
  deriving DecidableEq, Repr

namespace Reference

def isLocal (reference : Reference) : Bool :=
  reference.file == ""

inductive Error where
  | manyFragments (text : String)
  | notDefinition (text : String)
  deriving DecidableEq, Repr

def Error.message : Error → String
  | .manyFragments text =>
    "refs: unknown ref format: " ++ Text.quoted text ++ " has more than one '#'"
  | .notDefinition text =>
    "refs: unknown ref format: " ++ Text.quoted text ++ " does not point to /definitions/<name>"

def parse (text : String) : Except Error Reference :=
  match Text.splitOn '#' text.toList with
  | [_] => .ok ⟨text, Name.ofFilePath text⟩
  | [file, fragment] =>
    match Text.splitOn '/' fragment with
    | [root, keyword, key] =>
      if root = [] ∧ keyword = "definitions".toList then
        .ok ⟨String.ofList file, String.ofList (Name.joinKebab key)⟩
      else .error (.notDefinition text)
    | _ => .error (.notDefinition text)
  | _ => .error (.manyFragments text)

end Reference

end SchemaCodec

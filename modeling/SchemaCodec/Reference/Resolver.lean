import SchemaCodec.Digest.Algorithm
import SchemaCodec.Name
import SchemaCodec.Path
import SchemaCodec.Text.Quoted

namespace SchemaCodec

/-! Imports: under which name and from which path a module imports another. -/

structure ImportMapping where
  uri : String
  location : String
  deriving DecidableEq, Repr

namespace ImportMapping

structure Error where
  text : String
  deriving DecidableEq, Repr

def Error.message (e : Error) : String :=
  "refs: import mapping must be URI^location: " ++ Text.quoted e.text

def parse (text : String) : Except Error ImportMapping :=
  match Text.cut? '^' text.toList with
  | some (uri, location) => .ok ⟨String.ofList uri, String.ofList location⟩
  | none => .error ⟨text⟩

def parseAll (texts : List String) : Except Error (List ImportMapping) :=
  texts.mapM parse

def locate? (mapping : ImportMapping) (target : String) : Option String :=
  (mapping.uri.toList.isPrefixOf? target.toList).map fun rest =>
    mapping.location ++ String.ofList rest

end ImportMapping

structure Resolver where
  base : String
  documentUri : String
  imports : List ImportMapping
  hashLength : Int
  hashAlgorithm : String
  deriving Repr

namespace Resolver

/-- The name a file is imported under. It ends in a part of the digest of the reference without its
fragment, if a length is given for that part. -/
def importName (resolver : Resolver) (file reference : String) :
    Except Digest.UnknownAlgorithm String := do
  let stem := Name.joinKebab (Name.stemOf (Text.afterLast '/' file.toList))
  let name := String.ofList stem ++ "_"
  if resolver.hashLength ≤ 0 then return name
  let document := String.ofList (Text.before '#' reference.toList)
  let sum ← Digest.sumText resolver.hashAlgorithm document.toUTF8.toList
  return name ++ String.ofList (sum.toList.take resolver.hashLength.toNat) ++ "_"

def isAbsolute (path : String) : Bool :=
  Path.isRooted path || (Text.cutAt? [':', '/', '/'] path.toList).isSome

/-- A path that cannot be taken for the name of a package. -/
def dotted (path : String) : String :=
  if path.toList.head? = some '.' then path else "./" ++ path

/-- The path a file is imported from: relative to the document if the file lies under the base, else
by the first mapping that covers it, else as written. -/
def importPath (resolver : Resolver) (file : String) : String :=
  let target := Name.stem file
  if isAbsolute target && resolver.base.toList.isPrefixOf target.toList then
    dotted (Path.relative (Path.parent resolver.documentUri) target)
  else match resolver.imports.findSome? (·.locate? target) with
    | some path => path
    | none => dotted target

end Resolver

end SchemaCodec

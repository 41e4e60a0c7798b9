import SchemaCodec.Conversion.Definition
import SchemaCodec.Text.Base64

namespace SchemaCodec

/-! Blocks: the part of a module that belongs to one definition. -/

structure Block.Constant where
  role : String
  value : String
  deriving DecidableEq, Repr

structure Block.Negative where
  source : String
  description : String
  deriving DecidableEq, Repr

structure Block where
  name : String
  title : String
  description : String
  static : String
  runtime : String
  examples : Option String
  negatives : List Block.Negative
  constants : List Block.Constant
  deriving DecidableEq, Repr

namespace Block

/-- The source of an invalid example; only the lower seven bits of each byte count. -/
def negative (definition : String) (sample : InvalidExample) : Except Fault Negative :=
  match Text.Base64.decode sample.encoded.toUTF8.toList with
  | .ok bytes =>
    let source := bytes.map fun byte => Char.ofNat (byte &&& 0x7f).toNat
    .ok ⟨String.ofList source, sample.description⟩
  | .error position => .error (.undecodable definition sample.encoded position)

def constant? (role : String) (value : Option Document) : Option Constant :=
  value.map fun document => ⟨role, document.encode⟩

def ofDeclaration (declaration : Declaration) (metadata : Metadata) : Except Fault Block := do
  let name := declaration.name
  let negatives ← metadata.invalid.mapM (negative name)
  return {
    name := name
    title := metadata.title.getD name
    description := metadata.description.getD "The purpose of this remains a mystery"
    static := declaration.staticText
    runtime := declaration.codecText
    examples :=
      if metadata.examples.isEmpty then none else some (Document.array metadata.examples).encode
    negatives := negatives
    constants :=
      [constant? "default" metadata.default, constant? "minimum" metadata.minimum,
       constant? "maximum" metadata.maximum].filterMap id }

def testLine (codec name : String) : String :=
  "/** require('io-ts-validator').validator(" ++ codec ++ ").decodeSync(" ++ name ++ ") // => " ++
    name ++ " */"

def valueLine (name type value : String) : String :=
  "export const " ++ name ++ ": " ++ type ++ " = " ++ value ++ " as unknown as " ++ type ++ ";"

def exampleLines (block : Block) : List String :=
  match block.examples with
  | none => []
  | some examples =>
    let name := "examples" ++ block.name
    [testLine ("nonEmptyArray(" ++ block.name ++ ")") name,
     valueLine name ("NonEmptyArray<" ++ block.name ++ ">") examples]

def negativeLines (block : Block) (sample : Negative) : List String :=
  ["// NEGATIVE Test Case: " ++ sample.description,
   "/** require('io-ts-validator').validator(" ++ block.name ++ ").decodeEither(" ++
     sample.source ++ ")._tag // => 'Left' */"]

def constantLines (block : Block) (constant : Constant) : List String :=
  let name := constant.role ++ block.name
  [testLine block.name name, valueLine name block.name constant.value]

def lines (block : Block) : List String :=
  ["// " ++ block.title, "// " ++ block.description, block.static, block.runtime] ++
    block.exampleLines ++ block.negatives.flatMap block.negativeLines ++
    block.constants.flatMap block.constantLines ++ [""]

end Block

end SchemaCodec

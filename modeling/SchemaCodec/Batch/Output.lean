import SchemaCodec.Document.Basic
import SchemaCodec.FileSystem
import SchemaCodec.Name

namespace SchemaCodec.Batch

/-! Where modules go. -/

/-- The URI of a document: its identifier, or else the place of its file; without a fragment. -/
def documentUri (fs : FileSystem) (schema : Document) (file : String) : String :=
  let uri := match schema.stringAt? "$id" with
    | some id => id
    | none => "file://" ++ fs.absolute file
  String.ofList (Text.before '#' uri.toList)

/-- What a document keeps of its URI: what follows the base, or else the scheme. -/
def localPart (base uri : String) : String :=
  match base.toList.isPrefixOf? uri.toList with
  | some rest => String.ofList rest
  | none =>
    match Text.cutAt? [':', '/', '/'] uri.toList with
    | some (_, rest) => String.ofList rest
    | none => uri

def outputPath (outputDir base uri : String) : String :=
  Path.join [outputDir, Name.stem (localPart base uri) ++ ".ts"]

end SchemaCodec.Batch

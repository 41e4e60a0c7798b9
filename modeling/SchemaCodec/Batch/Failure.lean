import SchemaCodec.Document.ReadError
import SchemaCodec.FileSystem
import SchemaCodec.Module.Generate

namespace SchemaCodec.Batch

/-! What can go wrong with files. -/

inductive FileFailure where
  | unreadable (cause : FileSystem.Fault)
  | unparsable (path : String) (cause : Document.ReadError)
  | generation (cause : Module.Failure)
  | noDirectory (cause : FileSystem.Fault)
  | unwritable (cause : FileSystem.Fault)
  deriving Repr

def FileFailure.message : FileFailure → String
  | .unreadable cause => "read schema: " ++ cause.message
  | .unparsable path cause => "parse " ++ path ++ ": " ++ cause.message
  | .generation cause => cause.message
  | .noDirectory cause => "create output dir: " ++ cause.message
  | .unwritable cause => "create output: " ++ cause.message

/-- Whether the conversion of the file does not come to an end. -/
def FileFailure.isEndless : FileFailure → Bool
  | .unparsable _ .endless => true
  | _ => false

inductive Cause where
  | cancelled
  | file (path : String) (failure : FileFailure)
  | metrics (fault : FileSystem.Fault)
  deriving Repr

def Cause.message : Cause → String
  | .cancelled => "context canceled"
  | .file path failure => path ++ ": " ++ failure.message
  | .metrics fault => "write metrics: " ++ fault.message

def Cause.isEndless : Cause → Bool
  | .file _ failure => failure.isEndless
  | _ => false

inductive Failure where
  /-- The pattern of the schema files is malformed. -/
  | pattern (text : String)
  | causes (causes : List Cause)
  /-- A directory cannot be watched. -/
  | unwatchable (error : FileSystem.Error)
  deriving Repr

def Failure.message : Failure → String
  | .pattern text => "glob " ++ Text.quoted text ++ ": syntax error in pattern"
  | .causes list => "\n".intercalate (list.map Cause.message)
  | .unwatchable error => "watch directory: " ++ error.text

end SchemaCodec.Batch

import SchemaCodec.Yaml.Cursor

namespace SchemaCodec.Yaml

/-! Tokens: the units of a stream, with marks for the structure that indentation gives. -/

inductive Token.Kind where
  | streamStart
  | streamEnd
  | versionDirective (major minor : Nat)
  | tagDirective (handle uri : String)
  | documentStart
  | documentEnd
  | blockSequenceStart
  | blockMappingStart
  | blockEnd
  | flowSequenceStart
  | flowSequenceEnd
  | flowMappingStart
  | flowMappingEnd
  | blockEntry
  | flowEntry
  | key
  | value
  | alias (name : String)
  | anchor (name : String)
  | tag (handle suffix : String)
  | scalar (text : String) (isPlain : Bool)
  deriving DecidableEq, Repr, Inhabited

structure Token where
  kind : Token.Kind
  start : Mark
  stop : Mark
  deriving DecidableEq, Repr, Inhabited

end SchemaCodec.Yaml

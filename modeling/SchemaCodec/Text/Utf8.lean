namespace SchemaCodec.Text

/-! Bytes read as UTF-8 text. Where the bytes encode no character, the first of them stands alone
as a stray byte and reading goes on behind it. -/

/-- A unit of byte text: a character, or a byte that belongs to no character. -/
inductive Piece where
  | char (c : Char)
  | stray (byte : UInt8)
  deriving DecidableEq, Repr

def replacement : Char := '\uFFFD'

def pieces : List UInt8 → List Piece
  | [] => []
  | byte :: rest =>
    match ((byte :: rest).take 4).toByteArray.utf8DecodeChar? 0 with
    | some c => .char c :: pieces (rest.drop (c.utf8Size - 1))
    | none => .stray byte :: pieces rest
termination_by bytes => bytes.length
decreasing_by
  · simp only [List.length_drop, List.length_cons]
    omega
  · simp

def Piece.toChar : Piece → Char
  | .char c => c
  | .stray _ => replacement

/-- The text of the bytes, with a replacement character for every stray byte. -/
def decodeLossy (bytes : List UInt8) : String :=
  String.ofList ((pieces bytes).map Piece.toChar)

def decode? (bytes : List UInt8) : Option (List Char) :=
  (pieces bytes).mapM fun
    | .char c => some c
    | .stray _ => none

def encode (text : List Char) : List UInt8 :=
  text.flatMap String.utf8EncodeChar

end SchemaCodec.Text

namespace SchemaCodec.Yaml

/-! Sources: the characters of a byte stream. The stream is decoded chunk by chunk, and a chunk with
an error gives no characters at all, so that a reader that stops early never learns of errors
further on. -/

inductive Encoding where
  | utf8
  | utf16 (bigEndian : Bool)
  deriving DecidableEq, Repr

/-- The characters of the good chunks; `broken` if a bad one follows. -/
structure Source where
  chars : List Char
  broken : Bool

inductive Piece where
  | char (c : Char) (width : Nat)
  /-- A character that goes on behind the given bytes. -/
  | incomplete
  | invalid
  deriving Repr

def isAllowed (n : Nat) : Bool :=
  n == 0x09 || n == 0x0A || n == 0x0D || (0x20 ≤ n && n ≤ 0x7E) || n == 0x85 ||
    (0xA0 ≤ n && n ≤ 0xD7FF) || (0xE000 ≤ n && n ≤ 0xFFFD) || (0x10000 ≤ n && n ≤ 0x10FFFF)

def Piece.ofCode (n width : Nat) : Piece :=
  if isAllowed n then .char (Char.ofNat n) width else .invalid

/-- Append the lower six bits of continuation bytes to a number. -/
def continued : Nat → List UInt8 → Option Nat
  | n, [] => some n
  | n, byte :: rest =>
    if byte &&& 0xC0 = 0x80 then continued (n * 64 + (byte &&& 0x3F).toNat) rest else none

def leastOfWidth : Nat → Nat
  | 2 => 0x80
  | 3 => 0x800
  | 4 => 0x10000
  | _ => 0

def pieceUtf8 (byte : UInt8) (rest : List UInt8) : Piece :=
  let wide (width head : Nat) : Piece :=
    if rest.length + 1 < width then .incomplete
    else match continued head (rest.take (width - 1)) with
      | some n => if n < leastOfWidth width then .invalid else .ofCode n width
      | none => .invalid
  if byte &&& 0x80 = 0 then .ofCode byte.toNat 1
  else if byte &&& 0xE0 = 0xC0 then wide 2 (byte &&& 0x1F).toNat
  else if byte &&& 0xF0 = 0xE0 then wide 3 (byte &&& 0x0F).toNat
  else if byte &&& 0xF8 = 0xF0 then wide 4 (byte &&& 0x07).toNat
  else .invalid

def unit16 (bigEndian : Bool) (first second : UInt8) : Nat :=
  if bigEndian then first.toNat * 256 + second.toNat else second.toNat * 256 + first.toNat

def pieceUtf16 (bigEndian : Bool) : List UInt8 → Piece
  | a :: b :: rest =>
    let unit := unit16 bigEndian a b
    if 0xDC00 ≤ unit ∧ unit < 0xE000 then .invalid
    else if 0xD800 ≤ unit ∧ unit < 0xDC00 then
      match rest with
      | c :: d :: _ =>
        let low := unit16 bigEndian c d
        if 0xDC00 ≤ low ∧ low < 0xE000 then
          .ofCode (0x10000 + (unit - 0xD800) * 0x400 + (low - 0xDC00)) 4
        else .invalid
      | _ => .incomplete
    else .ofCode unit 2
  | _ => .incomplete

def Encoding.piece (encoding : Encoding) (byte : UInt8) (rest : List UInt8) : Piece :=
  match encoding with
  | .utf8 => pieceUtf8 byte rest
  | .utf16 bigEndian => pieceUtf16 bigEndian (byte :: rest)

/-- The characters of a chunk, and the bytes at its end that are no whole character. Characters
that are read are given in reverse. -/
def decodeChunk (encoding : Encoding) (read : List Char) :
    List UInt8 → Option (List Char × List UInt8)
  | [] => some (read.reverse, [])
  | byte :: rest =>
    match encoding.piece byte rest with
    | .char c width => decodeChunk encoding (c :: read) (rest.drop (width - 1))
    | .incomplete => some (read.reverse, byte :: rest)
    | .invalid => none
termination_by bytes => bytes.length
decreasing_by
  simp only [List.length_drop, List.length_cons]
  omega

def chunkSize : Nat := 512

def decodeFrom (encoding : Encoding) (chunk rest : List UInt8) : Source :=
  match decodeChunk encoding [] chunk with
  | none => ⟨[], true⟩
  | some (chars, tail) =>
    match rest with
    | [] => ⟨chars, !tail.isEmpty⟩
    | byte :: bytes =>
      let more := chunkSize - tail.length - 1
      let source := decodeFrom encoding (tail ++ byte :: bytes.take more) (bytes.drop more)
      ⟨chars ++ source.chars, source.broken⟩
termination_by rest.length
decreasing_by
  simp only [List.length_drop, List.length_cons]
  omega

/-- The encoding that the mark at the start of a stream tells, and the length of the mark. -/
def encodingOf : List UInt8 → Encoding × Nat
  | 0xFF :: 0xFE :: _ => (.utf16 false, 2)
  | 0xFE :: 0xFF :: _ => (.utf16 true, 2)
  | 0xEF :: 0xBB :: 0xBF :: _ => (.utf8, 3)
  | _ => (.utf8, 0)

def Source.decode (bytes : List UInt8) : Source :=
  let (encoding, mark) := encodingOf bytes
  decodeFrom encoding ((bytes.take chunkSize).drop mark) (bytes.drop chunkSize)

end SchemaCodec.Yaml

import SchemaCodec.Digest.Word

namespace SchemaCodec.Digest.Sha1

/-! The SHA-1 message digest. -/

structure State where
  a : BitVec 32
  b : BitVec 32
  c : BitVec 32
  d : BitVec 32
  e : BitVec 32

def start : State :=
  ⟨0x67452301, 0xefcdab89, 0x98badcfe, 0x10325476, 0xc3d2e1f0⟩

def extend (words : List (BitVec 32)) : List (BitVec 32) :=
  let next := words.getD 2 0 ^^^ words.getD 7 0 ^^^ words.getD 13 0 ^^^ words.getD 15 0
  next.rotateLeft 1 :: words

def schedule (block : List UInt8) : List (BitVec 32) :=
  let words := ((blocks 4 block).map (bigEndian 32)).reverse
  ((List.range 64).foldl (fun words _ => extend words) words).reverse

def mix (i : Nat) (x y z : BitVec 32) : BitVec 32 :=
  if i < 20 then (x &&& y) ^^^ (~~~x &&& z)
  else if 40 ≤ i ∧ i < 60 then (x &&& y) ^^^ (x &&& z) ^^^ (y &&& z)
  else x ^^^ y ^^^ z

def constant (i : Nat) : BitVec 32 :=
  if i < 20 then 0x5a827999
  else if i < 40 then 0x6ed9eba1
  else if i < 60 then 0x8f1bbcdc
  else 0xca62c1d6

def step (s : State) (entry : BitVec 32 × Nat) : State :=
  let (word, i) := entry
  ⟨s.a.rotateLeft 5 + mix i s.b s.c s.d + s.e + constant i + word,
    s.a, s.b.rotateLeft 30, s.c, s.d⟩

def compress (s : State) (block : List UInt8) : State :=
  let t := (schedule block).zipIdx.foldl step s
  ⟨s.a + t.a, s.b + t.b, s.c + t.c, s.d + t.d, s.e + t.e⟩

def sum (bytes : List UInt8) : List UInt8 :=
  let padded := pad 64 (bigEndianBytes 8 (8 * bytes.length)) bytes
  let s := (blocks 64 padded).foldl compress start
  [s.a, s.b, s.c, s.d, s.e].flatMap fun word => bigEndianBytes 4 word.toNat

end SchemaCodec.Digest.Sha1

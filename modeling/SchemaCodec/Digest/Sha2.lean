import SchemaCodec.Digest.Word

namespace SchemaCodec.Digest.Sha2

/-! The SHA-2 message digests, for words of 32 and of 64 bits. -/

structure State (w : Nat) where
  a : BitVec w
  b : BitVec w
  c : BitVec w
  d : BitVec w
  e : BitVec w
  f : BitVec w
  g : BitVec w
  h : BitVec w

namespace State

def words (s : State w) : List (BitVec w) :=
  [s.a, s.b, s.c, s.d, s.e, s.f, s.g, s.h]

def add (s t : State w) : State w :=
  ⟨s.a + t.a, s.b + t.b, s.c + t.c, s.d + t.d, s.e + t.e, s.f + t.f, s.g + t.g, s.h + t.h⟩

def map (op : BitVec w → BitVec w) (s : State w) : State w :=
  ⟨op s.a, op s.b, op s.c, op s.d, op s.e, op s.f, op s.g, op s.h⟩

def ofWords (words : List (BitVec w)) : State w :=
  ⟨words.getD 0 0, words.getD 1 0, words.getD 2 0, words.getD 3 0,
    words.getD 4 0, words.getD 5 0, words.getD 6 0, words.getD 7 0⟩

end State

/-- What tells the two word sizes apart: the round constants and the distances of the rotations. In
`small0` and `small1` the last distance is a shift. -/
structure Family (w : Nat) where
  constants : List (BitVec w)
  big0 : Nat × Nat × Nat
  big1 : Nat × Nat × Nat
  small0 : Nat × Nat × Nat
  small1 : Nat × Nat × Nat

namespace Family

def big (distances : Nat × Nat × Nat) (x : BitVec w) : BitVec w :=
  x.rotateRight distances.1 ^^^ x.rotateRight distances.2.1 ^^^ x.rotateRight distances.2.2

def small (distances : Nat × Nat × Nat) (x : BitVec w) : BitVec w :=
  x.rotateRight distances.1 ^^^ x.rotateRight distances.2.1 ^^^ x >>> distances.2.2

/-- Extend the words of a block, kept last one first, by the next of the schedule. -/
def extend (family : Family w) (words : List (BitVec w)) : List (BitVec w) :=
  let next := small family.small1 (words.getD 1 0) + words.getD 6 0 +
    small family.small0 (words.getD 14 0) + words.getD 15 0
  next :: words

def schedule (family : Family w) (block : List UInt8) : List (BitVec w) :=
  let words := ((blocks (w / 8) block).map (bigEndian w)).reverse
  let more := family.constants.length - 16
  ((List.range more).foldl (fun words _ => family.extend words) words).reverse

def step (family : Family w) (s : State w) (entry : BitVec w × BitVec w) : State w :=
  let (constant, word) := entry
  let choice := (s.e &&& s.f) ^^^ (~~~s.e &&& s.g)
  let majority := (s.a &&& s.b) ^^^ (s.a &&& s.c) ^^^ (s.b &&& s.c)
  let first := s.h + big family.big1 s.e + choice + constant + word
  let second := big family.big0 s.a + majority
  ⟨first + second, s.a, s.b, s.c, s.d + first, s.e, s.f, s.g⟩

def compress (family : Family w) (s : State w) (block : List UInt8) : State w :=
  s.add ((family.constants.zip (family.schedule block)).foldl family.step s)

def sum (family : Family w) (start : State w) (bytes : List UInt8) : List UInt8 :=
  let block := 2 * w
  let padded := pad block (bigEndianBytes (block / 8) (8 * bytes.length)) bytes
  let s := (blocks block padded).foldl family.compress start
  s.words.flatMap fun word => bigEndianBytes (w / 8) word.toNat

end Family

def constants64 : List (BitVec 64) :=
  [0x428a2f98d728ae22, 0x7137449123ef65cd, 0xb5c0fbcfec4d3b2f, 0xe9b5dba58189dbbc,
   0x3956c25bf348b538, 0x59f111f1b605d019, 0x923f82a4af194f9b, 0xab1c5ed5da6d8118,
   0xd807aa98a3030242, 0x12835b0145706fbe, 0x243185be4ee4b28c, 0x550c7dc3d5ffb4e2,
   0x72be5d74f27b896f, 0x80deb1fe3b1696b1, 0x9bdc06a725c71235, 0xc19bf174cf692694,
   0xe49b69c19ef14ad2, 0xefbe4786384f25e3, 0x0fc19dc68b8cd5b5, 0x240ca1cc77ac9c65,
   0x2de92c6f592b0275, 0x4a7484aa6ea6e483, 0x5cb0a9dcbd41fbd4, 0x76f988da831153b5,
   0x983e5152ee66dfab, 0xa831c66d2db43210, 0xb00327c898fb213f, 0xbf597fc7beef0ee4,
   0xc6e00bf33da88fc2, 0xd5a79147930aa725, 0x06ca6351e003826f, 0x142929670a0e6e70,
   0x27b70a8546d22ffc, 0x2e1b21385c26c926, 0x4d2c6dfc5ac42aed, 0x53380d139d95b3df,
   0x650a73548baf63de, 0x766a0abb3c77b2a8, 0x81c2c92e47edaee6, 0x92722c851482353b,
   0xa2bfe8a14cf10364, 0xa81a664bbc423001, 0xc24b8b70d0f89791, 0xc76c51a30654be30,
   0xd192e819d6ef5218, 0xd69906245565a910, 0xf40e35855771202a, 0x106aa07032bbd1b8,
   0x19a4c116b8d2d0c8, 0x1e376c085141ab53, 0x2748774cdf8eeb99, 0x34b0bcb5e19b48a8,
   0x391c0cb3c5c95a63, 0x4ed8aa4ae3418acb, 0x5b9cca4f7763e373, 0x682e6ff3d6b2b8a3,
   0x748f82ee5defb2fc, 0x78a5636f43172f60, 0x84c87814a1f0ab72, 0x8cc702081a6439ec,
   0x90befffa23631e28, 0xa4506cebde82bde9, 0xbef9a3f7b2c67915, 0xc67178f2e372532b,
   0xca273eceea26619c, 0xd186b8c721c0c207, 0xeada7dd6cde0eb1e, 0xf57d4f7fee6ed178,
   0x06f067aa72176fba, 0x0a637dc5a2c898a6, 0x113f9804bef90dae, 0x1b710b35131c471b,
   0x28db77f523047d84, 0x32caab7b40c72493, 0x3c9ebe0a15c9bebc, 0x431d67c49c100d4c,
   0x4cc5d4becb3e42b6, 0x597f299cfc657e2a, 0x5fcb6fab3ad6faec, 0x6c44198c4a475817]

def family64 : Family 64 where
  constants := constants64
  big0 := (28, 34, 39)
  big1 := (14, 18, 41)
  small0 := (1, 8, 7)
  small1 := (19, 61, 6)

/-- The constants of the short words are the upper halves of the first long ones. -/
def family32 : Family 32 where
  constants := (constants64.take 64).map fun word => .ofNat 32 (word.toNat / Nat.pow 2 32)
  big0 := (2, 13, 22)
  big1 := (6, 11, 25)
  small0 := (7, 18, 3)
  small1 := (17, 19, 10)

def start512 : State 64 := .ofWords
  [0x6a09e667f3bcc908, 0xbb67ae8584caa73b, 0x3c6ef372fe94f82b, 0xa54ff53a5f1d36f1,
   0x510e527fade682d1, 0x9b05688c2b3e6c1f, 0x1f83d9abfb41bd6b, 0x5be0cd19137e2179]

def start384 : State 64 := .ofWords
  [0xcbbb9d5dc1059ed8, 0x629a292a367cd507, 0x9159015a3070dd17, 0x152fecd8f70e5939,
   0x67332667ffc00b31, 0x8eb44a8768581511, 0xdb0c2e0d64f98fa7, 0x47b5481dbefa4fa4]

def start256 : State 32 := .ofWords
  [0x6a09e667, 0xbb67ae85, 0x3c6ef372, 0xa54ff53a, 0x510e527f, 0x9b05688c, 0x1f83d9ab, 0x5be0cd19]

def start224 : State 32 := .ofWords
  [0xc1059ed8, 0x367cd507, 0x3070dd17, 0xf70e5939, 0xffc00b31, 0x68581511, 0x64f98fa7, 0xbefa4fa4]

/-- The starting state of a shortened digest comes from hashing the name of that digest. -/
def startNamed (name : String) : State 64 :=
  let seed := start512.map (· ^^^ 0xa5a5a5a5a5a5a5a5)
  .ofWords ((blocks 8 (family64.sum seed name.toUTF8.toList)).map (bigEndian 64))

def sum224 (bytes : List UInt8) : List UInt8 :=
  (family32.sum start224 bytes).take 28

def sum256 (bytes : List UInt8) : List UInt8 :=
  family32.sum start256 bytes

def sum384 (bytes : List UInt8) : List UInt8 :=
  (family64.sum start384 bytes).take 48

def sum512 (bytes : List UInt8) : List UInt8 :=
  family64.sum start512 bytes

def sum512Cut224 (bytes : List UInt8) : List UInt8 :=
  (family64.sum (startNamed "SHA-512/224") bytes).take 28

def sum512Cut256 (bytes : List UInt8) : List UInt8 :=
  (family64.sum (startNamed "SHA-512/256") bytes).take 32

end SchemaCodec.Digest.Sha2

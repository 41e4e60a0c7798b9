import SchemaCodec.Digest.Word

namespace SchemaCodec.Digest.Sha3

/-! The SHA-3 message digests: a sponge over a state of five by five lanes. The lane in column `x`
and row `y` has index `x + 5 * y`. -/

abbrev State := Array (BitVec 64)

def start : State :=
  Array.replicate 25 0

def lane (s : State) (x y : Nat) : BitVec 64 :=
  s.getD (x % 5 + 5 * (y % 5)) 0

/-- The state whose lanes are given by column and row. -/
def build (lanes : Nat → Nat → BitVec 64) : State :=
  ((List.range 25).map fun i => lanes (i % 5) (i / 5)).toArray

def constants : List (BitVec 64) :=
  [0x0000000000000001, 0x0000000000008082, 0x800000000000808a, 0x8000000080008000,
   0x000000000000808b, 0x0000000080000001, 0x8000000080008081, 0x8000000000008009,
   0x000000000000008a, 0x0000000000000088, 0x0000000080008009, 0x000000008000000a,
   0x000000008000808b, 0x800000000000008b, 0x8000000000008089, 0x8000000000008003,
   0x8000000000008002, 0x8000000000000080, 0x000000000000800a, 0x800000008000000a,
   0x8000000080008081, 0x8000000000008080, 0x0000000080000001, 0x8000000080008008]

def rotations : List Nat :=
  [0, 1, 62, 28, 27, 36, 44, 6, 55, 20, 3, 10, 43, 25, 39, 41, 45, 15, 21, 8, 18, 2, 61, 56, 14]

def columnParity (s : State) (x : Nat) : BitVec 64 :=
  lane s x 0 ^^^ lane s x 1 ^^^ lane s x 2 ^^^ lane s x 3 ^^^ lane s x 4

def spread (s : State) : State :=
  let parities := (List.range 5).map (columnParity s)
  build fun x y =>
    lane s x y ^^^ parities.getD ((x + 4) % 5) 0 ^^^
      (parities.getD ((x + 1) % 5) 0).rotateLeft 1

def move (s : State) : State :=
  build fun x y =>
    let from_ := (x + 3 * y) % 5
    (lane s from_ x).rotateLeft (rotations.getD (from_ + 5 * x) 0)

def combine (s : State) : State :=
  build fun x y => lane s x y ^^^ (~~~lane s (x + 1) y &&& lane s (x + 2) y)

def round (s : State) (constant : BitVec 64) : State :=
  let s := combine (move (spread s))
  s.set! 0 (lane s 0 0 ^^^ constant)

def permute (s : State) : State :=
  constants.foldl round s

def absorb (s : State) (block : List UInt8) : State :=
  let words := (blocks 8 block).map (littleEndian 64)
  permute (build fun x y => lane s x y ^^^ words.getD (x + 5 * y) 0)

/-- Mark the end of the message and of the last block. -/
def fill (rate : Nat) (bytes : List UInt8) : List UInt8 :=
  let missing := rate - bytes.length % rate
  if missing = 1 then bytes ++ [0x86]
  else bytes ++ 0x06 :: List.replicate (missing - 2) 0 ++ [0x80]

def sum (size : Nat) (bytes : List UInt8) : List UInt8 :=
  let rate := 200 - 2 * size
  let s := (blocks rate (fill rate bytes)).foldl absorb start
  (s.toList.flatMap fun word => littleEndianBytes 8 word.toNat).take size

end SchemaCodec.Digest.Sha3

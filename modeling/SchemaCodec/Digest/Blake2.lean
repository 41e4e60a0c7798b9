import SchemaCodec.Digest.Word
import SchemaCodec.Digest.Sha2

namespace SchemaCodec.Digest.Blake2

/-! The BLAKE2 message digests without a key, for words of 32 and of 64 bits. -/

/-- What tells the two word sizes apart. -/
structure Family (w : Nat) where
  start : List (BitVec w)
  rounds : Nat
  rotations : Nat × Nat × Nat × Nat

def orders : List (List Nat) :=
  [[0, 1, 2, 3, 4, 5, 6, 7, 8, 9, 10, 11, 12, 13, 14, 15],
   [14, 10, 4, 8, 9, 15, 13, 6, 1, 12, 0, 2, 11, 7, 5, 3],
   [11, 8, 12, 0, 5, 2, 15, 13, 10, 14, 3, 6, 7, 1, 9, 4],
   [7, 9, 3, 1, 13, 12, 11, 14, 2, 6, 5, 10, 4, 0, 15, 8],
   [9, 0, 5, 7, 2, 4, 10, 15, 14, 1, 11, 12, 6, 8, 3, 13],
   [2, 12, 6, 10, 0, 11, 8, 3, 4, 13, 7, 5, 15, 14, 1, 9],
   [12, 5, 1, 15, 14, 13, 4, 10, 0, 7, 6, 3, 9, 2, 8, 11],
   [13, 11, 7, 14, 12, 1, 3, 9, 5, 0, 15, 4, 8, 6, 2, 10],
   [6, 15, 14, 9, 11, 3, 0, 8, 12, 2, 13, 7, 1, 4, 10, 5],
   [10, 2, 8, 4, 7, 6, 1, 5, 15, 11, 9, 14, 3, 12, 13, 0]]

/-- The four cells that each mixing step of a round works on: columns, then diagonals. -/
def lines : List (Nat × Nat × Nat × Nat) :=
  [(0, 4, 8, 12), (1, 5, 9, 13), (2, 6, 10, 14), (3, 7, 11, 15),
   (0, 5, 10, 15), (1, 6, 11, 12), (2, 7, 8, 13), (3, 4, 9, 14)]

namespace Family

def mix (family : Family w) (v : Array (BitVec w)) (line : Nat × Nat × Nat × Nat)
    (x y : BitVec w) : Array (BitVec w) :=
  let (i, j, k, l) := line
  let (r1, r2, r3, r4) := family.rotations
  let a := v.getD i 0 + v.getD j 0 + x
  let d := (v.getD l 0 ^^^ a).rotateRight r1
  let c := v.getD k 0 + d
  let b := (v.getD j 0 ^^^ c).rotateRight r2
  let a := a + b + y
  let d := (d ^^^ a).rotateRight r3
  let c := c + d
  let b := (b ^^^ c).rotateRight r4
  (((v.set! i a).set! j b).set! k c).set! l d

def round (family : Family w) (words : List (BitVec w)) (v : Array (BitVec w)) (i : Nat) :
    Array (BitVec w) :=
  let order := orders.getD (i % 10) []
  let word (k : Nat) := words.getD (order.getD k 0) 0
  lines.zipIdx.foldl (fun v (line, k) => family.mix v line (word (2 * k)) (word (2 * k + 1))) v

def compress (family : Family w) (state : List (BitVec w)) (block : List UInt8) (count : Nat)
    (last : Bool) : List (BitVec w) :=
  let words := (blocks (w / 8) block).map (littleEndian w)
  let v := (state ++ family.start).toArray
  let v := v.set! 12 (v.getD 12 0 ^^^ .ofNat w count)
  let v := v.set! 13 (v.getD 13 0 ^^^ .ofNat w (count / Nat.pow 2 w))
  let v := if last then v.set! 14 (~~~v.getD 14 0) else v
  let v := (List.range family.rounds).foldl (family.round words) v
  state.zipIdx.map fun (word, i) => word ^^^ v.getD i 0 ^^^ v.getD (i + 8) 0

def absorb (family : Family w) (state : List (BitVec w)) (count : Nat) :
    List (List UInt8) → List (BitVec w)
  | [] => family.compress state (List.replicate (2 * w) 0) count true
  | [block] =>
    let filled := block ++ List.replicate (2 * w - block.length) 0
    family.compress state filled (count + block.length) true
  | block :: rest =>
    let count := count + block.length
    family.absorb (family.compress state block count false) count rest

def sum (family : Family w) (bytes : List UInt8) : List UInt8 :=
  let parameters := BitVec.ofNat w (0x01010000 + w)
  let state := family.start.zipIdx.map fun (word, i) => if i = 0 then word ^^^ parameters else word
  (family.absorb state 0 (blocks (2 * w) bytes)).flatMap fun word =>
    littleEndianBytes (w / 8) word.toNat

end Family

def family64 : Family 64 where
  start := Sha2.start512.words
  rounds := 12
  rotations := (32, 24, 16, 63)

def family32 : Family 32 where
  start := Sha2.start256.words
  rounds := 10
  rotations := (16, 12, 8, 7)

end SchemaCodec.Digest.Blake2

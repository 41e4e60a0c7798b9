namespace SchemaCodec.Digest

/-! Byte strings cut into blocks and words. -/

/-- Cut bytes into blocks of `size`; the last may be shorter. -/
def blocks (size : Nat) (bytes : List UInt8) : List (List UInt8) :=
  (List.range ((bytes.length + size - 1) / size)).map fun i => (bytes.drop (i * size)).take size

def bigEndianNat (bytes : List UInt8) : Nat :=
  bytes.foldl (fun value b => value * 256 + b.toNat) 0

def bigEndian (w : Nat) (bytes : List UInt8) : BitVec w :=
  .ofNat w (bigEndianNat bytes)

def littleEndian (w : Nat) (bytes : List UInt8) : BitVec w :=
  bigEndian w bytes.reverse

def littleEndianBytes (count value : Nat) : List UInt8 :=
  (List.range count).map fun i => (value / Nat.pow 256 i).toUInt8

def bigEndianBytes (count value : Nat) : List UInt8 :=
  (littleEndianBytes count value).reverse

/-- Fill a message up to whole blocks: one marked byte, zeros, and its length in bits. -/
def pad (block : Nat) (lengthField : List UInt8) (bytes : List UInt8) : List UInt8 :=
  let used := bytes.length + 1 + lengthField.length
  bytes ++ 0x80 :: List.replicate ((block - used % block) % block) 0 ++ lengthField

end SchemaCodec.Digest

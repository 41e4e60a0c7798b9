namespace SchemaCodec.Text.Base64

/-! Base64 with the standard alphabet. Line breaks are ignored, and so are the bits that a last,
short group has to spare. -/

def sextet? (b : UInt8) : Option Nat :=
  if 0x41 ≤ b ∧ b ≤ 0x5a then some (b.toNat - 0x41)
  else if 0x61 ≤ b ∧ b ≤ 0x7a then some (b.toNat - 0x61 + 26)
  else if 0x30 ≤ b ∧ b ≤ 0x39 then some (b.toNat - 0x30 + 52)
  else if b = 0x2b then some 62
  else if b = 0x2f then some 63
  else none

def isLineBreak (b : UInt8) : Bool :=
  b == 0x0a || b == 0x0d

/-- The whole bytes in a group of up to four sextets. -/
def groupBytes (group : List Nat) : List UInt8 :=
  let bits := (group ++ List.replicate (4 - group.length) 0).foldl (· * 64 + ·) 0
  [bits / 65536, bits / 256 % 256, bits % 256].take (group.length - 1) |>.map (·.toUInt8)

def isSpent (text : List UInt8) : Bool :=
  text.all isLineBreak

/-- Decode text that is filled up to whole groups with equal signs. -/
def decodePadded? (group : List Nat) : List UInt8 → Option (List UInt8)
  | [] => if group.isEmpty then some [] else none
  | b :: rest =>
    match sextet? b with
    | some sextet =>
      let group := group ++ [sextet]
      if group.length = 4 then (decodePadded? [] rest).map (groupBytes group ++ ·)
      else decodePadded? group rest
    | none =>
      if isLineBreak b then decodePadded? group rest
      else if b = 0x3d ∧ group.length = 3 ∧ isSpent rest then some (groupBytes group)
      else if b = 0x3d ∧ group.length = 2 then
        match rest.dropWhile isLineBreak with
        | second :: rest =>
          if second = 0x3d ∧ isSpent rest then some (groupBytes group) else none
        | [] => none
      else none

/-- Decode text without padding. The error is the offset of the first byte outside the alphabet,
or of the last byte when one sextet is left over. -/
def decodeBare (offset : Nat) (group : List Nat) :
    List UInt8 → Except Nat (List UInt8)
  | [] => if group.length = 1 then .error (offset - 1) else .ok (groupBytes group)
  | b :: rest =>
    match sextet? b with
    | some sextet =>
      let group := group ++ [sextet]
      if group.length = 4 then (decodeBare (offset + 1) [] rest).map (groupBytes group ++ ·)
      else decodeBare (offset + 1) group rest
    | none =>
      if isLineBreak b then decodeBare (offset + 1) group rest else .error offset

/-- Decode text with or without padding; the error is that of the reading without. -/
def decode (text : List UInt8) : Except Nat (List UInt8) :=
  match decodePadded? [] text with
  | some bytes => .ok bytes
  | none => decodeBare 0 [] text

end SchemaCodec.Text.Base64

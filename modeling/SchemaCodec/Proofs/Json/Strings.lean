import SchemaCodec.Document.Printer
import SchemaCodec.Json.Token
import SchemaCodec.Proofs.Text.Encoding

namespace SchemaCodec.Json

open SchemaCodec
open Document

/-! Reading a string undoes writing it. Each character is written as itself, as a letter behind a
backslash or as four hexadecimal digits behind `\u`; what is read behind it is left alone. -/

theorem unescape_end (high : Option Nat) (rest : List UInt8) :
    unescape high (0x22 :: rest) = some (flushSurrogate high, rest) := by
  rw [unescape] <;> simp

theorem unescape_byte {b : UInt8} (hquote : b ≠ 0x22) (hslash : b ≠ 0x5c) (high : Option Nat)
    (text : List UInt8) :
    unescape high (b :: text) =
      (unescape none text).map fun read => (flushSurrogate high ++ b :: read.1, read.2) := by
  rw [unescape, if_neg hquote, if_neg hslash]
  · intro _ _ _ _ _ hb _
    exact hslash hb
  · intro _ _ hb _
    exact hslash hb

theorem unescape_escape {e b : UInt8} (hletter : escapedByte? e = some b) (high : Option Nat)
    (text : List UInt8) :
    unescape high (0x5c :: e :: text) =
      (unescape none text).map fun read => (flushSurrogate high ++ b :: read.1, read.2) := by
  have hunit : e ≠ 0x75 := by
    intro he
    subst he
    simp [escapedByte?] at hletter
  rw [unescape, hletter]
  intro _ _ _ _ _ he _
  exact hunit he

theorem unescape_letter {e b : UInt8} {text bytes rest : List UInt8}
    (hletter : escapedByte? e = some b) (htext : unescape none text = some (bytes, rest)) :
    unescape none (0x5c :: e :: text) = some (b :: bytes, rest) := by
  rw [unescape_escape hletter, htext]
  rfl

private theorem unescape_plain {b : UInt8} {text bytes rest : List UInt8} (hquote : b ≠ 0x22)
    (hslash : b ≠ 0x5c) (htext : unescape none text = some (bytes, rest)) :
    unescape none (b :: text) = some (b :: bytes, rest) := by
  rw [unescape_byte hquote hslash, htext]
  rfl

theorem unescape_plain_append {plain text bytes rest : List UInt8}
    (hplain : ∀ b ∈ plain, b ≠ 0x22 ∧ b ≠ 0x5c)
    (htext : unescape none text = some (bytes, rest)) :
    unescape none (plain ++ text) = some (plain ++ bytes, rest) := by
  induction plain with
  | nil => exact htext
  | cons b plain ih =>
    obtain ⟨hquote, hslash⟩ := hplain b List.mem_cons_self
    exact unescape_plain hquote hslash (ih fun b hb => hplain b (.tail _ hb))

def digitByte (value : Nat) : UInt8 :=
  UInt8.ofNat (Text.hexDigit value).toNat

private theorem utf8EncodeChar_hexDigit {value : Nat} (hvalue : value < 16) :
    String.utf8EncodeChar (Text.hexDigit value) = [digitByte value] := by
  have hascii : ∀ value < 16, (Text.hexDigit value).toNat < 0x80 := by decide
  exact Text.utf8EncodeChar_of_ascii (hascii value hvalue)

private theorem hexValue_digitByte {value : Nat} (hvalue : value < 16) :
    hexValue (digitByte value) = value := by
  have hdigits : ∀ value < 16, hexValue (digitByte value) = value := by decide
  exact hdigits value hvalue

private theorem encode_hexDigits_four (code : Nat) :
    Text.encode (Text.hexDigits 4 code) =
      [digitByte (code / 16 / 16 / 16 % 16), digitByte (code / 16 / 16 % 16),
        digitByte (code / 16 % 16), digitByte (code % 16)] := by
  simp only [Text.hexDigits, List.nil_append, Text.encode_cons, Text.encode_nil,
    utf8EncodeChar_hexDigit (Nat.mod_lt _ (by decide)), List.cons_append]

private theorem hexUnit_digitByte {code : Nat} (hcode : code < 0x10000) :
    hexUnit (digitByte (code / 16 / 16 / 16 % 16)) (digitByte (code / 16 / 16 % 16))
      (digitByte (code / 16 % 16)) (digitByte (code % 16)) = code := by
  simp only [hexUnit, hexValue_digitByte (Nat.mod_lt _ (by decide))]
  omega

private theorem unescape_unit {code : Nat} {text bytes rest : List UInt8} (hcode : code < 0xd800)
    (htext : unescape none text = some (bytes, rest)) :
    unescape none (Text.encode ('\\' :: 'u' :: Text.hexDigits 4 code) ++ text) =
      some (unitBytes code ++ bytes, rest) := by
  have hhigh : isHighSurrogate code = false := by
    simp only [isHighSurrogate, Bool.and_eq_false_iff, decide_eq_false_iff_not]
    omega
  have hlow : isLowSurrogate code = false := by
    simp only [isLowSurrogate, Bool.and_eq_false_iff, decide_eq_false_iff_not]
    omega
  have hbytes : Text.encode ('\\' :: 'u' :: Text.hexDigits 4 code) =
      0x5c :: 0x75 :: Text.encode (Text.hexDigits 4 code) := rfl
  rw [hbytes, encode_hexDigits_four]
  simp only [List.cons_append, List.nil_append]
  rw [unescape, hexUnit_digitByte (by omega), hhigh, hlow, htext]
  rfl

/-- A quote or a backslash among the bytes of a character is the character itself. -/
theorem plain_bytes {c : Char} (hquote : c ≠ '"') (hslash : c ≠ '\\') :
    ∀ b ∈ String.utf8EncodeChar c, b ≠ 0x22 ∧ b ≠ 0x5c := by
  intro b hb
  constructor
  · intro hb'
    subst hb'
    exact hquote (Text.eq_of_mem_utf8EncodeChar hb (by decide))
  · intro hb'
    subst hb'
    exact hslash (Text.eq_of_mem_utf8EncodeChar hb (by decide))

private theorem unescape_escapeChar (c : Char) {text bytes rest : List UInt8}
    (htext : unescape none text = some (bytes, rest)) :
    unescape none (Text.encode (escapeChar c) ++ text) =
      some (String.utf8EncodeChar c ++ bytes, rest) := by
  unfold escapeChar
  split
  · exact unescape_letter rfl htext
  · exact unescape_letter rfl htext
  · exact unescape_letter rfl htext
  · exact unescape_letter rfl htext
  · exact unescape_letter rfl htext
  case h_6 hquote hslash _ _ _ =>
    split
    case isTrue hcode =>
      have hlt : c.toNat < 0xd800 := by
        rcases hcode with hcontrol | rfl | rfl
        · omega
        · decide
        · decide
      have hunit := unescape_unit hlt htext
      rw [unitBytes, Char.ofNat_toNat] at hunit
      exact hunit
    case isFalse =>
      rw [Text.encode_cons, Text.encode_nil, List.append_nil]
      exact unescape_plain_append (plain_bytes hquote hslash) htext

theorem unescape_writeString (text : List Char) (rest : List UInt8) :
    unescape none (Text.encode (text.flatMap escapeChar) ++ 0x22 :: rest) =
      some (Text.encode text, rest) := by
  induction text with
  | nil => exact unescape_end none rest
  | cons c text ih =>
    rw [List.flatMap_cons, Text.encode_append, List.append_assoc, Text.encode_cons]
    exact unescape_escapeChar c ih

end SchemaCodec.Json

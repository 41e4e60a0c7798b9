import SchemaCodec.Json.Reader
import SchemaCodec.Proofs.Json.Strings

namespace SchemaCodec

/-! Which documents have a text that reads back, and how the tokens of that text are found. -/

def Json.numeralChars : List Char :=
  ['0', '1', '2', '3', '4', '5', '6', '7', '8', '9', '.', 'e', 'E', '+', '-']

/-- A run of numeral characters that starts with a minus sign or a digit. Whether it denotes a
number is not asked. -/
structure Json.IsNumeral (text : String) : Prop where
  starts : ∃ c rest, text.toList = c :: rest ∧ (c = '-' ∨ c.isDigit)
  runs : ∀ c ∈ text.toList, c ∈ numeralChars

/-- Every number is a numeral and no object has a key twice. -/
inductive Document.WellFormed : Document → Prop where
  | null : WellFormed .null
  | bool (value : Bool) : WellFormed (.bool value)
  | number {text : String} : Json.IsNumeral text → WellFormed (.number text)
  | string (text : String) : WellFormed (.string text)
  | array {items : List Document} :
      (∀ item ∈ items, WellFormed item) → WellFormed (.array items)
  | object {members : List (String × Document)} :
      (members.map Prod.fst).Nodup → (∀ member ∈ members, WellFormed member.2) →
        WellFormed (.object members)

namespace Json

open Document

/-- The text behind a number does not go on with it. -/
def EndsNumber (rest : List UInt8) : Prop :=
  ∀ b ∈ rest.head?, isNumeric b = false

def OpensNumber (b : UInt8) : Prop :=
  b = 0x2d ∨ isDigit b = true

private theorem utf8EncodeChar_numeral {c : Char} (hc : c ∈ numeralChars) :
    String.utf8EncodeChar c = [UInt8.ofNat c.toNat] := by
  have hascii : numeralChars.all fun c => c.toNat < 0x80 := by decide
  exact Text.utf8EncodeChar_of_ascii (of_decide_eq_true (List.all_eq_true.1 hascii c hc))

private theorem isNumeric_of_mem_encode {text : List Char} (hruns : ∀ c ∈ text, c ∈ numeralChars) :
    ∀ b ∈ Text.encode text, isNumeric b = true := by
  have hbytes : numeralChars.all fun c => isNumeric (UInt8.ofNat c.toNat) := by decide
  intro b hb
  obtain ⟨c, hc, hbc⟩ := List.mem_flatMap.1 hb
  rw [utf8EncodeChar_numeral (hruns c hc), List.mem_singleton] at hbc
  rw [hbc]
  exact List.all_eq_true.1 hbytes c (hruns c hc)

/-- The bytes of a numeral, the first of them apart. -/
theorem IsNumeral.exists_bytes {text : String} (htext : IsNumeral text) :
    ∃ b digits, OpensNumber b ∧ (∀ d ∈ digits, isNumeric d = true) ∧
      Text.encode text.toList = b :: digits := by
  obtain ⟨c, tail, hchars, hstart⟩ := htext.starts
  have hruns := htext.runs
  rw [hchars] at hruns
  have hc := hruns c List.mem_cons_self
  have hfirst : numeralChars.all fun c => c = '-' ∨ c.isDigit = true →
      UInt8.ofNat c.toNat = 0x2d ∨ isDigit (UInt8.ofNat c.toNat) = true := by decide
  have hopens := of_decide_eq_true (List.all_eq_true.1 hfirst c hc) hstart
  refine ⟨UInt8.ofNat c.toNat, Text.encode tail, hopens, ?_, ?_⟩
  · exact isNumeric_of_mem_encode fun c hmem => hruns c (.tail _ hmem)
  · rw [hchars, Text.encode_cons, utf8EncodeChar_numeral hc, List.singleton_append]

private theorem forall_byte {p : UInt8 → Prop} (hcodes : ∀ code < 256, p (UInt8.ofNat code))
    (b : UInt8) :
    p b := by
  have hb := hcodes b.toNat b.toNat_lt
  rwa [UInt8.ofNat_toNat] at hb

set_option maxRecDepth 4000 in
private theorem char_of_isNumeric :
    ∀ b, isNumeric b = true → Char.ofNat b.toNat ∈ numeralChars ∧ b.toNat < 0x80 :=
  forall_byte (by decide)

set_option maxRecDepth 4000 in
private theorem char_of_opensNumber :
    ∀ b, b = 0x2d ∨ isDigit b = true →
      Char.ofNat b.toNat = '-' ∨ (Char.ofNat b.toNat).isDigit = true :=
  forall_byte (by decide)

private theorem isNumeral_of_bytes {b : UInt8} {digits : List UInt8} (hb : OpensNumber b)
    (hdigits : ∀ d ∈ digits, isNumeric d = true) :
    IsNumeral (Text.decodeLossy (b :: digits)) := by
  have hnumeric : ∀ d ∈ b :: digits, isNumeric d = true := by
    intro d hd
    cases hd with
    | head => grind [OpensNumber, isNumeric]
    | tail _ hd => exact hdigits d hd
  have htext := Text.decodeLossy_of_ascii fun d hd => (char_of_isNumeric d (hnumeric d hd)).2
  constructor
  · exact ⟨Char.ofNat b.toNat, Text.asciiText digits, htext, char_of_opensNumber b hb⟩
  · rw [htext]
    intro c hc
    obtain ⟨d, hd, rfl⟩ := List.mem_map.1 hc
    exact (char_of_isNumeric d (hnumeric d hd)).1

theorem scan_filler {b : UInt8} (hfiller : isFiller b = true) (text : List UInt8) :
    scan (b :: text) = scan text := by
  rw [scan, scan, List.dropWhile_cons_of_pos hfiller]

theorem scan_string (text : String) (rest : List Char) :
    scan (Text.encode (writeString text rest)) =
      .token (.scalar (.string text)) (Text.encode rest) := by
  have hbytes : Text.encode (writeString text rest) =
      0x22 :: (Text.encode (text.toList.flatMap escapeChar) ++ 0x22 :: Text.encode rest) := by
    rw [writeString, List.cons_append, Text.encode_cons, Text.encode_append]
    rfl
  have hfiller : ¬ isFiller 0x22 = true := by decide
  rw [hbytes, scan, List.dropWhile_cons_of_neg hfiller]
  simp only [if_true, unescape_writeString, Text.decodeLossy_encode, String.ofList_toList]
  rfl

private theorem scan_opensNumber {b : UInt8} (hb : OpensNumber b) (text : List UInt8) :
    scan (b :: text) =
      .token (.scalar (.number (Text.decodeLossy (b :: text.takeWhile isNumeric))))
        (text.dropWhile isNumeric) := by
  have hfiller : ¬ isFiller b = true := by grind [OpensNumber, isFiller, isBlank, isDigit]
  have hother : b ≠ 0x7b ∧ b ≠ 0x7d ∧ b ≠ 0x5b ∧ b ≠ 0x5d ∧ b ≠ 0x22 := by
    grind [OpensNumber, isDigit]
  obtain ⟨h1, h2, h3, h4, h5⟩ := hother
  rw [scan, List.dropWhile_cons_of_neg hfiller]
  simp only [if_neg h1, if_neg h2, if_neg h3, if_neg h4, if_neg h5]
  exact if_pos hb

/-- A number ends where the text behind it says so: with nothing between them, the two would be
read as one run. -/
theorem scan_number {text : String} (htext : IsNumeral text) {rest : List Char}
    (hrest : EndsNumber (Text.encode rest)) :
    scan (Text.encode (text.toList ++ rest)) =
      .token (.scalar (.number text)) (Text.encode rest) := by
  obtain ⟨b, digits, hb, hdigits, hbytes⟩ := htext.exists_bytes
  have htake : (Text.encode rest).takeWhile isNumeric = [] := by
    cases hcases : Text.encode rest with
    | nil => rfl
    | cons d tail =>
      rw [hcases] at hrest
      exact List.takeWhile_cons_of_neg (by simp [hrest d rfl])
  have hdrop : (Text.encode rest).dropWhile isNumeric = Text.encode rest := by
    have happend := List.takeWhile_append_dropWhile (p := isNumeric) (l := Text.encode rest)
    rwa [htake] at happend
  rw [Text.encode_append, hbytes, List.cons_append, scan_opensNumber hb,
    List.takeWhile_append_of_pos hdigits, List.dropWhile_append_of_pos hdigits, htake, hdrop,
    List.append_nil, ← hbytes, Text.decodeLossy_encode, String.ofList_toList]

private theorem value_of_scanWord {word rest tail : List UInt8} {value found : Document}
    (hscan : scanWord word value rest = .token (.scalar found) tail) : found = value := by
  unfold scanWord at hscan
  split at hscan
  · cases hscan
    rfl
  · cases hscan

inductive IsScalar : Document → Prop where
  | null : IsScalar .null
  | bool (value : Bool) : IsScalar (.bool value)
  | number {text : String} : IsNumeral text → IsScalar (.number text)
  | string (text : String) : IsScalar (.string text)

theorem isScalar_of_scan {text rest : List UInt8} {value : Document}
    (hscan : scan text = .token (.scalar value) rest) : IsScalar value := by
  revert hscan
  fun_cases scan text
  case case6 =>
    intro hscan
    cases hscan
    exact .string _
  case case8 hb _ =>
    intro hscan
    cases hscan
    exact .number (isNumeral_of_bytes hb (List.all_eq_true.1 List.all_takeWhile))
  case case9 =>
    intro hscan
    rw [value_of_scanWord hscan]
    exact .bool true
  case case10 =>
    intro hscan
    rw [value_of_scanWord hscan]
    exact .bool false
  case case11 =>
    intro hscan
    rw [value_of_scanWord hscan]
    exact .null
  all_goals
    intro hscan
    cases hscan

end Json

end SchemaCodec

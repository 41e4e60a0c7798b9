import SchemaCodec.Proofs.Json.Grammar
import SchemaCodec.Proofs.Json.Tokens

namespace SchemaCodec.Json

open SchemaCodec

/-! Scalars in any spelling that the grammar allows are read as what they denote. -/

/-! Numbers -/

private theorem forall_ascii {p : Char → Prop} (hcodes : ∀ code < 128, p (Char.ofNat code))
    {c : Char}
    (hc : c.toNat < 128) : p c := by
  have hcode := hcodes c.toNat hc
  rwa [Char.ofNat_toNat] at hcode

private theorem toNat_lt_of_le {c bound : Char} (hle : c ≤ bound) (hbound : bound.toNat < 128) :
    c.toNat < 128 :=
  Nat.lt_of_le_of_lt (UInt32.le_iff_toNat_le.1 hle) hbound

set_option maxRecDepth 4000 in
theorem mem_numeralChars_of_isDigit {c : Char} (hdigit : c.isDigit = true) : c ∈ numeralChars := by
  have hle : c ≤ '9' := by
    simp only [Char.isDigit, Bool.and_eq_true, decide_eq_true_eq] at hdigit
    exact hdigit.2
  have hascii := toNat_lt_of_le hle (by decide)
  exact forall_ascii (p := fun c => c.isDigit = true → c ∈ numeralChars) (by decide) hascii hdigit

theorem Whole.exists_cons {text : List Char} (hwhole : Whole text) :
    ∃ first rest, text = first :: rest ∧ first.isDigit = true ∧ ∀ c ∈ rest, c.isDigit = true := by
  cases hwhole with
  | zero => exact ⟨'0', [], rfl, rfl, List.forall_mem_nil _⟩
  | digits hfirst _ hrest => exact ⟨_, _, rfl, hfirst, hrest⟩

private theorem Fraction.mem_numeralChars {text : List Char} (hfraction : Fraction text) :
    ∀ c ∈ text, c ∈ numeralChars := by
  cases hfraction with
  | absent => exact List.forall_mem_nil _
  | digits hdigits =>
    rw [List.forall_mem_cons]
    exact ⟨by decide, fun c hc => mem_numeralChars_of_isDigit (hdigits.2 c hc)⟩

private theorem Exponent.mem_numeralChars {text : List Char} (hexponent : Exponent text) :
    ∀ c ∈ text, c ∈ numeralChars := by
  cases hexponent with
  | absent => exact List.forall_mem_nil _
  | digits hmark hsign hdigits =>
    rw [List.forall_mem_cons, List.forall_mem_append]
    refine ⟨?_, ?_, fun c hc => mem_numeralChars_of_isDigit (hdigits.2 c hc)⟩
    · rcases hmark with rfl | rfl <;> decide
    · rcases hsign with rfl | rfl | rfl <;> simp [numeralChars]

theorem Number.isNumeral {text : List Char} (hnumber : Number text) :
    IsNumeral (String.ofList text) := by
  obtain ⟨hsign, hwhole, hfraction, hexponent⟩ := hnumber
  obtain ⟨first, rest, rfl, hfirst, hrest⟩ := hwhole.exists_cons
  constructor
  · rw [String.toList_ofList]
    rcases hsign with rfl | rfl
    · exact ⟨first, _, rfl, .inr hfirst⟩
    · exact ⟨'-', _, rfl, .inl rfl⟩
  · rw [String.toList_ofList, List.forall_mem_append, List.forall_mem_append,
      List.forall_mem_append, List.forall_mem_cons]
    refine ⟨?_, ⟨mem_numeralChars_of_isDigit hfirst, ?_⟩, hfraction.mem_numeralChars,
      hexponent.mem_numeralChars⟩
    · rcases hsign with rfl | rfl <;> simp [numeralChars]
    · exact fun c hc => mem_numeralChars_of_isDigit (hrest c hc)

/-! Strings -/

/-- An open surrogate that no low one follows is one replacement character. -/
def prependReplacement (read : List UInt8 × List UInt8) : List UInt8 × List UInt8 :=
  (replacementBytes ++ read.1, read.2)

private theorem unescape_open_unit {first : Nat} {a b c d : UInt8}
    (hlow : isLowSurrogate (hexUnit a b c d) = false) (text : List UInt8) :
    unescape (some first) (0x5c :: 0x75 :: a :: b :: c :: d :: text) =
      (unescape none (0x5c :: 0x75 :: a :: b :: c :: d :: text)).map prependReplacement := by
  rw [unescape, unescape]
  simp only [hlow]
  cases isHighSurrogate (hexUnit a b c d) with
  | false =>
    simp only [Bool.false_eq_true, if_false, Option.map_map]
    congr 1
  | true => rfl

private theorem toNat_lt_of_hexDigit? {c : Char} {value : Nat} (hdigit : hexDigit? c = some value) :
    c.toNat < 128 := by
  unfold hexDigit? at hdigit
  split at hdigit
  case isTrue hrange => exact toNat_lt_of_le hrange.2 (by decide)
  split at hdigit
  case isTrue hrange => exact toNat_lt_of_le hrange.2 (by decide)
  split at hdigit
  case isTrue hrange => exact toNat_lt_of_le hrange.2 (by decide)
  case isFalse => cases hdigit

set_option maxRecDepth 4000 in
private theorem exists_byte_of_hexDigit? {c : Char} {value : Nat}
    (hdigit : hexDigit? c = some value) :
    ∃ b, String.utf8EncodeChar c = [b] ∧ hexValue b = value := by
  have hascii := toNat_lt_of_hexDigit? hdigit
  have hvalue := forall_ascii
    (p := fun c => (hexDigit? c).all (· == hexValue (UInt8.ofNat c.toNat)) = true)
    (by decide) hascii
  rw [hdigit, Option.all_some, beq_iff_eq] at hvalue
  exact ⟨_, Text.utf8EncodeChar_of_ascii hascii, hvalue.symm⟩

theorem UnitEscape.exists_bytes {escape : List Char} {unit : Nat}
    (hescape : UnitEscape escape unit) :
    ∃ a b c d, Text.encode escape = [0x5c, 0x75, a, b, c, d] ∧ hexUnit a b c d = unit := by
  obtain ⟨ha, hb, hc, hd⟩ := hescape
  obtain ⟨a, haBytes, rfl⟩ := exists_byte_of_hexDigit? ha
  obtain ⟨b, hbBytes, rfl⟩ := exists_byte_of_hexDigit? hb
  obtain ⟨c, hcBytes, rfl⟩ := exists_byte_of_hexDigit? hc
  obtain ⟨d, hdBytes, rfl⟩ := exists_byte_of_hexDigit? hd
  refine ⟨a, b, c, d, ?_, rfl⟩
  simp only [Text.encode_cons, Text.encode_nil, haBytes, hbBytes, hcBytes, hdBytes]
  rfl

private theorem isHighSurrogate_iff {unit : Nat} : isHighSurrogate unit = true ↔ IsHigh unit := by
  simp [isHighSurrogate, IsHigh]

private theorem isLowSurrogate_iff {unit : Nat} : isLowSurrogate unit = true ↔ IsLow unit := by
  simp [isLowSurrogate, IsLow]

private theorem isHighSurrogate_of_low {unit : Nat} (hlow : IsLow unit) :
    isHighSurrogate unit = false := by
  rw [Bool.eq_false_iff, Ne, isHighSurrogate_iff]
  exact fun hhigh => Nat.not_le_of_lt hhigh.2 hlow.1

section Units

variable {escape : List Char} {unit : Nat}

private theorem unescape_open_escape (hescape : UnitEscape escape unit) (hlow : ¬ IsLow unit)
    (first : Nat) (text : List UInt8) :
    unescape (some first) (Text.encode escape ++ text) =
      (unescape none (Text.encode escape ++ text)).map prependReplacement := by
  obtain ⟨a, b, c, d, hbytes, rfl⟩ := hescape.exists_bytes
  rw [hbytes]
  apply unescape_open_unit
  rwa [Bool.eq_false_iff, Ne, isLowSurrogate_iff]

private theorem unescape_high (hescape : UnitEscape escape unit) (hhigh : IsHigh unit)
    (text : List UInt8) :
    unescape none (Text.encode escape ++ text) = unescape (some unit) text := by
  obtain ⟨a, b, c, d, hbytes, rfl⟩ := hescape.exists_bytes
  rw [hbytes]
  simp only [List.cons_append, List.nil_append]
  rw [unescape]
  simp only [isHighSurrogate_iff.2 hhigh, if_true]

private theorem unescape_pair {high : Nat} (hescape : UnitEscape escape unit) (hlow : IsLow unit)
    (text : List UInt8) :
    unescape (some high) (Text.encode escape ++ text) =
      (unescape none text).map fun read =>
        (unitBytes (surrogatePair high unit) ++ read.1, read.2) := by
  obtain ⟨a, b, c, d, hbytes, rfl⟩ := hescape.exists_bytes
  rw [hbytes]
  simp only [List.cons_append, List.nil_append]
  rw [unescape]
  simp only [isLowSurrogate_iff.2 hlow, if_true]

private theorem unescape_low (hescape : UnitEscape escape unit) (hlow : IsLow unit)
    (text : List UInt8) :
    unescape none (Text.encode escape ++ text) = (unescape none text).map prependReplacement := by
  obtain ⟨a, b, c, d, hbytes, rfl⟩ := hescape.exists_bytes
  rw [hbytes]
  simp only [List.cons_append, List.nil_append]
  rw [unescape]
  simp only [isHighSurrogate_of_low hlow, isLowSurrogate_iff.2 hlow, if_true]
  rfl

private theorem unescape_single (hescape : UnitEscape escape unit) (hhigh : ¬ IsHigh unit)
    (hlow : ¬ IsLow unit) (text : List UInt8) :
    unescape none (Text.encode escape ++ text) =
      (unescape none text).map fun read => (unitBytes unit ++ read.1, read.2) := by
  obtain ⟨a, b, c, d, hbytes, rfl⟩ := hescape.exists_bytes
  rw [← isHighSurrogate_iff] at hhigh
  rw [← isLowSurrogate_iff] at hlow
  rw [hbytes]
  simp only [List.cons_append, List.nil_append]
  rw [unescape]
  simp only [hhigh, hlow]
  rfl

end Units

private theorem exists_bytes_of_escapeLetter {e c : Char} (hletter : (e, c) ∈ escapeLetters) :
    ∃ letter b, String.utf8EncodeChar e = [letter] ∧ String.utf8EncodeChar c = [b] ∧
      escapedByte? letter = some b := by
  have hall : escapeLetters.all fun pair => pair.1.toNat < 0x80 && pair.2.toNat < 0x80 &&
      escapedByte? (UInt8.ofNat pair.1.toNat) == some (UInt8.ofNat pair.2.toNat) := by decide
  have hpair := List.all_eq_true.1 hall (e, c) hletter
  simp only [Bool.and_eq_true, decide_eq_true_eq, beq_iff_eq] at hpair
  obtain ⟨⟨he, hc⟩, hescaped⟩ := hpair
  exact ⟨_, _, Text.utf8EncodeChar_of_ascii he, Text.utf8EncodeChar_of_ascii hc, hescaped⟩

/-- The escape of a low surrogate does not come next. -/
def NoLowNext (text : List Char) : Prop :=
  ∀ next low tail, text = next ++ tail → UnitEscape next low → ¬ IsLow low

private theorem unescape_open {text chars : List Char} (hspells : Spells text chars)
    (hnext : NoLowNext text) (first : Nat) (rest : List UInt8) :
    unescape (some first) (Text.encode text ++ 0x22 :: rest) =
      (unescape none (Text.encode text ++ 0x22 :: rest)).map prependReplacement := by
  cases hspells with
  | done =>
    rw [Text.encode_nil, List.nil_append, unescape_end, unescape_end]
    simp [prependReplacement, flushSurrogate]
  | @plain c text _ _ hquote hslash _ =>
    have hplain := plain_bytes hquote hslash
    rw [Text.encode_cons, List.append_assoc]
    cases hbytes : String.utf8EncodeChar c with
    | nil => exact absurd hbytes String.utf8EncodeChar_ne_nil
    | cons b bytes =>
      rw [hbytes] at hplain
      obtain ⟨hb, hb'⟩ := hplain b List.mem_cons_self
      rw [List.cons_append, unescape_byte hb hb', unescape_byte hb hb', Option.map_map]
      rfl
  | letter hletter _ =>
    obtain ⟨letter, b, he, -, hescaped⟩ := exists_bytes_of_escapeLetter hletter
    rw [Text.encode_cons, Text.encode_cons, he]
    change unescape _ (0x5c :: letter :: _) = (unescape _ (0x5c :: letter :: _)).map _
    rw [unescape_escape hescaped, unescape_escape hescaped, Option.map_map]
    rfl
  | unit hescape _ hlow _ =>
    rw [Text.encode_append, List.append_assoc]
    exact unescape_open_escape hescape hlow first _
  | pair hescape hhigh _ _ _ =>
    rw [Text.encode_append, List.append_assoc]
    exact unescape_open_escape hescape (hnext _ _ _ rfl hescape) first _
  | loneHigh hescape hhigh _ _ =>
    rw [Text.encode_append, List.append_assoc]
    exact unescape_open_escape hescape (hnext _ _ _ rfl hescape) first _
  | loneLow hescape hlow _ => exact absurd hlow (hnext _ _ _ rfl hescape)

/-- A string is read as the characters it spells. -/
theorem unescape_spells {text chars : List Char} (hspells : Spells text chars)
    (rest : List UInt8) :
    unescape none (Text.encode text ++ 0x22 :: rest) = some (Text.encode chars, rest) := by
  induction hspells with
  | done => exact unescape_end none rest
  | plain _ hquote hslash _ ih =>
    rw [Text.encode_cons, List.append_assoc, Text.encode_cons]
    exact unescape_plain_append (plain_bytes hquote hslash) ih
  | letter hletter _ ih =>
    obtain ⟨letter, b, he, hc, hescaped⟩ := exists_bytes_of_escapeLetter hletter
    rw [Text.encode_cons, Text.encode_cons, Text.encode_cons, he, hc]
    exact unescape_letter hescaped ih
  | unit hescape hhigh hlow _ ih =>
    rw [Text.encode_append, List.append_assoc, unescape_single hescape hhigh hlow, ih]
    rfl
  | pair hfirst hhigh hsecond hlow _ ih =>
    rw [Text.encode_append, List.append_assoc, unescape_high hfirst hhigh, Text.encode_append,
      List.append_assoc, unescape_pair hsecond hlow, ih]
    rfl
  | loneHigh hescape hhigh hnext hspells ih =>
    rw [Text.encode_append, List.append_assoc, unescape_high hescape hhigh,
      unescape_open hspells hnext, ih]
    rfl
  | loneLow hescape hlow _ ih =>
    rw [Text.encode_append, List.append_assoc, unescape_low hescape hlow, ih]
    rfl

theorem scan_spells {text chars : List Char} (hspells : Spells text chars) (rest : List Char) :
    scan (Text.encode ('"' :: (text ++ '"' :: rest))) =
      .token (.scalar (.string (String.ofList chars))) (Text.encode rest) := by
  have hbytes : Text.encode ('"' :: (text ++ '"' :: rest)) =
      0x22 :: (Text.encode text ++ 0x22 :: Text.encode rest) := by
    rw [Text.encode_cons, Text.encode_append]
    rfl
  have hfiller : ¬ isFiller 0x22 = true := by decide
  rw [hbytes, scan, List.dropWhile_cons_of_neg hfiller]
  simp only [if_true, unescape_spells hspells, Text.decodeLossy_encode]
  rfl

end SchemaCodec.Json

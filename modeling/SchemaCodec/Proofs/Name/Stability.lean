import SchemaCodec.Proofs.Name.Script
import SchemaCodec.Proofs.Reference.Grammar

namespace SchemaCodec

/-! Deriving a name from a name changes nothing. -/

namespace Name

/-! Bytes -/

/-- Give the first character its capital form. A stray byte in its place is replaced. -/
def capitalizeBytes (word : List UInt8) : List UInt8 :=
  match Text.pieces word with
  | [] => []
  | first :: _ => String.utf8EncodeChar (Text.upper first.toChar) ++ word.drop first.bytes.length

/-- Give every character its capital form. Stray bytes are replaced. -/
def upperBytes (text : List UInt8) : List UInt8 :=
  (Text.pieces text).flatMap fun piece => String.utf8EncodeChar (Text.upper piece.toChar)

private theorem capitalizeBytes_append (c : Char) (rest : List UInt8) :
    capitalizeBytes (String.utf8EncodeChar c ++ rest) =
      String.utf8EncodeChar (Text.upper c) ++ rest := by
  rw [capitalizeBytes, Text.pieces_utf8EncodeChar_append]
  change _ ++ (String.utf8EncodeChar c ++ rest).drop (String.utf8EncodeChar c).length = _
  rw [List.drop_left]
  rfl

private theorem hyphen_mem_bytes {piece : Text.Piece} (h : piece.toChar = '-') :
    0x2d ∈ piece.bytes := by
  cases piece with
  | char c =>
      cases (h : c = '-')
      decide
  | stray byte =>
      have hne : Text.replacement ≠ '-' := by decide
      exact absurd h hne

private theorem exists_capitalizeBytes {word : List UInt8} (h : word ≠ []) :
    ∃ c tail, capitalizeBytes word = String.utf8EncodeChar (Text.upper c) ++ tail ∧
      tail <:+ word ∧ (c = '-' → 0x2d ∈ word) := by
  cases word with
  | nil => exact absurd rfl h
  | cons byte rest =>
      obtain ⟨first, others, hpieces, hbytes⟩ := Text.pieces_cons byte rest
      refine ⟨first.toChar, (byte :: rest).drop first.bytes.length, ?_, List.drop_suffix .., ?_⟩
      · rw [capitalizeBytes, hpieces]
      · intro hhyphen
        exact hbytes.subset (hyphen_mem_bytes hhyphen)

private theorem upperBytes_eq (text : List UInt8) :
    upperBytes text = Text.encode (((Text.pieces text).map Text.Piece.toChar).map Text.upper) := by
  rw [upperBytes, Text.encode, List.flatMap_map, List.flatMap_map]

private theorem upperBytes_encode (text : List Char) :
    upperBytes (Text.encode text) = Text.encode (text.map Text.upper) := by
  rw [upperBytes_eq, Text.pieces_encode, List.map_map, List.map_map]
  rfl

private theorem hyphen_mem_utf8EncodeChar_iff {c : Char} :
    0x2d ∈ String.utf8EncodeChar c ↔ c = '-' :=
  Text.mem_utf8EncodeChar_iff (c := '-') (by decide)

private theorem filter_encode_hyphen (text : List Char) :
    (Text.encode text).filter (· ≠ 0x2d) = Text.encode (text.filter (· ≠ '-')) :=
  Text.filter_encode (c := '-') (by decide) text

private theorem map_upper_eq_iff {text : List Char} :
    text.map Text.upper = text ↔ Text.isUpper text = true := by
  rw [Text.isUpper, List.all_eq_true]
  simp only [beq_iff_eq]
  conv_lhs => rw [← List.map_id text, List.map_map]
  exact List.map_inj_left

private theorem isCapitals_encode (text : List Char) :
    (upperBytes (Text.encode text) == Text.encode text) = Text.isUpper text := by
  rw [Bool.eq_iff_iff, beq_iff_eq, upperBytes_encode, ← map_upper_eq_iff]
  exact ⟨Text.encode_injective, congrArg Text.encode⟩

/-- Only what is UTF-8 and all capitals is its own capital form. -/
theorem exists_of_isCapitals {text : List UInt8} (h : (upperBytes text == text) = true) :
    ∃ chars, text = Text.encode chars ∧ Text.isUpper chars = true := by
  refine ⟨((Text.pieces text).map Text.Piece.toChar).map Text.upper, ?_, ?_⟩
  · rw [← upperBytes_eq]
    exact (beq_iff_eq.mp h).symm
  · rw [← map_upper_eq_iff, List.map_map]
    exact List.map_congr_left fun c _ => Text.upper_upper c

def bytes : Script UInt8 where
  hyphen := 0x2d
  capitalize := capitalizeBytes
  isCapitals text := upperBytes text == text
  capitalize_nil := by
    rw [capitalizeBytes, Text.pieces]
  capitalize_append := by
    intro word hword rest
    obtain ⟨c, tail, hcapital, -, -⟩ := exists_capitalizeBytes hword
    rw [hcapital, List.append_assoc, capitalizeBytes_append, Text.upper_upper]
  hyphen_not_mem := by
    intro word hword
    by_cases hempty : word = []
    · rw [hempty, capitalizeBytes, Text.pieces]
      exact List.not_mem_nil
    · obtain ⟨c, tail, hcapital, htail, hfirst⟩ := exists_capitalizeBytes hempty
      rw [hcapital, List.mem_append, not_or, hyphen_mem_utf8EncodeChar_iff,
        Text.upper_eq_iff (by decide)]
      exact ⟨fun hc => hword (hfirst hc), fun hmem => hword (htail.subset hmem)⟩
  isCapitals_filter := by
    intro text h
    obtain ⟨chars, rfl, hchars⟩ := exists_of_isCapitals h
    rw [filter_encode_hyphen, isCapitals_encode]
    exact Name.chars.isCapitals_filter hchars

private theorem capitalizeBytes_encode (word : List Char) :
    capitalizeBytes (Text.encode word) = Text.encode (capitalize word) := by
  cases word with
  | nil => exact bytes.capitalize_nil
  | cons c rest => exact capitalizeBytes_append c (Text.encode rest)

private theorem bytes_joinKebab_encode (text : List Char) :
    bytes.joinKebab (Text.encode text) = Text.encode (joinKebab text) := by
  have hparts : (Text.encode text).splitOn 0x2d = (text.splitOn '-').map Text.encode :=
    Text.splitOn_encode (c := '-') (by decide) text
  rw [Script.joinKebab, joinKebab, Text.splitOn_eq]
  change ((Text.encode text).splitOn 0x2d).flatMap capitalizeBytes = _
  rw [hparts, List.flatMap_map, Text.encode, List.flatMap_assoc]
  congr 1
  funext part
  exact capitalizeBytes_encode part

private theorem bytes_joinAny_encode (text : List Char) :
    bytes.joinAny (Text.encode text) = Text.encode (joinAny text) := by
  have hcapitals : bytes.isCapitals (Text.encode text) = Text.isUpper text :=
    isCapitals_encode text
  rw [Script.joinAny, joinAny, hcapitals, bytes_joinKebab_encode]
  split
  · exact filter_encode_hyphen text
  · rfl

/-! Keys and their names in references -/

private theorem mem_capitalize_iff {c : Char} (hc : c.toNat < 0x41) {word : List Char} :
    c ∈ capitalize word ↔ c ∈ word := by
  cases word with
  | nil => rfl
  | cons first rest =>
      rw [capitalize, List.mem_cons, List.mem_cons, eq_comm, Text.upper_eq_iff hc, eq_comm]

/-- A name keeps the marks of its key, except for hyphens. -/
theorem mem_joinKebab_iff {c : Char} (hc : c.toNat < 0x41) (hhyphen : c ≠ '-')
    (text : List Char) : c ∈ joinKebab text ↔ c ∈ text := by
  induction text using Text.separated_induction '-' with
  | whole text hmem =>
      rw [joinKebab, Text.splitOn_of_not_mem hmem, List.flatMap_singleton, mem_capitalize_iff hc]
  | parts before after hbefore ih =>
      rw [joinKebab, Text.splitOn_append_cons hbefore, List.flatMap_cons, List.mem_append,
        mem_capitalize_iff hc, ← joinKebab, ih, List.mem_append, List.mem_cons]
      simp [hhyphen]

private theorem toList_ofKebab (key : String) : (ofKebab key).toList = joinKebab key.toList :=
  String.toList_ofList

private theorem toList_ofAny (key : String) : (ofAny key).toList = joinAny key.toList :=
  String.toList_ofList

private theorem ofKebab_ofKebab (key : String) : ofKebab (ofKebab key) = ofKebab key := by
  rw [← String.toList_inj, toList_ofKebab, toList_ofKebab, ← chars_joinKebab, ← chars_joinKebab]
  exact chars.joinKebab_joinKebab key.toList

private theorem ofAny_ofAny (key : String) : ofAny (ofAny key) = ofAny key := by
  rw [← String.toList_inj, toList_ofAny, toList_ofAny, ← chars_joinAny, ← chars_joinAny]
  exact chars.joinAny_joinAny key.toList

private theorem ofKebab_append (first second : String) :
    ofKebab (first ++ "-" ++ second) = ofKebab first ++ ofKebab second := by
  have htext : (first ++ "-" ++ second).toList = first.toList ++ '-' :: second.toList := by
    simp
  rw [← String.toList_inj, String.toList_append, toList_ofKebab, toList_ofKebab, toList_ofKebab,
    htext, ← chars_joinKebab, ← chars_joinKebab, ← chars_joinKebab]
  exact chars.joinKebab_append first.toList second.toList

end Name

namespace Reference

private theorem parse_own_eq_ok_iff {key : String} {reference : Reference} :
    parse ("#/definitions/" ++ key) = .ok reference ↔
      ('/' ∉ key.toList ∧ '#' ∉ key.toList) ∧ reference = ⟨"", Name.ofKebab key⟩ := by
  constructor
  · intro h
    have hdenotes := parse_eq_ok_iff.mp h
    have hempty : reference.file = "" := by
      rw [hdenotes.file_eq, String.toList_append]
      rfl
    generalize htext : "#/definitions/" ++ key = text at hdenotes
    cases hdenotes with
    | file hfile => exact absurd (by simp [← htext]) hfile
    | @definition file other hfile hslash hhash =>
        cases (hempty : file = "")
        have hlist := congrArg String.toList htext
        rw [String.empty_append, String.toList_append, String.toList_append] at hlist
        cases String.toList_inj.mp (List.append_cancel_left hlist)
        exact ⟨⟨hslash, hhash⟩, rfl⟩
  · rintro ⟨⟨hslash, hhash⟩, rfl⟩
    exact parse_definition hslash hhash

private theorem parse_own_ofKebab {key : String} {reference : Reference} :
    parse ("#/definitions/" ++ Name.ofKebab key) = .ok reference ↔
      parse ("#/definitions/" ++ key) = .ok reference := by
  rw [parse_own_eq_ok_iff, parse_own_eq_ok_iff, Name.ofKebab_ofKebab, Name.toList_ofKebab,
    Name.mem_joinKebab_iff (by decide) (by decide), Name.mem_joinKebab_iff (by decide) (by decide)]

end Reference

namespace Conversion

private theorem fromReference_own_eq {text other : String} {name : String} {scope : Scope}
    {location : Location} {schema : Document} (htext : Reference.parse text = .ok ⟨"", name⟩)
    (hother : Reference.parse other = .ok ⟨"", name⟩) :
    fromReference scope location schema text = fromReference scope location schema other := by
  unfold fromReference
  rw [htext, hother]
  rfl

end Conversion

namespace Name

/-- A name that is derived again stays as it is and has no hyphen, and a hyphen only separates. That
holds for any bytes, and of bytes that are a text it says the same as of the text. So a reference
to a definition of the same document leads to the same name by the key and by the name itself. -/
theorem derived_names_are_stable (key first second : String) (text front back : List UInt8) :
    (ofKebab (ofKebab key) = ofKebab key ∧ ofAny (ofAny key) = ofAny key ∧
      '-' ∉ (ofKebab key).toList ∧ '-' ∉ (ofAny key).toList ∧
      ofKebab (first ++ "-" ++ second) = ofKebab first ++ ofKebab second) ∧
    (bytes.joinKebab (bytes.joinKebab text) = bytes.joinKebab text ∧
      bytes.joinAny (bytes.joinAny text) = bytes.joinAny text ∧
      0x2d ∉ bytes.joinKebab text ∧ 0x2d ∉ bytes.joinAny text ∧
      bytes.joinKebab (front ++ 0x2d :: back) = bytes.joinKebab front ++ bytes.joinKebab back) ∧
    (bytes.joinKebab (Text.encode key.toList) = Text.encode (ofKebab key).toList ∧
      bytes.joinAny (Text.encode key.toList) = Text.encode (ofAny key).toList) ∧
    (∀ reference, Reference.parse ("#/definitions/" ++ ofKebab key) = .ok reference ↔
      Reference.parse ("#/definitions/" ++ key) = .ok reference) ∧
    ∀ reference, Reference.parse ("#/definitions/" ++ key) = .ok reference →
      reference = ⟨"", ofKebab key⟩ ∧ ∀ scope location schema,
        Conversion.fromReference scope location schema ("#/definitions/" ++ ofKebab key) =
          Conversion.fromReference scope location schema ("#/definitions/" ++ key) := by
  refine ⟨⟨ofKebab_ofKebab key, ofAny_ofAny key, ?_, ?_, ofKebab_append first second⟩,
    ⟨bytes.joinKebab_joinKebab text, bytes.joinAny_joinAny text,
      bytes.hyphen_not_mem_joinKebab text, bytes.hyphen_not_mem_joinAny text,
      bytes.joinKebab_append front back⟩, ⟨?_, ?_⟩, fun reference => Reference.parse_own_ofKebab, ?_⟩
  · rw [toList_ofKebab, ← chars_joinKebab]
    exact chars.hyphen_not_mem_joinKebab key.toList
  · rw [toList_ofAny, ← chars_joinAny]
    exact chars.hyphen_not_mem_joinAny key.toList
  · rw [toList_ofKebab, bytes_joinKebab_encode]
  · rw [toList_ofAny, bytes_joinAny_encode]
  · intro reference hparse
    obtain ⟨-, rfl⟩ := Reference.parse_own_eq_ok_iff.mp hparse
    refine ⟨rfl, ?_⟩
    intro scope location schema
    exact Conversion.fromReference_own_eq (Reference.parse_own_ofKebab.mpr hparse) hparse

theorem derived_names_are_stable_row :
    Reference.parse ("#/definitions/" ++ "top-row") = .ok ⟨"", "TopRow"⟩ ∧
    Reference.parse ("#/definitions/" ++ "TopRow") = .ok ⟨"", "TopRow"⟩ ∧
    ∀ scope location schema,
      Conversion.fromReference scope location schema ("#/definitions/" ++ "TopRow") =
        Conversion.fromReference scope location schema ("#/definitions/" ++ "top-row") := by
  have hname : ofKebab "top-row" = "TopRow" := by decide
  have hkey : Reference.parse ("#/definitions/" ++ "top-row") = .ok ⟨"", "TopRow"⟩ := by decide
  obtain ⟨-, -, -, hparse, hconvert⟩ := derived_names_are_stable "top-row" "top" "row" [] [] []
  rw [hname] at hparse hconvert
  exact ⟨hkey, (hparse _).mpr hkey, (hconvert _ hkey).2⟩

end Name

end SchemaCodec

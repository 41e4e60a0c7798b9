import SchemaCodec.Proofs.Codec.Nesting
import SchemaCodec.Proofs.Text.Encoding

/-! Strings and property names that are written into a script are read from it as they were. -/

namespace SchemaCodec.Script

/-! Reading source text -/

def unescape? : Char → Option Char
  | '\\' => some '\\'
  | '\x27' => some '\x27'
  | 'n' => some '\n'
  | 'r' => some '\r'
  | _ => none

/-- The text up to the first quote that is not escaped, and what stands behind that quote. -/
def readQuoted : List Char → Option (List Char × List Char)
  | [] => none
  | '\x27' :: rest => some ([], rest)
  | '\\' :: c :: rest =>
    (unescape? c).bind fun found => (readQuoted rest).map fun read => (found :: read.1, read.2)
  | c :: rest => (readQuoted rest).map fun read => (c :: read.1, read.2)

def readString : List Char → Option (List Char × List Char)
  | '\x27' :: rest => readQuoted rest
  | _ => none

def isNameStart (c : Char) : Bool :=
  'A' ≤ c && c ≤ 'Z' || 'a' ≤ c && c ≤ 'z' || c == '_'

def isNamePart (c : Char) : Bool :=
  isNameStart c || '0' ≤ c && c ≤ '9'

/-- The name of a property: as many characters as can be part of a name, or a string. -/
def readPropertyName (source : List Char) : Option (List Char × List Char) :=
  if source.head?.any isNameStart then
    some (source.takeWhile isNamePart, source.dropWhile isNamePart)
  else readString source

private theorem readQuoted_plain {c : Char} (hquote : c ≠ '\x27') (hslash : c ≠ '\\')
    (rest : List Char) :
    readQuoted (c :: rest) = (readQuoted rest).map fun read => (c :: read.1, read.2) := by
  rw [readQuoted]
  · exact hquote
  · intro _ _ h _
    exact hslash h

private theorem readQuoted_escaped {letter c : Char} (h : unescape? letter = some c)
    (rest : List Char) :
    readQuoted ('\\' :: letter :: rest) =
      (readQuoted rest).map fun read => (c :: read.1, read.2) := by
  rw [readQuoted, h, Option.bind_some]

end SchemaCodec.Script

namespace SchemaCodec.Codec

open Script Text

private theorem readQuoted_escapeChar (c : Char) (rest : List Char) :
    readQuoted (escapeChar c ++ rest) =
      (readQuoted rest).map fun read => (c :: read.1, read.2) := by
  unfold escapeChar
  split
  · next hself =>
      rcases hself with rfl | rfl
      · exact readQuoted_escaped rfl rest
      · exact readQuoted_escaped rfl rest
  · next hself =>
      rw [not_or] at hself
      split
      · next hnewline =>
          subst hnewline
          exact readQuoted_escaped rfl rest
      · split
        · next hreturn =>
            subst hreturn
            exact readQuoted_escaped rfl rest
        · exact readQuoted_plain hself.2 hself.1 rest

private theorem readQuoted_flatMap (text rest : List Char) :
    readQuoted (text.flatMap escapeChar ++ '\x27' :: rest) = some (text, rest) := by
  induction text with
  | nil => rfl
  | cons c text ih =>
      rw [List.flatMap_cons, List.append_assoc, readQuoted_escapeChar, ih]
      rfl

private theorem readString_stringChars (text rest : List Char) :
    readString (stringChars text ++ rest) = some (text, rest) := by
  have hquotes : stringChars text ++ rest =
      '\x27' :: (text.flatMap escapeChar ++ '\x27' :: rest) := by
    simp [stringChars]
  rw [hquotes]
  exact readQuoted_flatMap text rest

/-- A character is written with itself, a backslash and the letters for line ends. -/
theorem mem_escapeChar {c d : Char} (h : d ∈ escapeChar c) :
    d = c ∧ c ≠ '\n' ∧ c ≠ '\r' ∨ d ∈ ['\\', 'n', 'r'] := by
  unfold escapeChar at h
  split at h
  · next hself =>
      rcases List.mem_cons.mp h with rfl | h
      · exact .inr (by decide)
      · refine .inl ⟨List.mem_singleton.mp h, ?_⟩
        rcases hself with rfl | rfl <;> decide
  · split at h
    · exact .inr ((by decide : ['\\', 'n'] ⊆ ['\\', 'n', 'r']) h)
    · split at h
      · exact .inr ((by decide : ['\\', 'r'] ⊆ ['\\', 'n', 'r']) h)
      · next hnewline hreturn => exact .inl ⟨List.mem_singleton.mp h, hnewline, hreturn⟩

private theorem not_return_mem_stringChars (text : List Char) : '\r' ∉ stringChars text := by
  rw [stringChars, List.cons_append, List.mem_cons, List.mem_append, List.mem_flatMap]
  rintro (hquote | ⟨c, -, hc⟩ | hquote)
  · exact absurd hquote (by decide)
  · rcases mem_escapeChar hc with ⟨rfl, -, hreturn⟩ | hletter
    · exact hreturn rfl
    · exact absurd hletter (by decide)
  · exact absurd hquote (by decide)

/-! Names without quotes -/

private theorem isNameStart_eq (c : Char) : isNameStart c = (c.isAlpha || c == '_') := by
  have hupper : c.isUpper = ('A' ≤ c && c ≤ 'Z') := Bool.decide_and ..
  have hlower : c.isLower = ('a' ≤ c && c ≤ 'z') := rfl
  change _ = (c.isUpper || c.isLower || c == '_')
  rw [hupper, hlower, isNameStart]

/-- What needs no quotes is what can be part of a name. -/
theorem isNamePart_eq_isWordChar (c : Char) : isNamePart c = isWordChar c := by
  have hdigit : c.isDigit = ('0' ≤ c && c ≤ '9') := rfl
  rw [isNamePart, isNameStart_eq, ← hdigit, isWordChar, Char.isAlphanum, Bool.or_right_comm]

private theorem isNameStart_of_isWordChar {c : Char} (hword : isWordChar c = true)
    (hdigit : c.isDigit = false) : isNameStart c = true := by
  rw [isWordChar, Char.isAlphanum, hdigit, Bool.or_false] at hword
  rw [isNameStart_eq, hword]

/-- The text cannot go on with the name that stands in front of it. -/
def EndsName (rest : List Char) : Prop :=
  rest.head? = some ':' ∨ rest.head? = some '?'

theorem EndsName.takeWhile {rest : List Char} (h : EndsName rest) :
    rest.takeWhile isNamePart = [] ∧ rest.dropWhile isNamePart = rest := by
  cases rest with
  | nil => exact ⟨rfl, rfl⟩
  | cons first others =>
      have hfirst : isNamePart first = false := by
        rcases h with h | h
        · rw [Option.some.inj h]; decide
        · rw [Option.some.inj h]; decide
      simp [hfirst]

private theorem readPropertyName_bare {key rest : List Char} (hkey : isBareKey key = true)
    (hrest : EndsName rest) : readPropertyName (key ++ rest) = some (key, rest) := by
  cases key with
  | nil => cases hkey
  | cons first others =>
      rw [isBareKey, Bool.and_eq_true, List.all_eq_true] at hkey
      obtain ⟨hdigit, hwords⟩ := hkey
      have hstart : isNameStart first = true :=
        isNameStart_of_isWordChar (hwords first (List.mem_cons_self ..)) (by simpa using hdigit)
      have hparts : ∀ c ∈ first :: others, isNamePart c = true := by
        intro c hc
        rw [isNamePart_eq_isWordChar]
        exact hwords c hc
      have hhead : (first :: others ++ rest).head?.any isNameStart = true := hstart
      rw [readPropertyName, if_pos hhead, List.takeWhile_append_of_pos hparts,
        List.dropWhile_append_of_pos hparts, hrest.takeWhile.1, hrest.takeWhile.2,
        List.append_nil]

private theorem readPropertyName_propertyNameChars (key : List Char) {rest : List Char}
    (hrest : EndsName rest) : readPropertyName (propertyNameChars key ++ rest) = some (key, rest) := by
  unfold propertyNameChars
  split
  · next hbare => exact readPropertyName_bare hbare hrest
  · have hquote : (stringChars key ++ rest).head?.any isNameStart = false := rfl
    rw [readPropertyName, hquote]
    exact readString_stringChars key rest

/-- In every dialect, a property's name ends where its mark and its colon begin. -/
theorem endsName_mark (dialect : Dialect) (shape : Shape) (optional : Bool) (rest : List Char) :
    EndsName ((dialect.mark shape optional ++ ": ").toList ++ rest) := by
  have hmark : dialect.mark shape optional = "" ∨ dialect.mark shape optional = "?" := by
    cases dialect <;> cases shape <;> cases optional <;> decide
  rcases hmark with h | h
  · rw [h]
    exact .inl rfl
  · rw [h]
    exact .inr rfl

/-! Strings of bytes -/

private theorem ascii_escapeChar {c : Char} (h : c.toNat < 0x80) : Ascii (escapeChar c) := by
  intro d hd
  rcases mem_escapeChar hd with ⟨rfl, -⟩ | hletter
  · exact h
  · simp only [List.mem_cons, List.not_mem_nil, or_false] at hletter
    rcases hletter with rfl | rfl | rfl <;> decide

private theorem escapeChar_of_wide {c : Char} (h : 0x80 ≤ c.toNat) : escapeChar c = [c] := by
  have hne : ∀ special : Char, special.toNat < 0x80 → c ≠ special := by
    intro special hspecial heq
    rw [heq] at h
    omega
  rw [escapeChar, if_neg (not_or.mpr ⟨hne _ (by decide), hne _ (by decide)⟩),
    if_neg (hne _ (by decide)), if_neg (hne _ (by decide))]

/-- The bytes of a string in quotes are those that are written for the bytes of the string. -/
theorem bytes_stringChars (text : List Char) :
    asciiText (encode (stringChars text)) = stringChars (asciiText (encode text)) := by
  have hquote : asciiText (encode ['\x27']) = ['\x27'] := rfl
  rw [stringChars, stringChars, ← List.singleton_append, encode_append, encode_append,
    asciiText_append, asciiText_append, hquote,
    asciiText_encode_flatMap (fun _ => ascii_escapeChar) fun _ => escapeChar_of_wide]
  rfl

private theorem toNat_lt_of_isWordChar {c : Char} (h : isWordChar c = true) : c.toNat < 0x80 := by
  have hrange : ∀ last : Char, last.toNat < 0x80 → c ≤ last → c.toNat < 0x80 :=
    fun last hlast hle => Nat.lt_of_le_of_lt hle hlast
  rw [← isNamePart_eq_isWordChar, isNamePart, isNameStart] at h
  simp only [Bool.or_eq_true, Bool.and_eq_true, decide_eq_true_eq, beq_iff_eq] at h
  rcases h with ((⟨-, h⟩ | ⟨-, h⟩) | rfl) | ⟨-, h⟩
  · exact hrange 'Z' (by decide) h
  · exact hrange 'z' (by decide) h
  · decide
  · exact hrange '9' (by decide) h

private theorem ascii_of_isBareKey {key : List Char} (h : isBareKey key = true) : Ascii key := by
  cases key with
  | nil => exact List.forall_mem_nil _
  | cons first others =>
      rw [isBareKey, Bool.and_eq_true, List.all_eq_true] at h
      exact fun c hc => toNat_lt_of_isWordChar (h.2 c hc)

private theorem isBareKey_bytes (key : List Char) :
    isBareKey (asciiText (encode key)) = isBareKey key := by
  rw [Bool.eq_iff_iff]
  constructor
  · intro h
    rwa [asciiText_encode (ascii_of_bytes (ascii_of_isBareKey h))] at h
  · intro h
    rwa [asciiText_encode (ascii_of_isBareKey h)]

private theorem bytes_propertyNameChars (key : List Char) :
    asciiText (encode (propertyNameChars key)) = propertyNameChars (asciiText (encode key)) := by
  rw [propertyNameChars, propertyNameChars, isBareKey_bytes]
  split
  · rfl
  · exact bytes_stringChars key

/-! Both together -/

private theorem toList_stringText (text : String) :
    (stringText text).toList = stringChars text.toList :=
  String.toList_ofList

private theorem toList_propertyName (key : String) :
    (propertyName key).toList = propertyNameChars key.toList :=
  String.toList_ofList

private theorem readString_stringText (text : String) (rest : List Char) :
    readString ((stringText text).toList ++ rest) = some (text.toList, rest) := by
  rw [toList_stringText]
  exact readString_stringChars text.toList rest

private theorem readPropertyName_propertyName (key : String) {rest : List Char}
    (hrest : EndsName rest) :
    readPropertyName ((propertyName key).toList ++ rest) = some (key.toList, rest) := by
  rw [toList_propertyName]
  exact readPropertyName_propertyNameChars key.toList hrest

/-- What is read back is different for different texts. -/
theorem injective_of_read {write : String → String} {rest : List Char}
    {read : List Char → Option (List Char × List Char)}
    (h : ∀ text, read ((write text).toList ++ rest) = some (text.toList, rest)) :
    Function.Injective write := by
  intro first second heq
  have hfirst := h first
  rw [heq, h second] at hfirst
  exact (String.toList_inj.mp (congrArg Prod.fst (Option.some.inj hfirst))).symm

theorem stringText_injective : Function.Injective stringText :=
  injective_of_read fun text => readString_stringText text []

private theorem propertyName_injective : Function.Injective propertyName := by
  have hcolon : EndsName [':'] := .inl rfl
  exact injective_of_read fun key => readPropertyName_propertyName key hcolon

/-- A string is read back from its quotes whatever follows it, and lies in one line. A property's
name is read back in front of a colon or a question mark, and so it stands in all dialects. Bytes
that are no text are written like the text with one character for each of them; for those that are,
this makes the bytes of what is written for the text. -/
theorem names_and_strings_read_back (text : String) (rest : List Char) :
    readString ((stringText text).toList ++ rest) = some (text.toList, rest) ∧
      '\n' ∉ (stringText text).toList ∧ '\r' ∉ (stringText text).toList ∧
      (rest.head? = some ':' ∨ rest.head? = some '?' →
        readPropertyName ((propertyName text).toList ++ rest) = some (text.toList, rest)) ∧
      (∀ (dialect : Dialect) (shape : Shape) (optional : Bool),
        let following := (dialect.mark shape optional ++ ": ").toList ++ rest
        following.head? = some ':' ∨ following.head? = some '?') ∧
      Function.Injective stringText ∧ Function.Injective propertyName ∧
      asciiText (encode (stringText text).toList) =
        stringChars (asciiText (encode text.toList)) ∧
      asciiText (encode (propertyName text).toList) =
        propertyNameChars (asciiText (encode text.toList)) := by
  refine ⟨readString_stringText text rest, (inline_stringText text).1, ?_,
    readPropertyName_propertyName text, ?_, stringText_injective, propertyName_injective, ?_, ?_⟩
  · rw [toList_stringText]
    exact not_return_mem_stringChars text.toList
  · exact fun dialect shape optional => endsName_mark dialect shape optional rest
  · rw [toList_stringText]
    exact bytes_stringChars text.toList
  · rw [toList_propertyName]
    exact bytes_propertyNameChars text.toList

/-- A key with a quote, a line break and a backslash at its end, in front of a mark. -/
theorem names_and_strings_read_back_quoted :
    ['?', ':'].head? = some '?' ∧
      (propertyName "it's\n\\").toList =
        ['\x27', 'i', 't', '\\', '\x27', 's', '\\', 'n', '\\', '\\', '\x27'] ∧
      readPropertyName ((propertyName "it's\n\\").toList ++ ['?', ':']) =
        some ("it's\n\\".toList, ['?', ':']) := by
  obtain ⟨-, -, -, hname, -⟩ := names_and_strings_read_back "it's\n\\" ['?', ':']
  exact ⟨rfl, by decide, hname (.inr rfl)⟩

end SchemaCodec.Codec

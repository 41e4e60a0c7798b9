import SchemaCodec.Text.Utf8

namespace SchemaCodec.Text

/-! Decoding undoes encoding, and which bytes a character may contribute: one below `0x80` that is
the character itself, or several that are all `0x80` and above. -/

@[simp] theorem encode_nil : encode [] = [] := rfl

@[simp] theorem encode_cons (c : Char) (text : List Char) :
    encode (c :: text) = String.utf8EncodeChar c ++ encode text := rfl

@[simp] theorem encode_append (text rest : List Char) :
    encode (text ++ rest) = encode text ++ encode rest :=
  List.flatMap_append

theorem length_le_encode (text : List Char) : text.length ≤ (encode text).length := by
  induction text with
  | nil => exact Nat.le_refl _
  | cons c text ih =>
    have hpos := c.utf8Size_pos
    rw [encode_cons, List.length_append, String.length_utf8EncodeChar, List.length_cons]
    omega

theorem pieces_utf8EncodeChar_append (c : Char) (rest : List UInt8) :
    pieces (String.utf8EncodeChar c ++ rest) = .char c :: pieces rest := by
  have hlength := String.length_utf8EncodeChar c
  have hsize := Char.utf8Size_le_four c
  -- Four bytes hold the whole character, so looking no further loses nothing.
  have hdecode :
      ((String.utf8EncodeChar c ++ rest).take 4).toByteArray.utf8DecodeChar? 0 = some c := by
    rw [List.take_append, List.take_of_length_le (by omega), List.toByteArray_append,
      ByteArray.utf8DecodeChar?_utf8EncodeChar_append]
  generalize String.utf8EncodeChar c = bytes at hlength hdecode ⊢
  cases bytes with
  | nil =>
    have hpos := c.utf8Size_pos
    rw [List.length_nil] at hlength
    omega
  | cons byte tail =>
    have htail : c.utf8Size - 1 = tail.length := by
      rw [List.length_cons] at hlength
      omega
    rw [List.cons_append] at hdecode ⊢
    rw [pieces, hdecode]
    simp only [htail, List.drop_left]

theorem pieces_encode (text : List Char) : pieces (encode text) = text.map .char := by
  induction text with
  | nil => rw [encode_nil, pieces, List.map_nil]
  | cons c text ih => rw [encode_cons, pieces_utf8EncodeChar_append, ih, List.map_cons]

theorem decodeLossy_encode (text : List Char) :
    decodeLossy (encode text) = String.ofList text := by
  have hchars : Piece.toChar ∘ Piece.char = id := rfl
  rw [decodeLossy, pieces_encode, List.map_map, hchars, List.map_id]

theorem utf8EncodeChar_of_ascii {c : Char} (hascii : c.toNat < 0x80) :
    String.utf8EncodeChar c = [UInt8.ofNat c.toNat] := by
  have hle : c.val.toNat ≤ 127 := Nat.le_of_lt_succ hascii
  simp only [String.utf8EncodeChar, hle, if_true]
  rfl

private theorem le_of_mem_utf8EncodeChar {c : Char} (hwide : 0x80 ≤ c.toNat) {b : UInt8}
    (hb : b ∈ String.utf8EncodeChar c) : 0x80 ≤ b.toNat := by
  have hnot : ¬ c.val.toNat ≤ 127 := Nat.not_le_of_lt hwide
  simp only [String.utf8EncodeChar, hnot, if_false] at hb
  split at hb
  · simp only [List.mem_cons, List.not_mem_nil, or_false] at hb
    rcases hb with rfl | rfl <;> simp <;> omega
  · split at hb
    · simp only [List.mem_cons, List.not_mem_nil, or_false] at hb
      rcases hb with rfl | rfl | rfl <;> simp <;> omega
    · simp only [List.mem_cons, List.not_mem_nil, or_false] at hb
      rcases hb with rfl | rfl | rfl | rfl <;> simp <;> omega

/-- A byte below `0x80` stands for no character but its own. -/
theorem eq_of_mem_utf8EncodeChar {c : Char} {b : UInt8} (hb : b ∈ String.utf8EncodeChar c)
    (hascii : b.toNat < 0x80) : c = Char.ofNat b.toNat := by
  have hc : c.toNat < 0x80 := by
    apply Nat.lt_of_not_le
    intro hwide
    have hle := le_of_mem_utf8EncodeChar hwide hb
    omega
  rw [utf8EncodeChar_of_ascii hc, List.mem_singleton] at hb
  have hcode : b.toNat = c.toNat := by
    rw [hb, UInt8.toNat_ofNat']
    omega
  rw [hcode, Char.ofNat_toNat]

def asciiText (bytes : List UInt8) : List Char :=
  bytes.map fun b => Char.ofNat b.toNat

private theorem encode_asciiText {bytes : List UInt8} (hascii : ∀ b ∈ bytes, b.toNat < 0x80) :
    encode (asciiText bytes) = bytes := by
  induction bytes with
  | nil => rfl
  | cons b bytes ih =>
    have hb := hascii b List.mem_cons_self
    have hchar : (Char.ofNat b.toNat).toNat = b.toNat := by
      rw [Char.ofNat, dif_pos (Or.inl (by omega))]
      rfl
    change String.utf8EncodeChar (Char.ofNat b.toNat) ++ encode (asciiText bytes) = b :: bytes
    rw [utf8EncodeChar_of_ascii (by omega), hchar, ih fun b hb => hascii b (.tail _ hb)]
    simp

theorem decodeLossy_of_ascii {bytes : List UInt8} (hascii : ∀ b ∈ bytes, b.toNat < 0x80) :
    (decodeLossy bytes).toList = asciiText bytes := by
  rw [← encode_asciiText hascii, decodeLossy_encode, String.toList_ofList, encode_asciiText hascii]

/-! Bytes that are taken for characters, one by one -/

def Ascii (text : List Char) : Prop :=
  ∀ c ∈ text, c.toNat < 0x80

private theorem toNat_char_of_byte (b : UInt8) : (Char.ofNat b.toNat).toNat = b.toNat := by
  have hlt := b.toNat_lt
  rw [Char.ofNat, dif_pos (Or.inl (by omega))]
  rfl

theorem asciiText_append (first second : List UInt8) :
    asciiText (first ++ second) = asciiText first ++ asciiText second :=
  List.map_append

private theorem asciiText_utf8EncodeChar {c : Char} (hascii : c.toNat < 0x80) :
    asciiText (String.utf8EncodeChar c) = [c] := by
  have hlt : c.toNat < Nat.pow 2 8 := Nat.lt_trans hascii (by decide)
  rw [utf8EncodeChar_of_ascii hascii, asciiText, List.map_singleton, UInt8.toNat_ofNat',
    Nat.mod_eq_of_lt hlt, Char.ofNat_toNat]

theorem asciiText_encode {text : List Char} (h : Ascii text) : asciiText (encode text) = text := by
  induction text with
  | nil => rfl
  | cons c rest ih =>
    obtain ⟨hc, hrest⟩ := List.forall_mem_cons.mp h
    rw [encode_cons, asciiText_append, asciiText_utf8EncodeChar hc, ih hrest,
      List.singleton_append]

private theorem wide_of_mem_asciiText {c d : Char} (hwide : 0x80 ≤ c.toNat)
    (hd : d ∈ asciiText (String.utf8EncodeChar c)) : 0x80 ≤ d.toNat := by
  obtain ⟨b, hb, rfl⟩ := List.mem_map.mp hd
  rw [toNat_char_of_byte]
  exact le_of_mem_utf8EncodeChar hwide hb

theorem ascii_of_bytes {text : List Char} (h : Ascii (asciiText (encode text))) : Ascii text := by
  induction text with
  | nil => exact h
  | cons c rest ih =>
    rw [encode_cons, asciiText_append, Ascii, List.forall_mem_append] at h
    refine List.forall_mem_cons.mpr ⟨Nat.lt_of_not_le fun hwide => ?_, ih h.2⟩
    have hbytes : String.utf8EncodeChar c ≠ [] := by
      rw [← List.length_pos_iff, String.length_utf8EncodeChar]
      exact c.utf8Size_pos
    obtain ⟨b, hb⟩ := List.exists_mem_of_ne_nil _ hbytes
    have hmem : Char.ofNat b.toNat ∈ asciiText (String.utf8EncodeChar c) :=
      List.mem_map.mpr ⟨b, hb, rfl⟩
    exact absurd (h.1 _ hmem) (Nat.not_lt.mpr (wide_of_mem_asciiText hwide hmem))

/-- Where only characters below `0x80` are written in another way, and that with such characters,
it makes no difference whether the characters of a text or its bytes are written. -/
theorem asciiText_encode_flatMap {write : Char → List Char}
    (hascii : ∀ c, c.toNat < 0x80 → Ascii (write c)) (hwide : ∀ c, 0x80 ≤ c.toNat → write c = [c])
    (text : List Char) :
    asciiText (encode (text.flatMap write)) = (asciiText (encode text)).flatMap write := by
  induction text with
  | nil => rfl
  | cons c rest ih =>
    have hfirst : asciiText (encode (write c)) =
        (asciiText (String.utf8EncodeChar c)).flatMap write := by
      rcases Nat.lt_or_ge c.toNat 0x80 with hc | hc
      · rw [asciiText_encode (hascii c hc), asciiText_utf8EncodeChar hc, List.flatMap_singleton]
      · have hplain : ∀ d ∈ asciiText (String.utf8EncodeChar c), write d = [d] :=
          fun d hd => hwide d (wide_of_mem_asciiText hc hd)
        rw [hwide c hc, encode_cons, encode_nil, List.append_nil, List.flatMap_def,
          List.map_congr_left hplain, ← List.flatMap_def, List.flatMap_singleton']
    rw [List.flatMap_cons, encode_append, asciiText_append, ih, hfirst, encode_cons,
      asciiText_append, List.flatMap_append]

end SchemaCodec.Text

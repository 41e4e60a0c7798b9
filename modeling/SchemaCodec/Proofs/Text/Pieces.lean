import SchemaCodec.Proofs.Text.Encoding
import SchemaCodec.Proofs.Text.Splitting

namespace SchemaCodec.Text

/-! Text as bytes: how its first piece is written, and that a character below `0x80` is found in
the bytes just where it is found in the text. -/

/-- Induction from one separator to the next. -/
@[elab_as_elim]
theorem separated_induction {motive : List α → Prop} (separator : α)
    (whole : ∀ text, separator ∉ text → motive text)
    (parts : ∀ before after, separator ∉ before → motive after →
      motive (before ++ separator :: after)) (text : List α) : motive text := by
  induction hlength : text.length using Nat.strongRecOn generalizing text with
  | ind length ih =>
      by_cases hmem : separator ∈ text
      · obtain ⟨before, after, rfl, hbefore⟩ := List.eq_append_cons_of_mem hmem
        rw [List.length_append, List.length_cons] at hlength
        exact parts before after hbefore (ih after.length (by omega) after rfl)
      · exact whole text hmem

theorem splitOn_eq (separator : Char) (text : List Char) :
    splitOn separator text = text.splitOn separator := by
  induction text using separated_induction separator with
  | whole text hmem => rw [splitOn_of_not_mem hmem, List.splitOn_eq_singleton hmem]
  | parts before after hbefore ih =>
      rw [splitOn_append_cons hbefore, List.splitOn_append_cons_self_of_not_mem hbefore, ih]

def Piece.bytes : Piece → List UInt8
  | .char c => String.utf8EncodeChar c
  | .stray byte => [byte]

theorem pieces_cons (byte : UInt8) (rest : List UInt8) :
    ∃ first others, pieces (byte :: rest) = first :: others ∧ first.bytes <+: byte :: rest := by
  rw [pieces]
  split
  · next c hdecode =>
      obtain ⟨after, hbytes⟩ := ByteArray.exists_of_utf8DecodeChar?_eq_some hdecode
      have hlist := congrArg (·.data.toList) hbytes
      simp only [ByteArray.data_append, Array.toList_append, List.toList_data_toByteArray] at hlist
      refine ⟨.char c, _, rfl, ?_⟩
      exact List.IsPrefix.trans ⟨_, hlist.symm⟩ (List.take_prefix 4 (byte :: rest))
  · exact ⟨.stray byte, _, rfl, rest, rfl⟩

theorem encode_injective {text other : List Char} (h : encode text = encode other) :
    text = other := by
  have hdecode := congrArg decodeLossy h
  rw [decodeLossy_encode, decodeLossy_encode] at hdecode
  exact String.ofList_injective hdecode

section Ascii

variable {c : Char} (hc : c.toNat < 0x80)

include hc

theorem mem_utf8EncodeChar_iff {d : Char} :
    UInt8.ofNat c.toNat ∈ String.utf8EncodeChar d ↔ d = c := by
  have hcode : (UInt8.ofNat c.toNat).toNat = c.toNat := by
    rw [UInt8.toNat_ofNat']
    omega
  constructor
  · intro hmem
    rw [eq_of_mem_utf8EncodeChar hmem (by omega), hcode, Char.ofNat_toNat]
  · rintro rfl
    rw [utf8EncodeChar_of_ascii hc]
    exact List.mem_singleton_self _

private theorem mem_encode_iff {text : List Char} :
    UInt8.ofNat c.toNat ∈ encode text ↔ c ∈ text := by
  induction text with
  | nil => simp
  | cons d rest ih =>
      rw [encode_cons, List.mem_append, mem_utf8EncodeChar_iff hc, ih, List.mem_cons, eq_comm]

theorem filter_encode (text : List Char) :
    (encode text).filter (· ≠ UInt8.ofNat c.toNat) = encode (text.filter (· ≠ c)) := by
  induction text with
  | nil => rfl
  | cons d rest ih =>
      rw [encode_cons, List.filter_append, ih]
      by_cases hd : d = c
      · rw [hd, List.filter_cons_of_neg (by simp), utf8EncodeChar_of_ascii hc]
        simp
      · have hkept : ∀ b ∈ String.utf8EncodeChar d, decide (b ≠ UInt8.ofNat c.toNat) = true := by
          intro b hb
          rw [decide_eq_true_iff]
          rintro rfl
          exact hd ((mem_utf8EncodeChar_iff hc).mp hb)
        rw [List.filter_cons_of_pos (by simpa using hd), encode_cons,
          List.filter_eq_self.mpr hkept]

theorem splitOn_encode (text : List Char) :
    (encode text).splitOn (UInt8.ofNat c.toNat) = (text.splitOn c).map encode := by
  induction text using separated_induction c with
  | whole text hmem =>
      have hbytes : UInt8.ofNat c.toNat ∉ encode text := by
        rwa [mem_encode_iff hc]
      rw [List.splitOn_eq_singleton hbytes, List.splitOn_eq_singleton hmem]
      rfl
  | parts before after hbefore ih =>
      have hbytes : UInt8.ofNat c.toNat ∉ encode before := by
        rwa [mem_encode_iff hc]
      rw [encode_append, encode_cons, utf8EncodeChar_of_ascii hc, List.singleton_append,
        List.splitOn_append_cons_self_of_not_mem hbytes,
        List.splitOn_append_cons_self_of_not_mem hbefore, ih]
      rfl

end Ascii

end SchemaCodec.Text

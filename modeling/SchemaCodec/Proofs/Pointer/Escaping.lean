import SchemaCodec.Conversion.Fault
import SchemaCodec.Proofs.Text.Encoding
import SchemaCodec.Proofs.Text.Replacement

namespace SchemaCodec.Pointer

/-! Escaped tokens. Character by character, by replacing texts or in a loop over bytes, escaping
gives the same, and what is escaped can be read back. -/

/-- The symbols that escapes are made of, as characters or as bytes. -/
structure Marks (α : Type) where
  tilde : α
  slash : α
  zero : α
  one : α
  slash_ne_tilde : slash ≠ tilde := by decide
  slash_ne_zero : slash ≠ zero := by decide
  slash_ne_one : slash ≠ one := by decide
  zero_ne_tilde : zero ≠ tilde := by decide
  zero_ne_one : zero ≠ one := by decide

namespace Marks

def chars : Marks Char where
  tilde := '~'
  slash := '/'
  zero := '0'
  one := '1'

def bytes : Marks UInt8 where
  tilde := 0x7e
  slash := 0x2f
  zero := 0x30
  one := 0x31

variable {α : Type} [DecidableEq α] (marks : Marks α)

def escapeSymbol (symbol : α) : List α :=
  if symbol = marks.tilde then [marks.tilde, marks.zero]
  else if symbol = marks.slash then [marks.tilde, marks.one]
  else [symbol]

def escape (token : List α) : List α :=
  token.flatMap marks.escapeSymbol

/-- Escape a token by replacing the two symbols in one pass. -/
def escapeByReplacing (token : List α) : List α :=
  Text.replaceAll
    [([marks.tilde], [marks.tilde, marks.zero]), ([marks.slash], [marks.tilde, marks.one])] token

/-- Escape a token in a loop, behind what is written already. -/
def escapeBehind (written : List α) : List α → List α
  | [] => written
  | symbol :: rest =>
    if symbol = marks.tilde then escapeBehind (written ++ [marks.tilde, marks.zero]) rest
    else if symbol = marks.slash then escapeBehind (written ++ [marks.tilde, marks.one]) rest
    else escapeBehind (written ++ [symbol]) rest

/-- Undo the escapes of slashes everywhere, then those of tildes. -/
def unescape (token : List α) : List α :=
  Text.replaceAll [([marks.tilde, marks.zero], [marks.tilde])]
    (Text.replaceAll [([marks.tilde, marks.one], [marks.slash])] token)

def path (tokens : List (List α)) : List α :=
  tokens.flatMap fun token => marks.slash :: marks.escapeByReplacing token

private theorem escape_cons (symbol : α) (rest : List α) :
    marks.escape (symbol :: rest) = marks.escapeSymbol symbol ++ marks.escape rest :=
  rfl

private theorem escape_append (front back : List α) :
    marks.escape (front ++ back) = marks.escape front ++ marks.escape back :=
  List.flatMap_append

private theorem escape_eq_self {token : List α} (htilde : marks.tilde ∉ token)
    (hslash : marks.slash ∉ token) : marks.escape token = token := by
  induction token with
  | nil => rfl
  | cons symbol rest ih =>
      rw [List.mem_cons, not_or] at htilde hslash
      rw [escape_cons, ih htilde.2 hslash.2, escapeSymbol, if_neg (Ne.symm htilde.1),
        if_neg (Ne.symm hslash.1)]
      rfl

private theorem escapeByReplacing_eq (token : List α) :
    marks.escapeByReplacing token = marks.escape token := by
  induction token with
  | nil => rfl
  | cons symbol rest ih =>
      rw [escape_cons, ← ih, escapeSymbol]
      by_cases htilde : symbol = marks.tilde
      · rw [if_pos htilde, htilde]
        exact Text.replaceAll_hit [] (by simp)
      · rw [if_neg htilde]
        by_cases hslash : symbol = marks.slash
        · rw [if_pos hslash, hslash]
          exact Text.replaceAll_hit [] (by simp [marks.slash_ne_tilde.symm])
        · rw [if_neg hslash]
          exact Text.replaceAll_miss (by simp [Ne.symm htilde, Ne.symm hslash])

private theorem escapeBehind_eq (written token : List α) :
    marks.escapeBehind written token = written ++ marks.escape token := by
  induction token generalizing written with
  | nil => exact (List.append_nil written).symm
  | cons symbol rest ih =>
      rw [escapeBehind, escape_cons, escapeSymbol, ih, ih, ih]
      split
      · rw [List.append_assoc]
      · split
        · rw [List.append_assoc]
        · rw [List.append_assoc]

private theorem slash_not_mem_escapeSymbol (symbol : α) :
    marks.slash ∉ marks.escapeSymbol symbol := by
  unfold escapeSymbol
  split
  · simp [marks.slash_ne_tilde, marks.slash_ne_zero]
  · split
    · simp [marks.slash_ne_tilde, marks.slash_ne_one]
    · next hslash => simpa using Ne.symm hslash

private theorem slash_not_mem_escape (token : List α) : marks.slash ∉ marks.escape token := by
  rw [escape, List.mem_flatMap]
  rintro ⟨symbol, -, hslash⟩
  exact marks.slash_not_mem_escapeSymbol symbol hslash

/-! Reading back -/

/-- The tilde of an escaped tilde is never taken for that of an escaped slash, as the digits
differ. -/
theorem replaceAll_escape (token : List α) :
    Text.replaceAll [([marks.tilde, marks.one], [marks.slash])] (marks.escape token) =
      token.flatMap fun symbol =>
        if symbol = marks.tilde then [marks.tilde, marks.zero] else [symbol] := by
  induction token with
  | nil => rfl
  | cons symbol rest ih =>
      rw [escape_cons, escapeSymbol, List.flatMap_cons, ← ih]
      by_cases htilde : symbol = marks.tilde
      · rw [if_pos htilde, if_pos htilde]
        change Text.replaceAll _ (marks.tilde :: marks.zero :: marks.escape rest) = _
        rw [Text.replaceAll_not_second marks.zero_ne_one, Text.replaceAll_not_first marks.zero_ne_tilde]
        rfl
      · rw [if_neg htilde, if_neg htilde]
        by_cases hslash : symbol = marks.slash
        · rw [if_pos hslash, hslash]
          exact Text.replaceAll_pair (marks.escape rest)
        · rw [if_neg hslash]
          exact Text.replaceAll_not_first htilde (marks.escape rest)

theorem unescape_escape (token : List α) : marks.unescape (marks.escape token) = token := by
  rw [unescape, replaceAll_escape]
  induction token with
  | nil => rfl
  | cons symbol rest ih =>
      rw [List.flatMap_cons]
      by_cases htilde : symbol = marks.tilde
      · rw [if_pos htilde, htilde]
        exact (Text.replaceAll_pair _).trans (congrArg (marks.tilde :: ·) ih)
      · rw [if_neg htilde]
        exact (Text.replaceAll_not_first htilde _).trans (congrArg (symbol :: ·) ih)

private theorem escape_injective : Function.Injective marks.escape :=
  Function.LeftInverse.injective marks.unescape_escape

private theorem path_cons (token : List α) (tokens : List (List α)) :
    marks.path (token :: tokens) = marks.slash :: (marks.escape token ++ marks.path tokens) := by
  rw [path, List.flatMap_cons, escapeByReplacing_eq, List.cons_append]
  rfl

/-- A slash ends a token, so the first token is what stands before the next slash. -/
theorem takeWhile_path (token : List α) (tokens : List (List α)) :
    (marks.escape token ++ marks.path tokens).takeWhile (· ≠ marks.slash) = marks.escape token := by
  have hfirst : ∀ symbol ∈ marks.escape token, decide (symbol ≠ marks.slash) = true := by
    intro symbol hsymbol
    rw [decide_eq_true_iff]
    rintro rfl
    exact marks.slash_not_mem_escape token hsymbol
  have hrest : (marks.path tokens).takeWhile (· ≠ marks.slash) = [] := by
    cases tokens with
    | nil => rfl
    | cons next tokens =>
        rw [path_cons]
        exact List.takeWhile_cons_of_neg (by simp)
  rw [List.takeWhile_append_of_pos hfirst, hrest, List.append_nil]

private theorem path_injective : Function.Injective marks.path := by
  intro tokens others h
  induction tokens generalizing others with
  | nil =>
      cases others with
      | nil => rfl
      | cons other others => cases h
  | cons token tokens ih =>
      cases others with
      | nil => cases h
      | cons other others =>
          rw [path_cons, path_cons] at h
          have htail := (List.cons.inj h).2
          have hescaped : marks.escape token = marks.escape other := by
            rw [← marks.takeWhile_path token tokens, htail, marks.takeWhile_path]
          rw [hescaped] at htail
          rw [marks.escape_injective hescaped, ih (List.append_cancel_left htail)]

end Marks

/-! The tokens of a document's places -/

private theorem toList_escape (token : String) :
    (escape token).toList = Marks.chars.escape token.toList :=
  String.toList_ofList

private theorem toList_text (pointer : Pointer) :
    (text pointer).toList = Marks.chars.path (pointer.map String.toList) := by
  induction pointer with
  | nil => rfl
  | cons token rest ih =>
      rw [text, String.toList_append, String.toList_append, toList_escape, ih, List.map_cons,
        Marks.path_cons]
      rfl

/-- A byte that is escaped is a tilde or a slash; it belongs to no other character. -/
theorem encode_escapeChar (c : Char) :
    Text.encode (escapeChar c) = Marks.bytes.escape (String.utf8EncodeChar c) := by
  by_cases htilde : c = '~'
  · rw [htilde]
    rfl
  by_cases hslash : c = '/'
  · rw [hslash]
    rfl
  have hplain : escapeChar c = [c] := by
    rw [escapeChar, if_neg htilde, if_neg hslash]
  have hnoTilde : Marks.bytes.tilde ∉ String.utf8EncodeChar c :=
    fun hmem => htilde (Text.eq_of_mem_utf8EncodeChar hmem (by decide))
  have hnoSlash : Marks.bytes.slash ∉ String.utf8EncodeChar c :=
    fun hmem => hslash (Text.eq_of_mem_utf8EncodeChar hmem (by decide))
  rw [hplain, Marks.bytes.escape_eq_self hnoTilde hnoSlash]
  exact List.append_nil _

private theorem encode_escape (token : String) :
    Text.encode (escape token).toList = Marks.bytes.escape (Text.encode token.toList) := by
  rw [escape, String.toList_ofList]
  induction token.toList with
  | nil => rfl
  | cons c rest ih =>
      rw [List.flatMap_cons, Text.encode_append, ih, encode_escapeChar, Text.encode_cons,
        Marks.escape_append]

private theorem text_injective : Function.Injective text := by
  intro tokens others h
  have hpath := congrArg String.toList h
  rw [toList_text, toList_text] at hpath
  exact (List.map_inj_right fun _ _ => String.toList_inj.mp).mp (Marks.chars.path_injective hpath)

theorem path_down (base : String) (tokens : Pointer) :
    ((Location.ofPath base).down tokens).path = base ++ text tokens :=
  rfl

private theorem path_down_inj {base : String} {tokens others : Pointer} :
    ((Location.ofPath base).down tokens).path = ((Location.ofPath base).down others).path ↔
      tokens = others := by
  constructor
  · intro h
    have hlist := congrArg String.toList h
    rw [path_down, path_down, String.toList_append, String.toList_append] at hlist
    exact text_injective (String.toList_inj.mp (List.append_cancel_left hlist))
  · rintro rfl
    rfl

/-- The library escapes a token like a replacement of its characters, a replacement of its bytes and
a loop over its bytes; what is escaped has no slash and is read back; and a place is known by its
path. The two ways over bytes do so for any bytes, also for those that are no text. -/
theorem escaped_tokens_read_back (token base : String) (tokens others : Pointer)
    (bytes baseBytes : List UInt8) (byteTokens otherBytes : List (List UInt8)) :
    (((Location.ofPath base).down [token]).path = base ++ "/" ++ escape token ∧
      (escape token).toList = Marks.chars.escapeByReplacing token.toList ∧
      Text.encode (escape token).toList =
        Marks.bytes.escapeByReplacing (Text.encode token.toList) ∧
      Text.encode (escape token).toList =
        Marks.bytes.escapeBehind [] (Text.encode token.toList) ∧
      '/' ∉ (escape token).toList ∧
      Marks.chars.unescape (escape token).toList = token.toList) ∧
    (((Location.ofPath base).down tokens).path = ((Location.ofPath base).down others).path ↔
      tokens = others) ∧
    (Marks.bytes.escapeBehind [] bytes = Marks.bytes.escapeByReplacing bytes ∧
      0x2f ∉ Marks.bytes.escapeByReplacing bytes ∧
      Marks.bytes.unescape (Marks.bytes.escapeByReplacing bytes) = bytes) ∧
    (baseBytes ++ Marks.bytes.path byteTokens = baseBytes ++ Marks.bytes.path otherBytes ↔
      byteTokens = otherBytes) := by
  have hreplaced (token : List UInt8) :
      Marks.bytes.escapeByReplacing token = Marks.bytes.escape token :=
    Marks.bytes.escapeByReplacing_eq token
  have hlooped (token : List UInt8) :
      Marks.bytes.escapeBehind [] token = Marks.bytes.escape token :=
    Marks.bytes.escapeBehind_eq [] token
  refine ⟨⟨?_, ?_, ?_, ?_, ?_, ?_⟩, path_down_inj, ⟨?_, ?_, ?_⟩, ?_⟩
  · rw [path_down, text, text, String.append_empty, String.append_assoc]
  · rw [toList_escape, Marks.chars.escapeByReplacing_eq]
  · rw [encode_escape, hreplaced]
  · rw [encode_escape, hlooped]
  · rw [toList_escape]
    exact Marks.chars.slash_not_mem_escape token.toList
  · rw [toList_escape, Marks.chars.unescape_escape]
  · rw [hlooped, hreplaced]
  · rw [hreplaced]
    exact Marks.bytes.slash_not_mem_escape bytes
  · rw [hreplaced, Marks.bytes.unescape_escape]
  · rw [List.append_cancel_left_eq, Marks.bytes.path_injective.eq_iff]

end SchemaCodec.Pointer

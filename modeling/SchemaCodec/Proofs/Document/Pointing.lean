import SchemaCodec.Pointer
import SchemaCodec.Proofs.Document.Repetition
import SchemaCodec.Proofs.Document.Tables
import SchemaCodec.Proofs.Text.Splitting

/-! Pointers: the value of a document that a text points to. -/

namespace SchemaCodec.Pointer

/-- Undo the escapes of a token; `none` if a tilde is followed by neither `0` nor `1`. -/
def unescape? : List Char → Option (List Char)
  | [] => some []
  | '~' :: '0' :: rest => (unescape? rest).map ('~' :: ·)
  | '~' :: '1' :: rest => (unescape? rest).map ('/' :: ·)
  | c :: rest => if c = '~' then none else (unescape? rest).map (c :: ·)

/-- Read a pointer: nothing, or tokens with a slash before each. -/
def ofText? (text : String) : Option Pointer :=
  match Text.splitOn '/' text.toList with
  | [] :: tokens => tokens.mapM fun token => (unescape? token).map String.ofList
  | _ => none

private theorem not_slash_mem_escapeChar (c : Char) : '/' ∉ escapeChar c := by
  unfold escapeChar
  split
  · decide
  · split
    · decide
    · next hslash => exact fun hmem => hslash (List.mem_singleton.mp hmem).symm

private theorem unescape?_escapeChar (c : Char) (rest : List Char) :
    unescape? (escapeChar c ++ rest) = (unescape? rest).map (c :: ·) := by
  unfold escapeChar
  split
  · next htilde => rw [htilde]; rfl
  · next htilde =>
      split
      · next hslash => rw [hslash]; rfl
      · rw [List.singleton_append, unescape?]
        · rw [if_neg htilde]
        · exact fun _ hc => absurd hc htilde
        · exact fun _ hc => absurd hc htilde

private theorem unescape?_flatMap (token : List Char) :
    unescape? (token.flatMap escapeChar) = some token := by
  induction token with
  | nil => rfl
  | cons c rest ih =>
      rw [List.flatMap_cons, unescape?_escapeChar, ih]
      rfl

private theorem splitOn_text (pointer : Pointer) :
    Text.splitOn '/' (text pointer).toList =
      [] :: pointer.map fun token => token.toList.flatMap escapeChar := by
  induction pointer with
  | nil => rfl
  | cons token rest ih =>
      have hescaped : '/' ∉ token.toList.flatMap escapeChar := by
        rw [List.mem_flatMap]
        rintro ⟨c, -, hc⟩
        exact not_slash_mem_escapeChar c hc
      have htext : (text (token :: rest)).toList =
          [] ++ '/' :: (token.toList.flatMap escapeChar ++ (text rest).toList) := by
        rw [text, String.toList_append, String.toList_append, escape, String.toList_ofList,
          String.toList_ofList]
        rfl
      rw [htext, Text.splitOn_append_cons List.not_mem_nil, Text.splitOn_prepend hescaped ih,
        List.append_nil, List.map_cons]

/-- Every pointer is read back from its text. -/
theorem ofText?_text (pointer : Pointer) : ofText? (text pointer) = some pointer := by
  have hread : (pointer.map fun token => token.toList.flatMap escapeChar).mapM
      (fun token => (unescape? token).map String.ofList) = some pointer := by
    induction pointer with
    | nil => rfl
    | cons token rest ih =>
        rw [List.map_cons, List.mapM_cons, ih, unescape?_flatMap]
        simp
  unfold ofText?
  rw [splitOn_text]
  exact hread

end SchemaCodec.Pointer

namespace SchemaCodec.Document

/-- The item or the member that a token names. -/
def child? (d : Document) (token : String) : Option Document :=
  match d with
  | .array items => (items.zipIdx.find? fun entry => toString entry.2 == token).map Prod.fst
  | .object members => members.lookup token
  | _ => none

def at? (d : Document) : Pointer → Option Document
  | [] => some d
  | token :: rest => (d.child? token).bind (at? · rest)

def Has (d : Document) (pointer : Pointer) : Prop :=
  (d.at? pointer).isSome = true

instance (d : Document) (pointer : Pointer) : Decidable (d.Has pointer) :=
  inferInstanceAs (Decidable (_ = true))

theorem at?_append {d part : Document} {front : Pointer} (h : d.at? front = some part)
    (rest : Pointer) : d.at? (front ++ rest) = part.at? rest := by
  induction front generalizing d with
  | nil =>
      cases h
      rfl
  | cons token others ih =>
      rw [at?, Option.bind_eq_some_iff] at h
      obtain ⟨child, hchild, hrest⟩ := h
      rw [List.cons_append, at?, hchild]
      exact ih hrest

theorem at?_of_get? {d value : Document} {key : String} (h : d.get? key = some value) :
    d.at? [key] = some value := by
  cases d with
  | object members =>
      rw [at?, child?, show members.lookup key = some value from h]
      rfl
  | _ => cases h

theorem has_of_get? {d value : Document} {key : String} (h : d.get? key = some value) :
    d.Has [key] := by
  rw [Has, at?_of_get? h]
  rfl

private theorem eq_of_toString_eq {first second : Nat} (h : toString first = toString second) :
    first = second := by
  have hdigits : Nat.toDigits 10 first = Nat.toDigits 10 second := String.ofList_injective h
  have hvalue := congrArg (Nat.ofDigitChars 10 · 0) hdigits
  simpa using hvalue

theorem at?_of_getElem? {items : List Document} {index : Nat} {item : Document}
    (h : items[index]? = some item) : (array items).at? [toString index] = some item := by
  have hfound : (items.zipIdx.find? fun entry => toString entry.2 == toString index).isSome := by
    rw [List.find?_isSome]
    exact ⟨(item, index), List.mem_zipIdx_iff_getElem?.mpr h, beq_self_eq_true _⟩
  obtain ⟨⟨other, position⟩, hother⟩ := Option.isSome_iff_exists.mp hfound
  have hsame := List.find?_some hother
  have hposition : toString position = toString index := beq_iff_eq.mp hsame
  have hmem := List.mem_zipIdx_iff_getElem?.mp (List.mem_of_find?_eq_some hother)
  rw [eq_of_toString_eq hposition] at hmem
  rw [at?, child?, hother]
  exact hmem.symm.trans h

section

variable {d value : Document} {key : String}

private theorem nodup_of_not_repeatsKey {members : List (String × Document)}
    (h : ¬ (object members).RepeatsKey) : (members.map Prod.fst).Nodup :=
  by_contra fun hnodup => h (.here hnodup)

theorem at?_of_mem {members : List (String × Document)} (hkeys : ¬ (object members).RepeatsKey)
    (h : (key, value) ∈ members) : (object members).at? [key] = some value :=
  at?_of_get? ((lookup_eq_some_iff_mem (nodup_of_not_repeatsKey hkeys)).mpr h)

/-- The values inside a document without repeated keys have no repeated keys. -/
theorem not_repeatsKey_of_at? {pointer : Pointer} (hkeys : ¬ d.RepeatsKey)
    (h : d.at? pointer = some value) : ¬ value.RepeatsKey := by
  induction pointer generalizing d with
  | nil =>
      cases h
      exact hkeys
  | cons token rest ih =>
      rw [at?, Option.bind_eq_some_iff] at h
      obtain ⟨child, hchild, hrest⟩ := h
      refine ih (fun hrepeats => hkeys ?_) hrest
      cases d with
      | array items =>
          rw [child?, Option.map_eq_some_iff] at hchild
          obtain ⟨entry, hentry, rfl⟩ := hchild
          exact .item (List.fst_mem_of_mem_zipIdx (List.mem_of_find?_eq_some hentry)) hrepeats
      | object members =>
          have hmember : (token, child) ∈ members :=
            mem_members_of_get? (show (object members).get? token = some child from hchild)
          exact .member hmember hrepeats
      | _ => cases hchild

end

end SchemaCodec.Document

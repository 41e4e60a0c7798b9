import SchemaCodec.Settings.Environment

/-! Texts with variables: each variable gives way to its value, and all else stays. -/

namespace SchemaCodec.Environment

inductive Part where
  | plain (bytes : List UInt8)
  | braced (name : List UInt8)
  | named (name : List UInt8)

namespace Part

def written : Part → List UInt8
  | .plain bytes => bytes
  | .braced name => 36 :: 123 :: (name ++ [125])
  | .named name => 36 :: name

/-- A variable that is not set leaves nothing. -/
def value (environment : Environment) : Part → List UInt8
  | .plain bytes => bytes
  | .braced name | .named name => Text.encode (environment.get (Text.decodeLossy name)).toList

/-- The part ends where the text behind it begins. -/
def Fits (behind : List UInt8) : Part → Prop
  | .plain bytes => ∀ byte ∈ bytes, ascii byte ≠ '$'
  | .braced name => name ≠ [] ∧ ∀ byte ∈ name, ascii byte ≠ '\x7d'
  | .named name =>
    name.head?.any (fun byte => !isSpecial (ascii byte)) = true ∧
      (∀ byte ∈ name, isNamePart (ascii byte) = true) ∧
      behind.head?.all (fun byte => !isNamePart (ascii byte)) = true

instance (behind : List UInt8) : DecidablePred (Fits behind)
  | .plain bytes => List.decidableBAll (fun byte => ascii byte ≠ '$') bytes
  | .braced name =>
    have := List.decidableBAll (fun byte => ascii byte ≠ '\x7d') name
    instDecidableAnd
  | .named name =>
    have := List.decidableBAll (fun byte => isNamePart (ascii byte) = true) name
    instDecidableAnd

end Part

section

variable {environment : Environment} {bytes name behind : List UInt8}

private theorem expand_append (h : ∀ byte ∈ bytes, ascii byte ≠ '$') :
    environment.expand (bytes ++ behind) = bytes ++ environment.expand behind := by
  induction bytes with
  | nil => rfl
  | cons byte bytes ih =>
      rw [List.forall_mem_cons] at h
      have hplain : ¬ (ascii byte = '$' ∧ bytes ++ behind ≠ []) := fun hdollar => h.1 hdollar.1
      rw [List.cons_append, expand, if_neg hplain, ih h.2, List.cons_append]

private theorem takeWhile_append_of_head? {holds : UInt8 → Bool}
    (h : ∀ byte ∈ name, holds byte = true)
    (hbehind : behind.head?.all (fun byte => !holds byte) = true) :
    (name ++ behind).takeWhile holds = name := by
  rw [List.takeWhile_append_of_pos h, List.append_right_eq_self]
  cases behind with
  | nil => rfl
  | cons byte rest =>
      have hbyte : holds byte = false := by simpa using hbehind
      rw [List.takeWhile_cons, hbyte]
      rfl

private theorem useOf_braced (hname : name ≠ []) (h : ∀ byte ∈ name, ascii byte ≠ '\x7d') :
    useOf (123 :: (name ++ 125 :: behind)) = (.variable name, name.length + 2) := by
  have hbraced : useOf.braced (fun b => ascii b == '\x7d') (name ++ 125 :: behind) =
      (.variable name, name.length + 2) := by
    have htake : (name ++ 125 :: behind).takeWhile (fun b => !(ascii b == '\x7d')) = name := by
      refine takeWhile_append_of_head? (fun byte hbyte => ?_) rfl
      simpa using h byte hbyte
    have hlength : name.length ≠ (name ++ 125 :: behind).length := by simp
    simp only [useOf.braced, htake, if_neg hlength, if_neg hname]
  have hopening : ascii 123 = '\x7b' := by decide
  rw [useOf, if_pos hopening]
  -- A name of one sign is found before the closing brace is looked for.
  rcases name with _ | ⟨mark, _ | ⟨second, rest⟩⟩
  · exact absurd rfl hname
  · dsimp only [List.singleton_append]
    split
    · rfl
    · exact hbraced
  · have hsecond : ¬ (isSpecial (ascii mark) = true ∧ (ascii second == '\x7d') = true) := by
      rintro ⟨-, hclosing⟩
      exact h second (by simp) (beq_iff_eq.mp hclosing)
    exact (if_neg hsecond).trans hbraced

private theorem useOf_named (h : (Part.named name).Fits behind) :
    useOf (name ++ behind) = (.variable name, name.length) := by
  obtain ⟨hfirst, hname, hbehind⟩ := h
  obtain ⟨byte, hbyte, hspecial⟩ := (Option.any_eq_true _ _).mp hfirst
  obtain ⟨rest, rfl⟩ := List.head?_eq_some_iff.mp hbyte
  have htake := takeWhile_append_of_head? hname hbehind
  have hopening : ascii byte ≠ '\x7b' := by
    intro hbrace
    have hpart := hname byte (List.mem_cons_self ..)
    rw [hbrace] at hpart
    exact absurd hpart (by decide)
  have hnamed : ¬ isSpecial (ascii byte) = true := by simpa using hspecial
  rw [List.cons_append] at htake ⊢
  rw [useOf, if_neg hopening, if_neg hnamed, htake]
  rfl

private theorem expand_use {text : List UInt8} {length : Nat} (htext : text ≠ [])
    (h : useOf text = (.variable name, length)) :
    environment.expand (36 :: text) =
      Text.encode (environment.get (Text.decodeLossy name)).toList ++
        environment.expand (text.drop length) := by
  have hdollar : ascii 36 = '$' ∧ text ≠ [] := ⟨by decide, htext⟩
  rw [expand, if_pos hdollar, h]

private theorem expand_written {part : Part} (h : part.Fits behind) :
    environment.expand (part.written ++ behind) =
      part.value environment ++ environment.expand behind := by
  cases part with
  | plain bytes => exact expand_append h
  | braced name =>
      have hwritten : (Part.braced name).written ++ behind =
          36 :: 123 :: (name ++ 125 :: behind) := by
        simp [Part.written]
      have hdrop : (123 :: (name ++ 125 :: behind)).drop (name.length + 2) = behind := by
        simp
      rw [hwritten, expand_use (List.cons_ne_nil _ _) (useOf_braced h.1 h.2), hdrop]
      rfl
  | named name =>
      have hne : name ++ behind ≠ [] := by
        cases name with
        | nil => cases h.1
        | cons first rest => exact List.cons_ne_nil _ _
      calc
        environment.expand (36 :: (name ++ behind)) =
            (Part.named name).value environment ++
              environment.expand ((name ++ behind).drop name.length) :=
          expand_use hne (useOf_named h)
        _ = (Part.named name).value environment ++ environment.expand behind := by
            rw [List.drop_left]

end

/-- Each part ends where the next begins. -/
def Fit : List Part → Prop
  | [] => True
  | part :: rest => part.Fits (rest.flatMap Part.written) ∧ Fit rest

instance decidableFit : DecidablePred Fit
  | [] => .isTrue trivial
  | part :: rest =>
    have := decidableFit rest
    inferInstanceAs (Decidable (part.Fits (rest.flatMap Part.written) ∧ Fit rest))

/-- Only variables are replaced, each by its value. -/
theorem expand_parts (environment : Environment) {parts : List Part} (h : Fit parts) :
    environment.expand (parts.flatMap Part.written) = parts.flatMap (Part.value environment) := by
  induction parts with
  | nil => rw [List.flatMap_nil, List.flatMap_nil, expand]
  | cons part rest ih =>
      rw [List.flatMap_cons, List.flatMap_cons, expand_written h.1, ih h.2]

end SchemaCodec.Environment

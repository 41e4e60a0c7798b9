import SchemaCodec.Name
import SchemaCodec.Proofs.Text.Capitals
import SchemaCodec.Proofs.Text.Pieces

namespace SchemaCodec.Name

/-! Names derived from texts of any symbols. For characters this is how the library derives names;
for bytes it says what becomes of texts that are no UTF-8. -/

/-- What deriving names takes: a hyphen, capital forms that are final, and which texts consist of
capitals. -/
structure Script (α : Type) [DecidableEq α] where
  hyphen : α
  capitalize : List α → List α
  isCapitals : List α → Bool
  capitalize_nil : capitalize [] = []
  capitalize_append : ∀ {word : List α}, word ≠ [] → ∀ rest,
    capitalize (capitalize word ++ rest) = capitalize word ++ rest
  hyphen_not_mem : ∀ {word : List α}, hyphen ∉ word → hyphen ∉ capitalize word
  isCapitals_filter : ∀ {text : List α}, isCapitals text = true →
    isCapitals (text.filter (· ≠ hyphen)) = true

namespace Script

variable {α : Type} [DecidableEq α] (script : Script α)

def joinKebab (text : List α) : List α :=
  (text.splitOn script.hyphen).flatMap script.capitalize

/-- Drop the hyphens; a text that is not all capitals is capitalized part by part. -/
def joinAny (text : List α) : List α :=
  if script.isCapitals text then text.filter (· ≠ script.hyphen) else script.joinKebab text

private theorem joinKebab_of_not_mem {text : List α} (h : script.hyphen ∉ text) :
    script.joinKebab text = script.capitalize text := by
  rw [joinKebab, List.splitOn_eq_singleton h, List.flatMap_singleton]

theorem joinKebab_append (front back : List α) :
    script.joinKebab (front ++ script.hyphen :: back) =
      script.joinKebab front ++ script.joinKebab back := by
  rw [joinKebab, List.splitOn_append_cons_self, List.flatMap_append]
  rfl

theorem hyphen_not_mem_joinKebab (text : List α) : script.hyphen ∉ script.joinKebab text := by
  induction text using Text.separated_induction script.hyphen with
  | whole text hmem =>
      rw [script.joinKebab_of_not_mem hmem]
      exact script.hyphen_not_mem hmem
  | parts before after hbefore ih =>
      rw [joinKebab_append, script.joinKebab_of_not_mem hbefore, List.mem_append, not_or]
      exact ⟨script.hyphen_not_mem hbefore, ih⟩

/-- Empty parts add nothing, so a capital of the first part that is not empty comes first. -/
theorem capitalize_flatMap (parts : List (List α)) :
    script.capitalize (parts.flatMap script.capitalize) = parts.flatMap script.capitalize := by
  induction parts with
  | nil => exact script.capitalize_nil
  | cons part parts ih =>
      rw [List.flatMap_cons]
      by_cases hpart : part = []
      · rw [hpart, script.capitalize_nil, List.nil_append, ih]
      · exact script.capitalize_append hpart _

theorem joinKebab_joinKebab (text : List α) :
    script.joinKebab (script.joinKebab text) = script.joinKebab text := by
  rw [script.joinKebab_of_not_mem (script.hyphen_not_mem_joinKebab text)]
  exact script.capitalize_flatMap (text.splitOn script.hyphen)

theorem hyphen_not_mem_joinAny (text : List α) : script.hyphen ∉ script.joinAny text := by
  unfold joinAny
  split
  · simp
  · exact script.hyphen_not_mem_joinKebab text

theorem filter_eq_self {text : List α} (h : script.hyphen ∉ text) :
    text.filter (· ≠ script.hyphen) = text := by
  rw [List.filter_eq_self]
  intro symbol hsymbol
  rw [decide_eq_true_iff]
  rintro rfl
  exact h hsymbol

/-- Capitals stay capitals. What was capitalized part by part may have become all capitals; either
way it is not changed again. -/
theorem joinAny_joinAny (text : List α) :
    script.joinAny (script.joinAny text) = script.joinAny text := by
  have hclean := script.filter_eq_self (script.hyphen_not_mem_joinAny text)
  cases htext : script.isCapitals text with
  | true =>
      have hname : script.joinAny text = text.filter (· ≠ script.hyphen) := by
        rw [joinAny, htext]
        rfl
      have hcapitals : script.isCapitals (script.joinAny text) = true := by
        rw [hname]
        exact script.isCapitals_filter htext
      rw [joinAny, hcapitals, if_pos rfl, hclean]
  | false =>
      have hname : script.joinAny text = script.joinKebab text := by
        rw [joinAny, htext]
        rfl
      rw [joinAny, hclean]
      split
      · rfl
      · rw [hname, joinKebab_joinKebab]

end Script

/-! Characters -/

theorem capitalize_append {word : List Char} (h : word ≠ []) (rest : List Char) :
    capitalize (capitalize word ++ rest) = capitalize word ++ rest := by
  cases word with
  | nil => exact absurd rfl h
  | cons c word =>
      change Text.upper (Text.upper c) :: (word ++ rest) = _
      rw [Text.upper_upper]
      rfl

private theorem hyphen_not_mem_capitalize {word : List Char} (h : '-' ∉ word) :
    '-' ∉ capitalize word := by
  cases word with
  | nil => exact h
  | cons c word =>
      obtain ⟨hc, hword⟩ := not_or.mp (mt List.mem_cons.mpr h)
      rw [capitalize, List.mem_cons, not_or]
      refine ⟨?_, hword⟩
      intro hupper
      exact hc ((Text.upper_eq_iff (by decide)).mp hupper.symm).symm

def chars : Script Char where
  hyphen := '-'
  capitalize := capitalize
  isCapitals := Text.isUpper
  capitalize_nil := rfl
  capitalize_append := capitalize_append
  hyphen_not_mem := hyphen_not_mem_capitalize
  isCapitals_filter := by
    intro text h
    rw [Text.isUpper, List.all_eq_true] at h ⊢
    intro c hc
    exact h c (List.mem_of_mem_filter hc)

theorem chars_joinKebab (text : List Char) : chars.joinKebab text = joinKebab text := by
  rw [joinKebab, Text.splitOn_eq]
  rfl

theorem chars_joinAny (text : List Char) : chars.joinAny text = joinAny text := by
  rw [Script.joinAny, chars_joinKebab]
  rfl

end SchemaCodec.Name

import Mathlib.Data.List.TakeWhile
import SchemaCodec.Proofs.Decimal.Layout
import SchemaCodec.Proofs.Json.Spelling
import SchemaCodec.Proofs.Meaning.Equality
import SchemaCodec.Proofs.Text.Splitting
import SchemaCodec.Yaml.Resolution

/-! What numerals denote, and which of them JSON writes in the same way. -/

namespace SchemaCodec.Decimal

namespace Numeral

private theorem exists_digitChar {c : Char} (h : c.isDigit = true) :
    ∃ d < 10, c = Nat.digitChar d := by
  have hall : Json.numeralChars.all (fun c => !c.isDigit ||
      (List.range 10).any fun d => c == Nat.digitChar d) = true := by decide
  have hc := List.all_eq_true.mp hall c (Json.mem_numeralChars_of_isDigit h)
  rw [h] at hc
  obtain ⟨d, hd, heq⟩ := List.any_eq_true.mp hc
  exact ⟨d, List.mem_range.mp hd, beq_iff_eq.mp heq⟩

private theorem digitValue?_digitChar {d : Nat} (h : d < 10) :
    digitValue? d.digitChar = some d := by
  have hall : ∀ d < 10, digitValue? (Nat.digitChar d) = some d := by decide
  exact hall d h

private theorem isDigitIn_of_isDigit {c : Char} (h : c.isDigit = true) : isDigitIn 10 c = true := by
  obtain ⟨d, hd, rfl⟩ := exists_digitChar h
  rw [isDigitIn, digitValue?_digitChar hd]
  exact decide_eq_true hd

private theorem ne_of_isDigit {c other : Char} (h : c.isDigit = true)
    (hother : other.isDigit = false) :
    c ≠ other := by
  rintro rfl
  rw [h] at hother
  cases hother

private theorem not_mem_of_isDigit {text : List Char} (h : ∀ c ∈ text, c.isDigit = true)
    {other : Char}
    (hother : other.isDigit = false) : other ∉ text :=
  fun hmem => ne_of_isDigit (h other hmem) hother rfl

private theorem isDigit_of_whole {text : List Char} (h : Json.Whole text) :
    ∀ c ∈ text, c.isDigit = true := by
  obtain ⟨first, rest, rfl, hfirst, hrest⟩ := h.exists_cons
  exact List.forall_mem_cons.mpr ⟨hfirst, hrest⟩

private theorem contains_underscore_of_whole {text : List Char} (h : Json.Whole text) :
    text.contains '_' = false := by
  simpa using not_mem_of_isDigit (isDigit_of_whole h) (by decide : '_'.isDigit = false)

private theorem isPart_of_whole {text : List Char} (h : Json.Whole text) :
    ∀ c ∈ text, (c == '_' || isDigitIn 10 c) = true := by
  intro c hc
  rw [isDigitIn_of_isDigit (isDigit_of_whole h c hc), Bool.or_true]

private theorem value_append_digit (base : Nat) (digits : List Char) {c : Char} {d : Nat}
    (h : digitValue? c = some d) : value base (digits ++ [c]) = value base digits * base + d := by
  rw [value, List.foldl_append, List.foldl_cons, List.foldl_nil, h]
  rfl

private theorem value_toDigits (n : Nat) : value 10 (Nat.toDigits 10 n) = n := by
  induction n using Nat.strongRecOn with
  | ind n ih =>
      by_cases hlt : n < 10
      · rw [Nat.toDigits_of_lt_base hlt, ← List.nil_append [_],
          value_append_digit 10 [] (digitValue?_digitChar hlt)]
        exact Nat.zero_add n
      · have hle : 10 ≤ n := Nat.le_of_not_lt hlt
        have hdigit := digitValue?_digitChar (Nat.mod_lt n (by decide : 0 < 10))
        rw [Nat.toDigits_of_base_le (by decide) hle, value_append_digit 10 _ hdigit,
          ih (n / 10) (by omega)]
        exact Nat.div_add_mod' n 10

/-! Signs -/

private theorem splitSign_of_isDigit {first : Char} (h : first.isDigit = true) (rest : List Char) :
    splitSign (first :: rest) = (false, first :: rest) := by
  unfold splitSign
  split
  · next heq => exact absurd (List.cons.inj heq).1 (ne_of_isDigit h (by decide))
  · next heq => exact absurd (List.cons.inj heq).1 (ne_of_isDigit h (by decide))
  · rfl

/-- A natural numeral begins with none of the two signs. -/
theorem splitSign_of_natural? {text : List Char} {n : Nat} (h : natural? text = some n) :
    splitSign text = (false, text) := by
  unfold splitSign
  split
  · simp [natural?, splitBase, isDigitIn, digitValue?] at h
  · simp [natural?, splitBase, isDigitIn, digitValue?] at h
  · rfl

theorem natural?_of_word? {text : List Char} {n : Nat} (h : word? text = some n) :
    natural? text = some n ∧ n < Nat.pow 2 64 := by
  unfold word? at h
  split at h
  · next size hsize =>
      split at h
      · next hlt =>
          cases h
          exact ⟨hsize, hlt⟩
      · cases h
  · cases h

/-! Whole numbers as JSON writes them -/

private theorem splitBase_of_ne_zero {first : Char} (h : first ≠ '0') (rest : List Char) :
    splitBase (first :: rest) = (10, first :: rest) := by
  unfold splitBase
  split
  · next heq => exact absurd (List.cons.inj heq).1 h
  · next heq => exact absurd (List.cons.inj heq).1 h
  · rfl

theorem natural?_of_whole {text : List Char} (h : Json.Whole text) :
    natural? text = some (value 10 text) := by
  have hall := List.all_eq_true.mpr (isPart_of_whole h)
  have hunderscore := contains_underscore_of_whole h
  cases h with
  | zero => decide
  | digits _ hzero _ =>
      unfold natural?
      rw [splitBase_of_ne_zero hzero]
      dsimp only
      rw [hall, hunderscore, if_pos ⟨List.cons_ne_nil _ _, rfl, Bool.or_true _⟩]

def IsMark (c : Char) : Prop :=
  c = '.' ∨ c = 'e' ∨ c = 'E'

private theorem IsMark.not_isDigitIn {c : Char} (h : IsMark c) :
    (c == '_' || isDigitIn 8 c) = false ∧ (c == '_' || isDigitIn 10 c) = false ∧
      letterBase? c = none := by
  rcases h with rfl | rfl | rfl <;> decide

private theorem mark_of_parts {fraction exponent : List Char} (hfraction : Json.Fraction fraction)
    (hexponent : Json.Exponent exponent) :
    fraction ++ exponent = [] ∨
      ∃ mark next rest, fraction ++ exponent = mark :: next :: rest ∧ IsMark mark := by
  cases hfraction with
  | digits hdigits =>
      obtain ⟨next, rest, rfl⟩ := List.exists_cons_of_ne_nil hdigits.1
      exact .inr ⟨'.', next, rest ++ exponent, rfl, .inl rfl⟩
  | absent =>
      cases hexponent with
      | absent => exact .inl rfl
      | @digits mark sign digits hmark hsign hdigits =>
          obtain ⟨next, rest, hnext⟩ := List.exists_cons_of_ne_nil
            (List.append_ne_nil_of_right_ne_nil sign hdigits.1)
          exact .inr ⟨mark, next, rest, by rw [List.nil_append, hnext], .inr hmark⟩

private theorem natural?_eq_none {text digits : List Char} {base : Nat}
    (h : splitBase text = (base, digits)) {c : Char} (hmem : c ∈ digits)
    (hc : (c == '_' || isDigitIn base c) = false) : natural? text = none := by
  unfold natural?
  rw [h]
  refine if_neg ?_
  rintro ⟨-, hall, -⟩
  rw [List.all_eq_true.mp hall c hmem] at hc
  cases hc

/-- A JSON number that is a natural numeral has neither sign, fraction nor exponent. -/
theorem whole_of_natural? {text : List Char} {n : Nat} (hnumber : Json.Number text)
    (h : natural? text = some n) : Json.Whole text := by
  have hsign := splitSign_of_natural? h
  obtain ⟨rfl | rfl, hwhole, hfraction, hexponent⟩ := hnumber
  · rename_i whole fraction exponent
    rw [List.nil_append] at h ⊢
    rcases mark_of_parts hfraction hexponent with hnone | ⟨mark, next, rest, hparts, hmark⟩
    · rwa [hnone, List.append_nil]
    · obtain ⟨hoctal, hdecimal, hletter⟩ := hmark.not_isDigitIn
      rw [hparts] at h
      cases hwhole with
      | zero =>
          have hbase : splitBase ('0' :: mark :: next :: rest) = (8, mark :: next :: rest) := by
            rw [splitBase, hletter]
          have hnone := natural?_eq_none hbase List.mem_cons_self hoctal
          rw [List.cons_append, List.nil_append, hnone] at h
          cases h
      | @digits first others hfirst hzero hrest =>
          have hbase := splitBase_of_ne_zero hzero (others ++ mark :: next :: rest)
          have hmem : mark ∈ first :: (others ++ mark :: next :: rest) := by simp
          have hnone := natural?_eq_none hbase hmem hdecimal
          rw [List.cons_append, hnone] at h
          cases h
  · cases hsign

/-! Binary numbers -/

def IsWord (text : List Char) : Prop :=
  lowerAscii (splitSign text).2 = "inf".toList ∨ lowerAscii (splitSign text).2 = "infinity".toList ∨
    lowerAscii text = "nan".toList

instance (text : List Char) : Decidable (IsWord text) :=
  inferInstanceAs (Decidable (_ ∨ _ ∨ _))

private theorem splitSign_snd (text : List Char) :
    (splitSign text).2 = text ∨ (splitSign text).2.length < text.length := by
  unfold splitSign
  split
  · exact .inr (Nat.lt_succ_self _)
  · exact .inr (Nat.lt_succ_self _)
  · exact .inl rfl

private theorem splitSign_of_nan {text : List Char} (h : lowerAscii text = "nan".toList) :
    (splitSign text).2 = text := by
  unfold splitSign
  split
  · simp [lowerAscii] at h
  · simp [lowerAscii] at h
  · rfl

private theorem not_isWord_of_isDigit {first : Char} (h : first.isDigit = true) (rest : List Char) :
    ¬ IsWord (first :: rest) := by
  have hletter : ∀ d < 10, (Nat.digitChar d).toLower ≠ 'i' ∧ (Nat.digitChar d).toLower ≠ 'n' := by
    decide
  obtain ⟨d, hd, hfirst⟩ := exists_digitChar h
  obtain ⟨hi, hn⟩ := hfirst ▸ hletter d hd
  unfold IsWord
  rw [splitSign_of_isDigit h]
  rintro (hword | hword | hword)
  · exact hi (List.cons.inj hword).1
  · exact hi (List.cons.inj hword).1
  · exact hn (List.cons.inj hword).1

end Numeral

namespace Binary64

private theorem nearest_cases (negative : Bool) (numerator denominator : Nat) :
    (nearest negative numerator denominator).IsFinite ∨
      nearest negative numerator denominator = .infinite negative ∧
        greatestExponent ≤ exponentFor numerator denominator := by
  unfold nearest
  split
  · exact .inl trivial
  · dsimp only
    generalize hrounded : (if _ = Nat.pow 2 53 then _ else _ : Nat × Int) = rounded
    have hcarry : rounded.2 ≤ exponentFor numerator denominator + 1 := by
      rw [← hrounded]
      split
      · exact Int.le_refl _
      · exact Int.le_add_one (Int.le_refl _)
    split
    · next hlarge => exact .inr ⟨rfl, Int.le_of_lt_add_one (Int.lt_of_lt_of_le hlarge hcarry)⟩
    · exact .inl trivial

private theorem nearest_isFinite_of_word {n : Nat} (h : n < Nat.pow 2 64) (negative : Bool) :
    (nearest negative n 1).IsFinite := by
  have hlog : n.log2 < 64 := by
    by_cases hzero : n = 0
    · rw [hzero]
      decide
    · exact (Nat.log2_lt hzero).mpr h
  have hexponent : exponentFor n 1 < greatestExponent := by
    unfold exponentFor
    dsimp only
    have hone : Nat.log2 1 = 0 := by decide
    rw [hone]
    refine Int.max_lt.mpr ⟨?_, by decide⟩
    unfold greatestExponent
    split <;> omega
  rcases nearest_cases negative n 1 with hfinite | ⟨-, hlarge⟩
  · exact hfinite
  · exact absurd hlarge (Int.not_le.mpr hexponent)

end Binary64

namespace Numeral

theorem binary64?_of_isWord {text : List Char} (h : IsWord text) :
    ∃ x, binary64? text = some x ∧ ¬ x.IsFinite := by
  unfold binary64?
  dsimp only
  by_cases hinf : lowerAscii (splitSign text).2 = "inf".toList ∨
      lowerAscii (splitSign text).2 = "infinity".toList
  · rw [if_pos hinf]
    exact ⟨_, rfl, id⟩
  · rw [if_neg hinf]
    have hnan : lowerAscii text = "nan".toList := by
      rcases h with hword | hword | hword
      · exact absurd (.inl hword) hinf
      · exact absurd (.inr hword) hinf
      · exact hword
    have hbody := splitSign_of_nan hnan
    rw [hbody, if_pos ⟨hnan, Nat.lt_irrefl _⟩]
    exact ⟨_, rfl, id⟩

private theorem magnitude?_eq_nearest {negative : Bool} {text : List Char} {x : Binary64}
    (h : magnitude? negative text = some x) :
    ∃ numerator denominator, x = .nearest negative numerator denominator := by
  unfold magnitude? at h
  split at h
  split at h
  dsimp only at h
  split at h
  · cases h
  · split at h
    · cases h
    · exact ⟨_, _, (Option.some.inj h).symm⟩

theorem binary64?_isFinite {text : List Char} {x : Binary64} (hword : ¬ IsWord text)
    (h : binary64? text = some x) : x.IsFinite := by
  unfold binary64? at h
  dsimp only at h
  split at h
  · next hinf => exact absurd (hinf.elim .inl fun hlong => .inr (.inl hlong)) hword
  · split at h
    · next hnan =>
        have hbody := (splitSign_snd text).resolve_right hnan.2
        exact absurd (.inr (.inr (hbody ▸ hnan.1))) hword
    · split at h
      · cases h
      · split at h
        · cases h
        · next hnot =>
            obtain ⟨numerator, denominator, rfl⟩ := magnitude?_eq_nearest h
            rcases Binary64.nearest_cases (splitSign text).1 numerator denominator with
              hfinite | ⟨hinfinite, -⟩
            · exact hfinite
            · exact absurd (hinfinite ▸ h) (hnot _)

private theorem splitMantissa_of_whole {text : List Char} (h : Json.Whole text) :
    splitMantissa 10 text = (text, [], []) := by
  unfold splitMantissa
  dsimp only
  rw [List.takeWhile_eq_self_iff.mpr (isPart_of_whole h),
    List.dropWhile_eq_nil_iff.mpr (isPart_of_whole h)]

private theorem magnitude?_of_whole {text : List Char} (h : Json.Whole text) (negative : Bool) :
    magnitude? negative text = some (.nearest negative (value 10 text) 1) := by
  have hmantissa := splitMantissa_of_whole h
  have hkept : text.filter (· ≠ '_') = text := by
    refine List.filter_eq_self.mpr fun c hc => decide_eq_true ?_
    exact ne_of_isDigit (isDigit_of_whole h c hc) (by decide)
  cases h with
  | zero => cases negative <;> decide
  | digits _ hzero _ =>
      unfold magnitude?
      split
      next hframe =>
        split at hframe
        · next heq => exact absurd (List.cons.inj heq).1 hzero
        · cases hframe
          rw [hmantissa]
          dsimp only
          rw [List.append_nil, hkept, if_neg (List.cons_ne_nil _ _)]
          exact congrArg some (congrArg (Binary64.nearest negative · 1) (Nat.mul_one _))

theorem binary64?_of_whole {text : List Char} (h : Json.Whole text)
    (hword : value 10 text < Nat.pow 2 64) : (binary64? text).isSome = true := by
  have hmagnitude := magnitude?_of_whole h false
  have hfinite := Binary64.nearest_isFinite_of_word hword false
  have hunderscore := contains_underscore_of_whole h
  obtain ⟨first, rest, rfl, hfirst, -⟩ := h.exists_cons
  have hnotWord := not_isWord_of_isDigit hfirst rest
  unfold IsWord at hnotWord
  unfold binary64?
  rw [splitSign_of_isDigit hfirst] at hnotWord ⊢
  dsimp only at hnotWord ⊢
  rw [not_or, not_or] at hnotWord
  obtain ⟨hinf, hinfinity, hnan⟩ := hnotWord
  rw [if_neg (not_or.mpr ⟨hinf, hinfinity⟩), if_neg (fun hboth => hnan hboth.1),
    if_neg (by rw [hunderscore]; exact fun hboth => Bool.false_ne_true hboth.1), hmagnitude]
  split
  · next heq =>
      rw [Option.some.inj heq] at hfinite
      exact hfinite.elim
  · rfl

end Numeral

/-! The values of whole numbers -/

private theorem magnitude?_whole {text : List Char} (h : Json.Whole text) :
    Number.magnitude? text = some (Numeral.value 10 text : ℚ) := by
  have hdigits := Numeral.isDigit_of_whole h
  have hmark : ∀ c ∈ text, (!(c == 'e' || c == 'E')) = true := by
    intro c hc
    have hsmall := Numeral.ne_of_isDigit (hdigits c hc) (by decide : 'e'.isDigit = false)
    have hlarge := Numeral.ne_of_isDigit (hdigits c hc) (by decide : 'E'.isDigit = false)
    simp [hsmall, hlarge]
  have hall : text.all (Numeral.isDigitIn 10) = true :=
    List.all_eq_true.mpr fun c hc => Numeral.isDigitIn_of_isDigit (hdigits c hc)
  have hpoint := Text.cut?_of_not_mem
    (Numeral.not_mem_of_isDigit hdigits (by decide : '.'.isDigit = false))
  obtain ⟨first, rest, rfl, -, -⟩ := h.exists_cons
  unfold Number.magnitude?
  dsimp only
  rw [List.dropWhile_eq_nil_iff.mpr hmark]
  dsimp only
  rw [Number.mantissa?, hpoint]
  dsimp only
  rw [Numeral.digits?, if_pos ⟨List.cons_ne_nil _ _, hall⟩]
  rfl

theorem value?_whole {text : List Char} (h : Json.Whole text) :
    Number.value? (String.ofList text) = some (Numeral.value 10 text : ℚ) := by
  have hmagnitude := magnitude?_whole h
  obtain ⟨first, rest, rfl, hfirst, -⟩ := h.exists_cons
  unfold Number.value?
  rw [String.toList_ofList]
  split
  · next heq =>
      exact absurd (List.cons.inj heq).1 (Numeral.ne_of_isDigit hfirst (by decide))
  · exact hmagnitude

private theorem value?_minus_whole {text : List Char} (h : Json.Whole text) :
    Number.value? (String.ofList ('-' :: text)) = some (-(Numeral.value 10 text : ℚ)) := by
  unfold Number.value?
  rw [String.toList_ofList]
  change (Number.magnitude? text).map Neg.neg = _
  rw [magnitude?_whole h]
  rfl

theorem number_toString (n : Int) :
    Json.Number (toString n).toList ∧ Number.value? (toString n) = some (n : ℚ) := by
  cases n with
  | ofNat n =>
      have htext : toString (Int.ofNat n) = String.ofList (Nat.toDigits 10 n) :=
        Nat.toString_eq_ofList_toDigits
      rw [htext, String.toList_ofList, value?_whole (whole_toDigits n), Numeral.value_toDigits]
      exact ⟨(unsigned_of_whole (whole_toDigits n)).number false, rfl⟩
  | negSucc n =>
      have htext : toString (Int.negSucc n) = String.ofList ('-' :: Nat.toDigits 10 (n + 1)) := by
        rw [Int.toString_eq_repr, Int.repr_eq_if, if_neg (by omega)]
        change "-" ++ (n + 1).repr = _
        rw [Nat.repr_eq_ofList_toDigits, ← String.toList_inj]
        simp
      rw [htext, String.toList_ofList, value?_minus_whole (whole_toDigits _),
        Numeral.value_toDigits]
      refine ⟨(unsigned_of_whole (whole_toDigits _)).number true, ?_⟩
      rw [Int.cast_negSucc]

end SchemaCodec.Decimal

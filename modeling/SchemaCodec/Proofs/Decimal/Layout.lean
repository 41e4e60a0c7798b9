import SchemaCodec.Decimal.Shortest
import SchemaCodec.Proofs.Json.Spelling

/-! Every finite binary number is written as JSON writes numbers. -/

namespace SchemaCodec.Decimal

/-! Digits that do not begin with a zero -/

inductive Significant : List Char → Prop where
  | digits {first : Char} {rest : List Char} :
      first.isDigit = true → first ≠ '0' → (∀ c ∈ rest, c.isDigit = true) →
        Significant (first :: rest)

namespace Significant

theorem isDigit {digits : List Char} (h : Significant digits) : ∀ c ∈ digits, c.isDigit = true := by
  obtain ⟨hfirst, -, hrest⟩ := h
  exact List.forall_mem_cons.mpr ⟨hfirst, hrest⟩

theorem ne_nil {digits : List Char} (h : Significant digits) : digits ≠ [] := by
  cases h
  exact List.cons_ne_nil _ _

theorem whole {digits : List Char} (h : Significant digits) : Json.Whole digits := by
  obtain ⟨hfirst, hzero, hrest⟩ := h
  exact .digits hfirst hzero hrest

theorem append {digits more : List Char} (h : Significant digits)
    (hmore : ∀ c ∈ more, c.isDigit = true) : Significant (digits ++ more) := by
  obtain ⟨hfirst, hzero, hrest⟩ := h
  exact .digits hfirst hzero (List.forall_mem_append.mpr ⟨hrest, hmore⟩)

theorem take {digits : List Char} (h : Significant digits) (count : Nat) :
    Significant (digits.take (count + 1)) := by
  obtain ⟨hfirst, hzero, hrest⟩ := h
  exact .digits hfirst hzero fun c hc => hrest c (List.mem_of_mem_take hc)

end Significant

private theorem isDigit_digitChar {n : Nat} (h : n < 10) : n.digitChar.isDigit = true := by
  have hall : ∀ n < 10, n.digitChar.isDigit = true := by decide
  exact hall n h

private theorem isDigit_zeros (count : Nat) : ∀ c ∈ List.replicate count '0', c.isDigit = true := by
  intro c hc
  rw [List.eq_of_mem_replicate hc]
  rfl

private theorem significant_toDigits {n : Nat} (h : 0 < n) : Significant (Nat.toDigits 10 n) := by
  induction n using Nat.strongRecOn with
  | ind n ih =>
      by_cases hlt : n < 10
      · have hzero : ∀ n < 10, 0 < n → n.digitChar ≠ '0' := by decide
        rw [Nat.toDigits_of_lt_base hlt]
        exact .digits (isDigit_digitChar hlt) (hzero n hlt h) (List.forall_mem_nil _)
      · have hle : 10 ≤ n := Nat.le_of_not_lt hlt
        rw [Nat.toDigits_of_base_le (by decide) hle]
        apply (ih (n / 10) (by omega) (by omega)).append
        intro c hc
        rw [List.mem_singleton.mp hc]
        exact isDigit_digitChar (Nat.mod_lt n (by decide))

private theorem digits_toDigits (n : Nat) : Json.Digits (Nat.toDigits 10 n) :=
  ⟨Nat.toDigits_ne_nil, fun _ hc => Nat.isDigit_of_mem_toDigits (by decide) (by decide) hc⟩

theorem whole_toDigits (n : Nat) : Json.Whole (Nat.toDigits 10 n) := by
  cases n with
  | zero => exact .zero
  | succ n => exact (significant_toDigits (Nat.succ_pos n)).whole

private theorem dropTrailingZeros_cons {first : Char} (h : first ≠ '0') (rest : List Char) :
    dropTrailingZeros (first :: rest) = first :: dropTrailingZeros rest := by
  unfold dropTrailingZeros
  rw [List.reverse_cons, List.dropWhile_append]
  split
  · next hempty => simp [List.isEmpty_iff.mp hempty, h]
  · rw [List.reverse_append]
    rfl

theorem Significant.dropTrailingZeros {digits : List Char} (h : Significant digits) :
    Significant (dropTrailingZeros digits) := by
  obtain ⟨hfirst, hzero, hrest⟩ := h
  rw [dropTrailingZeros_cons hzero]
  refine .digits hfirst hzero fun c hc => hrest c ?_
  exact List.mem_reverse.mp ((List.dropWhile_sublist _).subset (List.mem_reverse.mp hc))

/-! The shortest decimal has a digit other than zero: every grid that is searched is as fine as the
number at least. -/

namespace Shortest

/-- The number is at least the power of ten. -/
def Interval.Reaches (i : Interval) (exponent : Int) : Prop :=
  i.denominator * Nat.pow 10 exponent.toNat ≤ i.value * Nat.pow 10 (-exponent).toNat

private theorem Interval.Reaches.finer {i : Interval} {exponent : Int} (h : i.Reaches exponent) :
    i.Reaches (exponent - 1) := by
  unfold Interval.Reaches at h ⊢
  by_cases hpos : 0 < exponent
  · have hup : exponent.toNat = (exponent - 1).toNat + 1 := by omega
    have hdown : (-(exponent - 1)).toNat = (-exponent).toNat := by omega
    rw [hdown]
    refine Nat.le_trans (Nat.mul_le_mul_left _ ?_) h
    exact Nat.pow_le_pow_right (by decide) (by omega)
  · have hup : (exponent - 1).toNat = exponent.toNat := by omega
    rw [hup]
    refine Nat.le_trans h (Nat.mul_le_mul_left _ ?_)
    exact Nat.pow_le_pow_right (by decide) (by omega)

private theorem reaches_leadingExponent {i : Interval} (hvalue : 0 < i.value)
    (hdenominator : 0 < i.denominator) :
    i.Reaches (leadingExponent i.value i.denominator) := by
  unfold Interval.Reaches leadingExponent
  split
  · next hle =>
      generalize hlength : (Nat.toDigits 10 (i.value / i.denominator)).length = length
      have hpos : 0 < length := hlength ▸ Nat.length_toDigits_pos
      have hup : ((length : Int) - 1).toNat = length - 1 := by omega
      have hdown : (-((length : Int) - 1)).toNat = 0 := by omega
      rw [hup, hdown, Nat.mul_comm]
      refine Nat.le_trans ?_ (Nat.le_of_eq (Nat.mul_one _).symm)
      refine (Nat.le_div_iff_mul_le hdenominator).mp ?_
      cases Nat.eq_or_lt_of_le hpos with
      | inl hone =>
          rw [← hone]
          exact Nat.div_pos hle hdenominator
      | inr hmore =>
          refine Nat.le_of_not_lt fun hlt => ?_
          have hshort := (Nat.length_toDigits_le_iff (by decide) (by omega)).mpr hlt
          omega
  · next hlt =>
      generalize hlength : (Nat.toDigits 10 ((i.denominator - 1) / i.value)).length = length
      have hpos : 0 < length := hlength ▸ Nat.length_toDigits_pos
      have hup : (-(length : Int)).toNat = 0 := by omega
      have hdown : (- -(length : Int)).toNat = length := by omega
      rw [hup, hdown]
      have hbound := (Nat.length_toDigits_le_iff (by decide) hpos).mp (Nat.le_of_eq hlength)
      have hmul := (Nat.div_lt_iff_lt_mul hvalue).mp hbound
      rw [Nat.mul_comm] at hmul
      refine Nat.le_trans (Nat.le_of_eq (Nat.mul_one _)) ?_
      exact Nat.le_of_pred_lt hmul

private theorem neighbours_pos {i : Interval} {exponent : Int} (hdenominator : 0 < i.denominator)
    (h : i.Reaches exponent) :
    0 < (neighbours i exponent).1.digits ∧ 0 < (neighbours i exponent).2.digits := by
  have hbelow : 0 < i.value * Nat.pow 10 (-exponent).toNat /
      (i.denominator * Nat.pow 10 exponent.toNat) :=
    Nat.div_pos h (Nat.mul_pos hdenominator (Nat.pow_pos (by decide)))
  unfold neighbours
  dsimp only
  split
  · exact ⟨hbelow, Nat.succ_pos _⟩
  · exact ⟨Nat.succ_pos _, hbelow⟩

private theorem search_pos {i : Interval} (hdenominator : 0 < i.denominator) (tries : Nat)
    (exponent : Int) (h : i.Reaches exponent) : 0 < (search i tries exponent).digits := by
  obtain ⟨hnear, hfar⟩ := neighbours_pos hdenominator h
  induction tries generalizing exponent with
  | zero => exact hnear
  | succ tries ih =>
      unfold search
      dsimp only
      split
      · exact hnear
      · split
        · exact hfar
        · have hfiner := neighbours_pos hdenominator h.finer
          exact ih _ h.finer hfiner.1 hfiner.2

end Shortest

private theorem shortest_pos {mantissa : Nat} (h : 0 < mantissa) (exponent : Int) :
    0 < (shortest mantissa exponent).digits := by
  have hvalue : 0 < (Shortest.interval mantissa exponent).value :=
    Nat.mul_pos (Nat.mul_pos (by decide) h) (Nat.pow_pos (by decide))
  have hdenominator : 0 < (Shortest.interval mantissa exponent).denominator :=
    Nat.pow_pos (by decide)
  exact Shortest.search_pos hdenominator 17 _
    (Shortest.reaches_leadingExponent hvalue hdenominator)

/-! Layouts -/

inductive Unsigned : List Char → Prop where
  | parts {whole fraction exponent : List Char} :
      Json.Whole whole → Json.Fraction fraction → Json.Exponent exponent →
        Unsigned (whole ++ (fraction ++ exponent))

theorem unsigned_of_whole {text : List Char} (h : Json.Whole text) : Unsigned text := by
  have hparts := Unsigned.parts h .absent .absent
  rwa [List.append_nil, List.append_nil] at hparts

theorem Unsigned.number {text : List Char} (h : Unsigned text) (negative : Bool) :
    Json.Number ((if negative then ['-'] else []) ++ text) := by
  obtain ⟨hwhole, hfraction, hexponent⟩ := h
  cases negative with
  | false => exact .parts (.inl rfl) hwhole hfraction hexponent
  | true => exact .parts (.inr rfl) hwhole hfraction hexponent

private theorem unsigned_positional {digits : List Char} (h : Significant digits) (leading : Int) :
    Unsigned (positional digits leading) := by
  unfold positional
  split
  · have hfraction :
        Json.Fraction ('.' :: (List.replicate (-leading - 1).toNat '0' ++ digits)) := by
      refine .digits ⟨?_, ?_⟩
      · exact List.append_ne_nil_of_right_ne_nil _ h.ne_nil
      · exact List.forall_mem_append.mpr ⟨isDigit_zeros _, h.isDigit⟩
    have hparts := Unsigned.parts .zero hfraction .absent
    rwa [List.append_nil] at hparts
  · dsimp only
    generalize hpadding : List.replicate (leading.toNat + 1 - digits.length) '0' = padding
    have hpadded : Significant (digits ++ padding) := h.append (hpadding ▸ isDigit_zeros _)
    split
    · exact unsigned_of_whole hpadded.whole
    · next fraction hne =>
        have hfraction : Json.Fraction ('.' :: (digits ++ padding).drop (leading.toNat + 1)) :=
          .digits ⟨hne, fun c hc => hpadded.isDigit c (List.mem_of_mem_drop hc)⟩
        have hparts := Unsigned.parts (hpadded.take leading.toNat).whole hfraction .absent
        rwa [List.append_nil] at hparts

private theorem exponent_padded {mark : Char} (hmark : mark = '-' ∨ mark = '+') (zeros size : Nat) :
    Json.Exponent ('e' :: mark :: (List.replicate zeros '0' ++ Nat.toDigits 10 size)) := by
  have hdigits : Json.Digits (List.replicate zeros '0' ++ Nat.toDigits 10 size) :=
    ⟨List.append_ne_nil_of_right_ne_nil _ (digits_toDigits size).1,
      List.forall_mem_append.mpr ⟨isDigit_zeros _, (digits_toDigits size).2⟩⟩
  have hsign : [mark] = [] ∨ [mark] = ['+'] ∨ [mark] = ['-'] := by
    rcases hmark with rfl | rfl <;> simp
  exact .digits (.inl rfl) hsign hdigits

private theorem unsigned_scientific {digits : List Char} (h : Significant digits) (layout : Layout)
    (leading : Int) : Unsigned (scientific layout digits leading) := by
  have hmark : (if leading < 0 then '-' else '+') = '-' ∨
      (if leading < 0 then '-' else '+') = '+' := by
    split
    · exact .inl rfl
    · exact .inr rfl
  unfold scientific
  cases h with
  | @digits first rest hfirst hzero hrest =>
      cases rest with
      | nil => exact .parts (.digits hfirst hzero hrest) .absent (exponent_padded hmark _ _)
      | cons second rest =>
          have hwhole : Json.Whole [first] :=
            .digits hfirst hzero (List.forall_mem_nil _)
          exact .parts hwhole (.digits ⟨List.cons_ne_nil _ _, hrest⟩) (exponent_padded hmark _ _)

private theorem number_text_finite (layout : Layout) (negative : Bool) (mantissa : Nat)
    (exponent : Int) :
    Json.Number (Binary64.text layout (.finite negative mantissa exponent)).toList := by
  unfold Binary64.text
  dsimp only
  split
  · rw [String.toList_ofList]
    exact (unsigned_of_whole .zero).number negative
  · next hmantissa =>
      have hdigits := (significant_toDigits
        (shortest_pos (Nat.pos_of_ne_zero hmantissa) exponent)).dropTrailingZeros
      rw [String.toList_ofList]
      apply Unsigned.number
      split
      · exact unsigned_positional hdigits _
      · exact unsigned_scientific hdigits layout _

def Binary64.IsFinite : Binary64 → Prop
  | .finite .. => True
  | _ => False

private theorem exists_digit_of_number {text : List Char} (h : Json.Number text) :
    text.any Char.isDigit = true := by
  obtain ⟨-, hwhole, -, -⟩ := h
  obtain ⟨first, rest, rfl, hfirst, -⟩ := hwhole.exists_cons
  exact List.any_eq_true.mpr ⟨first, by simp, hfirst⟩

theorem number_text_iff (layout : Layout) (x : Binary64) :
    Json.Number (x.text layout).toList ↔ x.IsFinite := by
  cases x with
  | finite negative mantissa exponent =>
      exact ⟨fun _ => trivial, fun _ => number_text_finite layout negative mantissa exponent⟩
  | infinite negative =>
      have hplus : "+Inf".toList.any Char.isDigit = false := by decide
      have hminus : "-Inf".toList.any Char.isDigit = false := by decide
      refine ⟨fun h => ?_, False.elim⟩
      have hdigit := exists_digit_of_number h
      cases negative with
      | false => exact Bool.false_ne_true (hplus.symm.trans hdigit)
      | true => exact Bool.false_ne_true (hminus.symm.trans hdigit)
  | notANumber =>
      have hword : "NaN".toList.any Char.isDigit = false := by decide
      refine ⟨fun h => ?_, False.elim⟩
      exact Bool.false_ne_true (hword.symm.trans (exists_digit_of_number h))

end SchemaCodec.Decimal

import Mathlib.Data.List.Forall2
import SchemaCodec.Codec.Dialect
import SchemaCodec.Proofs.Text.Margins

/-! Codecs written in two dialects break their lines at the same places. -/

namespace SchemaCodec.Decimal

open Text

private theorem solid_toDigits (n : Nat) : Solid (Nat.toDigits 10 n) := by
  intro c hc
  have hdigit := Nat.isDigit_of_mem_toDigits (by decide) (by decide) hc
  constructor
  · rintro rfl
    exact absurd hdigit (by decide)
  · rintro rfl
    exact absurd hdigit (by decide)

private theorem solid_zeros (n : Nat) : Solid (List.replicate n '0') := by
  intro c hc
  rw [List.eq_of_mem_replicate hc]
  decide

private theorem solid_positional {digits : List Char} (h : Solid digits) (leading : Int) :
    Solid (positional digits leading) := by
  have hpadded : Solid (digits ++ List.replicate (leading.toNat + 1 - digits.length) '0') :=
    solid_append.mpr ⟨h, solid_zeros _⟩
  unfold positional
  split
  · refine solid_append.mpr ⟨?_, h⟩
    exact solid_cons.mpr ⟨by decide, solid_cons.mpr ⟨by decide, solid_zeros _⟩⟩
  · dsimp only
    split
    · exact hpadded
    · refine solid_append.mpr ⟨hpadded.subset (List.take_subset ..), ?_⟩
      exact solid_cons.mpr ⟨by decide, hpadded.subset (List.drop_subset ..)⟩

private theorem solid_scientific {digits : List Char} (h : Solid digits) (layout : Layout)
    (leading : Int) : Solid (scientific layout digits leading) := by
  refine solid_append.mpr ⟨?_, solid_cons.mpr ⟨by decide, solid_cons.mpr ⟨?_, ?_⟩⟩⟩
  · split
    · rw [solid_cons, solid_cons] at h
      exact solid_cons.mpr ⟨h.1, solid_cons.mpr ⟨by decide, solid_cons.mpr h.2⟩⟩
    · exact h
  · split <;> decide
  · exact solid_append.mpr ⟨solid_zeros _, solid_toDigits _⟩

private theorem solid_text (layout : Layout) (value : Binary64) :
    Solid (value.text layout).toList := by
  cases value with
  | notANumber => exact (by decide : Solid "NaN".toList)
  | infinite negative =>
      cases negative with
      | false => exact (by decide : Solid "+Inf".toList)
      | true => exact (by decide : Solid "-Inf".toList)
  | finite negative mantissa exponent =>
      have hsign : Solid (if negative then ['-'] else []) := by
        cases negative <;> decide
      have hdigits : ∀ n, Solid (dropTrailingZeros (Nat.toDigits 10 n)) := by
        intro n
        refine (solid_toDigits n).subset fun c hc => ?_
        exact List.mem_reverse.mp (List.dropWhile_subset _ (List.mem_reverse.mp hc))
      unfold Binary64.text
      dsimp only
      split
      · rw [String.toList_ofList]
        exact solid_append.mpr ⟨hsign, by decide⟩
      · rw [String.toList_ofList]
        refine solid_append.mpr ⟨hsign, ?_⟩
        split
        · exact solid_positional (hdigits _) _
        · exact solid_scientific (hdigits _) layout _

private theorem solid_integer (value : Int) : Solid (toString value).toList := by
  cases value with
  | ofNat n =>
      change Solid (String.ofList (Nat.toDigits 10 n)).toList
      rw [String.toList_ofList]
      exact solid_toDigits n
  | negSucc n =>
      have htext : (toString (Int.negSucc n)).toList = '-' :: Nat.toDigits 10 (n + 1) := by
        change ("-" ++ String.ofList (Nat.toDigits 10 (n + 1))).toList = _
        rw [String.toList_append, String.toList_ofList, String.toList_ofList]
        rfl
      rw [htext]
      exact solid_cons.mpr ⟨by decide, solid_toDigits _⟩

end SchemaCodec.Decimal

namespace SchemaCodec.Codec

open Text

/-! Texts that stand in a line -/

private theorem not_newline_mem_escapeChar (c : Char) : '\n' ∉ escapeChar c := by
  unfold escapeChar
  split
  · next hquote =>
      rcases hquote with rfl | rfl <;> decide
  · split
    · decide
    · split
      · decide
      · next hnewline _ =>
          exact fun hmem => hnewline (List.mem_singleton.mp hmem).symm

private theorem inline_stringChars (text : List Char) : Inline (stringChars text) := by
  refine ⟨?_, flush_cons (by decide)⟩
  rw [stringChars, List.cons_append, List.mem_cons, List.mem_append, List.mem_flatMap]
  rintro (hquote | ⟨c, -, hc⟩ | hquote)
  · exact absurd hquote (by decide)
  · exact not_newline_mem_escapeChar c hc
  · exact absurd hquote (by decide)

theorem inline_stringText (text : String) : Inline (stringText text).toList := by
  rw [stringText, String.toList_ofList]
  exact inline_stringChars _

private theorem solid_of_isBareKey {key : List Char} (h : isBareKey key = true) : Solid key := by
  cases key with
  | nil => cases h
  | cons first rest =>
      rw [isBareKey, Bool.and_eq_true, List.all_eq_true] at h
      intro c hc
      have hword := h.2 c hc
      constructor
      · rintro rfl
        exact absurd hword (by decide)
      · rintro rfl
        exact absurd hword (by decide)

private theorem inline_propertyName (key : String) : Inline (propertyName key).toList := by
  rw [propertyName, String.toList_ofList, propertyNameChars]
  split
  · next hbare => exact (solid_of_isBareKey hbare).inline
  · exact inline_stringChars _

/-! Layouts -/

namespace Layout

/-- Layouts whose texts have the same margins at every level. -/
def Alike (first second : Layout) : Prop :=
  ∀ level, Aligned (first.chars level) (second.chars level)

variable {opening opening' between closing closing' separator separator' : String}

private theorem alike_leaf {text text' : String} (h : Aligned text.toList text'.toList) :
    Alike (.leaf text) (.leaf text') :=
  fun _ => h

private theorem alike_wrap {inner inner' : Layout}
    (hopening : Aligned opening.toList opening'.toList)
    (hinner : Alike inner inner') (hclosing : Aligned closing.toList closing'.toList) :
    Alike (.wrap opening inner closing) (.wrap opening' inner' closing') :=
  fun level => (hopening.append (hinner level)).append hclosing

private theorem alike_pair {first first' second second' : Layout} {between' : String}
    (hopening : Aligned opening.toList opening'.toList) (hfirst : Alike first first')
    (hbetween : Aligned between.toList between'.toList) (hsecond : Alike second second')
    (hclosing : Aligned closing.toList closing'.toList) :
    Alike (.pair opening first between second closing)
      (.pair opening' first' between' second' closing') :=
  fun level => (((hopening.append (hfirst level)).append hbetween).append (hsecond level)).append
    hclosing

structure AlikeElement (first second : Element Layout) : Prop where
  comment : first.comment = second.comment
  lead : Aligned first.lead.toList second.lead.toList
  body : Alike first.body second.body

theorem AlikeElement.margins {element element' : Element Layout}
    (h : AlikeElement element element') (level : Nat) :
    margins (elementChars element level) = margins (elementChars element' level) := by
  obtain ⟨description, lead, body⟩ := element
  obtain ⟨description', lead', body'⟩ := element'
  obtain rfl : description = description' := h.comment
  have hfront : Text.margins (Layout.comment description level ++ indent level ++ lead.toList) =
      Text.margins (Layout.comment description level ++ indent level ++ lead'.toList) :=
    h.lead.margins_append rfl
  exact (h.body level).margins_append hfront

private theorem margins_elementsChars {elements elements' : List (Element Layout)}
    (h : List.Forall₂ AlikeElement elements elements')
    (hseparator : Aligned separator.toList separator'.toList) (level : Nat) :
    margins (elementsChars elements separator level) =
      margins (elementsChars elements' separator' level) := by
  induction h with
  | nil => rfl
  | @cons element element' rest rest' helement hrest ih =>
      cases hrest with
      | nil => exact helement.margins level
      | cons hnext hothers =>
          rw [elementsChars, elementsChars, margins_newline, margins_newline, ih,
            hseparator.margins_append (helement.margins level)]

private theorem alike_block {elements elements' : List (Element Layout)}
    (hopening : Aligned opening.toList opening'.toList)
    (helements : List.Forall₂ AlikeElement elements elements')
    (hseparator : Aligned separator.toList separator'.toList)
    (hclosing : Aligned closing.toList closing'.toList) :
    Alike (.block opening elements separator closing)
      (.block opening' elements' separator' closing') := by
  intro level
  cases helements with
  | nil => exact hopening.append hclosing
  | cons helement hrest =>
      have hlines := margins_elementsChars (.cons helement hrest) hseparator (level + 1)
      have hend : margins (indent level) = margins (indent level) := rfl
      exact ((hopening.append (.newline hlines)).append (.newline hend)).append hclosing

end Layout

/-! The static type and the type of the codec -/

/-- The texts that a codec writes just as they were given. -/
def givenTexts : Codec → List String
  | .literal (.number text) => [text]
  | .identifier name => [name]
  | .custom static runtime _ => [static, runtime]
  | _ => []

/-- Every given text in the tree is one line and does not start with a blank. -/
inductive SingleLine : Codec → Prop
  | intro {codec : Codec} (texts : ∀ text ∈ codec.givenTexts, Inline text.toList)
      (parts : ∀ part ∈ codec.children, SingleLine part) : SingleLine codec

private theorem inline_literal {literal : Literal}
    (h : ∀ text ∈ (Codec.literal literal).givenTexts, Inline text.toList) :
    Inline literal.text.toList := by
  cases literal with
  | string text => exact inline_stringText text
  | number text => exact h text (List.mem_singleton_self text)
  | bool value => cases value <;> decide
  | integer value => exact (Decimal.solid_integer value).inline
  | float value => exact (Decimal.solid_text _ value).inline
  | missing => decide

structure InlineListing (listing : Dialect.Listing) : Prop where
  opening : Inline listing.opening.toList
  lead : Inline listing.lead.toList
  separator : Inline listing.separator.toList
  closing : Inline listing.closing.toList

private theorem inlineListing_group (dialect : Dialect) (g : Group) : InlineListing
    (dialect.group g) := by
  have hunion : InlineListing (dialect.group .union) := by
    cases dialect <;> constructor <;> decide
  cases g with
  | tuple => cases dialect <;> constructor <;> decide
  | union => exact hunion
  | taggedUnion tag => cases dialect <;> exact hunion
  | intersection => cases dialect <;> constructor <;> decide

private theorem alike_members {lead lead' : String} {members : List Codec}
    (hlead : Aligned lead.toList lead'.toList)
    (h : ∀ member ∈ members, Layout.Alike (member.layout .static) (member.layout .decoder)) :
    List.Forall₂ Layout.AlikeElement (memberElements .static lead members)
      (memberElements .decoder lead' members) := by
  induction members with
  | nil => exact .nil
  | cons member rest ih =>
      rw [List.forall_mem_cons] at h
      exact .cons ⟨rfl, hlead, h.1⟩ (ih h.2)

private theorem alike_properties {shape : Shape} {properties : List (Property Codec)}
    (h : ∀ part ∈ properties.map Property.type,
      Layout.Alike (part.layout .static) (part.layout .decoder)) :
    List.Forall₂ Layout.AlikeElement (propertyElements .static shape properties)
      (propertyElements .decoder shape properties) := by
  induction properties with
  | nil => exact .nil
  | cons property rest ih =>
      obtain ⟨key, type, optional, description⟩ := property
      rw [List.map_cons, List.forall_mem_cons] at h
      have hmark : ∀ dialect : Dialect, Inline (dialect.mark shape optional).toList := by
        intro dialect
        cases dialect <;> cases shape <;> cases optional <;> decide
      have hlead : ∀ dialect : Dialect,
          Inline (propertyName key ++ dialect.mark shape optional ++ ": ").toList := by
        intro dialect
        rw [String.toList_append, String.toList_append]
        exact inline_append (inline_append (inline_propertyName key) (hmark dialect)) (by decide)
      exact .cons ⟨rfl, .of_inline (hlead _) (hlead _), h.1⟩ (ih h.2)

private theorem alike_keys (keys : List String) :
    List.Forall₂ Layout.AlikeElement
      (keys.map fun key => ⟨"", "", .leaf (Dialect.static.key key)⟩)
      (keys.map fun key => ⟨"", "", .leaf (Dialect.decoder.key key)⟩) := by
  have hstatic : ∀ key, Inline (Dialect.static.key key).toList := by
    intro key
    rw [Dialect.key, String.toList_append]
    exact inline_append (by decide) (inline_stringText key)
  have hdecoder : ∀ key, Inline (Dialect.decoder.key key).toList := by
    intro key
    rw [Dialect.key, String.toList_append]
    exact inline_append (inline_propertyName key) (by decide)
  rw [List.forall₂_map_left_iff, List.forall₂_map_right_iff]
  refine List.forall₂_same.mpr fun key _ => ⟨rfl, .refl flush_nil, ?_⟩
  exact Layout.alike_leaf (.of_inline (hstatic key) (hdecoder key))

private theorem alike_layout {codec : Codec} (h : codec.SingleLine) :
    Layout.Alike (codec.layout .static) (codec.layout .decoder) := by
  induction h with
  | @intro codec htexts _ ih =>
      cases codec with
      | hole => exact Layout.alike_leaf (.refl (by decide))
      | primitive p =>
          apply Layout.alike_leaf
          cases p <;> exact .of_inline (by decide) (by decide)
      | literal value =>
          have hvalue := inline_literal htexts
          have hdecoder : Inline (Dialect.decoder.literal value).toList := by
            rw [Dialect.literal, String.toList_append, String.toList_append]
            exact inline_append (inline_append (by decide) hvalue) (by decide)
          exact Layout.alike_leaf (.of_inline hvalue hdecoder)
      | object shape properties =>
          refine Layout.alike_block ?_ (alike_properties ih) (.refl (by decide)) ?_
          all_goals
            cases shape <;> exact .of_inline (by decide) (by decide)
      | wrapper w inner =>
          refine Layout.alike_wrap ?_ (ih inner (List.mem_singleton_self inner)) ?_
          all_goals
            cases w <;> exact .of_inline (by decide) (by decide)
      | group g members =>
          have hstatic := inlineListing_group .static g
          have hdecoder := inlineListing_group .decoder g
          exact Layout.alike_block (.of_inline hstatic.opening hdecoder.opening)
            (alike_members (.of_inline hstatic.lead hdecoder.lead) ih)
            (.of_inline hstatic.separator hdecoder.separator)
            (.of_inline hstatic.closing hdecoder.closing)
      | record domain codomain =>
          have hdomain := ih domain (by simp [children])
          have hcodomain := ih codomain (by simp [children])
          exact Layout.alike_pair (.of_inline (by decide) (by decide)) hdomain
            (.refl (by decide)) hcodomain (.of_inline (by decide) (by decide))
      | keyof keys =>
          exact Layout.alike_block (.of_inline (by decide) (by decide)) (alike_keys keys)
            (.of_inline (by decide) (by decide)) (.of_inline (by decide) (by decide))
      | identifier name =>
          have hname : Inline name.toList := htexts name (List.mem_singleton_self name)
          have hdecoder : Inline (Dialect.decoder.identifier name).toList := by
            rw [Dialect.identifier, String.toList_append]
            exact inline_append hname (by decide)
          exact Layout.alike_leaf (.of_inline hname hdecoder)
      | custom static runtime dependencies =>
          have hstatic : Inline static.toList := htexts static (by simp [givenTexts])
          have hruntime : Inline runtime.toList := htexts runtime (by simp [givenTexts])
          have hdecoder : Inline (Dialect.custom static runtime .decoder).toList := by
            rw [Dialect.custom, String.toList_append]
            exact inline_append (by decide) hruntime
          exact Layout.alike_leaf (.of_inline hstatic hdecoder)
      | brand inner condition name =>
          -- The name of the brand may have lines of its own: they are the same on both sides.
          refine Layout.alike_wrap (.of_inline (by decide) (by decide))
            (ih inner (List.mem_singleton_self inner)) (.refl ?_)
          rw [String.toList_append, String.toList_append]
          exact flush_cons (by decide)

/-- The type of the values of a codec and the type of the codec itself have as many lines, and
their lines start with as many blanks. -/
theorem static_and_decoder_nest_alike (codec : Codec) (h : codec.SingleLine) :
    margins (print .static codec).toList = margins (print .decoder codec).toList := by
  have haligned := alike_layout h 0
  rw [print, print, Layout.text, Layout.text, String.toList_ofList, String.toList_ofList]
  exact haligned.margins

/-- A tree with a part left out, and with a comment and a brand of two lines each. -/
def orderCodec : Codec :=
  .brand
    (.union [
      .object .partialOf [⟨"a key", .array (.literal (.number "1e5")), true, "one\n  two"⟩],
      .hole,
      .tuple [.identifier "Item", .keyof ["x", "y"]]])
    ⟨[]⟩ "Order\n "

theorem static_and_decoder_nest_alike_orderCodec :
    orderCodec.SingleLine ∧
      margins (print .static orderCodec).toList = [0, 2, 4, 2, 4, 2, 2, 2, 4, 4, 6, 6, 4, 2, 0, 1] ∧
      margins (print .static orderCodec).toList = margins (print .decoder orderCodec).toList := by
  have hnumber : (Codec.literal (.number "1e5")).SingleLine :=
    .intro (by decide) (by simp [children])
  have harray : (Codec.array (.literal (.number "1e5"))).SingleLine :=
    .intro (by simp [array, givenTexts]) (by simpa [array, children] using hnumber)
  have hitem : (Codec.identifier "Item").SingleLine := .intro (by decide) (by simp [children])
  have hkeys : (Codec.keyof ["x", "y"]).SingleLine :=
    .intro (by simp [givenTexts]) (by simp [children])
  have htuple : (Codec.tuple [.identifier "Item", .keyof ["x", "y"]]).SingleLine :=
    .intro (by simp [tuple, givenTexts]) (by simp [tuple, children, hitem, hkeys])
  have hobject : (Codec.object .partialOf
      [⟨"a key", .array (.literal (.number "1e5")), true, "one\n  two"⟩]).SingleLine :=
    .intro (by simp [givenTexts]) (by simpa [children] using harray)
  have hhole : Codec.hole.SingleLine := .intro (by simp [givenTexts]) (by simp [children])
  have hsingle : orderCodec.SingleLine := by
    refine .intro (by simp [orderCodec, givenTexts]) ?_
    refine List.forall_mem_singleton.mpr (.intro (by simp [union, givenTexts]) ?_)
    simp [union, children, hobject, hhole, htuple]
  exact ⟨hsingle, by decide +kernel, static_and_decoder_nest_alike orderCodec hsingle⟩

end SchemaCodec.Codec

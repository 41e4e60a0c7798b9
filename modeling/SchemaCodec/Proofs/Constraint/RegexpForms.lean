import SchemaCodec.Constraint
import SchemaCodec.Proofs.Except
import SchemaCodec.Proofs.Text.Splitting

namespace SchemaCodec

/-! The two forms of a regular expression. The text form is cut at its last slash, so the pattern
may hold slashes and the flags may not. -/

namespace Regexp

private theorem toList_delimited (pattern flags : String) :
    ("/" ++ pattern ++ "/" ++ flags).toList = ('/' :: pattern.toList) ++ '/' :: flags.toList := by
  rw [String.toList_append, String.toList_append, String.toList_append]
  simp

private theorem ofText_delimited {pattern flags : String} (hflags : '/' ∉ flags.toList) :
    ofText ("/" ++ pattern ++ "/" ++ flags) = .ok ⟨pattern, flags⟩ := by
  rw [ofText, toList_delimited, Text.cutLast?_append hflags]
  simp only [String.ofList_toList]

private theorem delimited_of_ofText {text : String} {r : Regexp} (h : ofText text = .ok r) :
    '/' ∉ r.flags.toList ∧ text = "/" ++ r.pattern ++ "/" ++ r.flags := by
  unfold ofText at h
  by_cases hslash : '/' ∈ text.toList
  · obtain ⟨before, after, htext, hafter⟩ := Text.exists_last_of_mem hslash
    rw [htext, Text.cutLast?_append hafter] at h
    split at h
    · next pattern flags hcut =>
        cases hcut
        cases h
        refine ⟨by simpa using hafter, ?_⟩
        rw [← String.toList_inj, htext, toList_delimited]
        simp
    · cases h
  · rw [Text.cutLast?_of_not_mem hslash] at h
    cases h

private theorem delimited_inj {pattern flags pattern' flags' : String} (hflags : '/' ∉ flags.toList)
    (hflags' : '/' ∉ flags'.toList)
    (h : "/" ++ pattern ++ "/" ++ flags = "/" ++ pattern' ++ "/" ++ flags') :
    pattern = pattern' ∧ flags = flags' := by
  have hread : ofText ("/" ++ pattern ++ "/" ++ flags) = .ok ⟨pattern', flags'⟩ := by
    rw [h, ofText_delimited hflags']
  rw [ofText_delimited hflags] at hread
  exact Regexp.mk.inj (Except.ok.inj hread)

private theorem ofDocument_object {members : List (String × Document)} {pattern flags : String}
    (hpattern : (Document.object members).stringAt? "pattern" = some pattern)
    (hflags : (Document.object members).stringAt? "flags" = some flags) :
    ofDocument (.object members) = .ok ⟨pattern, flags⟩ := by
  rw [ofDocument, hpattern, hflags]
  rfl

end Regexp

namespace Constraint

variable {schema other : Document}

private theorem regexpOf?_of_get? {value : Document} {r : Regexp}
    (hvalue : schema.get? "regexp" = some value) (hr : Regexp.ofDocument value = .ok r) :
    regexpOf? schema = .ok (some r) := by
  rw [regexpOf?, hvalue]
  dsimp only
  rw [hr]
  rfl

/-- A schema has a condition for its regular expression, and what else it has does not depend on
that expression. -/
theorem conditions_of_regexp {r : Regexp} (hschema : regexpOf? schema = .ok (some r))
    (hother : regexpOf? other = .ok (some r))
    (hsame : ∀ keyword, keyword ≠ "regexp" → schema.get? keyword = other.get? keyword) :
    ∃ found, conditions schema = .ok found ∧ conditions other = .ok found ∧ regexp r ∈ found := by
  have hconditions : conditions schema = conditions other := by
    unfold conditions numberAt? Document.stringAt? Document.trueAt
    rw [hschema, hother, hsame "pattern" (by decide), hsame "format" (by decide),
      hsame "type" (by decide), hsame "minLength" (by decide), hsame "maxLength" (by decide),
      hsame "minimum" (by decide), hsame "maximum" (by decide), hsame "multipleOf" (by decide),
      hsame "minItems" (by decide), hsame "maxItems" (by decide), hsame "uniqueItems" (by decide)]
  unfold conditions at hconditions ⊢
  rw [hschema, ok_bind] at hconditions ⊢
  refine ⟨_, rfl, hconditions.symm, ?_⟩
  exact List.mem_filterMap.mpr ⟨some (regexp r), by simp, rfl⟩

end Constraint

namespace Regexp

open Constraint

/-- A text is read as an expression just when it has a pattern and flags between slashes, and then
it has them in one way only. A schema with that text and one with an object for it, which are
otherwise alike, restrict their values by the same conditions, that of the expression among them. -/
theorem forms_restrict_alike (text : String) :
    ((∃ r, ofDocument (.string text) = .ok r) ↔
      ∃ pattern flags : String,
        '/' ∉ flags.toList ∧ text = "/" ++ pattern ++ "/" ++ flags) ∧
    ∀ pattern flags : String, '/' ∉ flags.toList → text = "/" ++ pattern ++ "/" ++ flags →
      ofDocument (.string text) = .ok ⟨pattern, flags⟩ ∧
      (∀ pattern' flags' : String, '/' ∉ flags'.toList →
        text = "/" ++ pattern' ++ "/" ++ flags' → pattern' = pattern ∧ flags' = flags) ∧
      ∀ (members : List (String × Document)) (schema other : Document),
        (Document.object members).stringAt? "pattern" = some pattern →
        (Document.object members).stringAt? "flags" = some flags →
        schema.get? "regexp" = some (.string text) →
        other.get? "regexp" = some (.object members) →
        (∀ keyword, keyword ≠ "regexp" → schema.get? keyword = other.get? keyword) →
        ∃ found, conditions schema = .ok found ∧ conditions other = .ok found ∧
          regexp ⟨pattern, flags⟩ ∈ found ∧
          ∀ subject, (synthesize schema).map (·.applyTo subject) =
              .ok ((Condition.all found).applyTo subject) ∧
            (synthesize other).map (·.applyTo subject) =
              .ok ((Condition.all found).applyTo subject) := by
  constructor
  · constructor
    · rintro ⟨r, hr⟩
      exact ⟨r.pattern, r.flags, delimited_of_ofText hr⟩
    · rintro ⟨pattern, flags, hflags, rfl⟩
      exact ⟨_, ofText_delimited hflags⟩
  · rintro pattern flags hflags rfl
    have htext : ofDocument (.string ("/" ++ pattern ++ "/" ++ flags)) = .ok ⟨pattern, flags⟩ :=
      ofText_delimited hflags
    refine ⟨htext, ?_, ?_⟩
    · intro pattern' flags' hflags' heq
      exact delimited_inj hflags' hflags heq.symm
    · intro members schema other hpattern hobjectFlags hschema hother hsame
      obtain ⟨found, hfound, hotherFound, hmem⟩ := conditions_of_regexp
        (regexpOf?_of_get? hschema htext)
        (regexpOf?_of_get? hother (ofDocument_object hpattern hobjectFlags)) hsame
      refine ⟨found, hfound, hotherFound, hmem, ?_⟩
      intro subject
      rw [synthesize, synthesize, hfound, hotherFound]
      exact ⟨rfl, rfl⟩

def codeSchema (form : Document) : Document :=
  .object [("type", .string "string"), ("regexp", form), ("minLength", .number "2")]

theorem forms_restrict_alike_slashed :
    let object : Document := .object [("flags", .string "i"), ("pattern", .string "^a/b$")]
    ofDocument (.string "/^a/b$/i") = .ok ⟨"^a/b$", "i"⟩ ∧
    ∃ found, conditions (codeSchema (.string "/^a/b$/i")) = .ok found ∧
      conditions (codeSchema object) = .ok found ∧ regexp ⟨"^a/b$", "i"⟩ ∈ found := by
  have hflags : '/' ∉ "i".toList := by decide
  have htext : "/^a/b$/i" = "/" ++ "^a/b$" ++ "/" ++ "i" := by decide
  obtain ⟨hread, -, hforms⟩ := (forms_restrict_alike "/^a/b$/i").2 "^a/b$" "i" hflags htext
  obtain ⟨found, hfound, hother, hmem, -⟩ := hforms
    [("flags", .string "i"), ("pattern", .string "^a/b$")] (codeSchema (.string "/^a/b$/i"))
    (codeSchema (.object [("flags", .string "i"), ("pattern", .string "^a/b$")])) rfl rfl rfl rfl
    (by
      intro keyword hkeyword
      have hbeq : (keyword == "regexp") = false := beq_false_of_ne hkeyword
      simp only [codeSchema, Document.get?, Document.members, List.lookup_cons, hbeq])
  exact ⟨hread, found, hfound, hother, hmem⟩

end Regexp

end SchemaCodec

import SchemaCodec.Codec.Dialect
import SchemaCodec.Proofs.Conversion.References

namespace SchemaCodec

/-! Which texts are references, what they lead to, and which of them lead to nothing that has a
name. -/

namespace Name

/-! Texts that leave no name -/

def OnlyHyphens (text : List Char) : Prop :=
  ∀ c ∈ text, c = '-'

private theorem capitalize_eq_nil_iff {text : List Char} : capitalize text = [] ↔ text = [] := by
  cases text <;> simp [capitalize]

private theorem joinKebab_eq_nil_iff {text : List Char} : joinKebab text =
    [] ↔ OnlyHyphens text := by
  simp only [joinKebab, List.flatMap_eq_nil_iff, capitalize_eq_nil_iff]
  exact Text.forall_splitOn_eq_nil_iff

private theorem joinCaps_eq_nil_iff {text : List Char} : joinCaps text = [] ↔ OnlyHyphens text := by
  simp [joinCaps, OnlyHyphens]

private theorem joinAny_eq_nil_iff {text : List Char} : joinAny text = [] ↔ OnlyHyphens text := by
  rw [joinAny]
  split
  · exact joinCaps_eq_nil_iff
  · exact joinKebab_eq_nil_iff

/-- Nothing follows, or something that starts with a schema ending. -/
def EndsStem (rest : List Char) : Prop :=
  rest = [] ∨ ∃ suffix ∈ schemaSuffixes, suffix <+: rest

private theorem stemOf_of_endsStem {rest : List Char} (h : EndsStem rest) : stemOf rest = [] := by
  rcases h with rfl | ⟨suffix, hsuffix, hstart⟩
  · rfl
  · cases rest with
    | nil => rfl
    | cons c rest =>
        have hany : schemaSuffixes.any (·.isPrefixOf (c :: rest)) = true :=
          List.any_eq_true.mpr ⟨suffix, hsuffix, List.isPrefixOf_iff_prefix.mpr hstart⟩
        rw [stemOf, if_pos hany]

private theorem exists_append_stemOf (text : List Char) :
    ∃ rest, text = stemOf text ++ rest ∧ EndsStem rest := by
  induction text with
  | nil => exact ⟨[], rfl, .inl rfl⟩
  | cons c rest ih =>
      rw [stemOf]
      split
      · next hany =>
          obtain ⟨suffix, hsuffix, hstart⟩ := List.any_eq_true.mp hany
          exact ⟨c :: rest, rfl, .inr ⟨suffix, hsuffix, List.isPrefixOf_iff_prefix.mp hstart⟩⟩
      · obtain ⟨after, hrest, hends⟩ := ih
        exact ⟨after, congrArg (c :: ·) hrest, hends⟩

/-- The name of a file has nothing but hyphens before a schema ending. -/
def BlankStem (segment : List Char) : Prop :=
  ∃ hyphens rest, segment = hyphens ++ rest ∧ OnlyHyphens hyphens ∧ EndsStem rest

private theorem onlyHyphens_stemOf_append {hyphens rest : List Char} (h : OnlyHyphens hyphens)
    (hrest : EndsStem rest) : OnlyHyphens (stemOf (hyphens ++ rest)) := by
  induction hyphens with
  | nil =>
      rw [List.nil_append, stemOf_of_endsStem hrest]
      exact List.forall_mem_nil _
  | cons c others ih =>
      obtain ⟨hc, hothers⟩ := List.forall_mem_cons.mp h
      rw [List.cons_append, stemOf]
      split
      · exact List.forall_mem_nil _
      · exact List.forall_mem_cons.mpr ⟨hc, ih hothers⟩

private theorem onlyHyphens_stemOf_iff {segment : List Char} :
    OnlyHyphens (stemOf segment) ↔ BlankStem segment := by
  constructor
  · intro h
    obtain ⟨rest, hsegment, hends⟩ := exists_append_stemOf segment
    exact ⟨stemOf segment, rest, hsegment, h, hends⟩
  · rintro ⟨hyphens, rest, rfl, hhyphens, hrest⟩
    exact onlyHyphens_stemOf_append hhyphens hrest

private theorem ofKebab_eq_empty_iff {key : String} :
    ofKebab key = "" ↔ OnlyHyphens key.toList := by
  rw [← joinKebab_eq_nil_iff, ofKebab, onText, ← String.toList_eq_nil_iff, String.toList_ofList]

private theorem ofFilePath_eq_empty_iff {file : String} :
    ofFilePath file = "" ↔ BlankStem (Text.afterLast '/' file.toList) := by
  rw [← onlyHyphens_stemOf_iff, ← joinAny_eq_nil_iff, ofFilePath, onText,
    ← String.toList_eq_nil_iff, String.toList_ofList]

end Name

namespace Reference

/-! The grammar that is read -/

/-- A text without a fragment leads to a file as a whole, and any other to a definition. -/
inductive Denotes : String → Reference → Prop where
  | file {file : String} (hfile : '#' ∉ file.toList) : Denotes file ⟨file, Name.ofFilePath file⟩
  | definition {file key : String} (hfile : '#' ∉ file.toList) (hslash : '/' ∉ key.toList)
      (hhash : '#' ∉ key.toList) :
      Denotes (file ++ "#/definitions/" ++ key) ⟨file, Name.ofKebab key⟩

private theorem denotes_of_parse {text : String} {reference : Reference}
    (h : parse text = .ok reference) : Denotes text reference := by
  unfold parse at h
  split at h
  · next hparts =>
      cases h
      exact .file (Text.splitOn_eq_singleton hparts).1
  · next file fragment hparts =>
      obtain ⟨rest, htext, hfile, hrest⟩ := Text.splitOn_eq_cons_cons hparts
      obtain ⟨hhash, rfl⟩ := Text.splitOn_eq_singleton hrest
      split at h
      · next root keyword key hsteps =>
          obtain ⟨afterRoot, rfl, -, hsteps⟩ := Text.splitOn_eq_cons_cons hsteps
          obtain ⟨last, rfl, -, hkey⟩ := Text.splitOn_eq_cons_cons hsteps
          obtain ⟨hslash, rfl⟩ := Text.splitOn_eq_singleton hkey
          split at h
          · next hpoints =>
              obtain ⟨rfl, rfl⟩ := hpoints
              cases h
              have hwhole : text =
                  String.ofList file ++ "#/definitions/" ++ String.ofList last := by
                rw [← String.toList_inj, htext]
                simp
              have hdenotes := @Denotes.definition (String.ofList file) (String.ofList last)
                (by simpa using hfile) (by simpa using hslash)
                (by simp at hhash; simpa using hhash)
              rw [hwhole]
              simpa [Name.ofKebab, Name.onText] using hdenotes
          · cases h
      · cases h
  · cases h

theorem parse_eq_ok_iff {text : String} {reference : Reference} :
    parse text = .ok reference ↔ Denotes text reference := by
  constructor
  · exact denotes_of_parse
  · intro h
    cases h with
    | file hfile => exact parse_file hfile
    | definition hfile hslash hhash => exact parse_definitionOf hfile hslash hhash

/-! The grammar that is documented -/

structure IsFile (file : String) : Prop where
  ne_empty : file ≠ ""
  hash : '#' ∉ file.toList

structure IsKey (key : String) : Prop where
  ne_empty : key ≠ ""
  slash : '/' ∉ key.toList
  hash : '#' ∉ key.toList

/-- A file, a definition of the same document, or a definition of a file. -/
inductive Documented : String → Prop where
  | file {file : String} (hfile : IsFile file) : Documented file
  | definition {key : String} (hkey : IsKey key) : Documented ("#/definitions/" ++ key)
  | definitionOf {file key : String} (hfile : IsFile file) (hkey : IsKey key) :
      Documented (file ++ "#/definitions/" ++ key)

/-- Nothing is given, or a place for definitions without the key of one. -/
def Incomplete (text : String) : Prop :=
  text = "" ∨ ∃ file : String, '#' ∉ file.toList ∧ text = file ++ "#/definitions/"

private theorem Denotes.documented_or_incomplete {text : String} {reference : Reference}
    (h : Denotes text reference) : Documented text ∨ Incomplete text := by
  cases h with
  | file hfile =>
      by_cases hempty : text = ""
      · exact .inr (.inl hempty)
      · exact .inl (.file ⟨hempty, hfile⟩)
  | @definition file key hfile hslash hhash =>
      by_cases hkey : key = ""
      · rw [hkey, String.append_empty]
        exact .inr (.inr ⟨file, hfile, rfl⟩)
      · left
        by_cases hempty : file = ""
        · rw [hempty, String.empty_append]
          exact .definition ⟨hkey, hslash, hhash⟩
        · exact .definitionOf ⟨hempty, hfile⟩ ⟨hkey, hslash, hhash⟩

private theorem denotes_own {key : String} (hslash : '/' ∉ key.toList) (hhash : '#' ∉ key.toList) :
    Denotes ("#/definitions/" ++ key) ⟨"", Name.ofKebab key⟩ :=
  parse_eq_ok_iff.mp (parse_definition hslash hhash)

private theorem Documented.denotes {text : String} (h : Documented text) :
    ∃ reference, Denotes text reference := by
  cases h with
  | file hfile => exact ⟨_, .file hfile.hash⟩
  | definition hkey => exact ⟨_, denotes_own hkey.slash hkey.hash⟩
  | definitionOf hfile hkey => exact ⟨_, .definition hfile.hash hkey.slash hkey.hash⟩

private theorem Incomplete.denotes {text : String} (h : Incomplete text) :
    ∃ reference, Denotes text reference := by
  rcases h with rfl | ⟨file, hfile, rfl⟩
  · exact ⟨_, .file List.not_mem_nil⟩
  · have hdenotes := @Denotes.definition file "" hfile List.not_mem_nil List.not_mem_nil
    rw [String.append_empty] at hdenotes
    exact ⟨_, hdenotes⟩

private theorem exists_denotes_iff {text : String} :
    (∃ reference, Denotes text reference) ↔ Documented text ∨ Incomplete text := by
  constructor
  · rintro ⟨reference, h⟩
    exact h.documented_or_incomplete
  · rintro (h | h)
    · exact h.denotes
    · exact h.denotes

theorem Denotes.file_eq {text : String} {reference : Reference} (h : Denotes text reference) :
    reference.file = String.ofList (Text.before '#' text.toList) := by
  cases h with
  | file hfile => rw [Text.before_of_not_mem hfile, String.ofList_toList]
  | @definition file key hfile hslash hhash =>
      have hbefore : Text.before '#' (file ++ "#/definitions/" ++ key).toList = file.toList := by
        rw [String.toList_append, String.toList_append, List.append_assoc]
        exact Text.before_append hfile _
      rw [hbefore, String.ofList_toList]

/-! References without a name -/

/-- A file whose last segment is without a stem, or a definition whose key is without a letter:
both have nothing but hyphens there. -/
inductive Nameless : String → Prop where
  | file {file : String} (hfile : '#' ∉ file.toList)
      (hstem : Name.BlankStem (Text.afterLast '/' file.toList)) : Nameless file
  | definition {file key : String} (hfile : '#' ∉ file.toList)
      (hkey : Name.OnlyHyphens key.toList) : Nameless (file ++ "#/definitions/" ++ key)

private theorem not_mem_of_onlyHyphens {c : Char} {text : List Char} (h : Name.OnlyHyphens text)
    (hc : c ≠ '-') : c ∉ text :=
  fun hmem => hc (h c hmem)

theorem Denotes.unique {text : String} {first second : Reference} (hfirst : Denotes text first)
    (hsecond : Denotes text second) : first = second :=
  Except.ok.inj ((parse_eq_ok_iff.mpr hfirst).symm.trans (parse_eq_ok_iff.mpr hsecond))

private theorem Nameless.denotes {text : String} (h : Nameless text) :
    ∃ file, Denotes text ⟨file, ""⟩ := by
  cases h with
  | file hfile hstem =>
      have hdenotes := Denotes.file hfile
      rw [Name.ofFilePath_eq_empty_iff.mpr hstem] at hdenotes
      exact ⟨text, hdenotes⟩
  | @definition file key hfile hkey =>
      have hdenotes := Denotes.definition hfile
        (not_mem_of_onlyHyphens hkey (by decide)) (not_mem_of_onlyHyphens hkey (by decide))
      rw [Name.ofKebab_eq_empty_iff.mpr hkey] at hdenotes
      exact ⟨file, hdenotes⟩

private theorem Denotes.name_eq_empty_iff {text : String} {reference : Reference}
    (h : Denotes text reference) : reference.name = "" ↔ Nameless text := by
  constructor
  · intro hname
    cases h with
    | file hfile => exact .file hfile (Name.ofFilePath_eq_empty_iff.mp hname)
    | definition hfile => exact .definition hfile (Name.ofKebab_eq_empty_iff.mp hname)
  · intro hnameless
    obtain ⟨file, hempty⟩ := hnameless.denotes
    rw [h.unique hempty]

/-- Nothing is given, or a definition of the same document under hyphens only. -/
def Vacant (text : String) : Prop :=
  text = "" ∨ ∃ hyphens : String,
    Name.OnlyHyphens hyphens.toList ∧ text = "#/definitions/" ++ hyphens

private theorem denotes_nothing_iff {text : String} : Denotes text ⟨"", ""⟩ ↔ Vacant text := by
  constructor
  · intro h
    generalize hnothing : (⟨"", ""⟩ : Reference) = nothing at h
    cases h with
    | file => exact .inl (Reference.mk.inj hnothing).1.symm
    | @definition file key =>
        obtain ⟨rfl, hname⟩ := Reference.mk.inj hnothing
        rw [String.empty_append]
        exact .inr ⟨key, Name.ofKebab_eq_empty_iff.mp hname.symm, rfl⟩
  · rintro (rfl | ⟨hyphens, hhyphens, rfl⟩)
    · exact .file List.not_mem_nil
    · have hdenotes := denotes_own (not_mem_of_onlyHyphens hhyphens (by decide))
        (not_mem_of_onlyHyphens hhyphens (by decide))
      rwa [Name.ofKebab_eq_empty_iff.mpr hhyphens] at hdenotes

end Reference

namespace Conversion

/-! References that are written as nothing -/

variable {allowed : Event → Prop} {scope : Scope} {location : Location} {schema : Document}
  {text name : String} {codec : Codec}

private theorem print_custom (dialect : Codec.Dialect) (static runtime : String)
    (dependencies : List String) :
    (Codec.custom static runtime dependencies).print dialect = dialect.custom static runtime :=
  String.ofList_toList

private theorem custom_ne_empty {source : String} (h : source ≠ "") (dialect : Codec.Dialect) :
    dialect.custom source source ≠ "" := by
  cases dialect with
  | static => exact h
  | runtime => exact h
  | decoder => simp [Codec.Dialect.custom]

private theorem fromReference_own (h : Reference.parse text = .ok ⟨"", name⟩) :
    (fromReference scope location schema text).result = .ok (.custom name name [name]) := by
  unfold fromReference
  rw [h]
  by_cases hcompany : hasCompany schema = true
  · rw [if_pos hcompany]
    rfl
  · rw [if_neg hcompany]
    rfl

/-- A reference becomes a name of the same module, or a text that is not empty. -/
theorem codec_of_fromReference
    (h : (fromReference scope location schema text).Gives allowed codec) :
    (∃ name, Reference.parse text = .ok ⟨"", name⟩ ∧ codec = .custom name name [name]) ∨
    ∃ source dependencies, source ≠ "" ∧ codec = .custom source source dependencies := by
  unfold fromReference at h
  replace h := gives_of_reportIf h
  split at h
  · simp only [errorCodec, gives_bind, gives_return] at h
    obtain ⟨-, -, rfl⟩ := h
    exact .inr ⟨_, [], by decide, rfl⟩
  · next target hparse =>
      split at h
      · next hlocal =>
          cases gives_return.mp h
          refine .inl ⟨target.name, ?_, rfl⟩
          rw [hparse, ← beq_iff_eq.mp hlocal]
      · split at h
        · exact (gives_fail.mp h).elim
        · simp only [gives_bind, gives_return] at h
          obtain ⟨-, -, rfl⟩ := h
          exact .inr ⟨_, _, by simp, rfl⟩

private theorem exists_blank_fromReference_iff :
    (∃ codec, (fromReference scope location schema text).result = .ok codec ∧
      ∃ dialect, codec.print dialect = "") ↔ Reference.Vacant text := by
  rw [← Reference.denotes_nothing_iff, ← Reference.parse_eq_ok_iff]
  constructor
  · rintro ⟨codec, hresult, dialect, hblank⟩
    rcases codec_of_fromReference (gives_anything_iff.mpr hresult) with
      ⟨name, hparse, rfl⟩ | ⟨source, dependencies, hsource, rfl⟩
    · by_cases hname : name = ""
      · rwa [hname] at hparse
      · rw [print_custom] at hblank
        exact absurd hblank (custom_ne_empty hname dialect)
    · rw [print_custom] at hblank
      exact absurd hblank (custom_ne_empty hsource dialect)
  · intro hparse
    exact ⟨_, fromReference_own hparse, .static, rfl⟩

end Conversion

namespace Reference

/-- Besides the documented references, the empty text is read and so is one that leaves out the
key. The name can be empty even for a documented reference, and what is written for a reference
is empty for these of the same document. -/
theorem reads_documented_and_incomplete (text : String) :
    ((∃ reference, parse text = .ok reference) ↔ Documented text ∨ Incomplete text) ∧
    (∀ reference, parse text = .ok reference →
      reference.file = String.ofList (Text.before '#' text.toList) ∧
      (reference.name = "" ↔ Nameless text)) ∧
    ∀ scope location schema,
      (∃ codec, (Conversion.fromReference scope location schema text).result = .ok codec ∧
        ∃ dialect, codec.print dialect = "") ↔ Vacant text := by
  refine ⟨?_, ?_, ?_⟩
  · simp only [parse_eq_ok_iff]
    exact exists_denotes_iff
  · intro reference hparse
    have hdenotes := parse_eq_ok_iff.mp hparse
    exact ⟨hdenotes.file_eq, hdenotes.name_eq_empty_iff⟩
  · intro scope location schema
    exact Conversion.exists_blank_fromReference_iff

theorem reads_documented_and_incomplete_hyphens :
    parse "odd/--.yaml.txt" = .ok ⟨"odd/--.yaml.txt", ""⟩ ∧ Nameless "odd/--.yaml.txt" := by
  have hparse : parse "odd/--.yaml.txt" = .ok ⟨"odd/--.yaml.txt", ""⟩ := by decide
  exact ⟨hparse, ((reads_documented_and_incomplete _).2.1 _ hparse).2.mp rfl⟩

/-- A reference that leaves out the key is none of the documented ones, and what is written for
it is nothing at all. -/
theorem keyless_reference_is_read :
    ¬ Documented "#/definitions/" ∧ parse "#/definitions/" = .ok ⟨"", ""⟩ ∧
    ∀ scope location schema, ∃ codec,
      (Conversion.fromReference scope location schema "#/definitions/").result = .ok codec ∧
      codec.print .static = "" := by
  have hparse : parse "#/definitions/" = .ok ⟨"", ""⟩ := by decide
  refine ⟨?_, hparse, ?_⟩
  · intro h
    -- The key would take a length that the text does not have.
    have hkeyless : ∀ file key : String, "#/definitions/" = file ++ "#/definitions/" ++ key →
        key = "" := by
      intro file key htext
      have hlength := congrArg String.length htext
      rw [String.length_append, String.length_append] at hlength
      exact String.length_eq_zero_iff.mp (by omega)
    generalize htext : "#/definitions/" = text at h
    cases h with
    | file hfile => exact hfile.hash (htext ▸ by decide)
    | @definition key hkey =>
        exact hkey.ne_empty (hkeyless "" key (by rw [String.empty_append, ← htext]))
    | @definitionOf file key hfile hkey => exact hkey.ne_empty (hkeyless file key htext)
  · intro scope location schema
    exact ⟨_, Conversion.fromReference_own hparse, rfl⟩

end Reference

end SchemaCodec

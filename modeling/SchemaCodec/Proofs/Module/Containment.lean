import SchemaCodec.Proofs.Except
import SchemaCodec.Proofs.Module.Descriptions
import SchemaCodec.Proofs.Text.Comments

namespace SchemaCodec

open Text

/-! Texts of schemas inside the comments and literals of modules. They are written as they are, so a
module is sound exactly where the schema has no text that leads out of its place. -/

namespace Block

/-- A comment to the end of its line has one line, and a comment that tests something ends where the
entry does. -/
structure Kept (entry : String) : Prop where
  line : ['/', '/'] <+: entry.toList → OneLine entry.toList
  test : ['/', '*', '*'] <+: entry.toList → ClosesAtEnd entry.toList

private theorem kept_of_head? {entry : String} (h : entry.toList.head? ≠ some '/') :
    Kept entry := by
  constructor
  · rintro ⟨rest, hrest⟩
    exact absurd (by rw [← hrest]; rfl) h
  · rintro ⟨rest, hrest⟩
    exact absurd (by rw [← hrest]; rfl) h

private theorem kept_comment {entry : String} {text : List Char}
    (h : entry.toList = ['/', '/'] ++ text) : Kept entry ↔ OneLine text := by
  have hline : OneLine entry.toList ↔ OneLine text := by
    rw [h, oneLine_append]
    exact and_iff_right (by decide)
  have htest : ¬ ['/', '*', '*'] <+: entry.toList := by
    rw [h]
    rintro ⟨rest, hrest⟩
    cases hrest
  rw [← hline]
  exact ⟨fun hkept => hkept.line ⟨text, h.symm⟩, fun hone =>
    ⟨fun _ => hone, fun hstars => absurd hstars htest⟩⟩

def opening : List Char :=
  "/** require('io-ts-validator').validator(".toList

private theorem kept_test {entry : String} {text : List Char}
    (h : entry.toList = opening ++ text ++ [' ', '*', '/']) : Kept entry ↔ ¬ Closes text := by
  have hstart : ['/', '*', '*'] <+: entry.toList := by
    rw [h, List.append_assoc]
    exact List.IsPrefix.trans (by decide) (List.prefix_append opening _)
  have hline : ¬ ['/', '/'] <+: entry.toList := by
    intro hslashes
    have hboth := List.prefix_of_prefix_length_le hslashes hstart (by decide)
    exact absurd hboth (by decide)
  have hcloses : Closes (opening ++ text) ↔ Closes text := by
    rw [closes_append (.inl (by decide))]
    exact or_iff_right (by decide)
  rw [← hcloses, ← closesAtEnd_append, ← h]
  exact ⟨fun hkept => hkept.test hstart, fun hend =>
    ⟨fun hslashes => absurd hslashes hline, fun _ => hend⟩⟩

private theorem kept_testLine {codec name : String} :
    Kept (testLine codec name) ↔ ¬ Closes codec.toList ∧ ¬ Closes name.toList := by
  have h : (testLine codec name).toList =
      opening ++ (codec.toList ++ ").decodeSync(".toList ++ name.toList ++ ") // => ".toList ++
        name.toList) ++ [' ', '*', '/'] := by
    unfold testLine
    iterate 6 rw [String.toList_append]
    simp only [List.append_assoc]
    rfl
  rw [kept_test h, closes_append_seam (by decide), closes_append_seam (by decide), or_assoc,
    or_self, not_or]

private theorem kept_valueLine {name type value : String} : Kept (valueLine name type value) := by
  apply kept_of_head?
  unfold valueLine
  iterate 6 rw [String.toList_append]
  simp

variable {b : Block}

private theorem kept_negativeLines {sample : Negative} :
    (∀ entry ∈ b.negativeLines sample, Kept entry) ↔ OneLine sample.description.toList ∧
      ¬ Closes b.name.toList ∧ ¬ Closes sample.source.toList := by
  have hcomment : Kept ("// NEGATIVE Test Case: " ++ sample.description) ↔
      OneLine sample.description.toList := by
    have h : ("// NEGATIVE Test Case: " ++ sample.description).toList =
        ['/', '/'] ++ (" NEGATIVE Test Case: ".toList ++ sample.description.toList) := by
      rw [String.toList_append]
      rfl
    rw [kept_comment h, oneLine_append]
    exact and_iff_right (by decide)
  have htest : Kept ("/** require('io-ts-validator').validator(" ++ b.name ++
      ").decodeEither(" ++ sample.source ++ ")._tag // => 'Left' */") ↔
      ¬ Closes b.name.toList ∧ ¬ Closes sample.source.toList := by
    have h : ("/** require('io-ts-validator').validator(" ++ b.name ++
        ").decodeEither(" ++ sample.source ++ ")._tag // => 'Left' */").toList =
        opening ++ (b.name.toList ++ ").decodeEither(".toList ++ sample.source.toList ++
          ")._tag // => 'Left'".toList ++ []) ++ [' ', '*', '/'] := by
      iterate 4 rw [String.toList_append]
      simp only [List.append_assoc]
      rfl
    have hnil : ¬ Closes [] := by decide
    rw [kept_test h, closes_append_seam (by decide), closes_append_seam (by decide),
      or_iff_left hnil, not_or]
  rw [negativeLines, List.forall_mem_cons, List.forall_mem_singleton, hcomment, htest]

private theorem closes_named {role name : String} (h : Seam role.toList) :
    Closes (role ++ name).toList ↔ Closes name.toList := by
  have hnil : ¬ Closes [] := by decide
  have hseam : Closes ([] ++ role.toList ++ name.toList) ↔ Closes [] ∨ Closes name.toList :=
    closes_append_seam h
  rwa [or_iff_right hnil, List.nil_append, ← String.toList_append] at hseam

private theorem kept_exampleLines :
    (∀ entry ∈ b.exampleLines, Kept entry) ↔ (b.examples.isSome → ¬ Closes b.name.toList) := by
  unfold exampleLines
  cases b.examples with
  | none => simp
  | some examples =>
      have hcodec : Closes ("nonEmptyArray(" ++ b.name ++ ")").toList ↔ Closes b.name.toList := by
        rw [String.toList_append, closes_append (.inr (by decide)), closes_named (by decide)]
        exact or_iff_left (by decide)
      have htest : Kept (testLine ("nonEmptyArray(" ++ b.name ++ ")") ("examples" ++ b.name)) ↔
          ¬ Closes b.name.toList := by
        rw [kept_testLine, hcodec, closes_named (by decide), and_self_iff]
      rw [List.forall_mem_cons, List.forall_mem_singleton, htest, and_iff_left kept_valueLine]
      simp

private theorem kept_constantLines {constant : Constant} (h : Seam constant.role.toList) :
    (∀ entry ∈ b.constantLines constant, Kept entry) ↔ ¬ Closes b.name.toList := by
  unfold constantLines
  rw [List.forall_mem_cons, List.forall_mem_singleton, and_iff_left kept_valueLine, kept_testLine,
    closes_named h, and_self_iff]

private theorem description_of_negative {definition : String} {sample : InvalidExample}
    {found : Negative}
    (h : negative definition sample = .ok found) : found.description = sample.description := by
  unfold negative at h
  split at h
  · cases h
    rfl
  · cases h

/-- Some comment of the block tests its codec. -/
def Tested (b : Block) : Prop :=
  b.examples.isSome ∨ b.negatives ≠ [] ∨ b.constants ≠ []

private theorem kept_lines (hstatic : Kept b.static) (hruntime : Kept b.runtime)
    (hroles : ∀ constant ∈ b.constants, Seam constant.role.toList) :
    (∀ entry ∈ b.lines, Kept entry) ↔
      OneLine b.title.toList ∧ OneLine b.description.toList ∧
        (b.Tested → ¬ Closes b.name.toList) ∧
        ∀ sample ∈ b.negatives, OneLine sample.description.toList ∧
          ¬ Closes sample.source.toList := by
  have hcomment : ∀ text : String, Kept ("// " ++ text) ↔ OneLine text.toList := by
    intro text
    have h : ("// " ++ text).toList = ['/', '/'] ++ ([' '] ++ text.toList) := by
      rw [String.toList_append]
      rfl
    rw [kept_comment h, oneLine_append]
    exact and_iff_right (by decide)
  have hempty : Kept "" := kept_of_head? (by decide)
  have hnegatives : (∀ entry ∈ b.negatives.flatMap b.negativeLines, Kept entry) ↔
      (b.negatives ≠ [] → ¬ Closes b.name.toList) ∧
        ∀ sample ∈ b.negatives, OneLine sample.description.toList ∧
          ¬ Closes sample.source.toList := by
    rw [List.forall_mem_flatMap]
    simp only [kept_negativeLines]
    constructor
    · intro h
      refine ⟨fun hne => ?_, fun sample hsample => ⟨(h sample hsample).1, (h sample hsample).2.2⟩⟩
      obtain ⟨sample, hsample⟩ := List.exists_mem_of_ne_nil _ hne
      exact (h sample hsample).2.1
    · rintro ⟨hname, h⟩ sample hsample
      exact ⟨(h sample hsample).1, hname (List.ne_nil_of_mem hsample), (h sample hsample).2⟩
  have hconstants : (∀ entry ∈ b.constants.flatMap b.constantLines, Kept entry) ↔
      (b.constants ≠ [] → ¬ Closes b.name.toList) := by
    rw [List.forall_mem_flatMap]
    constructor
    · intro h hne
      obtain ⟨constant, hconstant⟩ := List.exists_mem_of_ne_nil _ hne
      exact (kept_constantLines (hroles constant hconstant)).mp (h constant hconstant)
    · intro h constant hconstant
      exact (kept_constantLines (hroles constant hconstant)).mpr (h (List.ne_nil_of_mem hconstant))
  simp only [lines, List.forall_mem_append, List.forall_mem_cons, hcomment, kept_exampleLines,
    hnegatives, hconstants, Tested]
  constructor
  · rintro ⟨⟨⟨⟨⟨htitle, hdescription, -⟩, hexamples⟩, hfilled, hsamples⟩, hvalues⟩, -⟩
    refine ⟨htitle, hdescription, ?_, hsamples⟩
    rintro (hsome | hne | hne)
    · exact hexamples hsome
    · exact hfilled hne
    · exact hvalues hne
  · rintro ⟨htitle, hdescription, hname, hsamples⟩
    have hnil : ∀ entry ∈ [], Kept entry := by simp
    exact ⟨⟨⟨⟨⟨htitle, hdescription, hstatic, hruntime, hnil⟩, fun hsome => hname (.inl hsome)⟩,
      fun hne => hname (.inr (.inl hne)), hsamples⟩, fun hne => hname (.inr (.inr hne))⟩,
      hempty, hnil⟩

end Block

open Block

/-- A declaration begins with its keyword. -/
theorem Declaration.kept_plain (name : String) (inner : Codec) (condition : Condition) :
    Kept (plain name (.brand inner condition name)).staticText ∧
      Kept (plain name (.brand inner condition name)).codecText := by
  have hcomment : (plain name (.brand inner condition name)).comment.toList = [] := by
    rw [comment, String.toList_ofList]
    rfl
  have hkeyword : (plain name (.brand inner condition name)).keyword = "export " := rfl
  constructor
  · apply kept_of_head?
    rw [staticText, hkeyword]
    iterate 5 rw [String.toList_append]
    rw [hcomment]
    simp
  · apply kept_of_head?
    rw [codecText, decoderText, if_neg (by simp [plain, Codec.isCustom]), hkeyword]
    iterate 7 rw [String.toList_append]
    rw [hcomment]
    simp

def Metadata.Tested (metadata : Metadata) : Prop :=
  metadata.examples ≠ [] ∨ metadata.invalid ≠ [] ∨
    [metadata.default, metadata.minimum, metadata.maximum].any Option.isSome = true

/-- No text leads out of the comments in which it is written about the definition of a name. -/
structure Metadata.Harmless (definition : String) (metadata : Metadata) : Prop where
  title : OneLine (metadata.title.getD definition).toList
  description : ∀ text, metadata.description = some text → OneLine text.toList
  name : metadata.Tested → ¬ Closes definition.toList
  invalid : ∀ sample ∈ metadata.invalid, OneLine sample.description.toList ∧
    ∀ found, Block.negative definition sample = .ok found → ¬ Closes found.source.toList

namespace Module

open Conversion

private theorem Describes.tested {metadata : Metadata} {b : Block} (h : Describes metadata b) :
    b.Tested ↔ metadata.Tested := by
  have hexamples : b.examples.isSome ↔ metadata.examples ≠ [] := by
    rw [h.examples]
    split <;> simp_all
  have hnegatives : b.negatives = [] ↔ metadata.invalid = [] := by
    rw [← List.length_eq_zero_iff, ← List.length_eq_zero_iff, h.negatives.length_eq]
  have hconstants : b.constants ≠ [] ↔
      [metadata.default, metadata.minimum, metadata.maximum].any Option.isSome = true := by
    rw [h.constants]
    cases metadata.default <;> cases metadata.minimum <;> cases metadata.maximum <;>
      simp [Block.constant?]
  rw [Block.Tested, Metadata.Tested, hexamples, ne_eq b.negatives, hnegatives, hconstants]

private theorem Describes.seam_role {metadata : Metadata} {b : Block} (h : Describes metadata b) :
    ∀ constant ∈ b.constants, Seam constant.role.toList := by
  intro constant hconstant
  have hroles : ∀ role ∈ ["default", "minimum", "maximum"], Seam role.toList := by decide
  apply hroles
  rw [h.constants, List.mem_filterMap] at hconstant
  obtain ⟨found, hfound, rfl⟩ := hconstant
  simp only [List.mem_cons, List.not_mem_nil, or_false] at hfound
  rcases hfound with hfound | hfound | hfound
  all_goals
    obtain ⟨value, -, hvalue⟩ := Option.map_eq_some_iff.mp hfound.symm
    simp [← hvalue]

private theorem Describes.kept_lines {metadata : Metadata} {b : Block} (h : Describes metadata b)
    (hstatic : Kept b.static) (hruntime : Kept b.runtime) :
    (∀ entry ∈ b.lines, Kept entry) ↔ metadata.Harmless b.name := by
  have hdescription : OneLine b.description.toList ↔
      ∀ text, metadata.description = some text → OneLine text.toList := by
    rw [h.description]
    cases metadata.description with
    | none =>
        have hdefault : OneLine "The purpose of this remains a mystery".toList := by decide
        exact iff_of_true hdefault fun text hnone => by cases hnone
    | some text => simp
  have hinvalid : (∀ sample ∈ b.negatives, OneLine sample.description.toList ∧
      ¬ Closes sample.source.toList) ↔
      ∀ sample ∈ metadata.invalid, OneLine sample.description.toList ∧
        ∀ found, Block.negative b.name sample = .ok found → ¬ Closes found.source.toList := by
    constructor
    · intro hfound sample hsample
      obtain ⟨found, hmem, hnegative⟩ := exists_right_of_forall₂ h.negatives hsample
      rw [← description_of_negative hnegative]
      refine ⟨(hfound found hmem).1, fun other hother => ?_⟩
      rw [hnegative] at hother
      cases hother
      exact (hfound found hmem).2
    · intro hsamples found hfound
      obtain ⟨sample, hmem, hnegative⟩ := exists_left_of_forall₂ h.negatives hfound
      rw [description_of_negative hnegative]
      exact ⟨(hsamples sample hmem).1, (hsamples sample hmem).2 found hnegative⟩
  rw [Block.kept_lines hstatic hruntime h.seam_role, h.title, hdescription, h.tested, hinvalid]
  exact ⟨fun ⟨htitle, hdescription, hname, hsamples⟩ => ⟨htitle, hdescription, hname, hsamples⟩,
    fun hharmless => ⟨hharmless.title, hharmless.description, hharmless.name, hharmless.invalid⟩⟩

theorem LastNamed.find? {sources : List Origin} {name : String} {source : Origin}
    (h : LastNamed sources name source) :
    (sources.reverse.find? fun other => other.name == name) = some source := by
  obtain ⟨before, after, rfl, hname, hafter⟩ := h
  have hnone : (after.reverse.find? fun other => other.name == name) = none := by
    rw [List.find?_eq_none]
    intro other hother hsame
    exact hafter other (List.mem_reverse.mp hother) (beq_iff_eq.mp hsame)
  simp [List.find?_append, hnone, hname]

private theorem Shows.kept_lines {scope : Scope} {origin source : Origin} {b : Block}
    {extracted : Metadata}
    (h : Shows scope origin source b) (hname : source.name = origin.name)
    (hextracted : Metadata.ofSchema source.location source.schema = .ok extracted) :
    (∀ entry ∈ b.lines, Kept entry) ↔ (source.headed extracted).Harmless source.name := by
  obtain ⟨inner, condition, -, hrenders⟩ := h.rendered
  obtain ⟨found, hfound, hdescribes⟩ := h.described
  rw [hextracted] at hfound
  cases hfound
  have hplain := Declaration.kept_plain origin.name inner condition
  have hblock : b.name = origin.name := hrenders.name
  rw [hname, ← hblock]
  exact hdescribes.kept_lines (hrenders.static ▸ hplain.1) (hrenders.runtime ▸ hplain.2)

/-- Each block tells what the last schema of its name says, and each such schema has a block. -/
theorem kept_blocks_iff {options : Options} {schema : Document} {m : Module}
    (h : (generate options schema).result = .ok m) :
    (∀ b ∈ m.blocks, ∀ entry ∈ b.lines, Kept entry) ↔
      ∀ source extracted,
        LastNamed (origins schema (Name.ofFilePath options.inputFile)) source.name source →
        Metadata.ofSchema source.location source.schema = .ok extracted →
        (source.headed extracted).Harmless source.name := by
  obtain ⟨mappings, arranged, -, hperm, hshows⟩ := exists_shows_of_generate h
  constructor
  · intro hkept source extracted hlast hextracted
    have hmem : source ∈ arranged := by
      obtain ⟨before, after, hsources, -⟩ := hlast
      rw [hperm.mem_iff, hsources]
      simp
    obtain ⟨b, hb, other, hother, hshown⟩ := exists_right_of_forall₂ hshows hmem
    have hsame : other = source := Option.some.inj (hother.find?.symm.trans hlast.find?)
    subst hsame
    exact (hshown.kept_lines rfl hextracted).mp (hkept b hb)
  · intro hharmless b hb
    obtain ⟨origin, -, source, hlast, hshown⟩ := exists_left_of_forall₂ hshows hb
    obtain ⟨extracted, hextracted, -⟩ := hshown.described
    have hname : source.name = origin.name := by
      obtain ⟨before, after, -, hname, -⟩ := hlast
      exact hname
    rw [hshown.kept_lines hname hextracted]
    exact hharmless source extracted (hname ▸ hlast) hextracted

structure Contained (m : Module) : Prop where
  comments : ∀ b ∈ m.blocks, ∀ entry ∈ b.lines,
    ['/', '/'] <+: entry.toList → OneLine entry.toList
  head : ¬ Closes m.title.toList ∧ ¬ Closes m.description.toList
  tests : ∀ b ∈ m.blocks, ∀ entry ∈ b.lines,
    ['/', '*', '*'] <+: entry.toList → ClosesAtEnd entry.toList
  schemaId : hasBareQuote m.schemaId.toList = false ∧ OneLine m.schemaId.toList

/-- The texts of a schema stay inside the comments and literals of its module exactly if they hold
nothing that leads out: the head of the schema and, for each name, its last schema. -/
theorem contained_iff_harmless (options : Options) (schema : Document) (m : Module)
    (h : (generate options schema).result = .ok m) :
    m.Contained ↔
      ¬ Closes (headText schema "title").toList ∧
      ¬ Closes (headText schema "description").toList ∧
      hasBareQuote (headText schema "$id").toList = false ∧
      OneLine (headText schema "$id").toList ∧
      ∀ source extracted,
        LastNamed (origins schema (Name.ofFilePath options.inputFile)) source.name source →
        Metadata.ofSchema source.location source.schema = .ok extracted →
        (source.headed extracted).Harmless source.name := by
  have hhead : m.title = headText schema "title" ∧ m.description = headText schema "description" ∧
      m.schemaId = headText schema "$id" := by
    obtain ⟨mappings, events, blocks, -, -, -, rfl⟩ := exists_leaves_of_generate h
    exact ⟨rfl, rfl, rfl⟩
  have hblocks := kept_blocks_iff h
  rw [← hblocks, ← hhead.1, ← hhead.2.1, ← hhead.2.2]
  constructor
  · intro hm
    exact ⟨hm.head.1, hm.head.2, hm.schemaId.1, hm.schemaId.2, fun b hb entry hentry =>
      ⟨hm.comments b hb entry hentry, hm.tests b hb entry hentry⟩⟩
  · rintro ⟨htitle, hdescription, hquote, hline, hkept⟩
    exact ⟨fun b hb entry hentry => (hkept b hb entry hentry).line, ⟨htitle, hdescription⟩,
      fun b hb entry hentry => (hkept b hb entry hentry).test, hquote, hline⟩

def wordOptions : Options :=
  ⟨[], "", "note.json", "", 0, "", false, false⟩

/-- Texts in all places: the head, a comment, and the test of an invalid example. -/
def wordSchema (id title comment encoded : String) : Document :=
  .object [
    ("$id", .string id), ("title", .string title),
    ("definitions", .object [
      ("word", .object [("type", .string "string"), ("title", .string comment),
        ("invalid", .object [(encoded, .string comment)])])]),
    ("type", .string "object")]

theorem contained_iff_harmless_word :
    ∃ m, (generate wordOptions (wordSchema "note" "Notes" "a word" "NDI=")).result = .ok m ∧
      m.Contained := by
  have hok : (generate wordOptions
      (wordSchema "note" "Notes" "a word" "NDI=")).result.toOption.any (fun _ => true) = true := by
    decide +kernel
  obtain ⟨m, hm, -⟩ := exists_ok_of_any hok
  refine ⟨m, hm, (contained_iff_harmless _ _ m hm).mpr
    ⟨by decide, by decide, by decide, by decide, ?_⟩⟩
  intro source extracted hlast hextracted
  have hmem : source ∈ origins (wordSchema "note" "Notes" "a word" "NDI=") "Note" := by
    obtain ⟨before, after, hsources, -⟩ := hlast
    have hfile : Name.ofFilePath wordOptions.inputFile = "Note" := by decide
    rw [hfile] at hsources
    rw [hsources]
    simp
  rcases List.mem_cons.mp hmem with rfl | hrest
  · cases hextracted
    refine ⟨by decide, by rintro _ ⟨⟩, fun _ => by decide, ?_⟩
    intro sample hsample
    rcases List.mem_singleton.mp hsample with rfl
    have hopen : ((Block.negative "Word" ⟨"NDI=", "a word"⟩).toOption.any fun found =>
        ¬ Closes found.source.toList) = true := by
      decide +kernel
    refine ⟨by decide, fun found hfound => ?_⟩
    obtain ⟨other, hother, hsource⟩ := exists_ok_of_any hopen
    have hsame : found = other := Except.ok.inj (hfound.symm.trans hother)
    rw [hsame]
    exact of_decide_eq_true hsource
  · rcases List.mem_singleton.mp hrest with rfl
    cases hextracted
    exact ⟨by decide, by rintro _ ⟨⟩; decide, fun _ => by decide, by rintro _ ⟨⟩⟩

/-- A title with the end of a comment, an identifier with a quote, a comment with two lines, and a
sample that decodes to the end of a comment. -/
theorem words_leave_comments :
    ∃ m, (generate wordOptions (wordSchema "it\'s" "a */ b" "one\ntwo" "Ki8=")).result = .ok m ∧
      Closes m.title.toList ∧ hasBareQuote m.schemaId.toList = true ∧
      "// one\ntwo" ∈ m.lines ∧ "// NEGATIVE Test Case: one\ntwo" ∈ m.lines ∧
      "/** require('io-ts-validator').validator(Word).decodeEither(*/)._tag // => 'Left' */" ∈
        m.lines := by
  have h : (generate wordOptions
      (wordSchema "it\'s" "a */ b" "one\ntwo" "Ki8=")).result.toOption.any (fun m =>
        Closes m.title.toList ∧ hasBareQuote m.schemaId.toList = true ∧
        "// one\ntwo" ∈ m.lines ∧ "// NEGATIVE Test Case: one\ntwo" ∈ m.lines ∧
        "/** require('io-ts-validator').validator(Word).decodeEither(*/)._tag // => 'Left' */" ∈
          m.lines) = true := by
    decide +kernel
  obtain ⟨m, hm, hlines⟩ := exists_ok_of_any h
  exact ⟨m, hm, of_decide_eq_true hlines⟩

end Module

end SchemaCodec

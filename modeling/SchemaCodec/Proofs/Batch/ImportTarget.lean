import Mathlib.Data.List.Infix
import SchemaCodec.Proofs.Path.Relative
import SchemaCodec.Reference.Resolver

namespace SchemaCodec

/-! Stems -/

namespace Name

/-- Where a schema ending begins, nothing follows it. -/
def EndsOnce (text : List Char) : Prop :=
  ∀ mark ∈ schemaSuffixes, ∀ tail, tail <:+ text → mark <+: tail → tail = mark

instance (text : List Char) : Decidable (EndsOnce text) :=
  decidable_of_iff
    (∀ mark ∈ schemaSuffixes, ∀ tail ∈ text.tails, mark <+: tail → tail = mark)
    (by simp only [EndsOnce, List.mem_tails])

private theorem EndsOnce.of_suffix {text tail : List Char} (h : EndsOnce text)
    (htail : tail <:+ text) :
    EndsOnce tail :=
  fun mark hmark rest hrest => h mark hmark rest (hrest.trans htail)

private theorem stemOf_cons {c : Char} {rest : List Char}
    (h : ∀ mark ∈ schemaSuffixes, ¬ mark <+: c :: rest) :
    stemOf (c :: rest) = c :: stemOf rest := by
  have hnone : ¬ schemaSuffixes.any (·.isPrefixOf (c :: rest)) = true := by
    intro hany
    obtain ⟨mark, hmark, hbegins⟩ := List.any_eq_true.mp hany
    exact h mark hmark (List.isPrefixOf_iff_prefix.mp hbegins)
  rw [stemOf, if_neg hnone]

/-- No ending has a slash in it, so the stem is cut behind the last one. -/
theorem stemOf_append_slash {before after : List Char} (h : EndsOnce (before ++ '/' :: after)) :
    stemOf (before ++ '/' :: after) = before ++ '/' :: stemOf after := by
  have hslash : ∀ mark ∈ schemaSuffixes, '/' ∉ mark := by decide
  have hfree : ∀ text, '/' ∈ text → EndsOnce text → ∀ mark ∈ schemaSuffixes, ¬ mark <+: text := by
    intro text hmem hends mark hmark hbegins
    exact hslash mark hmark (hends mark hmark text (List.suffix_refl text) hbegins ▸ hmem)
  induction before with
  | nil =>
      rw [List.nil_append] at h
      exact stemOf_cons (hfree _ (List.mem_cons_self ..) h)
  | cons first rest ih =>
      rw [List.cons_append] at h
      rw [List.cons_append, stemOf_cons (hfree _ (by simp) h),
        ih (h.of_suffix (List.suffix_cons ..)), List.cons_append]

private theorem mem_of_mem_stemOf {c : Char} {text : List Char} (h : c ∈ stemOf text) :
    c ∈ text := by
  fun_induction stemOf text with
  | case1 => exact h
  | case2 => exact absurd h List.not_mem_nil
  | case3 first rest _ ih =>
      rcases List.mem_cons.mp h with rfl | hmem
      · exact List.mem_cons_self ..
      · exact List.mem_cons_of_mem _ (ih hmem)

end Name

/-! Documents under a base -/

namespace Batch

/-- The URI of a document that has its place under a base: it has a scheme and starts with the base,
no segment of it is a dot or two, it has a schema ending at most at its end, and its last segment has
a stem. -/
structure LiesUnder (base uri : String) : Prop where
  scheme : [':', '/', '/'] <:+: uri.toList
  below : base.toList <+: uri.toList
  straight : ∀ segment ∈ Path.segments uri, segment ≠ "." ∧ segment ≠ ".."
  endsOnce : Name.EndsOnce uri.toList
  hasStem : Name.stemOf (Text.afterLast '/' uri.toList) ≠ []

instance (base uri : String) : Decidable (LiesUnder base uri) :=
  decidable_of_iff
    ([':', '/', '/'] <:+: uri.toList ∧ base.toList <+: uri.toList ∧
      (∀ segment ∈ Path.segments uri, segment ≠ "." ∧ segment ≠ "..") ∧
      Name.EndsOnce uri.toList ∧ Name.stemOf (Text.afterLast '/' uri.toList) ≠ [])
    ⟨fun h => ⟨h.1, h.2.1, h.2.2.1, h.2.2.2.1, h.2.2.2.2⟩,
      fun h => ⟨h.scheme, h.below, h.straight, h.endsOnce, h.hasStem⟩⟩

def lastStem (uri : String) : String :=
  String.ofList (Name.stemOf (Text.afterLast '/' uri.toList))

/-- A base that is empty or a directory. -/
def IsBase (base : String) : Prop :=
  base = "" ∨ base.toList.getLast? = some '/'

instance (base : String) : Decidable (IsBase base) :=
  inferInstanceAs (Decidable (_ ∨ _))

private theorem IsBase.exists_segments {base : String} (h : IsBase base) :
    ∃ above, ∀ rest : String, Path.segments (base ++ rest) = above ++ Path.segments rest := by
  rcases h with rfl | hlast
  · exact ⟨[], fun rest => by rw [String.empty_append, List.nil_append]⟩
  · obtain ⟨directory, hbase⟩ := List.getLast?_eq_some_iff.mp hlast
    refine ⟨Path.segments (String.ofList directory), fun rest => ?_⟩
    have hdirectory : base = String.ofList directory ++ "/" := by
      rw [← String.toList_inj, hbase]
      simp [String.toList_append]
    rw [hdirectory, Path.segments_slash]

namespace LiesUnder

variable {base uri : String}

private theorem eq_base_append (h : LiesUnder base uri) : uri = base ++ localPart base uri := by
  obtain ⟨rest, hrest⟩ := h.below
  rw [localPart, ← hrest, Text.isPrefixOf?_append, ← String.toList_inj, ← hrest]
  simp [String.toList_append]

private theorem slash_mem (h : LiesUnder base uri) : '/' ∈ uri.toList :=
  h.scheme.subset (by decide)

private theorem exists_directory (h : LiesUnder base uri) :
    ∃ directory file : String, '/' ∉ file.toList ∧ uri = directory ++ "/" ++ file ∧
      Path.parent uri = directory ∧ Name.stem uri = directory ++ "/" ++ lastStem uri := by
  obtain ⟨directory, file, huri, hfile⟩ := Text.exists_last_of_mem h.slash_mem
  have hends := h.endsOnce
  refine ⟨String.ofList directory, String.ofList file, by simpa using hfile,
    Path.eq_slash_of_toList huri, ?_, ?_⟩
  · rw [Path.parent, huri, Text.cutLast?_append hfile]
  · rw [huri] at hends
    apply Path.eq_slash_of_toList
    rw [Name.stem, Name.onText, String.toList_ofList, huri, Name.stemOf_append_slash hends,
      Text.afterLast_append hfile]

private theorem slash_not_mem_lastStem (h : LiesUnder base uri) : '/' ∉ (lastStem uri).toList := by
  obtain ⟨directory, file, huri, hfile⟩ := Text.exists_last_of_mem h.slash_mem
  rw [lastStem, String.toList_ofList, huri, Text.afterLast_append hfile]
  exact fun hmem => hfile (Name.mem_of_mem_stemOf hmem)

private theorem lastStem_ne_empty (h : LiesUnder base uri) : lastStem uri ≠ "" :=
  mt String.ofList_eq_empty_iff.mp h.hasStem

/-- The stem is cut behind the base. -/
theorem stem_eq (h : LiesUnder base uri) (hbase : IsBase base) :
    Name.stem uri = base ++ Name.stem (localPart base uri) := by
  have hends := h.endsOnce
  have huri := congrArg String.toList h.eq_base_append
  rcases hbase with rfl | hlast
  · have hlocal := h.eq_base_append
    rw [String.empty_append] at hlocal
    rw [String.empty_append, ← hlocal]
  · obtain ⟨directory, hdirectory⟩ := List.getLast?_eq_some_iff.mp hlast
    rw [String.toList_append, hdirectory, List.append_assoc, List.singleton_append] at huri
    rw [huri] at hends
    rw [Name.stem, Name.onText, Name.onText, huri, Name.stemOf_append_slash hends,
      ← String.toList_inj]
    simp [String.toList_append, hdirectory]

/-- The directories between the base and the document. -/
theorem exists_directories (h : LiesUnder base uri) (hbase : IsBase base) {above : List String}
    (habove : ∀ rest : String, Path.segments (base ++ rest) = above ++ Path.segments rest) :
    ∃ directories, Path.segments (Path.parent uri) = above ++ directories ∧
      Path.segments (Name.stem uri) = above ++ (directories ++ [lastStem uri]) ∧
      Path.segments (Name.stem (localPart base uri) ++ ".ts") =
        directories ++ [lastStem uri ++ ".ts"] := by
  obtain ⟨directory, file, _, _, hparent, hstem⟩ := h.exists_directory
  obtain ⟨directories, last, hlocal, houtput⟩ :=
    Path.exists_segments_append (Name.stem (localPart base uri))
  have hwhole : above ++ directories ++ [last] = Path.segments directory ++ [lastStem uri] := by
    calc above ++ directories ++ [last]
        = Path.segments (base ++ Name.stem (localPart base uri)) := by
          rw [habove, hlocal, List.append_assoc]
      _ = Path.segments (directory ++ "/" ++ lastStem uri) := by rw [← h.stem_eq hbase, hstem]
      _ = Path.segments directory ++ [lastStem uri] := by
          rw [Path.segments_slash, Path.segments_of_not_mem h.slash_not_mem_lastStem]
  obtain ⟨hdirectories, hlast⟩ := List.append_inj' hwhole rfl
  obtain rfl : last = lastStem uri := List.singleton_inj.mp hlast
  refine ⟨directories, by rw [hparent, hdirectories], ?_, houtput ".ts" (by decide)⟩
  rw [h.stem_eq hbase, habove, hlocal]

private theorem straight_parent (h : LiesUnder base uri) :
    ∀ segment ∈ Path.segments (Path.parent uri), segment ≠ "." ∧ segment ≠ ".." := by
  obtain ⟨directory, file, _, huri, hparent, _⟩ := h.exists_directory
  intro segment hsegment
  apply h.straight
  rw [huri, Path.segments_slash]
  exact List.mem_append_left _ (hparent ▸ hsegment)

section Directories

variable {above directories : List String}

private theorem straight_directories (h : LiesUnder base uri)
    (hparent : Path.segments (Path.parent uri) = above ++ directories) :
    ∀ segment ∈ directories, segment ≠ "." ∧ segment ≠ ".." := by
  intro segment hsegment
  apply h.straight_parent
  rw [hparent]
  exact List.mem_append_right _ hsegment

private theorem direct_directories (h : LiesUnder base uri)
    (hparent : Path.segments (Path.parent uri) = above ++ directories) {rooted : Bool}
    {place : List String} (hplace : Path.Direct rooted place) :
    Path.Direct rooted ((Path.named directories).reverse ++ place) := by
  apply hplace.append
  · intro name hname
    exact Path.isName_of_mem_named (h.straight_directories hparent) (List.mem_reverse.mp hname)
  · intro name hname
    have hmem : name ∈ directories := (List.mem_filter.mp (List.mem_reverse.mp hname)).1
    have hsegment : name ∈ Path.segments (Path.parent uri) := by
      rw [hparent]
      exact List.mem_append_right _ hmem
    exact Path.not_mem_of_mem_segments hsegment

/-- The scheme is one of the directories. -/
theorem named_parent_ne_nil (h : LiesUnder base uri) :
    Path.named (Path.segments (Path.parent uri)) ≠ [] := by
  obtain ⟨directory, file, hfile, huri, hparent, _⟩ := h.exists_directory
  obtain ⟨before, after, hscheme⟩ := h.scheme
  obtain ⟨front, scheme, _, hfront⟩ := Path.exists_segments_append (String.ofList before)
  obtain ⟨rest, last, hrest, _⟩ := Path.exists_segments_append (String.ofList after)
  have hslashes : directory ++ "/" ++ file =
      String.ofList before ++ ":" ++ "/" ++ ("" ++ "/" ++ String.ofList after) := by
    rw [← huri, ← String.toList_inj, ← hscheme]
    simp [String.toList_append]
  have hsegments := congrArg Path.segments hslashes
  rw [Path.segments_slash, Path.segments_slash, Path.segments_slash, hfront ":" (by decide), hrest,
    Path.segments_of_not_mem hfile, ← List.append_assoc, ← List.append_assoc] at hsegments
  obtain ⟨hdirectory, _⟩ := List.append_inj' hsegments rfl
  have hmem : scheme ++ ":" ∈ Path.segments (Path.parent uri) := by
    rw [hparent, hdirectory]
    simp
  exact List.ne_nil_of_mem (List.mem_filter.mpr ⟨hmem, by simp⟩)

private theorem cleanSegments_parent (h : LiesUnder base uri)
    (hparent : Path.segments (Path.parent uri) = above ++ directories) :
    Path.cleanSegments (Path.parent uri) = Path.named above ++ Path.named directories := by
  rw [Path.cleanSegments_of_straight h.straight_parent h.named_parent_ne_nil, hparent,
    Path.named_append]

private theorem cleanSegments_stem (h : LiesUnder base uri)
    (hparent : Path.segments (Path.parent uri) = above ++ directories)
    (hstem : Path.segments (Name.stem uri) = above ++ (directories ++ [lastStem uri]))
    (hname : Path.IsName (lastStem uri)) :
    Path.cleanSegments (Name.stem uri) =
      Path.named above ++ (Path.named directories ++ [lastStem uri]) := by
  have hlast : Path.named [lastStem uri] = [lastStem uri] := by
    simp [Path.named, hname.ne_empty]
  have hsegments : Path.named (Path.segments (Name.stem uri)) =
      Path.named above ++ (Path.named directories ++ [lastStem uri]) := by
    rw [hstem, Path.named_append, Path.named_append, hlast]
  rw [Path.cleanSegments_of_straight, hsegments]
  · intro segment hsegment
    rw [hstem, ← List.append_assoc, ← hparent] at hsegment
    rcases List.mem_append.mp hsegment with hmem | hend
    · exact h.straight_parent segment hmem
    · rw [List.mem_singleton.mp hend]
      exact ⟨hname.ne_dot, hname.ne_dots⟩
  · rw [hsegments]
    simp

end Directories

private theorem isAbsolute_stem (h : LiesUnder base uri) : Resolver.isAbsolute
    (Name.stem uri) = true := by
  obtain ⟨before, after, hscheme⟩ := h.scheme
  have huri : uri.toList = (before ++ [':', '/']) ++ '/' :: after := by
    rw [← hscheme]
    simp
  have hends := h.endsOnce
  rw [huri] at hends
  have hstem : (Name.stem uri).toList = before ++ ([':', '/', '/'] ++ Name.stemOf after) := by
    rw [Name.stem, Name.onText, String.toList_ofList, huri, Name.stemOf_append_slash hends]
    simp
  rw [Resolver.isAbsolute, hstem, Text.cutAt?_isSome, Bool.or_true]

end LiesUnder

/-! Where imports lead -/

theorem isName_module (stem : String) : Path.IsName (stem ++ ".ts") := by
  have hlong : 3 ≤ (stem ++ ".ts").length := by
    rw [String.length_append]
    exact Nat.le_add_left ..
  refine ⟨?_, ?_, ?_⟩
  · exact fun heq => absurd (heq ▸ hlong) (by decide)
  · exact fun heq => absurd (heq ▸ hlong) (by decide)
  · exact fun heq => absurd (heq ▸ hlong) (by decide)

private theorem walk_dotted (path : String) (rooted : Bool) (position : List String) :
    (Path.segments (Resolver.dotted path)).foldl (Path.walk rooted) position =
      (Path.segments path).foldl (Path.walk rooted) position := by
  rw [Resolver.dotted]
  split
  · rfl
  · have hsegments := Path.segments_slash "." path
    rw [show "./" ++ path = "." ++ "/" ++ path from rfl, hsegments, List.foldl_append]
    rfl

private theorem dotted_ne_empty (path : String) : Resolver.dotted path ≠ "" := by
  rw [Resolver.dotted]
  split
  · next hdot =>
      rintro rfl
      exact absurd hdot (by decide)
  · simp

private theorem importPath_eq {resolver : Resolver} {target : String}
    (hbase : IsBase resolver.base) (h : LiesUnder resolver.base target) :
    resolver.importPath target =
      Resolver.dotted
        (Path.relative (Path.parent resolver.documentUri) (Name.stem target)) := by
  have hbelow : resolver.base.toList.isPrefixOf (Name.stem target).toList = true := by
    rw [List.isPrefixOf_iff_prefix, h.stem_eq hbase, String.toList_append]
    exact List.prefix_append ..
  rw [Resolver.importPath]
  exact if_pos (by rw [h.isAbsolute_stem, hbelow, Bool.and_self])

private theorem outputPath_eq {outputDir base uri : String} {directories : List String}
    (hdir : outputDir ≠ "")
    (hsegments : Path.segments (Name.stem (localPart base uri) ++ ".ts") =
      directories ++ [lastStem uri ++ ".ts"])
    (hstraight : ∀ segment ∈ directories, segment ≠ "." ∧ segment ≠ "..") :
    outputPath outputDir base uri =
      Path.ofSteps (Path.isRooted outputDir)
        ((lastStem uri ++ ".ts") ::
          ((Path.named directories).reverse ++ Path.position outputDir)).reverse := by
  rw [outputPath, Path.join_pair hdir (isName_module _).ne_empty, Path.clean_slash hdir, hsegments,
    List.foldl_append, Path.walk_named hstraight, List.foldl_cons, List.foldl_nil,
    Path.walk_name (isName_module _)]

/-- The import of a document, followed from the module that imports it, leads to the document's own
module. -/
theorem import_leads_to_output {outputDir : String} {resolver : Resolver} {target : String}
    (hdir : outputDir ≠ "") (hbase : IsBase resolver.base)
    (hdocument : LiesUnder resolver.base resolver.documentUri)
    (htarget : LiesUnder resolver.base target)
    (hdots : lastStem target ≠ "." ∧ lastStem target ≠ "..") :
    Path.join
        [directoryOf (outputPath outputDir resolver.base resolver.documentUri),
          resolver.importPath target] ++ ".ts" =
      outputPath outputDir resolver.base target := by
  obtain ⟨above, habove⟩ := hbase.exists_segments
  obtain ⟨source, hsourceParent, _, hsourceOutput⟩ := hdocument.exists_directories hbase habove
  obtain ⟨goal, hgoalParent, hgoalStem, hgoalOutput⟩ := htarget.exists_directories hbase habove
  have hsource := hdocument.straight_directories hsourceParent
  have hgoal := htarget.straight_directories hgoalParent
  have hplace := Path.direct_position outputDir
  have hdirect := hdocument.direct_directories hsourceParent hplace
  have hstem : Path.IsName (lastStem target) := ⟨htarget.lastStem_ne_empty, hdots.1, hdots.2⟩
  -- Behind the base, which the two URIs have in common, the way goes up and down again.
  have hup := hdocument.cleanSegments_parent hsourceParent
  have hdown := htarget.cleanSegments_stem hgoalParent hgoalStem hstem
  have hnames : ∀ name ∈ Path.named goal ++ [lastStem target], Path.IsName name := by
    intro name hname
    rcases List.mem_append.mp hname with hmem | hlast
    · exact Path.isName_of_mem_named hgoal hmem
    · exact List.mem_singleton.mp hlast ▸ hstem
  have hslash : '/' ∉ (lastStem resolver.documentUri ++ ".ts").toList := by
    simp [String.toList_append, hdocument.slash_not_mem_lastStem]
  have hreverse : (Path.named goal ++ [lastStem target]).reverse ++ Path.position outputDir =
      lastStem target :: ((Path.named goal).reverse ++ Path.position outputDir) := by
    simp
  rw [outputPath_eq hdir hsourceOutput hsource,
    Path.directoryOf_ofSteps hdirect (isName_module _).ne_empty hslash,
    importPath_eq hbase htarget, Path.join_ofSteps hdirect (dotted_ne_empty _), walk_dotted,
    Path.walk_relative hup hdown (fun _ => Path.isName_of_mem_named hsource) hnames,
    hreverse, outputPath_eq hdir hgoalOutput hgoal,
    Path.ofSteps_append (htarget.direct_directories hgoalParent hplace) hstem.ne_empty]

/-- A document in `docs/orders`, with an empty segment on the way to it. -/
def orderResolver : Resolver where
  base := "http://x/docs/"
  documentUri := "http://x/docs/orders//new.json"
  imports := [⟨"http://x/", "@x/"⟩]
  hashLength := 0
  hashAlgorithm := "sha256"

theorem import_leads_to_output_order :
    IsBase orderResolver.base ∧ LiesUnder orderResolver.base orderResolver.documentUri ∧
      LiesUnder orderResolver.base "http://x/docs/shop/.item.v1.yaml" ∧
      orderResolver.importPath "http://x/docs/shop/.item.v1.yaml" = "../shop/.item.v1" ∧
      Path.join
          [directoryOf (outputPath "../out" orderResolver.base orderResolver.documentUri),
            orderResolver.importPath "http://x/docs/shop/.item.v1.yaml"] ++ ".ts" =
        outputPath "../out" orderResolver.base "http://x/docs/shop/.item.v1.yaml" :=
  ⟨by decide, by decide, by decide, by decide +kernel,
    import_leads_to_output (by decide) (by decide) (by decide) (by decide) (by decide)⟩

def plainResolver : Resolver where
  base := ""
  documentUri := "http://x/d.json"
  imports := []
  hashLength := 0
  hashAlgorithm := ""

/-- The stem of the last segment is a dot: the way to it ends in the directory, while the module is
a file in the directory. -/
theorem import_misses_dot_stem :
    LiesUnder plainResolver.base plainResolver.documentUri ∧
      LiesUnder plainResolver.base "http://x/..json" ∧
      Path.join
          [directoryOf (outputPath "out" plainResolver.base plainResolver.documentUri),
            plainResolver.importPath "http://x/..json"] ++ ".ts" = "out/http:/x.ts" ∧
      outputPath "out" plainResolver.base "http://x/..json" = "out/http:/x/..ts" := by
  decide +kernel

end Batch

end SchemaCodec

import Mathlib.Data.List.Infix
import SchemaCodec.Proofs.Path.Relative
import SchemaCodec.Proofs.Path.Routes
import SchemaCodec.Reference.Resolver

namespace SchemaCodec

/-! What import paths look like, and where they lead from the document that imports. -/

namespace Path

/-! Following -/

def follow (place : List String) (path : String) : List String :=
  (segments path).foldl advance place

private theorem foldl_advance_straight {parts : List String}
    (h : ∀ part ∈ parts, part ≠ "." ∧ part ≠ "..") (place : List String) :
    parts.foldl advance place = place ++ named parts := by
  induction parts generalizing place with
  | nil => exact (List.append_nil place).symm
  | cons part rest ih =>
      rw [List.forall_mem_cons] at h
      rw [List.foldl_cons, ih h.2]
      by_cases hempty : part = ""
      · rw [advance_stay (.inl hempty), hempty]
        rfl
      · have hnamed : named (part :: rest) = part :: named rest :=
          List.filter_cons_of_pos (by simpa using hempty)
        rw [advance_name ⟨hempty, h.1.1, h.1.2⟩, hnamed, List.append_assoc, List.singleton_append]

/-- The segments of a cleaned path lead where the path leads. -/
theorem foldl_cleanSegments (path : String) :
    (cleanSegments path).foldl advance [] = follow [] path := by
  have hslash : ∀ part ∈ segments path, '/' ∉ part.toList :=
    fun part hpart => not_mem_of_mem_segments hpart
  have hposition : (position path).reverse.foldl advance [] = follow [] path :=
    advance_foldl Direct.start (fun _ => rfl) hslash
  rw [cleanSegments_eq]
  split
  · next h =>
      rw [← hposition, h.1]
      rfl
  · exact hposition

/-- Going up once for each segment comes back, also if the only segment is the dot of an empty
path. -/
theorem foldl_advance_back {common back : List String}
    (h : (∀ name ∈ common ++ back, IsName name) ∨ common ++ back = ["."]) :
    (back.map fun _ => "..").foldl advance ((common ++ back).foldl advance []) =
      common.foldl advance [] := by
  rcases h with hnames | hdot
  · have hback : back.map (fun _ => "..") = back.reverse.map fun _ => ".." := by
      rw [List.map_const', List.map_const', List.length_reverse]
    have hup : ∀ name ∈ back.reverse, IsName name := fun name hname =>
      hnames name (List.mem_append_right _ (List.mem_reverse.mp hname))
    have hreverse := follows_advance.back_names hup (common.foldl advance [])
    rw [List.reverse_reverse] at hreverse
    rw [List.foldl_append, hback, hreverse]
  · rcases List.append_eq_singleton_iff.mp hdot with ⟨rfl, rfl⟩ | ⟨rfl, rfl⟩
    · rfl
    · rfl

private theorem follow_intercalate {parts : List String} (h : ∀ part ∈ parts, '/' ∉ part.toList)
    (place : List String) :
    follow place (String.intercalate "/" parts) = parts.foldl advance place := by
  by_cases hne : parts = []
  · subst hne
    rfl
  · rw [follow, segments_intercalate hne h]

/-- The way from a directory to a target leads there. -/
theorem follow_relative {directory : String} (target : String)
    (h : (∀ name ∈ cleanSegments directory, IsName name) ∨ cleanSegments directory = ["."]) :
    follow (follow [] directory) (relative directory target) = follow [] target := by
  obtain ⟨common, hup, hdown⟩ := exists_common (cleanSegments directory) (cleanSegments target)
  have hslash := not_mem_of_mem_way (cleanSegments directory)
    fun part (hpart : part ∈ cleanSegments target) => not_mem_of_mem_cleanSegments hpart
  rw [← foldl_cleanSegments directory, ← foldl_cleanSegments target, relative,
    follow_intercalate hslash, List.foldl_append]
  generalize dropCommon (cleanSegments directory) (cleanSegments target) = rest at *
  obtain ⟨back, forward⟩ := rest
  simp only at hup hdown ⊢
  rw [hup] at h
  rw [hup, hdown, foldl_advance_back h, List.foldl_append]

/-! Straight paths -/

/-- No segment of the path is a dot or two. -/
def Straight (path : String) : Prop :=
  ∀ segment ∈ segments path, segment ≠ "." ∧ segment ≠ ".."

instance : DecidablePred Straight :=
  fun path => inferInstanceAs (Decidable (∀ segment ∈ segments path, _))

theorem Straight.follow {path : String} (h : Straight path) :
    follow [] path = named (segments path) :=
  foldl_advance_straight h []

theorem Straight.parent {path : String} (h : Straight path) : Straight (parent path) := by
  by_cases hslash : '/' ∈ path.toList
  · obtain ⟨before, after, hpath, hafter⟩ := Text.exists_last_of_mem hslash
    have hparent : Path.parent path = String.ofList before := by
      rw [Path.parent, hpath, Text.cutLast?_append hafter]
    intro segment hsegment
    apply h
    rw [eq_slash_of_toList hpath, segments_slash]
    exact List.mem_append_left _ (hparent ▸ hsegment)
  · have hparent : Path.parent path = "" := by
      rw [Path.parent, Text.cutLast?_of_not_mem hslash]
    rw [hparent]
    decide

theorem Straight.cleanSegments {path : String} (h : Straight path) :
    (∀ name ∈ cleanSegments path, IsName name) ∨ cleanSegments path = ["."] := by
  rw [cleanSegments_eq, position_of_straight h, List.reverse_reverse]
  split
  · exact .inr rfl
  · exact .inl fun name hname => isName_of_mem_named h hname

end Path

/-! Import paths -/

namespace Resolver

/-- A path that is taken as relative to the importing file. -/
def IsRelative (path : String) : Prop :=
  ['.', '/'] <+: path.toList ∨ ['.', '.', '/'] <+: path.toList

instance : DecidablePred IsRelative :=
  fun _ => inferInstanceAs (Decidable (_ ∨ _))

private theorem dotted_of_dot {path : String} (h : path.toList.head? = some '.') :
    dotted path = path :=
  if_pos h

private theorem dotted_of_not_dot {path : String} (h : path.toList.head? ≠ some '.') :
    dotted path = "./" ++ path :=
  if_neg h

private theorem head?_dotted (path : String) : (dotted path).toList.head? = some '.' := by
  by_cases h : path.toList.head? = some '.'
  · rw [dotted_of_dot h, h]
  · rw [dotted_of_not_dot h, String.toList_append]
    rfl

private theorem isRelative_dotted {path : String}
    (h : path.toList.head? = some '.' → IsRelative path) :
    IsRelative (dotted path) := by
  by_cases hdot : path.toList.head? = some '.'
  · rw [dotted_of_dot hdot]
    exact h hdot
  · rw [dotted_of_not_dot hdot, IsRelative, String.toList_append]
    exact .inl (List.prefix_append _ _)

private theorem follow_dotted (place : List String) (path : String) :
    Path.follow place (dotted path) = Path.follow place path := by
  by_cases h : path.toList.head? = some '.'
  · rw [dotted_of_dot h]
  · have hsegments : Path.segments ("./" ++ path) = "." :: Path.segments path :=
      Path.segments_slash "." path
    rw [dotted_of_not_dot h, Path.follow, hsegments, List.foldl_cons,
      Path.advance_stay (.inr rfl)]
    rfl

private theorem isRelative_intercalate (next : String) (rest : List String) :
    IsRelative (String.intercalate "/" (".." :: next :: rest)) := by
  rw [IsRelative, String.intercalate_cons_cons, String.toList_append, String.toList_append]
  exact .inr (List.prefix_append _ _)

private theorem head?_intercalate {name : String} (hname : name ≠ "") (rest : List String) :
    (String.intercalate "/" (name :: rest)).toList.head? = name.toList.head? := by
  cases rest with
  | nil => rw [String.intercalate_singleton]
  | cons next others =>
      obtain ⟨first, chars, hchars⟩ :=
        List.exists_cons_of_ne_nil (mt String.toList_eq_nil_iff.mp hname)
      rw [String.intercalate_cons_cons, String.toList_append, String.toList_append, hchars]
      rfl

/-- The target is not the next directory above, and on the way down from the directory the first
segment does not begin with a dot. -/
structure InSight (directory target : List String) : Prop where
  notAbove : ∀ last, directory ≠ target ++ [last]
  notHidden : ∀ name rest, target = directory ++ name :: rest → name.toList.head? ≠ some '.'

private theorem isRelative_dotted_relative {directory target : String}
    (h : InSight (Path.cleanSegments directory) (Path.cleanSegments target)) :
    IsRelative (dotted (Path.relative directory target)) := by
  obtain ⟨common, hup, hdown⟩ :=
    Path.exists_common (Path.cleanSegments directory) (Path.cleanSegments target)
  rw [Path.relative]
  generalize hrest :
    Path.dropCommon (Path.cleanSegments directory) (Path.cleanSegments target) = rest at *
  obtain ⟨back, forward⟩ := rest
  simp only at hup hdown ⊢
  apply isRelative_dotted
  intro hdot
  cases back with
  | nil =>
      cases forward with
      | nil => cases hdot
      | cons name rest =>
          have hname : name ≠ "" := by
            have hmem : name ∈ Path.cleanSegments target := by
              rw [hdown]
              exact List.mem_append_right _ (List.mem_cons_self ..)
            exact of_decide_eq_true (List.mem_filter.mp hmem).2
          rw [List.append_nil] at hup
          change (String.intercalate "/" (name :: rest)).toList.head? = _ at hdot
          rw [head?_intercalate hname] at hdot
          exact absurd hdot (h.notHidden name rest (hup ▸ hdown))
  | cons last others =>
      cases others with
      | cons next others => exact isRelative_intercalate ..
      | nil =>
          cases forward with
          | cons name rest => exact isRelative_intercalate ..
          | nil =>
              rw [List.append_nil] at hdown
              exact absurd (hdown ▸ hup) (h.notAbove last)

/-- The file lies under the base, so that its path is found from the document. -/
def Covers (resolver : Resolver) (file : String) : Prop :=
  isAbsolute (Name.stem file) = true ∧ resolver.base.toList <+: (Name.stem file).toList

instance (resolver : Resolver) (file : String) : Decidable (resolver.Covers file) :=
  inferInstanceAs (Decidable (_ ∧ _))

/-- No mapping is applied to the file. -/
def Unmapped (resolver : Resolver) (file : String) : Prop :=
  resolver.Covers file ∨
    ∀ mapping ∈ resolver.imports, ¬ mapping.uri.toList <+: (Name.stem file).toList

instance (resolver : Resolver) (file : String) : Decidable (resolver.Unmapped file) :=
  inferInstanceAs (Decidable (_ ∨ ∀ mapping ∈ resolver.imports, _))

private theorem importPath_of_covers {resolver : Resolver} {file : String}
    (h : resolver.Covers file) :
    resolver.importPath file =
      dotted (Path.relative (Path.parent resolver.documentUri) (Name.stem file)) :=
  if_pos (by rw [h.1, List.isPrefixOf_iff_prefix.mpr h.2, Bool.and_self])

private theorem importPath_of_not_covers {resolver : Resolver} {file : String}
    (h : resolver.Unmapped file) (hcovers : ¬ resolver.Covers file) :
    resolver.importPath file = dotted (Name.stem file) := by
  have hnone : resolver.imports.findSome? (·.locate? (Name.stem file)) = none := by
    rw [List.findSome?_eq_none_iff]
    intro mapping hmapping
    rw [ImportMapping.locate?, Option.map_eq_none_iff, Option.eq_none_iff_forall_ne_some]
    intro rest hrest
    have hbegins := List.append_eq_of_isPrefixOf?_eq_some hrest
    exact h.resolve_left hcovers mapping hmapping ⟨rest, hbegins⟩
  have hoff : ¬ (isAbsolute (Name.stem file) &&
      resolver.base.toList.isPrefixOf (Name.stem file).toList) = true := by
    rwa [Bool.and_eq_true, List.isPrefixOf_iff_prefix]
  rw [importPath, if_neg hoff, hnone]

/-- An import path to which no mapping is applied begins with a dot, and it is visibly relative
unless the file is the directory above the document's or is written with a dot in front. From the
document's directory it leads to the file. -/
theorem import_paths_lead_to_files (resolver : Resolver) (file : String)
    (hunmapped : resolver.Unmapped file) :
    (resolver.importPath file).toList.head? = some '.' ∧
    (resolver.Covers file →
      InSight (Path.cleanSegments (Path.parent resolver.documentUri))
        (Path.cleanSegments (Name.stem file)) →
      IsRelative (resolver.importPath file)) ∧
    (¬ resolver.Covers file →
      ((Name.stem file).toList.head? = some '.' → IsRelative (Name.stem file)) →
      IsRelative (resolver.importPath file)) ∧
    (resolver.Covers file → Path.Straight resolver.documentUri →
      Path.follow (Path.named (Path.segments (Path.parent resolver.documentUri)))
          (resolver.importPath file) = Path.follow [] (Name.stem file) ∧
      (Path.Straight (Name.stem file) →
        Path.follow [] (Name.stem file) = Path.named (Path.segments (Name.stem file)))) := by
  refine ⟨?_, fun hcovers hsight => ?_, fun hcovers hdot => ?_, fun hcovers hstraight => ?_⟩
  · by_cases hcovers : resolver.Covers file
    · rw [importPath_of_covers hcovers]
      exact head?_dotted _
    · rw [importPath_of_not_covers hunmapped hcovers]
      exact head?_dotted _
  · rw [importPath_of_covers hcovers]
    exact isRelative_dotted_relative hsight
  · rw [importPath_of_not_covers hunmapped hcovers]
    exact isRelative_dotted hdot
  · refine ⟨?_, Path.Straight.follow⟩
    rw [importPath_of_covers hcovers, follow_dotted, ← hstraight.parent.follow]
    exact Path.follow_relative _ hstraight.parent.cleanSegments

/-- A document two directories below the base, with an empty segment on the way to it. -/
def stallResolver : Resolver where
  base := "/market"
  documentUri := "/market//stalls/north/stand.json"
  imports := [⟨"part", "@parts"⟩]
  hashLength := 0
  hashAlgorithm := ""

theorem import_paths_lead_to_files_stall :
    stallResolver.Unmapped "/market/stalls/..list.yaml" ∧
      stallResolver.Covers "/market/stalls/..list.yaml" ∧
      Path.Straight stallResolver.documentUri ∧
      IsRelative (stallResolver.importPath "/market/stalls/..list.yaml") ∧
      Path.follow ["market", "stalls", "north"]
        (stallResolver.importPath "/market/stalls/..list.yaml") = ["market", "stalls", "..list"] ∧
      stallResolver.Unmapped "../parts/x.json" ∧ ¬ stallResolver.Covers "../parts/x.json" ∧
      IsRelative (stallResolver.importPath "../parts/x.json") := by
  have hcovers : stallResolver.Covers "/market/stalls/..list.yaml" := by decide +kernel
  have hstraight : Path.Straight stallResolver.documentUri := by decide +kernel
  have hdirectory : Path.cleanSegments (Path.parent stallResolver.documentUri) =
      ["market", "stalls", "north"] := by decide +kernel
  have htarget : Path.cleanSegments (Name.stem "/market/stalls/..list.yaml") =
      ["market", "stalls", "..list"] := by decide +kernel
  have hsight : InSight (Path.cleanSegments (Path.parent stallResolver.documentUri))
      (Path.cleanSegments (Name.stem "/market/stalls/..list.yaml")) := by
    rw [hdirectory, htarget]
    exact ⟨by simp, by simp⟩
  have houtside : stallResolver.Unmapped "../parts/x.json" := by decide +kernel
  have huncovered : ¬ stallResolver.Covers "../parts/x.json" := by decide +kernel
  obtain ⟨-, hrelative, -, hleads⟩ :=
    import_paths_lead_to_files stallResolver "/market/stalls/..list.yaml" (.inl hcovers)
  obtain ⟨-, -, hwritten, -⟩ := import_paths_lead_to_files stallResolver "../parts/x.json" houtside
  refine ⟨.inl hcovers, hcovers, hstraight, hrelative hcovers hsight, ?_, houtside, huncovered,
    hwritten huncovered fun _ => by decide +kernel⟩
  exact (hleads hcovers hstraight).1.trans (by decide +kernel)

def looseResolver : Resolver where
  base := ""
  documentUri := "/a/b/c.json"
  imports := []
  hashLength := 0
  hashAlgorithm := ""

def cutResolver : Resolver where
  base := "/x.json/"
  documentUri := "/x.json/d.json"
  imports := []
  hashLength := 0
  hashAlgorithm := ""

/-- Names that begin with a dot and the directory above are not visibly relative. An ending inside
the base is taken for the end of the path, which is then no longer found under the base. -/
theorem import_paths_hide_or_stray :
    (looseResolver.importPath ".c.json" = ".c" ∧ ¬ IsRelative ".c") ∧
      (looseResolver.importPath "/a/b/.c.json" = ".c" ∧ looseResolver.importPath "/a" = ".." ∧
        ¬ IsRelative "..") ∧
      Path.Straight cutResolver.documentUri ∧ Path.Straight "/x.json/y.json" ∧
      cutResolver.base.toList <+: cutResolver.documentUri.toList ∧
      cutResolver.base.toList <+: "/x.json/y.json".toList ∧
      Path.follow ["x.json"] (cutResolver.importPath "/x.json/y.json") = ["x.json", "x"] ∧
      Path.follow [] (Name.stem "/x.json/y.json") = ["x"] := by
  decide +kernel

end Resolver

end SchemaCodec

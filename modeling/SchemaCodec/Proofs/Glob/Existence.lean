import Mathlib.Data.List.Infix
import SchemaCodec.Glob.Files
import SchemaCodec.Proofs.FileSystem.Places

namespace SchemaCodec

open FileSystem

/-! What a pattern matches is there. -/

namespace FileSystem

variable {fs : FileSystem} {location path : List String}

private theorem mem_below {isDirectory : Bool} (h : (path, isDirectory) ∈ fs.below location) :
    location ++ path ∈ fs.locations := by
  unfold below at h
  rcases List.mem_append.mp h with hmem | hmem
  · obtain ⟨other, hother, hsome⟩ := List.mem_filterMap.mp hmem
    dsimp only at hsome
    split at hsome
    · next hway =>
        cases hsome
        rw [List.append_eq_of_isPrefixOf?_eq_some hway]
        exact List.mem_append_left _ hother
    · cases hsome
  · obtain ⟨other, hother, hsome⟩ := List.mem_filterMap.mp hmem
    dsimp only at hsome
    split at hsome
    · next hway =>
        cases hsome
        rw [List.append_eq_of_isPrefixOf?_eq_some hway]
        exact List.mem_append_right _ hother
    · cases hsome

private theorem mem_children {name : String} {isDirectory : Bool}
    (h : (name, isDirectory) ∈ fs.children location) : location ++ [name] ∈ fs.locations := by
  obtain ⟨⟨path, flag⟩, hmem, hsome⟩ := List.mem_filterMap.mp h
  dsimp only at hsome
  split at hsome
  · cases hsome
    exact mem_below hmem
  · cases hsome

end FileSystem

namespace Glob

variable {fs : FileSystem} {base : List String}

/-- The directory itself, or something below it. -/
def Leads (fs : FileSystem) (base path : List String) : Prop :=
  path = [] ∨ base ++ path ∈ fs.locations

private theorem leads_follow {isLast : Bool} {segment : List Char} {directory path : List String}
    (h : Leads fs base directory) (hpath : path ∈ follow fs base isLast segment directory) :
    Leads fs base path := by
  unfold follow at hpath
  split at hpath
  · rcases List.mem_cons.mp hpath with rfl | hbelow
    · exact h
    · obtain ⟨⟨rest, flag⟩, hmem, hsome⟩ := List.mem_filterMap.mp hbelow
      dsimp only at hsome
      split at hsome
      · cases hsome
        right
        rw [← List.append_assoc]
        exact mem_below hmem
      · cases hsome
  · obtain ⟨⟨name, flag⟩, hmem, hsome⟩ := List.mem_filterMap.mp hpath
    dsimp only at hsome
    split at hsome
    · cases hsome
      right
      rw [← List.append_assoc]
      exact mem_children hmem
    · cases hsome

private theorem leads_followAll {segments : List (List Char)} {directories : List (List String)}
    {path : List String} (h : ∀ directory ∈ directories, Leads fs base directory)
    (hpath : path ∈ followAll fs base segments directories) : Leads fs base path := by
  induction segments generalizing directories with
  | nil => exact h path hpath
  | cons segment rest ih =>
      refine ih ?_ hpath
      intro next hnext
      obtain ⟨directory, hdirectory, hfollow⟩ := List.mem_flatMap.mp hnext
      exact leads_follow (h directory hdirectory) hfollow

private theorem split_fst_ne_empty {pattern : String} (h : pattern ≠ "") :
    (split pattern).1 ≠ "" := by
  unfold split
  dsimp only
  split
  · simp
  · simp
  · next hzero _ =>
      intro hempty
      have htake := congrArg String.toList hempty
      rw [String.toList_ofList, String.toList_empty, List.take_eq_nil_iff] at htake
      rcases htake with hn | htext
      · exact hzero hn
      · exact h (String.toList_eq_nil_iff.mp htext)

private theorem find_join (h : fs.WellFormed) {directory path : String}
    (hdirectory : directory ≠ "")
    {entry : Entry} (hentry : fs.entry? (fs.place (directory ++ "/" ++ path)) = some entry) :
    ∃ entry, fs.find (Path.join [directory, path]) =
      .ok (fs.place (Path.join [directory, path]), entry) := by
  by_cases hpath : path = ""
  · subst hpath
    have hjoin : Path.join [directory, ""] = Path.clean directory := by
      have hfilter : [directory, ""].filter (· ≠ "") = [directory] := by simp [hdirectory]
      rw [Path.join, hfilter]
      rfl
    have hplace : fs.place (directory ++ "/" ++ "") = fs.place directory := by
      rw [place_slash hdirectory]
      rfl
    rw [hplace] at hentry
    rw [hjoin, place_clean]
    exact ⟨entry, h.find_clean hentry⟩
  · rw [Path.join_pair hdirectory hpath, place_clean]
    exact ⟨entry, h.find_clean hentry⟩

private theorem exists_entry_of_leads (h : fs.WellFormed) {directory : String} {path : List String}
    {entry : Entry} (hdirectory : directory ≠ "")
    (hentry : fs.entry? (fs.place directory) = some entry)
    (hleads : Leads fs (fs.place directory) path) :
    ∃ entry, fs.entry? (fs.place (directory ++ "/" ++ String.intercalate "/" path)) =
      some entry := by
  rw [place_slash hdirectory]
  by_cases hpath : path = []
  · subst hpath
    exact ⟨entry, hentry⟩
  · have hmem := hleads.resolve_left hpath
    have hnames : ∀ name ∈ path, Path.IsName name ∧ '/' ∉ name.toList := fun name hname =>
      h.names _ hmem name (List.mem_append_right _ hname)
    rw [Path.segments_intercalate hpath fun name hname => (hnames name hname).2,
      Path.advance_names fun name hname => (hnames name hname).1]
    exact exists_entry_of_mem hmem

private theorem exists_find_of_has {path : String} (h : fs.has path = true) :
    ∃ found, fs.find path = .ok found := by
  unfold has at h
  cases hfind : fs.find path with
  | ok found => exact ⟨found, rfl⟩
  | error error =>
      rw [hfind] at h
      cases h

private theorem find_of_mem_found (h : fs.WellFormed) {directory file : String}
    {pattern : List Char}
    (hdirectory : directory ≠ "") (hfile : file ∈ found fs directory pattern) :
    ∃ entry, fs.find file = .ok (fs.place file, entry) := by
  unfold found at hfile
  split at hfile
  · split at hfile
    · next location hbase =>
        obtain ⟨path, hpath, rfl⟩ := List.mem_map.mp hfile
        obtain ⟨rfl, hlocation⟩ := find_eq_ok hbase
        have hleads : Leads fs (fs.place directory) path :=
          leads_followAll (fun other hother => .inl (List.mem_singleton.mp hother)) hpath
        obtain ⟨entry, hentry⟩ := exists_entry_of_leads h hdirectory hlocation hleads
        exact find_join h hdirectory hentry
    · cases hfile
  · dsimp only at hfile
    split at hfile
    · next hhas =>
        rw [List.mem_singleton.mp hfile]
        obtain ⟨⟨location, entry⟩, hfind⟩ := exists_find_of_has hhas
        obtain ⟨rfl, hentry⟩ := find_eq_ok hfind
        exact find_join h hdirectory hentry
    · cases hfile

theorem find_of_mem_files? (h : fs.WellFormed) {pattern file : String} {files : List String}
    (hfiles : files? fs pattern = some files) (hfile : file ∈ files) :
    ∃ entry, fs.find file = .ok (fs.place file, entry) := by
  have hbase : (split (Path.clean pattern)).1 ≠ "" :=
    split_fst_ne_empty (Path.ofSteps_ne_empty _ _)
  unfold files? at hfiles
  split at hfiles
  · cases hfiles
    cases hfile
  · dsimp only at hfiles
    split at hfiles
    · split at hfiles
      · rw [← Option.some.inj hfiles] at hfile
        split at hfile
        · next hhas =>
            rw [List.mem_singleton.mp hfile]
            obtain ⟨⟨location, entry⟩, hfind⟩ := exists_find_of_has hhas
            exact ⟨entry, (find_eq_ok hfind).1 ▸ hfind⟩
        · cases hfile
      · cases hfiles
    · split at hfiles
      · split at hfiles
        · rw [← Option.some.inj hfiles] at hfile
          exact find_of_mem_found h hbase (List.mem_mergeSort.mp hfile)
        · rw [← Option.some.inj hfiles] at hfile
          have hmem := List.mem_eraseDups.mp (List.mem_mergeSort.mp hfile)
          obtain ⟨branch, -, hfound⟩ := List.mem_flatMap.mp hmem
          exact find_of_mem_found h hbase hfound
      · cases hfiles

end Glob

end SchemaCodec

import Mathlib.Logic.Function.Basic
import SchemaCodec.Proofs.FileSystem.Places

namespace SchemaCodec.FileSystem

/-! What writing does to a file system: no directory is lost, and no file changes but the one that is
written. -/

/-- The contents of the files by their locations. -/
def contents (fs : FileSystem) (location : List String) : Option (List UInt8) :=
  fs.files.lookup location

/-- What was a directory is one later on. -/
structure Grows (fs later : FileSystem) : Prop where
  here : later.here = fs.here
  directory : ∀ location, fs.entry? location = some .directory →
    later.entry? location = some .directory

variable {fs later : FileSystem} {location : List String} {path : String}

theorem Grows.refl (fs : FileSystem) : Grows fs fs :=
  ⟨rfl, fun _ h => h⟩

theorem Grows.trans {last : FileSystem} (h : Grows fs later) (hlast : Grows later last) :
    Grows fs last :=
  ⟨hlast.here.trans h.here, fun location hentry =>
    hlast.directory location (h.directory location hentry)⟩

theorem Grows.place (h : Grows fs later) (path : String) : later.place path = fs.place path := by
  rw [FileSystem.place, FileSystem.place, start, start, h.here]

private theorem entry?_eq_directory :
    fs.entry? location = some .directory ↔
      fs.contents location = none ∧ (location = [] ∨ location ∈ fs.directories) := by
  unfold entry? contents
  cases fs.files.lookup location with
  | some content => simp
  | none => simp [or_iff_not_imp_left]

theorem entry?_eq_file {content : List UInt8} :
    fs.entry? location = some (.file content) ↔ fs.contents location = some content := by
  unfold entry? contents
  cases fs.files.lookup location with
  | some other => simp
  | none => simp

/-! Reading -/

theorem Grows.locate (h : Grows fs later) (hlocate : fs.locate path = .ok location) :
    later.locate path = .ok location := by
  have hsteps : ∀ {parts origin target : List String},
      parts.foldlM fs.step origin = .ok target → parts.foldlM later.step origin = .ok target := by
    intro parts
    induction parts with
    | nil => exact fun hparts => hparts
    | cons part rest ih =>
        intro origin target hparts
        rw [List.foldlM_cons] at hparts ⊢
        obtain ⟨next, hnext, hrest⟩ := exists_of_bind_eq_ok hparts
        obtain ⟨hentry, rfl⟩ := step_eq_ok hnext
        rw [step_of_directory (h.directory _ hentry)]
        exact ih hrest
  unfold FileSystem.locate at hlocate ⊢
  split at hlocate
  · cases hlocate
  · next hne =>
      rw [if_neg hne, h.here]
      exact hsteps hlocate

/-- A path that led somewhere leads there still, and to the same if its file has not been written. -/
theorem Grows.find {entry : Entry} (h : Grows fs later) (hfind : fs.find path = .ok (location, entry))
    (hcontents : later.contents location = fs.contents location) :
    later.find path = .ok (location, entry) := by
  obtain ⟨found, hfound, -⟩ := exists_of_bind_eq_ok hfind
  obtain ⟨hplace, hentry⟩ := find_eq_ok hfind
  have hsame : found = location := by rw [locate_eq_ok hfound, hplace]
  subst hsame
  have hlater : later.entry? found = some entry := by
    cases entry with
    | directory => exact h.directory found hentry
    | file content => rw [entry?_eq_file, hcontents, ← entry?_eq_file, hentry]
  simp only [FileSystem.find, h.locate hfound, bind, Except.bind, hlater]
  rfl

theorem Grows.read {entry : Entry} (h : Grows fs later)
    (hfind : fs.find path = .ok (location, entry))
    (hcontents : later.contents location = fs.contents location) :
    later.read path = fs.read path := by
  rw [FileSystem.read, FileSystem.read, hfind, h.find hfind hcontents]

/-! Writing -/

private theorem lookup_filter_ne {files : List (List String × List UInt8)} {other : List String}
    (h : other ≠ location) :
    (files.filter fun (place, _) => place ≠ location).lookup other = files.lookup other := by
  induction files with
  | nil => rfl
  | cons file rest ih =>
      obtain ⟨place, content⟩ := file
      by_cases hplace : place = location
      · have hother : (other == place) = false := by
          rw [hplace]
          exact beq_false_of_ne h
        rw [List.filter_cons_of_neg (by simpa using hplace), ih, List.lookup_cons, hother]
      · rw [List.filter_cons_of_pos (by simpa using hplace), List.lookup_cons, List.lookup_cons, ih]

private theorem contents_put (fs : FileSystem) (location : List String) (content : List UInt8) :
    (fs.put location content).contents =
      Function.update fs.contents location (some content) := by
  funext other
  by_cases hother : other = location
  · subst hother
    rw [Function.update_self, contents, put, List.lookup_cons, beq_self_eq_true]
  · rw [Function.update_of_ne hother, contents, put, List.lookup_cons, beq_false_of_ne hother,
      lookup_filter_ne hother]
    rfl

theorem write_eq_ok {content : List UInt8} (h : fs.write path content = .ok later) :
    Grows fs later ∧
      later.contents = Function.update fs.contents (fs.place path) (some content) := by
  unfold write at h
  split at h
  · cases h
  · next location hlocate =>
      split at h
      · cases h
      · next hentry =>
          cases h
          rw [← locate_eq_ok hlocate]
          refine ⟨⟨rfl, ?_⟩, contents_put ..⟩
          intro other hother
          have hne : other ≠ location := by
            rintro rfl
            exact hentry hother
          rw [entry?_eq_directory] at hother ⊢
          rw [contents_put, Function.update_of_ne hne]
          exact hother

private theorem makeDirectory_eq_ok (h : fs.makeDirectory path = .ok later) :
    Grows fs later ∧ later.contents = fs.contents := by
  unfold makeDirectory at h
  split at h
  · cases h
  · next location hlocate =>
      split at h
      · cases h
        exact ⟨.refl fs, rfl⟩
      · cases h
      · cases h
        refine ⟨⟨rfl, ?_⟩, rfl⟩
        intro other hother
        rw [entry?_eq_directory] at hother ⊢
        exact ⟨hother.1, hother.2.imp id fun hmem => List.mem_cons_of_mem _ hmem⟩

theorem makeDirectories_eq_ok (h : fs.makeDirectories path = .ok later) :
    Grows fs later ∧ later.contents = fs.contents := by
  unfold makeDirectories at h
  generalize pathStages path = stages at h
  induction stages generalizing fs with
  | nil =>
      cases h
      exact ⟨.refl later, rfl⟩
  | cons stage rest ih =>
      rw [List.foldlM_cons] at h
      obtain ⟨middle, hstage, hrest⟩ := exists_of_bind_eq_ok h
      obtain ⟨hgrows, hcontents⟩ := makeDirectory_eq_ok hstage
      obtain ⟨hlater, hsame⟩ := ih hrest
      exact ⟨hgrows.trans hlater, hsame.trans hcontents⟩

end SchemaCodec.FileSystem

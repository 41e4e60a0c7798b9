import SchemaCodec.Batch.Watch
import SchemaCodec.Proofs.Text.Splitting

namespace SchemaCodec.Path

/-! Segments -/

private theorem toList_slash (before after : String) :
    (before ++ "/" ++ after).toList = before.toList ++ '/' :: after.toList := by
  simp [String.toList_append]

theorem eq_slash_of_toList {path : String} {before after : List Char}
    (h : path.toList = before ++ '/' :: after) :
    path = String.ofList before ++ "/" ++ String.ofList after := by
  rw [← String.toList_inj, h, toList_slash, String.toList_ofList, String.toList_ofList]

theorem segments_slash (before after : String) :
    segments (before ++ "/" ++ after) = segments before ++ segments after := by
  rw [segments, toList_slash, Text.splitOn_append, List.map_append]
  rfl

theorem segments_of_not_mem {path : String} (h : '/' ∉ path.toList) : segments path = [path] := by
  rw [segments, Text.splitOn_of_not_mem h, List.map_singleton, String.ofList_toList]

private theorem segments_empty : segments "" = [""] := rfl

theorem not_mem_of_mem_segments {path segment : String} (h : segment ∈ segments path) :
    '/' ∉ segment.toList := by
  obtain ⟨part, hpart, rfl⟩ := List.mem_map.mp h
  rw [String.toList_ofList]
  exact Text.not_mem_of_mem_splitOn hpart

theorem segments_intercalate {names : List String} (hne : names ≠ [])
    (h : ∀ name ∈ names, '/' ∉ name.toList) :
    segments (String.intercalate "/" names) = names := by
  induction names with
  | nil => exact absurd rfl hne
  | cons name rest ih =>
      have hname := segments_of_not_mem (h name (List.mem_cons_self ..))
      cases rest with
      | nil => rw [String.intercalate_singleton, hname]
      | cons next others =>
          have hothers := ih (List.cons_ne_nil next others) fun other hother =>
            h other (List.mem_cons_of_mem _ hother)
          rw [String.intercalate_cons_cons, segments_slash, hname, hothers]
          rfl

theorem intercalate_segments (path : String) : String.intercalate "/" (segments path) = path := by
  induction hlength : path.toList.length using Nat.strongRecOn generalizing path with
  | _ length ih =>
    subst length
    rcases Text.splitOn_cases '/' path.toList with ⟨hslash, -⟩ | ⟨before, after, hpath, -, hparts⟩
    · rw [segments_of_not_mem hslash, String.intercalate_singleton]
    · have hshorter : (String.ofList after).toList.length < path.toList.length := by
        rw [hpath, String.toList_ofList, List.length_append, List.length_cons]
        omega
      have hafter := ih _ hshorter (String.ofList after) rfl
      have hsegments : segments path = String.ofList before :: segments (String.ofList after) := by
        rw [segments, hparts, segments, String.toList_ofList]
        rfl
      obtain ⟨next, others, hnext⟩ := List.exists_cons_of_ne_nil
        (mt List.map_eq_nil_iff.mp (Text.splitOn_ne_nil '/' (String.ofList after).toList))
      change segments (String.ofList after) = next :: others at hnext
      rw [hsegments, hnext, String.intercalate_cons_cons, ← hnext, hafter]
      exact (eq_slash_of_toList hpath).symm

/-- What is put behind a path without a slash goes to its last segment. -/
theorem exists_segments_append (path : String) :
    ∃ directories last, segments path = directories ++ [last] ∧
      ∀ suffix : String, '/' ∉ suffix.toList →
        segments (path ++ suffix) = directories ++ [last ++ suffix] := by
  by_cases hslash : '/' ∈ path.toList
  · obtain ⟨before, after, hpath, hafter⟩ := Text.exists_last_of_mem hslash
    have hsplit := eq_slash_of_toList hpath
    refine ⟨segments (String.ofList before), String.ofList after, ?_, ?_⟩
    · have hlast : '/' ∉ (String.ofList after).toList := by simpa using hafter
      rw [hsplit, segments_slash, segments_of_not_mem hlast]
    · intro suffix hsuffix
      have hlast : '/' ∉ (String.ofList after ++ suffix).toList := by
        simp [String.toList_append, hafter, hsuffix]
      rw [hsplit, String.append_assoc, segments_slash, segments_of_not_mem hlast]
  · refine ⟨[], path, by rw [segments_of_not_mem hslash, List.nil_append], ?_⟩
    intro suffix hsuffix
    rw [segments_of_not_mem, List.nil_append]
    simp [String.toList_append, hslash, hsuffix]

theorem isRooted_append {path : String} (h : path ≠ "") (rest : String) :
    isRooted (path ++ rest) = isRooted path := by
  obtain ⟨first, others, hpath⟩ :=
    List.exists_cons_of_ne_nil (mt String.toList_eq_nil_iff.mp h)
  rw [isRooted, isRooted, String.toList_append, hpath]
  rfl

/-! Positions -/

/-- A segment that leads down. -/
structure IsName (segment : String) : Prop where
  ne_empty : segment ≠ ""
  ne_dot : segment ≠ "."
  ne_dots : segment ≠ ".."

theorem walk_stay {segment : String} (h : segment = "" ∨ segment = ".") (rooted : Bool)
    (position : List String) : walk rooted position segment = position :=
  if_pos h

theorem walk_name {segment : String} (h : IsName segment) (rooted : Bool) (position : List String) :
    walk rooted position segment = segment :: position :=
  (if_neg (not_or.mpr ⟨h.ne_empty, h.ne_dot⟩)).trans (if_neg h.ne_dots)

theorem walk_back {name : String} (h : name ≠ "..") (rooted : Bool) (position : List String) :
    walk rooted (name :: position) ".." = position :=
  if_neg h

theorem walk_further (rooted : Bool) (position : List String) :
    walk rooted (".." :: position) ".." = ".." :: ".." :: position := rfl

theorem walk_names {names : List String} (h : ∀ name ∈ names, IsName name) (rooted : Bool)
    (position : List String) :
    names.foldl (walk rooted) position = names.reverse ++ position := by
  induction names generalizing position with
  | nil => rfl
  | cons name rest ih =>
      rw [List.foldl_cons, walk_name (h name (List.mem_cons_self ..)),
        ih fun other hother => h other (List.mem_cons_of_mem _ hother)]
      simp

theorem walk_filter (rooted : Bool) (position parts : List String) :
    parts.foldl (walk rooted) position = (parts.filter (· ≠ "")).foldl (walk rooted) position := by
  induction parts generalizing position with
  | nil => rfl
  | cons part rest ih =>
      by_cases hempty : part = ""
      · rw [List.filter_cons_of_neg (by simpa using hempty), List.foldl_cons,
          walk_stay (.inl hempty), ih]
      · rw [List.filter_cons_of_pos (by simpa using hempty), List.foldl_cons, List.foldl_cons, ih]

/-- Going up once for each name comes back to where the names began. -/
theorem walk_up {names : List String} (h : ∀ name ∈ names, IsName name) (rooted : Bool)
    (position : List String) :
    (names.map fun _ => "..").foldl (walk rooted) (names ++ position) = position := by
  induction names with
  | nil => rfl
  | cons name rest ih =>
      rw [List.map_cons, List.foldl_cons, List.cons_append,
        walk_back (h name (List.mem_cons_self ..)).ne_dots]
      exact ih fun other hother => h other (List.mem_cons_of_mem _ hother)

/-- A position without detours: all the ways up come first, and there is none from the root. -/
inductive Direct : Bool → List String → Prop where
  | start {rooted : Bool} : Direct rooted []
  | up {position : List String} :
      (∀ segment ∈ position, segment = "..") → Direct false position →
        Direct false (".." :: position)
  | down {rooted : Bool} {name : String} {position : List String} :
      IsName name → '/' ∉ name.toList → Direct rooted position → Direct rooted (name :: position)

theorem Direct.not_mem {rooted : Bool} {position : List String} (h : Direct rooted position)
    {segment : String} (hsegment : segment ∈ position) : segment ≠ "" ∧ '/' ∉ segment.toList := by
  induction h with
  | start => exact absurd hsegment List.not_mem_nil
  | up _ _ ih =>
      rcases List.mem_cons.mp hsegment with rfl | hmem
      · decide
      · exact ih hmem
  | down hname hslash _ ih =>
      rcases List.mem_cons.mp hsegment with rfl | hmem
      · exact ⟨hname.ne_empty, hslash⟩
      · exact ih hmem

theorem Direct.append {rooted : Bool} {names position : List String}
    (h : Direct rooted position) (hnames : ∀ name ∈ names, IsName name)
    (hslash : ∀ name ∈ names, '/' ∉ name.toList) : Direct rooted (names ++ position) := by
  induction names with
  | nil => exact h
  | cons name rest ih =>
      apply Direct.down (hnames name (List.mem_cons_self ..)) (hslash name (List.mem_cons_self ..))
      apply ih
      · exact fun other hother => hnames other (List.mem_cons_of_mem _ hother)
      · exact fun other hother => hslash other (List.mem_cons_of_mem _ hother)

theorem Direct.walk {rooted : Bool} {position : List String} (h : Direct rooted position)
    {segment : String} (hslash : '/' ∉ segment.toList) :
    Direct rooted (walk rooted position segment) := by
  by_cases hstay : segment = "" ∨ segment = "."
  · rw [walk_stay hstay]
    exact h
  · by_cases hup : segment = ".."
    · subst hup
      cases h with
      | start =>
          cases rooted with
          | true => exact .start
          | false => exact .up (by simp) .start
      | up hall hrest =>
          rw [walk_further]
          apply Direct.up
          · exact fun other hother => (List.mem_cons.mp hother).elim id (hall other)
          · exact .up hall hrest
      | down hname _ hrest =>
          rw [walk_back hname.ne_dots]
          exact hrest
    · obtain ⟨hempty, hdot⟩ := not_or.mp hstay
      have hname : IsName segment := ⟨hempty, hdot, hup⟩
      rw [walk_name hname]
      exact .down hname hslash h

theorem Direct.foldl {rooted : Bool} {position parts : List String} (h : Direct rooted position)
    (hslash : ∀ part ∈ parts, '/' ∉ part.toList) :
    Direct rooted (parts.foldl (Path.walk rooted) position) := by
  induction parts generalizing position with
  | nil => exact h
  | cons part rest ih =>
      apply ih
      · exact h.walk (hslash part (List.mem_cons_self ..))
      · exact fun other hother => hslash other (List.mem_cons_of_mem _ hother)

/-- The segments of a position lead to it. -/
theorem Direct.rewalk {rooted : Bool} {position : List String} (h : Direct rooted position) :
    position.reverse.foldl (Path.walk rooted) [] = position := by
  induction h with
  | start => rfl
  | @up position hall _ ih =>
      rw [List.reverse_cons, List.foldl_append, ih, List.foldl_cons, List.foldl_nil]
      cases position with
      | nil => rfl
      | cons last rest =>
          rw [hall last (List.mem_cons_self ..), walk_further]
  | down hname _ _ ih =>
      rw [List.reverse_cons, List.foldl_append, ih, List.foldl_cons, List.foldl_nil,
        walk_name hname]

/-! Cleaning -/

def position (path : String) : List String :=
  (segments path).foldl (walk (isRooted path)) []

theorem direct_position (path : String) : Direct (isRooted path) (position path) :=
  Direct.start.foldl fun _ hpart => not_mem_of_mem_segments hpart

private theorem position_slash {before : String} (h : before ≠ "") (after : String) :
    position (before ++ "/" ++ after) =
      (segments after).foldl (walk (isRooted before)) (position before) := by
  rw [position, segments_slash, List.foldl_append, String.append_assoc, isRooted_append h]
  rfl

theorem clean_eq (path : String) :
    clean path = ofSteps (isRooted path) (position path).reverse := rfl

theorem clean_slash {before : String} (h : before ≠ "") (after : String) :
    clean (before ++ "/" ++ after) =
      ofSteps (isRooted before)
        ((segments after).foldl (walk (isRooted before)) (position before)).reverse := by
  rw [clean_eq, position_slash h, String.append_assoc, isRooted_append h]

theorem join_pair {first second : String} (hfirst : first ≠ "") (hsecond : second ≠ "") :
    join [first, second] = clean (first ++ "/" ++ second) := by
  have hfilter : [first, second].filter (· ≠ "") = [first, second] := by
    simp [hfirst, hsecond]
  rw [join, hfilter]
  rfl

private theorem intercalate_ne_empty {names : List String} (hne : names ≠ [])
    (h : ∀ name ∈ names, name ≠ "") : String.intercalate "/" names ≠ "" := by
  cases names with
  | nil => exact absurd rfl hne
  | cons name rest =>
      have hname : name ≠ "" := h name (List.mem_cons_self ..)
      cases rest with
      | nil => rwa [String.intercalate_singleton]
      | cons next others =>
          rw [String.intercalate_cons_cons]
          simp [hname]

private theorem isRooted_intercalate {names : List String} (hne : names ≠ [])
    (h : ∀ name ∈ names, name ≠ "" ∧ '/' ∉ name.toList) :
    isRooted (String.intercalate "/" names) = false := by
  cases names with
  | nil => exact absurd rfl hne
  | cons name rest =>
      obtain ⟨hname, hslash⟩ := h name (List.mem_cons_self ..)
      have hroot : isRooted name = false := by
        obtain ⟨first, others, hchars⟩ :=
          List.exists_cons_of_ne_nil (mt String.toList_eq_nil_iff.mp hname)
        rw [hchars] at hslash
        rw [isRooted, hchars]
        simpa using (List.ne_of_not_mem_cons hslash).symm
      cases rest with
      | nil => rwa [String.intercalate_singleton]
      | cons next others =>
          rw [String.intercalate_cons_cons, String.append_assoc, isRooted_append hname, hroot]

section OfSteps

variable {rooted : Bool} {place : List String}

theorem ofSteps_ne_empty (rooted : Bool) (names : List String) : ofSteps rooted names ≠ "" := by
  rw [ofSteps]
  cases rooted with
  | true => simp
  | false =>
      by_cases hjoined : String.intercalate "/" names = ""
      · simp [hjoined]
      · simp [hjoined]

theorem ofSteps_of_ne_nil (h : Direct rooted place) (hne : place ≠ []) :
    ofSteps rooted place.reverse =
      (if rooted then "/" else "") ++ String.intercalate "/" place.reverse := by
  have hjoined : String.intercalate "/" place.reverse ≠ "" :=
    intercalate_ne_empty (by simpa using hne)
      fun name hname => (h.not_mem (List.mem_reverse.mp hname)).1
  rw [ofSteps]
  cases rooted with
  | true => rfl
  | false => simp [hjoined]

theorem isRooted_ofSteps (h : Direct rooted place) :
    isRooted (ofSteps rooted place.reverse) = rooted := by
  by_cases hne : place = []
  · subst hne
    cases rooted <;> decide
  · rw [ofSteps_of_ne_nil h hne]
    cases rooted with
    | true => rw [if_pos rfl, isRooted_append (by decide)]; decide
    | false =>
        rw [if_neg (by decide), String.empty_append]
        exact isRooted_intercalate (by simpa using hne)
          fun name hname => h.not_mem (List.mem_reverse.mp hname)

theorem position_ofSteps (h : Direct rooted place) :
    position (ofSteps rooted place.reverse) = place := by
  by_cases hne : place = []
  · subst hne
    cases rooted <;> decide
  · have hsegments : segments (String.intercalate "/" place.reverse) = place.reverse :=
      segments_intercalate (by simpa using hne)
        fun name hname => (h.not_mem (List.mem_reverse.mp hname)).2
    rw [position, isRooted_ofSteps h, ofSteps_of_ne_nil h hne]
    cases rooted with
    | true =>
        have hroot := segments_slash "" (String.intercalate "/" place.reverse)
        rw [String.empty_append] at hroot
        rw [if_pos rfl, hroot, hsegments, List.foldl_append]
        exact h.rewalk
    | false =>
        rw [if_neg (by decide), String.empty_append, hsegments]
        exact h.rewalk

/-- A path goes on from where it leads. -/
theorem join_ofSteps (h : Direct rooted place) {path : String} (hpath : path ≠ "") :
    join [ofSteps rooted place.reverse, path] =
      ofSteps rooted ((segments path).foldl (walk rooted) place).reverse := by
  have hne := ofSteps_ne_empty rooted place.reverse
  rw [join_pair hne hpath, clean_slash hne, isRooted_ofSteps h, position_ofSteps h]

private theorem ofSteps_cons (h : Direct rooted place) {name : String} (hname : name ≠ "") :
    ofSteps rooted (name :: place).reverse =
      (if place = [] then if rooted then "/" else ""
        else ofSteps rooted place.reverse ++ "/") ++ name := by
  by_cases hne : place = []
  · subst hne
    cases rooted with
    | true => rfl
    | false => simp [ofSteps, hname]
  · have hreverse : place.reverse ≠ [] := by simpa using hne
    have hjoined : String.intercalate "/" (name :: place).reverse =
        String.intercalate "/" place.reverse ++ "/" ++ name := by
      rw [List.reverse_cons,
        String.intercalate_append_of_ne_nil hreverse (List.cons_ne_nil name []),
        String.intercalate_singleton]
    rw [if_neg hne, ofSteps_of_ne_nil h hne, ofSteps, hjoined]
    cases rooted with
    | true => simp [String.append_assoc]
    | false => simp [hname]

theorem ofSteps_append (h : Direct rooted place) {name suffix : String} (hname : name ≠ "") :
    ofSteps rooted (name :: place).reverse ++ suffix =
      ofSteps rooted ((name ++ suffix) :: place).reverse := by
  have hlonger : name ++ suffix ≠ "" := by simp [hname]
  rw [ofSteps_cons h hname, ofSteps_cons h hlonger, String.append_assoc]

private theorem clean_ofSteps (h : Direct rooted place) :
    clean (ofSteps rooted place.reverse ++ "/") = ofSteps rooted place.reverse := by
  have hslash := clean_slash (ofSteps_ne_empty rooted place.reverse) ""
  rw [String.append_empty, isRooted_ofSteps h, position_ofSteps h, segments_empty,
    List.foldl_cons, walk_stay (.inl rfl)] at hslash
  exact hslash

theorem directoryOf_ofSteps (h : Direct rooted place) {name : String} (hname : name ≠ "")
    (hslash : '/' ∉ name.toList) :
    Batch.directoryOf (ofSteps rooted (name :: place).reverse) = ofSteps rooted place.reverse := by
  rw [ofSteps_cons h hname, Batch.directoryOf]
  by_cases hne : place = []
  · subst hne
    cases rooted with
    | true =>
        have htext : ("/" ++ name).toList = [] ++ '/' :: name.toList := by
          simp [String.toList_append]
        rw [if_pos rfl, if_pos rfl, htext, Text.cutLast?_append hslash]
        change clean (String.ofList ['/']) = ofSteps true []
        decide
    | false =>
        rw [if_pos rfl, if_neg (by decide), String.empty_append, Text.cutLast?_of_not_mem hslash]
        rfl
  · have hdirectory : String.ofList ((ofSteps rooted place.reverse).toList ++ ['/']) =
        ofSteps rooted place.reverse ++ "/" := by
      rw [String.ofList_append, String.ofList_toList]
    rw [if_neg hne, toList_slash, Text.cutLast?_append hslash]
    exact (congrArg clean hdirectory).trans (clean_ofSteps h)

end OfSteps

end SchemaCodec.Path

import SchemaCodec.Proofs.Batch.Confinement
import SchemaCodec.Proofs.FileSystem.Places

namespace SchemaCodec.Batch

open SchemaCodec.Path

/-! Where URIs send their modules, told from the URIs alone, and which of them can send two modules
to one place. -/

/-- What counts of a URI is what stands behind the base; or else, what stands behind the first
`://`; or else all of it. -/
inductive Keeps (base uri : String) : String → Prop where
  | below {rest : String} : uri = base ++ rest → Keeps base uri rest
  | outside {scheme rest : String} : (∀ rest, uri ≠ base ++ rest) →
      uri = scheme ++ "://" ++ rest →
      (∀ before after, uri = before ++ "://" ++ after → scheme.length ≤ before.length) →
      Keeps base uri rest
  | whole : (∀ rest, uri ≠ base ++ rest) → (∀ before after, uri ≠ before ++ "://" ++ after) →
      Keeps base uri uri

def schemaEndings : List String :=
  [".json", ".yaml", ".yml"]

/-- The stem ends where the first schema ending begins, if there is one. -/
structure IsStem (text stem : String) : Prop where
  begins : text = stem ∨ ∃ ending ∈ schemaEndings, ∃ tail, text = stem ++ ending ++ tail
  first : ∀ before after, ∀ ending ∈ schemaEndings, text = before ++ ending ++ after →
    stem.length ≤ before.length

/-- A way that goes up so many times, and then down. -/
structure Bearing where
  ups : Nat
  names : List String

/-- The way that is left of segments that are followed one by one. -/
inductive Reached : List String → Bearing → Prop where
  | start : Reached [] ⟨0, []⟩
  | stay {parts : List String} {bearing : Bearing} {part : String} : part = "" ∨ part = "." →
      Reached parts bearing → Reached (parts ++ [part]) bearing
  | down {parts names : List String} {ups : Nat} {part : String} : IsName part →
      Reached parts ⟨ups, names⟩ → Reached (parts ++ [part]) ⟨ups, names ++ [part]⟩
  | back {parts names : List String} {ups : Nat} {name : String} :
      Reached parts ⟨ups, names ++ [name]⟩ → Reached (parts ++ [".."]) ⟨ups, names⟩
  | up {parts : List String} {ups : Nat} :
      Reached parts ⟨ups, []⟩ → Reached (parts ++ [".."]) ⟨ups + 1, []⟩

/-- The way to the module of a document, by its URI. -/
def Leads (base uri : String) (bearing : Bearing) : Prop :=
  ∃ kept stem parts, Keeps base uri kept ∧ IsStem kept stem ∧
    (parts ≠ [] ∧ (∀ part ∈ parts, '/' ∉ part.toList) ∧
      String.intercalate "/" parts = stem ++ ".ts") ∧
    Reached parts bearing

/-- Two ways can come together: one of them goes further up, and down again past the directories
that the other one has not left, or past some of them if the root is reached. -/
def Bearing.Meets (first second : Bearing) : Prop :=
  (∃ above, above.length + first.ups ≤ second.ups ∧ second.names = above ++ first.names) ∨
    ∃ above, above.length + second.ups ≤ first.ups ∧ first.names = above ++ second.names

/-! What counts of a URI -/

theorem Keeps.unique {base uri first second : String} (hfirst : Keeps base uri first)
    (hsecond : Keeps base uri second) : first = second := by
  cases hfirst with
  | below huri =>
      cases hsecond with
      | below hother => exact (String.append_right_inj base).mp (huri.symm.trans hother)
      | outside hnot => exact absurd huri (hnot _)
      | whole hnot => exact absurd huri (hnot _)
  | outside hnot huri hmin =>
      cases hsecond with
      | below hother => exact absurd hother (hnot _)
      | outside _ hother hotherMin =>
          have hlength := Nat.le_antisymm (hmin _ _ hother) (hotherMin _ _ huri)
          have hsame := congrArg String.toList (huri.symm.trans hother)
          simp only [String.toList_append, List.append_assoc] at hsame
          have hrest := List.append_inj_right hsame (by
            rw [String.length_toList, hlength, String.length_toList])
          exact String.toList_inj.mp (List.append_cancel_left hrest)
      | whole _ hnone => exact absurd huri (hnone _ _)
  | whole hnot hnone =>
      cases hsecond with
      | below hother => exact absurd hother (hnot _)
      | outside _ hother => exact absurd hother (hnone _ _)
      | whole => rfl

private theorem eq_append_iff {text first mark last : String} :
    text = first ++ mark ++ last ↔
      text.toList = first.toList ++ (mark.toList ++ last.toList) := by
  rw [← String.toList_inj, String.toList_append, String.toList_append, List.append_assoc]

private theorem keeps_localPart (base uri : String) : Keeps base uri (localPart base uri) := by
  have hmark : "://".toList = [':', '/', '/'] := by decide
  unfold localPart
  split
  · next rest hrest =>
      refine .below ?_
      rw [← String.toList_inj, String.toList_append, String.toList_ofList]
      exact (List.append_eq_of_isPrefixOf?_eq_some hrest).symm
  · next hrest =>
      have hnot : ∀ rest, uri ≠ base ++ rest := by
        rintro rest rfl
        rw [String.toList_append, Text.isPrefixOf?_append] at hrest
        cases hrest
      split
      · next scheme rest hcut =>
          obtain ⟨huri, hfirst⟩ := Text.cutAt?_eq_some hcut
          refine @Keeps.outside _ _ (String.ofList scheme) _ hnot ?_ ?_
          · rw [eq_append_iff, hmark, huri, String.toList_ofList, String.toList_ofList]
          · intro before after hsplit
            rw [eq_append_iff, hmark] at hsplit
            have hle := hfirst _ _ hsplit
            rwa [String.length_toList, ← String.toList_ofList (l := scheme),
              String.length_toList] at hle
      · next hcut =>
          refine .whole hnot fun before after hsplit => ?_
          rw [eq_append_iff, hmark] at hsplit
          have hsome := Text.cutAt?_isSome before.toList [':', '/', '/'] after.toList
          rw [← hsplit, hcut] at hsome
          cases hsome

/-! Stems -/

theorem IsStem.length_le {text first second : String} (hfirst : IsStem text first)
    (hsecond : IsStem text second) : first.length ≤ second.length := by
  rcases hsecond.begins with heq | ⟨ending, hending, tail, heq⟩
  · rcases hfirst.begins with hsame | ⟨_, _, tail, hsame⟩
    · rw [← hsame, ← heq]
    · rw [← heq, hsame, String.length_append, String.length_append]
      omega
  · exact hfirst.first _ _ ending hending heq

private theorem IsStem.exists_append {text stem : String} (h : IsStem text stem) :
    ∃ rest, text = stem ++ rest := by
  rcases h.begins with rfl | ⟨ending, -, tail, rfl⟩
  · exact ⟨"", String.append_empty.symm⟩
  · exact ⟨ending ++ tail, String.append_assoc⟩

theorem IsStem.unique {text first second : String} (hfirst : IsStem text first)
    (hsecond : IsStem text second) : first = second := by
  have hlength := Nat.le_antisymm (hfirst.length_le hsecond) (hsecond.length_le hfirst)
  obtain ⟨rest, hrest⟩ := hfirst.exists_append
  obtain ⟨other, hother⟩ := hsecond.exists_append
  have hsame := congrArg String.toList (hrest.symm.trans hother)
  rw [String.toList_append, String.toList_append] at hsame
  refine String.toList_inj.mp (List.append_inj_left hsame ?_)
  rw [String.length_toList, hlength, String.length_toList]

private theorem exists_stemOf (text : List Char) :
    ∃ tail, text = Name.stemOf text ++ tail ∧
      (tail = [] ∨ ∃ ending ∈ Name.schemaSuffixes, ending <+: tail) := by
  fun_induction Name.stemOf text with
  | case1 => exact ⟨[], rfl, .inl rfl⟩
  | case2 c rest hany =>
      obtain ⟨ending, hending, hbegins⟩ := List.any_eq_true.mp hany
      exact ⟨c :: rest, rfl, .inr ⟨ending, hending, List.isPrefixOf_iff_prefix.mp hbegins⟩⟩
  | case3 c rest _ ih =>
      obtain ⟨tail, hrest, htail⟩ := ih
      exact ⟨tail, congrArg (c :: ·) hrest, htail⟩

private theorem length_stemOf_le {text before tail : List Char} (h : text = before ++ tail)
    {ending : List Char} (hending : ending ∈ Name.schemaSuffixes) (hbegins : ending <+: tail) :
    (Name.stemOf text).length ≤ before.length := by
  fun_induction Name.stemOf text generalizing before with
  | case1 => exact Nat.zero_le _
  | case2 => exact Nat.zero_le _
  | case3 c rest hnone ih =>
      cases before with
      | nil =>
          rw [List.nil_append] at h
          subst h
          refine absurd (List.any_eq_true.mpr ⟨ending, hending, ?_⟩) hnone
          exact List.isPrefixOf_iff_prefix.mpr hbegins
      | cons first others => exact Nat.succ_le_succ (ih (List.cons.inj h).2)

private theorem mem_schemaEndings {ending : List Char} (h : ending ∈ Name.schemaSuffixes) :
    String.ofList ending ∈ schemaEndings := by
  have hall : Name.schemaSuffixes.all (fun ending => schemaEndings.contains (String.ofList ending))
      = true := by decide
  simpa using List.all_eq_true.mp hall ending h

private theorem toList_mem_schemaSuffixes {ending : String} (h : ending ∈ schemaEndings) :
    ending.toList ∈ Name.schemaSuffixes := by
  have hall :
      schemaEndings.all (fun ending => Name.schemaSuffixes.contains ending.toList) = true := by
    decide
  simpa using List.all_eq_true.mp hall ending h

private theorem isStem_stem (text : String) : IsStem text (Name.stem text) := by
  have hstem : (Name.stem text).toList = Name.stemOf text.toList := String.toList_ofList
  refine ⟨?_, ?_⟩
  · obtain ⟨tail, htext, rfl | ⟨ending, hending, rest, rfl⟩⟩ := exists_stemOf text.toList
    · left
      rw [← String.toList_inj, hstem, ← List.append_nil (Name.stemOf _)]
      exact htext
    · right
      refine ⟨_, mem_schemaEndings hending, String.ofList rest, ?_⟩
      rw [eq_append_iff, hstem, String.toList_ofList, String.toList_ofList]
      exact htext
  · intro before after ending hending htext
    rw [eq_append_iff] at htext
    have hle := length_stemOf_le htext (toList_mem_schemaSuffixes hending) (List.prefix_append _ _)
    rwa [← hstem, String.length_toList, String.length_toList] at hle

/-! Segments -/

private theorem Reached.foldl_walk {parts : List String} {bearing : Bearing}
    (h : Reached parts bearing) :
    parts.foldl (walk false) [] = bearing.names.reverse ++ List.replicate bearing.ups ".." ∧
      ∀ name ∈ bearing.names, IsName name ∧ name ∈ parts := by
  induction h with
  | start => exact ⟨rfl, List.forall_mem_nil _⟩
  | stay hstay _ ih =>
      rw [List.foldl_append, List.foldl_cons, List.foldl_nil, walk_stay hstay]
      refine ⟨ih.1, fun name hname => ⟨(ih.2 name hname).1, ?_⟩⟩
      exact List.mem_append_left _ (ih.2 name hname).2
  | @down parts names ups part hname _ ih =>
      rw [List.foldl_append, List.foldl_cons, List.foldl_nil, walk_name hname, ih.1,
        List.reverse_append]
      refine ⟨rfl, fun name hmem => ?_⟩
      rcases List.mem_append.mp hmem with hbefore | hlast
      · exact ⟨(ih.2 name hbefore).1, List.mem_append_left _ (ih.2 name hbefore).2⟩
      · rw [List.mem_singleton.mp hlast]
        exact ⟨hname, List.mem_append_right _ (List.mem_singleton.mpr rfl)⟩
  | @back parts names ups name _ ih =>
      have hname := (ih.2 name (List.mem_append_right _ (List.mem_singleton.mpr rfl))).1
      rw [List.foldl_append, List.foldl_cons, List.foldl_nil, ih.1, List.reverse_append]
      refine ⟨walk_back hname.ne_dots _ _, fun other hother => ?_⟩
      have hboth := ih.2 other (List.mem_append_left _ hother)
      exact ⟨hboth.1, List.mem_append_left _ hboth.2⟩
  | @up parts ups _ ih =>
      rw [List.foldl_append, List.foldl_cons, List.foldl_nil, ih.1]
      exact ⟨climb_dots 1 ups, List.forall_mem_nil _⟩

private theorem exists_reached (parts : List String) : ∃ bearing, Reached parts bearing := by
  induction parts using List.reverseRecOn with
  | nil => exact ⟨_, .start⟩
  | append_singleton parts part ih =>
      obtain ⟨⟨ups, names⟩, hreached⟩ := ih
      by_cases hstay : part = "" ∨ part = "."
      · exact ⟨_, .stay hstay hreached⟩
      · by_cases hup : part = ".."
        · subst hup
          rcases List.eq_nil_or_concat names with rfl | ⟨before, name, rfl⟩
          · exact ⟨_, .up hreached⟩
          · rw [List.concat_eq_append] at hreached
            exact ⟨_, .back hreached⟩
        · obtain ⟨hempty, hdot⟩ := not_or.mp hstay
          exact ⟨_, .down ⟨hempty, hdot, hup⟩ hreached⟩

/-! Ways -/

theorem exists_leads (base uri : String) : ∃ bearing, Leads base uri bearing := by
  obtain ⟨bearing, hreached⟩ :=
    exists_reached (segments (Name.stem (localPart base uri) ++ ".ts"))
  refine ⟨bearing, _, _, _, keeps_localPart base uri, isStem_stem _, ⟨?_, ?_, ?_⟩, hreached⟩
  · exact mt List.map_eq_nil_iff.mp (Text.splitOn_ne_nil _ _)
  · exact fun part hpart => not_mem_of_mem_segments hpart
  · exact intercalate_segments _

/-- The route of a document is the way to its module. -/
theorem Leads.route {base uri : String} {bearing : Bearing} (h : Leads base uri bearing) :
    route base uri = List.replicate bearing.ups ".." ++ bearing.names ∧
      ∀ name ∈ bearing.names, IsName name ∧ '/' ∉ name.toList := by
  obtain ⟨kept, stem, parts, hkept, hstem, ⟨hne, hslash, hparts⟩, hreached⟩ := h
  obtain rfl := hkept.unique (keeps_localPart base uri)
  obtain rfl := hstem.unique (isStem_stem _)
  have hsegments := segments_intercalate hne hslash
  rw [hparts] at hsegments
  obtain ⟨hwalk, hnames⟩ := hreached.foldl_walk
  refine ⟨?_, fun name hname => ⟨(hnames name hname).1, hslash name (hnames name hname).2⟩⟩
  rw [Batch.route, hsegments, way, hwalk, List.reverse_append, List.reverse_reverse,
    List.reverse_replicate]

theorem Leads.eq_of_route {base uri : String} {bearing other : Bearing}
    (h : Leads base uri bearing)
    (hroute : Batch.route base uri = List.replicate other.ups ".." ++ other.names)
    (hnames : ".." ∉ other.names) : bearing = other := by
  obtain ⟨hways, hnamed⟩ := h.route
  obtain ⟨hups, hsame⟩ := dots_append_inj (not_dots_mem fun name hname => (hnamed name hname).1)
    hnames (hways.symm.trans hroute)
  cases bearing
  cases other
  exact congr (congrArg Bearing.mk hups) hsame

theorem existsUnique_leads (base uri : String) : ∃! bearing, Leads base uri bearing := by
  obtain ⟨bearing, hleads⟩ := exists_leads base uri
  refine ⟨bearing, hleads, fun other hother => ?_⟩
  obtain ⟨hroute, hnames⟩ := hleads.route
  exact hother.eq_of_route hroute (not_dots_mem fun name hname => (hnames name hname).1)

/-! Where ways lead -/

namespace Bearing

/-- Where the way leads from a location. Nothing is above the root. -/
def target (bearing : Bearing) (origin : List String) : List String :=
  origin.take (origin.length - bearing.ups) ++ bearing.names

private theorem foldl_ups (ups : Nat) (origin : List String) :
    (List.replicate ups "..").foldl advance origin = origin.take (origin.length - ups) := by
  induction ups generalizing origin with
  | zero => exact (List.take_length (l := origin)).symm
  | succ ups ih =>
      rw [List.replicate_succ, List.foldl_cons, advance_up, ih, List.dropLast_eq_take,
        List.take_take, List.length_take]
      congr 1
      omega

theorem Meets.symm {first second : Bearing} (h : first.Meets second) : second.Meets first :=
  Or.symm h

private theorem meets_of_le {first second : Bearing} {origin : List String}
    (hups : first.ups ≤ second.ups) (h : first.target origin = second.target origin) :
    first.Meets second := by
  -- What is left of the origin by the way that goes up further is the beginning of what the other
  -- way leaves of it.
  let kept := origin.take (origin.length - first.ups)
  have hkept : origin.take (origin.length - second.ups) =
      kept.take (origin.length - second.ups) := by
    rw [List.take_take, Nat.min_eq_left (by omega)]
  have hsplit := List.take_append_drop (origin.length - second.ups) kept
  refine .inl ⟨kept.drop (origin.length - second.ups), ?_, ?_⟩
  · rw [List.length_drop, List.length_take]
    omega
  · rw [target, target, hkept] at h
    have hboth : kept.take (origin.length - second.ups) ++
        (kept.drop (origin.length - second.ups) ++ first.names) =
          kept.take (origin.length - second.ups) ++ second.names := by
      rw [← List.append_assoc, hsplit]
      exact h
    exact (List.append_cancel_left hboth).symm

private theorem meets_of_target_eq {first second : Bearing} {origin : List String}
    (h : first.target origin = second.target origin) : first.Meets second := by
  rcases Nat.le_total first.ups second.ups with hle | hle
  · exact meets_of_le hle h
  · exact (meets_of_le hle h.symm).symm

end Bearing

private theorem Leads.foldl_advance {base uri : String} {bearing : Bearing}
    (h : Leads base uri bearing)
    (origin : List String) :
    (Batch.route base uri).foldl advance origin = bearing.target origin := by
  obtain ⟨hroute, hnames⟩ := h.route
  rw [hroute, List.foldl_append, Bearing.foldl_ups,
    advance_names fun name hname => (hnames name hname).1]
  rfl

private theorem Leads.foldl_walk {base uri : String} {bearing : Bearing}
    (h : Leads base uri bearing)
    (rooted : Bool) (position : List String) :
    (Batch.route base uri).foldl (walk rooted) position =
      bearing.names.reverse ++ climb rooted bearing.ups position := by
  obtain ⟨hroute, hnames⟩ := h.route
  rw [hroute, List.foldl_append, walk_names fun name hname => (hnames name hname).1]
  rfl

/-! Output paths -/

def origin (fs : FileSystem) (outputDir path : String) : List String :=
  if outputDir = "" then fs.start path else fs.place outputDir

private theorem outputPath_empty (base uri : String) :
    outputPath "" base uri = clean (Name.stem (localPart base uri) ++ ".ts") := by
  have hmodule := (isName_module (Name.stem (localPart base uri))).ne_empty
  have hfilter : ["", Name.stem (localPart base uri) ++ ".ts"].filter (· ≠ "") =
      [Name.stem (localPart base uri) ++ ".ts"] := by
    simp [hmodule]
  rw [outputPath, join, hfilter]
  dsimp only
  rw [String.intercalate_singleton]

private theorem Leads.place_outputPath {base uri : String} {bearing : Bearing}
    (h : Leads base uri bearing) (fs : FileSystem) (outputDir : String) :
    fs.place (outputPath outputDir base uri) =
      bearing.target (origin fs outputDir (outputPath outputDir base uri)) := by
  have hslash : ∀ part ∈ segments (Name.stem (localPart base uri) ++ ".ts"), '/' ∉ part.toList :=
    fun _ hpart => not_mem_of_mem_segments hpart
  rw [← h.foldl_advance, Batch.route, follows_advance.way hslash]
  by_cases hdir : outputDir = ""
  · rw [origin, if_pos hdir, hdir, outputPath_empty, FileSystem.place_clean, FileSystem.place,
      FileSystem.start, FileSystem.start, clean_eq, isRooted_ofSteps (direct_position _)]
  · rw [origin, if_neg hdir, outputPath_eq_clean hdir, FileSystem.place_clean,
      FileSystem.place_slash hdir]

/-- Ways that can never meet lead to different places from one output directory. -/
theorem meets_of_place_eq {outputDir base first second : String} {a b : Bearing}
    (hfirst : Leads base first a) (hsecond : Leads base second b) (hdir : outputDir ≠ "")
    {fs : FileSystem}
    (h : fs.place (outputPath outputDir base first) = fs.place (outputPath outputDir base second)) :
    a.Meets b := by
  rw [hfirst.place_outputPath, hsecond.place_outputPath, origin, origin, if_neg hdir,
    if_neg hdir] at h
  exact Bearing.meets_of_target_eq h

theorem meets_of_outputPath_eq {outputDir base first second : String} {a b : Bearing}
    (hfirst : Leads base first a) (hsecond : Leads base second b)
    (h : outputPath outputDir base first = outputPath outputDir base second) : a.Meets b := by
  have hplace := congrArg (FileSystem.bare []).place h
  rw [hfirst.place_outputPath, hsecond.place_outputPath, h] at hplace
  exact Bearing.meets_of_target_eq hplace

/-- Below the root there is an output directory from which ways that can meet do so. -/
theorem exists_shared_of_above {base first second : String} {a b : Bearing}
    (hfirst : Leads base first a) (hsecond : Leads base second b) {above : List String}
    (hups : above.length + a.ups ≤ b.ups) (hnames : b.names = above ++ a.names) :
    ∃ outputDir, outputPath outputDir base first = outputPath outputDir base second := by
  have habove : ∀ name ∈ above, IsName name ∧ '/' ∉ name.toList := by
    intro name hname
    exact hsecond.route.2 name (hnames ▸ List.mem_append_left _ hname)
  let fillers := List.replicate a.ups "x"
  have hfillers : ∀ name ∈ fillers, IsName name ∧ '/' ∉ name.toList := by
    intro name hname
    rw [List.eq_of_mem_replicate hname]
    exact ⟨⟨by decide, by decide, by decide⟩, by decide⟩
  have hdirect : Direct true (fillers ++ above.reverse) := by
    refine Direct.append ?_ (fun name h => (hfillers name h).1) fun name h => (hfillers name h).2
    rw [← List.append_nil above.reverse]
    exact Direct.start.append (fun name h => (habove name (List.mem_reverse.mp h)).1)
      fun name h => (habove name (List.mem_reverse.mp h)).2
  have hclimb : climb true a.ups (fillers ++ above.reverse) = above.reverse := by
    have hlength : a.ups = fillers.length := List.length_replicate.symm
    rw [hlength]
    exact climb_names (fun name h => (hfillers name h).1) true _
  have hroot : climb true b.ups (fillers ++ above.reverse) = [] := by
    obtain ⟨more, hmore⟩ := Nat.exists_eq_add_of_le hups
    have hback := climb_names (fun name h => (habove name (List.mem_reverse.mp h)).1) true []
    rw [List.append_nil, List.length_reverse] at hback
    rw [hmore, Nat.add_comm above.length, climb_add, climb_add, hclimb, hback, climb_root]
  refine ⟨ofSteps true (fillers ++ above.reverse).reverse, ?_⟩
  have hne := ofSteps_ne_empty true (fillers ++ above.reverse).reverse
  rw [outputPath_eq_ofSteps hne, outputPath_eq_ofSteps hne, position_ofSteps hdirect,
    isRooted_ofSteps hdirect, hfirst.foldl_walk, hsecond.foldl_walk, hclimb, hroot, hnames,
    List.append_nil, ← List.reverse_append]

/-- Two documents have the same output path for some output directory exactly if their ways can
meet. -/
theorem exists_shared_iff {base first second : String} {a b : Bearing}
    (hfirst : Leads base first a) (hsecond : Leads base second b) :
    (∃ outputDir, outputPath outputDir base first = outputPath outputDir base second) ↔
      a.Meets b := by
  constructor
  · rintro ⟨outputDir, heq⟩
    exact meets_of_outputPath_eq hfirst hsecond heq
  · rintro (⟨above, hups, hnames⟩ | ⟨above, hups, hnames⟩)
    · exact exists_shared_of_above hfirst hsecond hups hnames
    · obtain ⟨outputDir, heq⟩ := exists_shared_of_above hsecond hfirst hups hnames
      exact ⟨outputDir, heq.symm⟩

end SchemaCodec.Batch

import SchemaCodec.Settings.File

namespace SchemaCodec.Settings

open Yaml (Node)

/-! What a settings file says, name by name: each setting is read from the value of its own name and
from no other. -/

/-- The named values at the root of a settings file, no name twice. -/
def entriesOf? : Node → Option (List (String × Node))
  | .mapping position pairs => (pairsOf false (.mapping position pairs)).map (firstOfEach [])
  | .scalar _ tag isPlain text =>
    match scalar? tag isPlain text with
    | some (.null, _) => some []
    | _ => none
  | _ => none

/-- The named values of a settings file, once the variables in it are replaced. -/
def fileEntries? (environment : Environment) (content : List UInt8) :
    Option (List (String × Node)) :=
  match Node.ofBytes (environment.expand content) with
  | none => none
  | some none => some []
  | some (some root) => entriesOf? root

/-- What the value of a name says; a null says nothing. -/
def said? (read : Node → Decoded α) (entries : List (String × Node)) (name : String) : Option α :=
  ((entries.lookup name).bind read).join

section

variable {read : Node → Decoded α} {entries : List (String × Node)} {name other : String}
  {value : Node}

private theorem said?_cons_self : said? read ((name, value) :: entries) name =
    (read value).join := by
  rw [said?, List.lookup_cons_self]
  rfl

private theorem said?_cons_of_ne (h : other ≠ name) :
    said? read ((other, value) :: entries) name = said? read entries name := by
  rw [said?, List.lookup_cons, beq_false_of_ne (Ne.symm h)]
  rfl

private theorem said?_eq_none (h : name ∉ entries.map Prod.fst) :
    said? read entries name = none := by
  induction entries with
  | nil => rfl
  | cons entry rest ih =>
      rw [List.map_cons, List.mem_cons, not_or] at h
      rw [said?_cons_of_ne (Ne.symm h.1)]
      exact ih h.2

end

attribute [ext] Overrides

namespace Overrides

/-- Each setting from the value of its name. -/
def ofEntries (entries : List (String × Node)) : Overrides where
  inputFile := said? text? entries "input_file"
  outputDir := said? text? entries "output_dir"
  strict := said? flag? entries "strict"
  maskNull := said? flag? entries "mask_null"
  emit := said? flag? entries "emit"
  base := said? text? entries "base"
  imports := said? texts? entries "import"
  hashAlgorithm := said? text? entries "import_hash_algorithm"
  hashLength := said? integer? entries "import_hash_length"
  qed := said? text? entries "qed"
  continueOnError := said? flag? entries "continue_on_error"
  logLevel := said? text? entries "log_level"
  metricsFile := said? text? entries "metrics_textfile"
  watch := said? flag? entries "watch"

def taking (overrides : Overrides) (name : String) (value : Node) : Overrides where
  inputFile := if name = "input_file" then (text? value).join else overrides.inputFile
  outputDir := if name = "output_dir" then (text? value).join else overrides.outputDir
  strict := if name = "strict" then (flag? value).join else overrides.strict
  maskNull := if name = "mask_null" then (flag? value).join else overrides.maskNull
  emit := if name = "emit" then (flag? value).join else overrides.emit
  base := if name = "base" then (text? value).join else overrides.base
  imports := if name = "import" then (texts? value).join else overrides.imports
  hashAlgorithm :=
    if name = "import_hash_algorithm" then (text? value).join else overrides.hashAlgorithm
  hashLength := if name = "import_hash_length" then (integer? value).join else overrides.hashLength
  qed := if name = "qed" then (text? value).join else overrides.qed
  continueOnError :=
    if name = "continue_on_error" then (flag? value).join else overrides.continueOnError
  logLevel := if name = "log_level" then (text? value).join else overrides.logLevel
  metricsFile := if name = "metrics_textfile" then (text? value).join else overrides.metricsFile
  watch := if name = "watch" then (flag? value).join else overrides.watch

private theorem set?_eq_some {overrides next : Overrides} {name : String} {value : Node}
    (h : overrides.set? name value = some next) : next = overrides.taking name value := by
  unfold set? at h
  split at h
  case h_15 =>
    cases h
    simp_all [taking]
  all_goals
    obtain ⟨said, hsaid, rfl⟩ := Option.map_eq_some_iff.mp h
    simp [taking, hsaid]

def takeAll? (entries : List (String × Node)) (overrides : Overrides) : Option Overrides :=
  entries.foldlM (fun overrides (name, value) => overrides.set? name value) overrides

private theorem exists_of_takeAll?_cons {entries : List (String × Node)} {name : String}
    {value : Node}
    {overrides next : Overrides} (h : takeAll? ((name, value) :: entries) overrides = some next) :
    takeAll? entries (overrides.taking name value) = some next := by
  obtain ⟨middle, hset, hrest⟩ := Option.bind_eq_some_iff.mp h
  rw [← set?_eq_some hset]
  exact hrest

/-- One value that is taken in changes the setting only if it has the setting's own name. -/
def ReadUnder (own : String) (read : Node → Decoded α) (setting : Overrides → Option α) : Prop :=
  ∀ overrides name value, setting (taking overrides name value) =
    if name = own then (read value).join else setting overrides

section

variable {entries : List (String × Node)} (hnodup : (entries.map Prod.fst).Nodup)

include hnodup

private theorem takeAll?_setting {setting : Overrides → Option α} {read : Node → Decoded α}
    {own : String}
    (hread : ReadUnder own read setting) {overrides next : Overrides}
    (h : takeAll? entries overrides = some next) :
    setting next =
      if own ∈ entries.map Prod.fst then said? read entries own else setting overrides := by
  induction entries generalizing overrides with
  | nil =>
      cases h
      rfl
  | cons entry rest ih =>
      obtain ⟨name, value⟩ := entry
      rw [List.map_cons, List.nodup_cons] at hnodup
      rw [ih hnodup.2 (exists_of_takeAll?_cons h), hread, List.map_cons]
      by_cases hown : name = own
      · subst own
        rw [if_neg hnodup.1, if_pos rfl, if_pos List.mem_cons_self, said?_cons_self]
      · have hmem : own ∈ name :: rest.map Prod.fst ↔ own ∈ rest.map Prod.fst := by
          rw [List.mem_cons]
          exact or_iff_right (Ne.symm hown)
        rw [if_neg hown, said?_cons_of_ne hown]
        simp only [hmem]

private theorem setting_eq_said? (setting : Overrides → Option α) (own : String)
    {read : Node → Decoded α} (hread : ReadUnder own read setting) (hunset : setting {} = none)
    {next : Overrides} (h : takeAll? entries {} = some next) :
    setting next = said? read entries own := by
  rw [takeAll?_setting hnodup hread h, hunset]
  split
  · rfl
  · next habsent => rw [said?_eq_none habsent]

private theorem takeAll?_eq_some {next : Overrides} (h : takeAll? entries {} = some next) :
    next = ofEntries entries := by
  apply Overrides.ext
  · exact setting_eq_said? hnodup (·.inputFile) "input_file" (fun _ _ _ => rfl) rfl h
  · exact setting_eq_said? hnodup (·.outputDir) "output_dir" (fun _ _ _ => rfl) rfl h
  · exact setting_eq_said? hnodup (·.strict) "strict" (fun _ _ _ => rfl) rfl h
  · exact setting_eq_said? hnodup (·.maskNull) "mask_null" (fun _ _ _ => rfl) rfl h
  · exact setting_eq_said? hnodup (·.emit) "emit" (fun _ _ _ => rfl) rfl h
  · exact setting_eq_said? hnodup (·.base) "base" (fun _ _ _ => rfl) rfl h
  · exact setting_eq_said? hnodup (·.imports) "import" (fun _ _ _ => rfl) rfl h
  · exact setting_eq_said? hnodup (·.hashAlgorithm) "import_hash_algorithm" (fun _ _ _ => rfl) rfl h
  · exact setting_eq_said? hnodup (·.hashLength) "import_hash_length" (fun _ _ _ => rfl) rfl h
  · exact setting_eq_said? hnodup (·.qed) "qed" (fun _ _ _ => rfl) rfl h
  · exact setting_eq_said? hnodup (·.continueOnError) "continue_on_error" (fun _ _ _ => rfl) rfl h
  · exact setting_eq_said? hnodup (·.logLevel) "log_level" (fun _ _ _ => rfl) rfl h
  · exact setting_eq_said? hnodup (·.metricsFile) "metrics_textfile" (fun _ _ _ => rfl) rfl h
  · exact setting_eq_said? hnodup (·.watch) "watch" (fun _ _ _ => rfl) rfl h

end

end Overrides

private theorem firstOfEach_fresh (seen : List String) (pairs : List (String × Node)) :
    ((firstOfEach seen pairs).map Prod.fst).Nodup ∧
      ∀ name ∈ (firstOfEach seen pairs).map Prod.fst, name ∉ seen := by
  induction pairs generalizing seen with
  | nil => simp [firstOfEach]
  | cons pair rest ih =>
      obtain ⟨name, value⟩ := pair
      rw [firstOfEach]
      split
      · exact ih seen
      · next hnew =>
          obtain ⟨hnodup, hfresh⟩ := ih (name :: seen)
          rw [List.map_cons, List.nodup_cons, List.forall_mem_cons]
          refine ⟨⟨fun hmem => hfresh name hmem List.mem_cons_self, hnodup⟩, ?_, ?_⟩
          · simpa using hnew
          · exact fun other hother hseen => hfresh other hother (List.mem_cons_of_mem _ hseen)

private theorem Overrides.exists_entriesOf?_of_ofPairs? {pairs : List (Node × Node)}
    {position : Document.Position} {file : Overrides} (h : ofPairs? pairs position = some file) :
    ∃ entries, entriesOf? (.mapping position pairs) = some entries ∧ file = ofEntries entries := by
  unfold ofPairs? at h
  obtain ⟨own, -, h⟩ := Option.bind_eq_some_iff.mp h
  obtain ⟨all, hall, h⟩ := Option.bind_eq_some_iff.mp h
  rw [entriesOf?, hall]
  split at h
  · cases h
  · exact ⟨_, rfl, takeAll?_eq_some (firstOfEach_fresh [] all).1 h⟩

private theorem Overrides.exists_entriesOf? {root : Node} {file : Overrides}
    (h : ofNode? root = some file) :
    ∃ entries, entriesOf? root = some entries ∧ file = ofEntries entries := by
  unfold ofNode? at h
  split at h
  · exact exists_entriesOf?_of_ofPairs? h
  · next tag isPlain text =>
      rw [entriesOf?]
      generalize scalar? tag isPlain text = scalar at h ⊢
      split at h
      · cases h
        exact ⟨[], rfl, rfl⟩
      · cases h
  · cases h

/-- A file that can be used says what its named values say. -/
theorem Overrides.exists_fileEntries? {environment : Environment} {content : List UInt8}
    {file : Overrides} (h : ofFile? environment content = some file) :
    ∃ entries, fileEntries? environment content = some entries ∧ file = ofEntries entries := by
  unfold ofFile? at h
  unfold fileEntries?
  generalize Node.ofBytes (environment.expand content) = stream at h ⊢
  cases stream with
  | none => cases h
  | some first =>
      cases first with
      | none =>
          cases h
          exact ⟨[], rfl, rfl⟩
      | some root => exact exists_entriesOf? h

end SchemaCodec.Settings

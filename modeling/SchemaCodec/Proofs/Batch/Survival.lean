import SchemaCodec.Proofs.Batch.Destinations
import SchemaCodec.Proofs.Batch.Independence

namespace SchemaCodec.Batch

open FileSystem

/-! What is left of the modules when a batch is done. -/

/-- The conversion of one file in the course of a batch, with the file system that it finds. -/
structure Turn where
  fileSystem : FileSystem
  file : String

namespace Turn

def outcome (settings : Settings) (turn : Turn) : FileOutcome :=
  convertFile settings turn.fileSystem turn.file

def Succeeds (settings : Settings) (turn : Turn) : Prop :=
  (turn.outcome settings).failure = none

def uri (settings : Settings) (turn : Turn) : String :=
  (turn.outcome settings).result.documentUri

def outputFile (settings : Settings) (turn : Turn) : String :=
  (turn.outcome settings).result.outputFile

end Turn

def goesOn (settings : Settings) (outcome : FileOutcome) : Bool :=
  outcome.failure.all fun failure => settings.continueOnError && !failure.isEndless

def turns (settings : Settings) (fs : FileSystem) : List String → List Turn
  | [] => []
  | file :: rest =>
    let turn : Turn := ⟨fs, file⟩
    let outcome := turn.outcome settings
    turn :: if goesOn settings outcome then turns settings outcome.fileSystem rest else []

/-! One file -/

variable {batch : Batch} {settings : Settings} {fs : FileSystem} {file : String}

private theorem emit_of_some {path : String} {generated : Module} {made : FileSystem}
    {failure : FileFailure} (h : emit fs path generated = (made, some failure)) :
    Grows fs made ∧ made.contents = fs.contents := by
  unfold emit at h
  dsimp only at h
  split at h
  · cases h
    exact ⟨.refl fs, rfl⟩
  · next hmade =>
      split at h
      · cases h
        exact makeDirectories_eq_ok hmade
      · cases h

private theorem locate_of_emit {path : String} {generated : Module} {written : FileSystem}
    (h : emit fs path generated = (written, none)) : written.locate path = .ok (fs.place path) := by
  unfold emit at h
  dsimp only at h
  split at h
  · cases h
  · next made hmade =>
      split at h
      · cases h
      · next hwritten =>
          cases h
          have hlater := (write_eq_ok hwritten).1
          rw [← (makeDirectories_eq_ok hmade).1.place]
          unfold FileSystem.write at hwritten
          split at hwritten
          · cases hwritten
          · next location hlocation =>
              rw [← locate_eq_ok hlocation]
              exact hlater.locate hlocation

/-- All that a conversion does with a module is to write it, if modules are written at all. -/
theorem convertFile_of_product {output : String × List UInt8}
    (h : product settings fs file = .ok output) :
    (convertFile settings fs file).result.outputFile = output.1 ∧
      output.1 = outputPath settings.outputDir settings.base
        (convertFile settings fs file).result.documentUri ∧
      ∃ generated, ((convertFile settings fs file).fileSystem,
          (convertFile settings fs file).failure) =
        if settings.shouldEmit then emit fs output.1 generated else (fs, none) := by
  obtain ⟨schema, generated, hschema, hresult, rfl⟩ := exists_of_product h
  unfold convertFile
  rw [hschema]
  dsimp only
  rw [hresult]
  dsimp only
  split
  · cases hemitted : emit fs
        (outputPath settings.outputDir settings.base (documentUri fs schema file)) generated with
    | mk made cause =>
        cases cause with
        | none => exact ⟨rfl, rfl, generated, hemitted.symm⟩
        | some cause => exact ⟨rfl, rfl, generated, hemitted.symm⟩
  · exact ⟨rfl, rfl, generated, rfl⟩

private theorem convertFile_of_failure {failure : FileFailure}
    (h : (convertFile settings fs file).failure = some failure) :
    Grows fs (convertFile settings fs file).fileSystem ∧
      (convertFile settings fs file).fileSystem.contents = fs.contents := by
  cases hproduct : product settings fs file with
  | error cause =>
      rw [(convertFile_of_error hproduct).2]
      exact ⟨.refl fs, rfl⟩
  | ok output =>
      obtain ⟨-, -, generated, hleft⟩ := convertFile_of_product hproduct
      rw [h] at hleft
      split at hleft
      · exact emit_of_some hleft.symm
      · cases congrArg Prod.snd hleft

private theorem locate_of_product {output : String × List UInt8}
    (hemit : settings.shouldEmit = true)
    (h : product settings fs file = .ok output)
    (hnone : (convertFile settings fs file).failure = none) :
    (convertFile settings fs file).fileSystem.locate output.1 = .ok (fs.place output.1) := by
  obtain ⟨-, -, generated, hleft⟩ := convertFile_of_product h
  rw [if_pos hemit, hnone] at hleft
  exact locate_of_emit hleft.symm

/-- What a turn that succeeds leaves: its module in its place, and all else as it was. -/
theorem Turn.Succeeds.exists_text {turn : Turn} (h : turn.Succeeds settings) :
    ∃ text, product settings turn.fileSystem turn.file = .ok (turn.outputFile settings, text) ∧
      turn.outputFile settings =
        outputPath settings.outputDir settings.base (turn.uri settings) ∧
      Grows turn.fileSystem (turn.outcome settings).fileSystem ∧
      (turn.outcome settings).fileSystem.contents =
        emitted settings turn.fileSystem turn.fileSystem.contents
          (turn.outputFile settings, text) := by
  obtain ⟨fs, file⟩ := turn
  change (convertFile settings fs file).failure = none at h
  cases hproduct : product settings fs file with
  | error cause =>
      rw [(convertFile_of_error hproduct).1] at h
      cases h
  | ok output =>
      obtain ⟨path, text⟩ := output
      obtain ⟨houtput, hpath, -⟩ := convertFile_of_product hproduct
      obtain ⟨-, hgrows, hcontents⟩ := convertFile_of_ok hproduct (by simp [h])
      obtain rfl : (convertFile settings fs file).result.outputFile = path := houtput
      exact ⟨text, rfl, hpath, hgrows, hcontents⟩

private theorem grows_outcome (turn : Turn) : Grows turn.fileSystem
    (turn.outcome settings).fileSystem := by
  cases hfailure : (turn.outcome settings).failure with
  | none =>
      obtain ⟨text, -, -, hgrows, -⟩ := Turn.Succeeds.exists_text hfailure
      exact hgrows
  | some failure => exact (convertFile_of_failure hfailure).1

/-- A turn changes at most the file at its output path. -/
theorem contents_outcome {turn : Turn} {location : List String}
    (h : turn.Succeeds settings → turn.fileSystem.place (turn.outputFile settings) ≠ location) :
    (turn.outcome settings).fileSystem.contents location = turn.fileSystem.contents location := by
  cases hfailure : (turn.outcome settings).failure with
  | none =>
      obtain ⟨text, -, -, -, hcontents⟩ := Turn.Succeeds.exists_text hfailure
      rw [hcontents, emitted]
      split
      · exact Function.update_of_ne (h hfailure).symm _ _
      · rfl
  | some failure => exact congrFun (convertFile_of_failure hfailure).2 location

/-- A path leads to its place, and a text stands there. -/
def Stored (fs : FileSystem) (path : String) (text : List UInt8) : Prop :=
  fs.locate path = .ok (fs.place path) ∧ fs.contents (fs.place path) = some text

private theorem stored_outcome {turn : Turn} (hemit : settings.shouldEmit = true)
    (h : turn.Succeeds settings) :
    ∃ text, product settings turn.fileSystem turn.file = .ok (turn.outputFile settings, text) ∧
      Stored (turn.outcome settings).fileSystem (turn.outputFile settings) text := by
  obtain ⟨text, hproduct, -, hgrows, hcontents⟩ := h.exists_text
  have hlocate := locate_of_product hemit hproduct h
  refine ⟨text, hproduct, ?_, ?_⟩
  · rw [hgrows.place]
    exact hlocate
  · rw [hgrows.place, hcontents, emitted, if_pos hemit]
    exact Function.update_self ..

theorem Stored.later {later : FileSystem} {path : String} {text : List UInt8}
    (h : Stored fs path text) (hgrows : Grows fs later)
    (hcontents : later.contents (fs.place path) = fs.contents (fs.place path)) :
    Stored later path text := by
  obtain ⟨hlocate, htext⟩ := h
  rw [Stored, hgrows.place, hcontents]
  exact ⟨hgrows.locate hlocate, htext⟩

theorem Stored.read {path : String} {text : List UInt8} (h : Stored fs path text) :
    fs.read path = .ok text := by
  obtain ⟨hlocate, htext⟩ := h
  have hentry := entry?_eq_file.mpr htext
  simp only [FileSystem.read, FileSystem.find, hlocate, bind, Except.bind, hentry]
  rfl

/-! All files -/

private theorem not_isWrite_of_isEndless {failure : FileFailure} (h : failure.isEndless = true) :
    failure.isWrite = false := by
  cases failure with
  | unparsable path cause => rfl
  | _ => cases h

/-- Where reading does not end, nothing is written. -/
theorem fileSystem_of_isEndless (h : (convertFile settings fs file).isEndless = true) :
    (convertFile settings fs file).fileSystem = fs := by
  rw [FileOutcome.isEndless, Option.any_eq_true] at h
  obtain ⟨failure, hfailure, hends⟩ := h
  cases hproduct : product settings fs file with
  | error cause => exact (convertFile_of_error hproduct).2
  | ok output =>
      have hdisk : ∀ other, (convertFile settings fs file).failure = some other →
          other.isWrite = false := by
        intro other hother
        rw [hfailure] at hother
        cases hother
        exact not_isWrite_of_isEndless hends
      rw [(convertFile_of_ok hproduct hdisk).1] at hfailure
      cases hfailure

private theorem processFile_fileSystem (batch : Batch) (session : Session) (file : String) :
    (batch.processFile session file).1.fileSystem =
      (Turn.outcome batch.settings ⟨session.fileSystem, file⟩).fileSystem := by
  cases hends : (convertFile batch.settings session.fileSystem file).isEndless with
  | true =>
      unfold processFile
      dsimp only
      rw [if_pos hends]
      exact (fileSystem_of_isEndless hends).symm
  | false =>
      rw [processFile_session hends]
      exact record_fileSystem _

private theorem goesOn_of_none {outcome : FileOutcome} (h : outcome.failure = none) :
    goesOn settings outcome = true := by
  rw [goesOn, h]
  rfl

private theorem goesOn_of_some {outcome : FileOutcome} {failure : FileFailure}
    (h : outcome.failure = some failure) :
    goesOn settings outcome = (settings.continueOnError && !failure.isEndless) := by
  rw [goesOn, h]
  rfl

/-- After a turn the batch goes on with what the turn has left, or ends with that. -/
theorem processAll_cons (batch : Batch) (session : Session) (file : String) (rest : List String) :
    ∃ next : Session,
      next.fileSystem = (Turn.outcome batch.settings ⟨session.fileSystem, file⟩).fileSystem ∧
      (batch.processAll session (file :: rest)).1 =
        if goesOn batch.settings (Turn.outcome batch.settings ⟨session.fileSystem, file⟩) then
          (batch.processAll next rest).1
        else next := by
  have hnext := processFile_fileSystem batch session file
  have houtcome : (batch.processFile session file).2 =
      Turn.outcome batch.settings ⟨session.fileSystem, file⟩ :=
    processFile_outcome batch session file
  cases hfailure : (batch.processFile session file).2.failure with
  | none =>
      refine ⟨(batch.processFile session file).1, hnext, ?_⟩
      rw [processAll_of_none hfailure, ← houtcome, if_pos (goesOn_of_none hfailure)]
  | some failure =>
      rw [← houtcome, goesOn_of_some hfailure, houtcome]
      cases hends : failure.isEndless with
      | true =>
          refine ⟨(batch.processFile session file).1, hnext, ?_⟩
          rw [processAll_of_endless hfailure hends, Bool.not_true, Bool.and_false]
          rfl
      | false =>
          refine ⟨crash (batch.processFile session file).1 file, hnext, ?_⟩
          rw [processAll_of_some hfailure hends, Bool.not_false, Bool.and_true]
          split <;> rfl

private theorem mem_turns_cons {turn : Turn} {rest : List String} :
    turn ∈ turns settings fs (file :: rest) ↔
      turn = ⟨fs, file⟩ ∨ goesOn settings (Turn.outcome settings ⟨fs, file⟩) = true ∧
        turn ∈ turns settings (Turn.outcome settings ⟨fs, file⟩).fileSystem rest := by
  rw [turns, List.mem_cons]
  split
  · next hgoes => simp [hgoes]
  · next hstops => simp [hstops]

private theorem processAll_grows (batch : Batch) (session : Session) (files : List String) :
    Grows session.fileSystem (batch.processAll session files).1.fileSystem := by
  induction files generalizing session with
  | nil => exact .refl _
  | cons file rest ih =>
      obtain ⟨next, hnext, hfinal⟩ := processAll_cons batch session file rest
      have hgrows := hnext ▸ grows_outcome ⟨session.fileSystem, file⟩
      rw [hfinal]
      split
      · exact hgrows.trans (ih next)
      · exact hgrows

/-- Files at which no module is put stay as they are. -/
theorem processAll_keeps (session : Session) {files : List String} {location : List String}
    (h : ∀ turn ∈ turns batch.settings session.fileSystem files, turn.Succeeds batch.settings →
      session.fileSystem.place (turn.outputFile batch.settings) ≠ location) :
    (batch.processAll session files).1.fileSystem.contents location =
      session.fileSystem.contents location := by
  induction files generalizing session with
  | nil => rfl
  | cons file rest ih =>
      obtain ⟨next, hnext, hfinal⟩ := processAll_cons batch session file rest
      have hgrows := hnext ▸ grows_outcome ⟨session.fileSystem, file⟩
      have hstep : next.fileSystem.contents location = session.fileSystem.contents location := by
        rw [hnext]
        exact contents_outcome (h _ (mem_turns_cons.mpr (.inl rfl)))
      rw [hfinal]
      split
      · next hgoes =>
          rw [← hstep]
          apply ih
          intro turn hturn hsucceeds
          rw [hgrows.place]
          rw [hnext] at hturn
          exact h turn (mem_turns_cons.mpr (.inr ⟨hgoes, hturn⟩)) hsucceeds
      · exact hstep

/-- A module to whose place no later one is put is there in the end. -/
theorem processAll_stores (hemit : batch.settings.shouldEmit = true) (session : Session)
    {files : List String} {turn : Turn} {before after : List Turn}
    (hturns : turns batch.settings session.fileSystem files = before ++ turn :: after)
    (hsucceeds : turn.Succeeds batch.settings)
    (h : ∀ later ∈ after, later.Succeeds batch.settings →
      session.fileSystem.place (later.outputFile batch.settings) ≠
        session.fileSystem.place (turn.outputFile batch.settings)) :
    ∃ text, product batch.settings turn.fileSystem turn.file =
        .ok (turn.outputFile batch.settings, text) ∧
      Stored (batch.processAll session files).1.fileSystem (turn.outputFile batch.settings)
        text := by
  induction files generalizing session before with
  | nil => cases before <;> cases hturns
  | cons file rest ih =>
      obtain ⟨next, hnext, hfinal⟩ := processAll_cons batch session file rest
      have hgrows := hnext ▸ grows_outcome ⟨session.fileSystem, file⟩
      rw [turns] at hturns
      rw [hfinal]
      cases before with
      | nil =>
          obtain ⟨rfl, hafter⟩ := List.cons.inj hturns
          obtain ⟨text, hproduct, hstored⟩ := stored_outcome hemit hsucceeds
          refine ⟨text, hproduct, ?_⟩
          rw [← hnext] at hstored hafter
          split
          · next hgoes =>
              rw [if_pos hgoes] at hafter
              apply hstored.later (processAll_grows batch next rest)
              apply processAll_keeps
              intro other hother hothers
              rw [hgrows.place, hgrows.place]
              exact h other (hafter ▸ hother) hothers
          · exact hstored
      | cons first before =>
          obtain ⟨-, hrest⟩ := List.cons.inj hturns
          split at hrest
          · next hgoes =>
              rw [if_pos hgoes]
              rw [← hnext] at hrest
              apply ih next hrest
              simpa only [hgrows.place] using h
          · cases before <;> cases hrest

/-! Whole batches -/

private theorem writeMetrics_grows (session : Session) :
    Grows session.fileSystem (batch.writeMetrics session).1.fileSystem := by
  unfold writeMetrics
  split
  · exact .refl _
  · split
    · next written hwritten => exact (write_eq_ok hwritten).1
    · exact .refl _

private theorem writeMetrics_keeps {session : Session} {location : List String}
    (h : batch.settings.metricsFile ≠ "" →
      session.fileSystem.place batch.settings.metricsFile ≠ location) :
    (batch.writeMetrics session).1.fileSystem.contents location =
      session.fileSystem.contents location := by
  unfold writeMetrics
  split
  · rfl
  · next hfile =>
      split
      · next written hwritten =>
          have hcontents := (write_eq_ok hwritten).2
          change written.contents location = _
          rw [hcontents]
          exact Function.update_of_ne (h hfile).symm _ _
      · rfl

theorem Stored.finish {session : Session} {path : String} {text : List UInt8}
    (h : Stored session.fileSystem path text)
    (hmetrics : batch.settings.metricsFile ≠ "" →
      session.fileSystem.place batch.settings.metricsFile ≠ session.fileSystem.place path)
    (causes : List Cause) : Stored (batch.finish session causes).1.fileSystem path text := by
  unfold Batch.finish
  split
  · exact h
  · exact h.later (writeMetrics_grows session.stamped) (writeMetrics_keeps hmetrics)

/-- A module to whose place neither a later one nor the metrics are put can be read when the batch is
done. -/
theorem run_reads {session : Session} {files : List String}
    (hfiles : batch.files session.fileSystem = .ok files)
    (hemit : batch.settings.shouldEmit = true) {turn : Turn} {before after : List Turn}
    (hturns : turns batch.settings session.fileSystem files = before ++ turn :: after)
    (hsucceeds : turn.Succeeds batch.settings)
    (hafter : ∀ later ∈ after, later.Succeeds batch.settings →
      session.fileSystem.place (later.outputFile batch.settings) ≠
        session.fileSystem.place (turn.outputFile batch.settings))
    (hmetrics : batch.settings.metricsFile ≠ "" →
      session.fileSystem.place batch.settings.metricsFile ≠
        session.fileSystem.place (turn.outputFile batch.settings)) :
    ∃ text, product batch.settings turn.fileSystem turn.file =
        .ok (turn.outputFile batch.settings, text) ∧
      (batch.run session false).1.fileSystem.read (turn.outputFile batch.settings) = .ok text := by
  obtain ⟨text, hproduct, hstored⟩ := processAll_stores hemit
    (session.print (batch.greeting files)) hturns hsucceeds hafter
  have hgrows := processAll_grows batch (session.print (batch.greeting files)) files
  refine ⟨text, hproduct, ?_⟩
  rw [run_eq hfiles]
  refine (hstored.finish ?_ _).read
  rw [hgrows.place, hgrows.place]
  exact hmetrics

/-- Every document leads somewhere, and two documents have the same output path for some output
directory exactly if their ways can meet. If no ways of the documents of a batch can meet, their
modules have different output paths, and each of them can be read there when the batch is done,
unless the metrics are written to its place. -/
theorem modules_survive (batch : Batch) (session : Session) (files : List String)
    (hfiles : batch.files session.fileSystem = .ok files)
    (hapart : (turns batch.settings session.fileSystem files).Pairwise fun first second =>
      first.Succeeds batch.settings → second.Succeeds batch.settings →
        ∀ a b, Leads batch.settings.base (first.uri batch.settings) a →
          Leads batch.settings.base (second.uri batch.settings) b → ¬ a.Meets b) :
    let settings := batch.settings
    let fs := session.fileSystem
    (∀ uri, ∃! bearing, Leads settings.base uri bearing) ∧
    (∀ first second a b, Leads settings.base first a → Leads settings.base second b →
      ((∃ outputDir, outputPath outputDir settings.base first =
        outputPath outputDir settings.base second) ↔ a.Meets b)) ∧
    ((turns settings fs files).Pairwise fun first second =>
      first.Succeeds settings → second.Succeeds settings →
        first.outputFile settings ≠ second.outputFile settings) ∧
    (settings.shouldEmit = true → settings.outputDir ≠ "" →
      ∀ turn ∈ turns settings fs files, turn.Succeeds settings →
        (settings.metricsFile ≠ "" →
          fs.place settings.metricsFile ≠ fs.place (turn.outputFile settings)) →
        ∃ text, product settings turn.fileSystem turn.file =
            .ok (turn.outputFile settings, text) ∧
          (batch.run session false).1.fileSystem.read (turn.outputFile settings) = .ok text) := by
  intro settings fs
  refine ⟨existsUnique_leads settings.base, fun _ _ _ _ => exists_shared_iff, ?_, ?_⟩
  · refine hapart.imp ?_
    intro first second hnever hfirst hsecond heq
    obtain ⟨-, -, hfirstPath, -⟩ := hfirst.exists_text
    obtain ⟨-, -, hsecondPath, -⟩ := hsecond.exists_text
    obtain ⟨a, ha⟩ := exists_leads settings.base (first.uri settings)
    obtain ⟨b, hb⟩ := exists_leads settings.base (second.uri settings)
    rw [hfirstPath, hsecondPath] at heq
    exact hnever hfirst hsecond a b ha hb (meets_of_outputPath_eq ha hb heq)
  · intro hemit hdir turn hturn hsucceeds hmetrics
    obtain ⟨before, after, hturns⟩ := List.append_of_mem hturn
    refine run_reads hfiles hemit hturns hsucceeds ?_ hmetrics
    intro later hlater hlaterSucceeds heq
    rw [hturns] at hapart
    have hbehind := (List.pairwise_append.mp hapart).2.1
    have hnever := (List.pairwise_cons.mp hbehind).1 later hlater hsucceeds hlaterSucceeds
    obtain ⟨-, -, hpath, -⟩ := hsucceeds.exists_text
    obtain ⟨-, -, hlaterPath, -⟩ := hlaterSucceeds.exists_text
    obtain ⟨a, ha⟩ := exists_leads settings.base (turn.uri settings)
    obtain ⟨b, hb⟩ := exists_leads settings.base (later.uri settings)
    rw [hpath, hlaterPath] at heq
    exact hnever a b ha hb (meets_of_place_eq ha hb hdir heq.symm)

def twoSchemas (first second : String) : FileSystem where
  here := ["work"]
  directories := [["work"]]
  files := [
    (["work", "a.json"],
      ("\x7b\"$id\":\"" ++ first ++ "\",\"type\":\"string\"\x7d").toUTF8.toList),
    (["work", "b.json"],
      ("\x7b\"$id\":\"" ++ second ++ "\",\"type\":\"number\"\x7d").toUTF8.toList)]

private theorem files_twoSchemas (first second : String) :
    tallyBatch.files (twoSchemas first second) = .ok ["a.json", "b.json"] :=
  files_tallyBatch rfl (by decide)

def Turn.report (settings : Settings) (turn : Turn) : Bool × String × String :=
  ((turn.outcome settings).failure.isNone, turn.uri settings, turn.outputFile settings)

/-- One module leaves the output directory, the way to the other takes a detour, and both can be read
when the batch is done. -/
theorem modules_survive_twoSchemas :
    let fs := twoSchemas "../a/x.json" "y/../z.yaml"
    (turns tallyBatch.settings fs ["a.json", "b.json"]).map (Turn.report tallyBatch.settings) =
        [(true, "../a/x.json", "a/x.ts"), (true, "y/../z.yaml", "out/z.ts")] ∧
      ∀ turn ∈ turns tallyBatch.settings fs ["a.json", "b.json"],
        ∃ text, (tallyBatch.run (tallySession fs) false).1.fileSystem.read
          (turn.outputFile tallyBatch.settings) = .ok text := by
  intro fs
  have hreports : (turns tallyBatch.settings fs ["a.json", "b.json"]).map
      (Turn.report tallyBatch.settings) =
        [(true, "../a/x.json", "a/x.ts"), (true, "y/../z.yaml", "out/z.ts")] := by
    decide +kernel
  have hreport : ∀ turn ∈ turns tallyBatch.settings fs ["a.json", "b.json"],
      turn.report tallyBatch.settings ∈
        [(true, "../a/x.json", "a/x.ts"), (true, "y/../z.yaml", "out/z.ts")] :=
    fun turn hturn => hreports ▸ List.mem_map_of_mem hturn
  have hfirst : ∀ a, Leads "" "../a/x.json" a → a = ⟨1, ["a", "x.ts"]⟩ :=
    fun a ha => ha.eq_of_route (by decide +kernel) (by decide)
  have hsecond : ∀ b, Leads "" "y/../z.yaml" b → b = ⟨0, ["z.ts"]⟩ :=
    fun b hb => hb.eq_of_route (by decide +kernel) (by decide)
  have hapart : ((turns tallyBatch.settings fs ["a.json", "b.json"]).map
      (Turn.report tallyBatch.settings)).Pairwise fun first second =>
        ∀ a b, Leads "" first.2.1 a → Leads "" second.2.1 b → ¬ a.Meets b := by
    rw [hreports, List.pairwise_pair]
    intro a b ha hb
    rw [hfirst a ha, hsecond b hb]
    rintro (⟨above, hups, -⟩ | ⟨above, hups, hnames⟩)
    · exact absurd (Nat.le_trans (Nat.le_add_left ..) hups) (by decide)
    · have hlast := congrArg List.getLast? hnames
      rw [List.getLast?_append] at hlast
      exact absurd (Option.some.inj hlast) (by decide)
  have hmetrics : ∀ report ∈ [(true, "../a/x.json", "a/x.ts"), (true, "y/../z.yaml", "out/z.ts")],
      report.1 = true ∧ fs.place tallyBatch.settings.metricsFile ≠ fs.place report.2.2 := by
    decide +kernel
  obtain ⟨-, -, -, hread⟩ := modules_survive tallyBatch (tallySession fs) ["a.json", "b.json"]
    (files_twoSchemas _ _) ((List.pairwise_map.mp hapart).imp fun h _ _ => h)
  refine ⟨hreports, ?_⟩
  intro turn hturn
  obtain ⟨hnone, hplace⟩ := hmetrics _ (hreport turn hturn)
  obtain ⟨text, -, htext⟩ := hread rfl (by decide) turn hturn (Option.isNone_iff_eq_none.mp hnone)
    fun _ => hplace
  exact ⟨text, htext⟩

/-- The identifiers differ in the ending only, and where the first module was written the second
one is read. -/
theorem modules_share_output :
    let fs := twoSchemas "x.json" "x.yaml"
    let second : Turn :=
      ⟨(Turn.outcome tallyBatch.settings ⟨fs, "a.json"⟩).fileSystem, "b.json"⟩
    turns tallyBatch.settings fs ["a.json", "b.json"] = [⟨fs, "a.json"⟩, second] ∧
      [⟨fs, "a.json"⟩, second].map (Turn.report tallyBatch.settings) =
        [(true, "x.json", "out/x.ts"), (true, "x.yaml", "out/x.ts")] ∧
      ∃ text, product tallyBatch.settings second.fileSystem second.file = .ok ("out/x.ts", text) ∧
        (tallyBatch.run (tallySession fs) false).1.fileSystem.read "out/x.ts" = .ok text := by
  intro fs second
  have hreports : [⟨fs, "a.json"⟩, second].map (Turn.report tallyBatch.settings) =
      [(true, "x.json", "out/x.ts"), (true, "x.yaml", "out/x.ts")] := by
    decide +kernel
  have hnone (turn : Turn) (report : Bool × String × String)
      (h : turn.report tallyBatch.settings = report) (htrue : report.1 = true) :
      turn.Succeeds tallyBatch.settings := by
    subst h
    exact Option.isNone_iff_eq_none.mp htrue
  have hfirst : (Turn.mk fs "a.json").Succeeds tallyBatch.settings :=
    hnone _ _ (List.cons.inj hreports).1 rfl
  have hreport : second.report tallyBatch.settings = (true, "x.yaml", "out/x.ts") :=
    (List.cons.inj (List.cons.inj hreports).2).1
  have hsecond : second.Succeeds tallyBatch.settings := hnone _ _ hreport rfl
  have houtput : second.outputFile tallyBatch.settings = "out/x.ts" :=
    congrArg (fun report => report.2.2) hreport
  have hturns : turns tallyBatch.settings fs ["a.json", "b.json"] = [⟨fs, "a.json"⟩, second] := by
    rw [turns, if_pos (goesOn_of_none hfirst), turns, if_pos (goesOn_of_none hsecond), turns]
  have hmetrics : fs.place tallyBatch.settings.metricsFile ≠ fs.place "out/x.ts" := by
    decide +kernel
  clear_value second
  have hsplit : turns tallyBatch.settings (tallySession fs).fileSystem ["a.json", "b.json"] =
      [⟨fs, "a.json"⟩] ++ second :: [] := hturns
  obtain ⟨text, hproduct, hread⟩ := run_reads (files_twoSchemas "x.json" "x.yaml") rfl
    hsplit hsecond (fun _ hlater => absurd hlater List.not_mem_nil)
    (fun _ => by rw [houtput]; exact hmetrics)
  rw [houtput] at hproduct hread
  exact ⟨hturns, hreports, text, hproduct, hread⟩

end SchemaCodec.Batch

import SchemaCodec.Proofs.Batch.Product
import SchemaCodec.Proofs.Glob.Existence

namespace SchemaCodec.Batch

open FileSystem

/-! A batch does with each file what would come of that file alone. -/

def Cause.isWrite : Cause → Bool
  | .file _ failure => failure.isWrite
  | .metrics _ => true
  | .cancelled => false

/-- The files that a batch comes to: all of them, or those up to the first that fails. -/
def reached (settings : Settings) (fs : FileSystem) (files : List String) : List String :=
  if settings.continueOnError then files
  else files.take
    (files.findIdx (fun file => (convertFile settings fs file).failure.isSome) + 1)

def failures (settings : Settings) (fs : FileSystem) (files : List String) : List Cause :=
  files.filterMap fun file => (convertFile settings fs file).failure.map (Cause.file file)

def products (settings : Settings) (fs : FileSystem) (files : List String) :
    List (String × List UInt8) :=
  files.filterMap fun file => (product settings fs file).toOption

/-- The files are there, no module takes the place of one, and alone their conversion comes to an end
and can be written. -/
structure Separate (settings : Settings) (fs : FileSystem) (files : List String) : Prop where
  found : ∀ file ∈ files, ∃ entry, fs.find file = .ok (fs.place file, entry)
  apart : ∀ file ∈ files, ∀ other ∈ files, ∀ output, product settings fs other = .ok output →
    fs.place output.1 ≠ fs.place file
  alone : ∀ file ∈ files, ∀ failure, (convertFile settings fs file).failure = some failure →
    failure.isWrite = false
  ends : ∀ file ∈ files, (convertFile settings fs file).isEndless = false

/-- From one session to another, each of the files has led to what comes of it alone. -/
structure Performs (settings : Settings) (fs : FileSystem) (files : List String)
    (before after : Session) : Prop where
  grows : Grows before.fileSystem after.fileSystem
  contents : after.fileSystem.contents =
    (products settings fs files).foldl (emitted settings fs) before.fileSystem.contents
  ok : after.metrics.ok = before.metrics.ok + (products settings fs files).length
  failed : after.metrics.failed = before.metrics.failed + (failures settings fs files).length

section

variable {batch : Batch} {settings : Settings} {fs : FileSystem} {file : String}
  {files rest : List String} {session : Session}

theorem Separate.mono (h : Separate settings fs files) (hrest : ∀ other ∈ rest, other ∈ files) :
    Separate settings fs rest where
  found other hother := h.found other (hrest other hother)
  apart other hother another hanother :=
    h.apart other (hrest other hother) another (hrest another hanother)
  alone other hother := h.alone other (hrest other hother)
  ends other hother := h.ends other (hrest other hother)

theorem Separate.tail (h : Separate settings fs (file :: rest)) : Separate settings fs rest :=
  h.mono fun _ hother => List.mem_cons_of_mem _ hother

/-- Alone, a file fails exactly if it has no module. -/
theorem Separate.failure_eq_none_iff (h : Separate settings fs files) (hfile : file ∈ files) :
    (convertFile settings fs file).failure = none ↔
      ∃ output, product settings fs file = .ok output := by
  cases halone : product settings fs file with
  | error failure =>
      rw [(convertFile_of_error halone).1]
      simp
  | ok output =>
      rw [(convertFile_of_ok halone (h.alone file hfile)).1]
      simp

private theorem mem_of_mem_reached (h : file ∈ reached settings fs files) : file ∈ files := by
  unfold reached at h
  split at h
  · exact h
  · exact List.mem_of_mem_take h

private theorem reached_cons_of_none (h : (convertFile settings fs file).failure = none) :
    reached settings fs (file :: rest) = file :: reached settings fs rest := by
  unfold reached
  split
  · rfl
  · rw [List.findIdx_cons, h]
    rfl

private theorem reached_cons_of_some {failure : FileFailure}
    (h : (convertFile settings fs file).failure = some failure) :
    reached settings fs (file :: rest) =
      file :: if settings.continueOnError then reached settings fs rest else [] := by
  unfold reached
  split
  · rfl
  · rw [List.findIdx_cons, h]
    rfl

theorem record_fileSystem (outcome : FileOutcome) :
    (batch.record session file outcome).fileSystem = outcome.fileSystem := by
  unfold record
  cases outcome.failure with
  | none => rfl
  | some failure => rfl

private theorem record_metrics_of_none {outcome : FileOutcome} (h : outcome.failure = none) :
    (batch.record session file outcome).metrics =
      session.metrics.addOk (Issue.count outcome.result.issues) := by
  unfold record
  rw [h]
  rfl

private theorem record_metrics_of_some {outcome : FileOutcome} {failure : FileFailure}
    (h : outcome.failure = some failure) :
    (batch.record session file outcome).metrics = session.metrics.addFailed := by
  unfold record
  rw [h]
  rfl

private theorem products_of_error {failure : FileFailure}
    (h : product settings fs file = .error failure) :
    products settings fs [file] = [] := by
  rw [products, List.filterMap_cons, h]
  rfl

private theorem products_of_ok {output : String × List UInt8}
    (h : product settings fs file = .ok output) :
    products settings fs [file] = [output] := by
  rw [products, List.filterMap_cons, h]
  rfl

private theorem products_cons (file : String) (rest : List String) :
    products settings fs (file :: rest) =
      products settings fs [file] ++ products settings fs rest :=
  List.filterMap_append (l := [file])

private theorem failures_cons (file : String) (rest : List String) :
    failures settings fs (file :: rest) =
      failures settings fs [file] ++ failures settings fs rest :=
  List.filterMap_append (l := [file])

theorem Performs.nil (session : Session) : Performs settings fs [] session session :=
  ⟨.refl _, rfl, rfl, rfl⟩

theorem Performs.cons {middle after : Session} (h : Performs settings fs [file] session middle)
    (hrest : Performs settings fs rest middle after) :
    Performs settings fs (file :: rest) session after := by
  refine ⟨h.grows.trans hrest.grows, ?_, ?_, ?_⟩
  · rw [hrest.contents, h.contents, products_cons file rest, List.foldl_append]
  · rw [hrest.ok, h.ok, products_cons file rest, List.length_append, Nat.add_assoc]
  · rw [hrest.failed, h.failed, failures_cons file rest, List.length_append, Nat.add_assoc]

theorem processFile_outcome (batch : Batch) (session : Session) (file : String) :
    (batch.processFile session file).2 = convertFile batch.settings session.fileSystem file := by
  unfold processFile
  dsimp only
  split <;> rfl

theorem processFile_session
    (h : (convertFile batch.settings session.fileSystem file).isEndless = false) :
    (batch.processFile session file).1 =
      batch.record session.timed file (convertFile batch.settings session.fileSystem file) := by
  unfold processFile
  dsimp only
  rw [if_neg (by rw [h]; exact Bool.false_ne_true)]

private theorem isEndless_congr {outcome other : FileOutcome}
    (h : outcome.failure = other.failure) :
    outcome.isEndless = other.isEndless := by
  rw [FileOutcome.isEndless, FileOutcome.isEndless, h]

/-- One file leads to what comes of it alone, if it has not been written since. -/
theorem performs_processFile (h : Separate batch.settings fs (file :: rest))
    (hgrows : Grows fs session.fileSystem)
    (huntouched : session.fileSystem.contents (fs.place file) = fs.contents (fs.place file))
    (hdisk : ∀ failure, (batch.processFile session file).2.failure = some failure →
      failure.isWrite = false) :
    (batch.processFile session file).2.failure = (convertFile batch.settings fs file).failure ∧
      Performs batch.settings fs [file] session (batch.processFile session file).1 := by
  obtain ⟨entry, hfind⟩ := h.found file (List.mem_cons_self ..)
  have hends := h.ends file (List.mem_cons_self ..)
  have hproduct : product batch.settings session.fileSystem file =
      product batch.settings fs file :=
    product_later hgrows hfind huntouched
  rw [processFile_outcome] at hdisk ⊢
  cases halone : product batch.settings fs file with
  | error failure =>
      obtain ⟨hfailure, hfs⟩ := convertFile_of_error (hproduct.trans halone)
      have hfirst := (convertFile_of_error halone).1
      have hsame := hfailure.trans hfirst.symm
      have hproducts := products_of_error halone
      have hfailures : failures batch.settings fs [file] = [.file file failure] := by
        simp [failures, hfirst]
      rw [processFile_session ((isEndless_congr hsame).trans hends)]
      refine ⟨hsame, ?_, ?_, ?_, ?_⟩
      · rw [record_fileSystem, hfs]
        exact .refl _
      · rw [record_fileSystem, hfs, hproducts]
        rfl
      · rw [record_metrics_of_some hfailure, hproducts]
        rfl
      · rw [record_metrics_of_some hfailure, hfailures]
        rfl
  | ok output =>
      obtain ⟨hfailure, hlater, hcontents⟩ := convertFile_of_ok (hproduct.trans halone) hdisk
      have hfirst := (convertFile_of_ok halone (h.alone file (List.mem_cons_self ..))).1
      have hsame := hfailure.trans hfirst.symm
      have hproducts := products_of_ok halone
      have hfailures : failures batch.settings fs [file] = [] := by
        simp [failures, hfirst]
      rw [processFile_session ((isEndless_congr hsame).trans hends)]
      refine ⟨hsame, ?_, ?_, ?_, ?_⟩
      · rw [record_fileSystem]
        exact hlater
      · rw [record_fileSystem, hcontents, hproducts, List.foldl_cons, List.foldl_nil, emitted,
          emitted, hgrows.place]
      · rw [record_metrics_of_none hfailure, hproducts]
        rfl
      · rw [record_metrics_of_none hfailure, hfailures]
        rfl

/-- What is written for one file leaves the others as they are. -/
theorem Performs.untouched {after : Session} (h : Separate settings fs (file :: rest))
    (hperforms : Performs settings fs [file] session after) {other : String} (hother : other ∈ rest) :
    after.fileSystem.contents (fs.place other) = session.fileSystem.contents (fs.place other) := by
  rw [hperforms.contents]
  cases halone : product settings fs file with
  | error failure =>
      rw [products_of_error halone]
      rfl
  | ok output =>
      rw [products_of_ok halone, List.foldl_cons, List.foldl_nil, emitted]
      split
      · exact Function.update_of_ne (h.apart other (List.mem_cons_of_mem _ hother) file
          (List.mem_cons_self ..) output halone).symm _ _
      · rfl

private theorem failures_of_none (h : (convertFile settings fs file).failure = none) :
    failures settings fs [file] = [] := by
  simp [failures, h]

private theorem failures_of_some {failure : FileFailure}
    (h : (convertFile settings fs file).failure = some failure) :
    failures settings fs [file] = [.file file failure] := by
  simp [failures, h]

theorem processAll_of_none (h : (batch.processFile session file).2.failure = none) :
    batch.processAll session (file :: rest) =
      batch.processAll (batch.processFile session file).1 rest := by
  rw [processAll]
  dsimp only
  rw [h]

theorem processAll_of_some {failure : FileFailure}
    (h : (batch.processFile session file).2.failure = some failure)
    (hends : failure.isEndless = false) :
    batch.processAll session (file :: rest) =
      if batch.settings.continueOnError then
        ((batch.processAll (crash (batch.processFile session file).1 file) rest).1,
          .file file failure ::
            (batch.processAll (crash (batch.processFile session file).1 file) rest).2)
      else (crash (batch.processFile session file).1 file, [.file file failure]) := by
  rw [processAll]
  dsimp only
  rw [h]
  dsimp only
  rw [hends]
  rfl

theorem processAll_of_endless {failure : FileFailure}
    (h : (batch.processFile session file).2.failure = some failure)
    (hends : failure.isEndless = true) :
    batch.processAll session (file :: rest) =
      ((batch.processFile session file).1, [.file file failure]) := by
  rw [processAll]
  dsimp only
  rw [h]
  dsimp only
  rw [hends]
  rfl

private theorem performs_processAll (session : Session) (h : Separate batch.settings fs files)
    (hgrows : Grows fs session.fileSystem)
    (huntouched : ∀ file ∈ files,
      session.fileSystem.contents (fs.place file) = fs.contents (fs.place file))
    (hdisk : ∀ cause ∈ (batch.processAll session files).2, cause.isWrite = false) :
    (batch.processAll session files).2 =
        failures batch.settings fs (reached batch.settings fs files) ∧
      Performs batch.settings fs (reached batch.settings fs files) session
        (batch.processAll session files).1 := by
  induction files generalizing session with
  | nil =>
      have hreached : reached batch.settings fs [] = [] := by
        unfold reached
        split <;> rfl
      rw [hreached]
      exact ⟨rfl, .nil session⟩
  | cons file rest ih =>
      -- The first file has led to what comes of it alone, so the others find what they would alone.
      have hnext : ∀ {next : Session}, Performs batch.settings fs [file] session next →
          (∀ cause ∈ (batch.processAll next rest).2, cause.isWrite = false) →
          (batch.processAll next rest).2 =
              failures batch.settings fs (reached batch.settings fs rest) ∧
            Performs batch.settings fs (reached batch.settings fs rest) next
              (batch.processAll next rest).1 := by
        intro next hperforms hcauses
        refine ih next h.tail (hgrows.trans hperforms.grows) ?_ hcauses
        intro other hother
        rw [hperforms.untouched h hother]
        exact huntouched other (List.mem_cons_of_mem _ hother)
      cases hnow : (batch.processFile session file).2.failure with
      | none =>
          obtain ⟨hsame, hperforms⟩ := performs_processFile h hgrows
            (huntouched file (List.mem_cons_self ..)) (by simp [hnow])
          have halone := hsame.symm.trans hnow
          rw [processAll_of_none hnow] at hdisk ⊢
          obtain ⟨hcauses, hrest⟩ := hnext hperforms hdisk
          rw [reached_cons_of_none halone, failures_cons, failures_of_none halone]
          exact ⟨hcauses, hperforms.cons hrest⟩
      | some failure =>
          have hcause : failure.isWrite = false := by
            refine hdisk (.file file failure) ?_
            cases hends : failure.isEndless with
            | true => simp [processAll_of_endless hnow hends]
            | false =>
                rw [processAll_of_some hnow hends]
                split <;> simp
          obtain ⟨hsame, hperforms⟩ := performs_processFile h hgrows
            (huntouched file (List.mem_cons_self ..)) (by simp [hnow, hcause])
          have halone := hsame.symm.trans hnow
          have hends : failure.isEndless = false := by
            have hfile := h.ends file (List.mem_cons_self ..)
            rwa [FileOutcome.isEndless, halone] at hfile
          rw [processAll_of_some hnow hends] at hdisk ⊢
          have hcrash : Performs batch.settings fs [file] session
              (crash (batch.processFile session file).1 file) :=
            ⟨hperforms.grows, hperforms.contents, hperforms.ok, hperforms.failed⟩
          rw [reached_cons_of_some halone]
          by_cases hcontinue : batch.settings.continueOnError = true
          · rw [if_pos hcontinue] at hdisk ⊢
            rw [if_pos hcontinue]
            obtain ⟨hcauses, hrest⟩ := hnext hcrash fun cause hmem =>
              hdisk cause (List.mem_cons_of_mem _ hmem)
            refine ⟨?_, hcrash.cons hrest⟩
            rw [failures_cons, failures_of_some halone]
            exact congrArg (List.cons _) hcauses
          · rw [if_neg hcontinue, if_neg hcontinue]
            exact ⟨(failures_of_some halone).symm, hcrash⟩

private theorem length_products_add_failures (h : Separate settings fs files) :
    (products settings fs files).length + (failures settings fs files).length = files.length := by
  induction files with
  | nil => rfl
  | cons file rest ih =>
      rw [products_cons, failures_cons, List.length_append, List.length_append, List.length_cons,
        ← ih h.tail]
      cases halone : product settings fs file with
      | error failure =>
          rw [products_of_error halone, failures_of_some (convertFile_of_error halone).1]
          simp only [List.length_nil, List.length_singleton]
          omega
      | ok output =>
          have hnone := (convertFile_of_ok halone (h.alone file (List.mem_cons_self ..))).1
          rw [products_of_ok halone, failures_of_none hnone]
          simp only [List.length_nil, List.length_singleton]
          omega

/-! Whole batches -/

def counted (settings : Settings) (fs : FileSystem) (metrics : Metrics)
    (contents : List String → Option (List UInt8)) : List String → Option (List UInt8) :=
  if settings.metricsFile = "" then contents
  else Function.update contents (fs.place settings.metricsFile)
    (some metrics.text.toUTF8.toList)

private theorem counted_later {later : FileSystem} (h : Grows fs later) :
    counted settings later = counted settings fs := by
  funext metrics contents
  rw [counted, counted, h.place]

theorem run_eq (h : batch.files session.fileSystem = .ok files) :
    batch.run session false =
      batch.finish (batch.processAll (session.print (batch.greeting files)) files).1
        (batch.processAll (session.print (batch.greeting files)) files).2 := by
  unfold run
  rw [h]
  rfl

private theorem finish_of_ends {causes : List Cause} (h : causes.any Cause.isEndless = false) :
    batch.finish session causes =
      ((batch.writeMetrics session.stamped).1,
        verdict (causes ++ (batch.writeMetrics session.stamped).2)) := by
  rw [finish, h]
  rfl

/-- Whether or not metrics are written, the causes are told. -/
theorem exists_finish (session : Session) (causes : List Cause) :
    ∃ more, (batch.finish session causes).2 = verdict (causes ++ more) := by
  unfold finish
  split
  · exact ⟨[], by rw [List.append_nil]⟩
  · exact ⟨_, rfl⟩

private theorem not_isEndless_of_mem_failures (h : Separate settings fs files) :
    (failures settings fs files).any Cause.isEndless = false := by
  rw [List.any_eq_false]
  intro cause hcause
  obtain ⟨file, hfile, hmap⟩ := List.mem_filterMap.mp hcause
  obtain ⟨failure, hfailure, rfl⟩ := Option.map_eq_some_iff.mp hmap
  have hends := h.ends file hfile
  rw [FileOutcome.isEndless, hfailure] at hends
  exact Bool.eq_false_iff.mp hends

private theorem writeMetrics_eq
    (h : ∀ cause ∈ (batch.writeMetrics session).2, cause.isWrite = false) :
    (batch.writeMetrics session).2 = [] ∧
      (batch.writeMetrics session).1.metrics = session.metrics ∧
      (batch.writeMetrics session).1.fileSystem.contents =
        counted batch.settings session.fileSystem session.metrics
          session.fileSystem.contents := by
  unfold writeMetrics counted at *
  by_cases hfile : batch.settings.metricsFile = ""
  · rw [if_pos hfile, if_pos hfile]
    exact ⟨rfl, rfl, rfl⟩
  · rw [if_neg hfile] at h ⊢
    rw [if_neg hfile]
    split at h
    · next written hwritten => exact ⟨rfl, rfl, (write_eq_ok hwritten).2⟩
    · next fault _ =>
        have hwrite : (Cause.metrics fault).isWrite = false := h _ (List.mem_singleton.mpr rfl)
        cases hwrite

private theorem eq_of_verdict {causes found : List Cause}
    (h : verdict causes = .error (.causes found)) :
    causes = found := by
  unfold verdict at h
  split at h
  · cases h
  · exact Failure.causes.inj (Except.error.inj h)

private theorem mem_of_verdict {causes : List Cause} {allowed : Cause → Prop}
    (h : ∀ found, verdict causes = .error (.causes found) → ∀ cause ∈ found, allowed cause) :
    ∀ cause ∈ causes, allowed cause := by
  intro cause hcause
  have hne : ¬ causes.isEmpty = true := by
    rw [List.isEmpty_iff]
    exact List.ne_nil_of_mem hcause
  exact h causes (if_neg hne) cause hcause

private theorem find_of_mem_files (h : fs.WellFormed) (hfiles : batch.files fs = .ok files)
    (hfile : file ∈ files) : ∃ entry, fs.find file = .ok (fs.place file, entry) := by
  unfold Batch.files at hfiles
  split at hfiles
  · next found hfound =>
      cases hfiles
      exact Glob.find_of_mem_files? h hfound hfile
  · cases hfiles

end

/-- A batch writes the modules of exactly those files that would be converted alone, in order, and
then its metrics, whatever the clock has shown; it fails for exactly the causes for which the others
would fail alone. It comes to all files, or else to those up to the first that fails, and counts each
of them once. -/
theorem run_converts_files_as_alone (batch : Batch) (session : Session) (files : List String)
    (hfs : session.fileSystem.WellFormed)
    (hfiles : batch.files session.fileSystem = .ok files)
    (hapart : ∀ file ∈ files, ∀ other ∈ files, ∀ output,
      product batch.settings session.fileSystem other = .ok output →
      session.fileSystem.place output.1 ≠ session.fileSystem.place file)
    (halone : ∀ file ∈ files, ∀ failure,
      (batch.processFile session file).2.failure = some failure →
        failure.isWrite = false ∧ failure.isEndless = false)
    (hdisk : ∀ causes, (batch.run session false).2 = .error (.causes causes) →
      ∀ cause ∈ causes, cause.isWrite = false) :
    let fs := session.fileSystem
    let done := reached batch.settings fs files
    let final := (batch.run session false).1
    (∀ file ∈ files, (batch.processFile session file).2.failure = none ↔
      ∃ output, product batch.settings fs file = .ok output) ∧
    final.fileSystem.contents = counted batch.settings fs final.metrics
      ((products batch.settings fs done).foldl (emitted batch.settings fs) fs.contents) ∧
    (batch.run session false).2 = verdict (failures batch.settings fs done) ∧
    final.metrics.ok = session.metrics.ok + (products batch.settings fs done).length ∧
    final.metrics.failed = session.metrics.failed + (failures batch.settings fs done).length ∧
    final.metrics.total = session.metrics.total + done.length := by
  intro fs done final
  simp only [processFile_outcome] at halone ⊢
  have hends : ∀ file ∈ files, (convertFile batch.settings fs file).isEndless = false := by
    intro file hfile
    cases hfailure : (convertFile batch.settings fs file).failure with
    | none => rw [FileOutcome.isEndless, hfailure, Option.any_none]
    | some failure =>
        rw [FileOutcome.isEndless, hfailure, Option.any_some]
        exact (halone file hfile failure hfailure).2
  have hseparate : Separate batch.settings fs files :=
    ⟨fun file hfile => find_of_mem_files hfs hfiles hfile, hapart,
      fun file hfile failure hfailure => (halone file hfile failure hfailure).1, hends⟩
  have hdone : Separate batch.settings fs done :=
    hseparate.mono fun file hfile => mem_of_mem_reached hfile
  have hrun := run_eq hfiles
  obtain ⟨more, hmore⟩ := batch.exists_finish
    (batch.processAll (session.print (batch.greeting files)) files).1
    (batch.processAll (session.print (batch.greeting files)) files).2
  obtain ⟨hfailures, hperforms⟩ := performs_processAll (session.print (batch.greeting files))
    hseparate (.refl fs) (fun _ _ => rfl) fun cause hcause =>
      mem_of_verdict (fun causes hcauses => hdisk causes (by rw [hrun, hmore, hcauses])) cause
        (List.mem_append_left more hcause)
  rw [finish_of_ends (hfailures ▸ not_isEndless_of_mem_failures hdone)] at hrun
  rw [hrun] at hdisk
  obtain ⟨hnone, hmetrics, hcontents⟩ := writeMetrics_eq fun cause hcause =>
    mem_of_verdict hdisk cause (List.mem_append_right _ hcause)
  have hfinal : final = _ := congrArg Prod.fst hrun
  have hok : final.metrics.ok = session.metrics.ok + (products batch.settings fs done).length := by
    rw [hfinal, hmetrics]
    exact hperforms.ok
  have hfailed : final.metrics.failed =
      session.metrics.failed + (failures batch.settings fs done).length := by
    rw [hfinal, hmetrics]
    exact hperforms.failed
  refine ⟨fun file hfile => hseparate.failure_eq_none_iff hfile, ?_, ?_, hok, hfailed, ?_⟩
  · rw [hfinal, hcontents, hmetrics]
    change counted batch.settings _ _
      (batch.processAll (session.print (batch.greeting files)) files).1.fileSystem.contents = _
    rw [hperforms.contents]
    exact congrFun (congrFun (counted_later hperforms.grows) _) _
  · rw [hrun, hnone, hfailures, List.append_nil]
  · have hlength := length_products_add_failures hdone
    rw [Metrics.total, Metrics.total, hok, hfailed, ← hlength]
    omega

def workspace : FileSystem where
  here := ["work"]
  directories := [["work"]]
  files := [(["work", "a.json"], "\x7b".toUTF8.toList),
    (["work", "b.json"], "\x7b\"type\":\"string\"\x7d".toUTF8.toList)]

def tallyBatch : Batch :=
  ⟨{ inputFile := "*.json", outputDir := "out", continueOnError := true, metricsFile := "counts" },
    none⟩

theorem files_tallyBatch {fs : FileSystem} {files : List String}
    (h : Glob.found fs "." "*.json".toList = files)
    (hsorted : files.Pairwise fun a b => decide (a ≤ b) = true) :
    tallyBatch.files fs = .ok files := by
  have hfiles : Glob.files? fs "*.json" = some files := by
    have hclean : Path.clean "*.json" = "*.json" := by decide
    have hsplit : Glob.split "*.json" = (".", "*.json") := by decide
    have hbranches : Glob.branches Glob.dropLastEmpty "*.json".toList = ["*.json".toList] := by
      decide
    rw [Glob.files?, if_neg (by decide), hclean]
    dsimp only
    rw [hsplit]
    dsimp only
    rw [if_neg (by decide), if_pos (by decide), hbranches]
    dsimp only
    rw [h, Glob.sorted, List.mergeSort_of_pairwise hsorted]
  unfold Batch.files
  rw [show tallyBatch.settings.inputFile = "*.json" from rfl, hfiles]

/-- Half a second goes by between two looks at the clock. -/
def tallySession (fs : FileSystem) : Session where
  fileSystem := fs
  clock look := 500000000 * look

/-- The text that is no schema fails, and the schema behind it is converted. -/
theorem run_converts_files_as_alone_workspace :
    let final := (tallyBatch.run (tallySession workspace) false).1
    final.fileSystem.contents = counted tallyBatch.settings workspace final.metrics
      ((products tallyBatch.settings workspace ["a.json", "b.json"]).foldl
        (emitted tallyBatch.settings workspace) workspace.contents) ∧
    (tallyBatch.run (tallySession workspace) false).2 =
      verdict (failures tallyBatch.settings workspace ["a.json", "b.json"]) ∧
    final.metrics.total = 2 := by
  have hfiles : tallyBatch.files workspace = .ok ["a.json", "b.json"] :=
    files_tallyBatch (by decide +kernel) (by decide)
  have hfs : workspace.WellFormed := ⟨by decide, by decide, by decide⟩
  have hapart : ∀ file ∈ ["a.json", "b.json"], ∀ other ∈ ["a.json", "b.json"],
      ∀ output, product tallyBatch.settings workspace other = .ok output →
        workspace.place output.1 ≠ workspace.place file := by
    have hall : ∀ file ∈ ["a.json", "b.json"], ∀ other ∈ ["a.json", "b.json"],
        ((product tallyBatch.settings workspace other).toOption.all fun output =>
          workspace.place output.1 ≠ workspace.place file) = true := by
      decide +kernel
    intro file hfile other hother output houtput
    have htest := hall file hfile other hother
    rw [houtput] at htest
    exact of_decide_eq_true htest
  have halone : ∀ file ∈ ["a.json", "b.json"], ∀ failure,
      (tallyBatch.processFile (tallySession workspace) file).2.failure = some failure →
        failure.isWrite = false ∧ failure.isEndless = false := by
    have hall : ∀ file ∈ ["a.json", "b.json"],
        ((tallyBatch.processFile (tallySession workspace) file).2.failure.all fun failure =>
          failure.isWrite = false ∧ failure.isEndless = false) = true := by
      decide +kernel
    intro file hfile failure hfailure
    have htest := hall file hfile
    rw [hfailure] at htest
    exact of_decide_eq_true htest
  have hdisk : ∀ causes, (tallyBatch.run (tallySession workspace) false).2 =
      .error (.causes causes) → ∀ cause ∈ causes, cause.isWrite = false := by
    rw [run_eq hfiles, finish_of_ends (by decide +kernel)]
    intro causes hcauses
    rw [← eq_of_verdict hcauses]
    decide +kernel
  obtain ⟨-, hcontents, hverdict, -, -, htotal⟩ := run_converts_files_as_alone tallyBatch
    (tallySession workspace) ["a.json", "b.json"] hfs hfiles hapart halone hdisk
  exact ⟨hcontents, hverdict, htotal⟩

/-- With nothing to convert, the counts are written all the same. -/
theorem counts_are_written :
    tallyBatch.files (bare ["work"]) = .ok [] ∧
      (tallyBatch.run (tallySession (bare ["work"])) false).1.fileSystem.contents
          ["work", "counts"] ≠
        (bare ["work"]).contents ["work", "counts"] := by
  have hfiles : tallyBatch.files (bare ["work"]) = .ok [] :=
    files_tallyBatch (by decide +kernel) List.Pairwise.nil
  refine ⟨hfiles, ?_⟩
  rw [run_eq hfiles]
  decide +kernel

end SchemaCodec.Batch

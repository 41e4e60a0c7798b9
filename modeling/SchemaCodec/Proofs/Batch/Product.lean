import SchemaCodec.Batch.Run
import SchemaCodec.Proofs.FileSystem.Growth

namespace SchemaCodec.Batch

open FileSystem

/-! What comes of one file: a module with its path, or a failure that leaves all files as they are. -/

/-- Whether a failure comes from writing and not from the schema. -/
def FileFailure.isWrite : FileFailure → Bool
  | .noDirectory _ => true
  | .unwritable _ => true
  | _ => false

/-- The path and the content of the module of a file, or why there is none. -/
def product (settings : Settings) (fs : FileSystem) (file : String) :
    Except FileFailure (String × List UInt8) := do
  let schema ← loadSchema fs file
  let uri := documentUri fs schema file
  let generated ← (Module.generate (options settings uri file) schema).result.mapError .generation
  return (outputPath settings.outputDir settings.base uri, generated.text.toUTF8.toList)

/-- The contents of files after one of them is written, if modules are written at all. -/
def emitted (settings : Settings) (fs : FileSystem) (contents : List String → Option (List UInt8))
    (output : String × List UInt8) : List String → Option (List UInt8) :=
  if settings.shouldEmit then Function.update contents (fs.place output.1) (some output.2)
  else contents

variable {settings : Settings} {fs later : FileSystem} {file : String}

private theorem emit_of_none {path : String} {generated : Module}
    (h : (emit fs path generated).2 = none) :
    Grows fs (emit fs path generated).1 ∧
      (emit fs path generated).1.contents =
        Function.update fs.contents (fs.place path) (some generated.text.toUTF8.toList) := by
  unfold emit at h ⊢
  dsimp only at h ⊢
  split at h
  · cases h
  · next made hmade =>
      obtain ⟨hgrows, hcontents⟩ := makeDirectories_eq_ok hmade
      split at h
      · cases h
      · next written hwritten =>
          obtain ⟨hlater, hupdate⟩ := write_eq_ok hwritten
          refine ⟨hgrows.trans hlater, ?_⟩
          rw [hupdate, hcontents, hgrows.place]

theorem convertFile_of_error {failure : FileFailure} (h : product settings fs file = .error failure) :
    (convertFile settings fs file).failure = some failure ∧
      (convertFile settings fs file).fileSystem = fs := by
  unfold product at h
  unfold convertFile
  cases hschema : loadSchema fs file with
  | error cause =>
      rw [hschema] at h
      cases h
      exact ⟨rfl, rfl⟩
  | ok schema =>
      rw [hschema] at h
      dsimp only [bind, Except.bind] at h ⊢
      cases hresult : (Module.generate
          (options settings (documentUri fs schema file) file) schema).result with
      | error cause =>
          rw [hresult] at h
          cases h
          exact ⟨rfl, rfl⟩
      | ok generated =>
          rw [hresult] at h
          cases h

private theorem isWrite_of_emit {path : String} {generated : Module} {failure : FileFailure}
    (h : (emit fs path generated).2 = some failure) : failure.isWrite = true := by
  unfold emit at h
  dsimp only at h
  split at h
  · cases h
    rfl
  · split at h
    · cases h
      rfl
    · cases h

theorem exists_of_product {output : String × List UInt8}
    (h : product settings fs file = .ok output) :
    ∃ schema generated, loadSchema fs file = .ok schema ∧
      (Module.generate (options settings (documentUri fs schema file) file) schema).result =
        .ok generated ∧
      output = (outputPath settings.outputDir settings.base (documentUri fs schema file),
        generated.text.toUTF8.toList) := by
  obtain ⟨schema, hschema, h⟩ := exists_of_bind_eq_ok h
  obtain ⟨generated, hgenerated, h⟩ := exists_of_bind_eq_ok h
  refine ⟨schema, generated, hschema, ?_, (Except.ok.inj h).symm⟩
  cases hresult : (Module.generate
      (options settings (documentUri fs schema file) file) schema).result with
  | error cause =>
      rw [hresult] at hgenerated
      cases hgenerated
  | ok other =>
      rw [hresult] at hgenerated
      cases hgenerated
      rfl

theorem convertFile_of_ok {output : String × List UInt8}
    (h : product settings fs file = .ok output)
    (hdisk : ∀ failure, (convertFile settings fs file).failure = some failure →
      failure.isWrite = false) :
    (convertFile settings fs file).failure = none ∧
      Grows fs (convertFile settings fs file).fileSystem ∧
      (convertFile settings fs file).fileSystem.contents =
        emitted settings fs fs.contents output := by
  obtain ⟨schema, generated, hschema, hresult, rfl⟩ := exists_of_product h
  unfold convertFile at hdisk ⊢
  unfold emitted
  rw [hschema] at hdisk ⊢
  dsimp only at hdisk ⊢
  rw [hresult] at hdisk ⊢
  dsimp only at hdisk ⊢
  by_cases hemit : settings.shouldEmit = true
  · rw [if_pos hemit] at hdisk ⊢
    rw [if_pos hemit]
    cases hemitted : emit fs
        (outputPath settings.outputDir settings.base (documentUri fs schema file)) generated with
    | mk made failure =>
        rw [hemitted] at hdisk
        cases failure with
        | some failure =>
            have hwrite : failure.isWrite = true := isWrite_of_emit (congrArg Prod.snd hemitted)
            rw [hdisk failure rfl] at hwrite
            cases hwrite
        | none =>
            obtain ⟨hgrows, hcontents⟩ := emit_of_none (congrArg Prod.snd hemitted)
            rw [hemitted] at hgrows hcontents
            exact ⟨rfl, hgrows, hcontents⟩
  · rw [if_neg hemit, if_neg hemit]
    exact ⟨rfl, .refl fs, rfl⟩

/-- Only what the file holds and where it lies counts. -/
theorem product_later {location : List String} {entry : Entry} (h : Grows fs later)
    (hfind : fs.find file = .ok (location, entry))
    (hcontents : later.contents location = fs.contents location) :
    product settings later file = product settings fs file := by
  have hload : loadSchema later file = loadSchema fs file := by
    unfold loadSchema
    rw [h.read hfind hcontents]
  have huri : ∀ schema, documentUri later schema file = documentUri fs schema file := by
    intro schema
    unfold documentUri FileSystem.absolute
    rw [h.here]
  unfold product
  rw [hload]
  simp only [huri]

end SchemaCodec.Batch

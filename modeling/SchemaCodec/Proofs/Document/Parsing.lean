import SchemaCodec.Proofs.Json.Reading
import SchemaCodec.Proofs.Yaml.Drafts

namespace SchemaCodec.Document

/-! Documents that are read from a text have no object with a key twice. -/

/-- The draft is what some text is read as, be it JSON or YAML. -/
def Draft.Read (draft : Draft) : Prop :=
  ∃ content, Json.read content = .ok draft ∨ Yaml.read content = .ok draft

theorem Draft.Read.sound {draft : Draft} (h : draft.Read) : draft.Sound := by
  obtain ⟨content, hjson | hyaml⟩ := h
  · exact (Json.proper_of_read hjson).sound
  · exact Yaml.sound_of_read hyaml

/-- The document is what some text says, as JSON or as YAML. -/
def Parsed (d : Document) : Prop :=
  ∃ content, Json.parse content = .ok d ∨ Yaml.parse content = .ok d

private theorem Parsed.exists_read {d : Document} (h : d.Parsed) :
    ∃ draft : Draft, draft.Read ∧ draft.document = d := by
  obtain ⟨content, hjson | hyaml⟩ := h
  · obtain ⟨draft, hread, hdraft⟩ := map_eq_ok_iff.mp hjson
    exact ⟨draft, ⟨content, .inl hread⟩, hdraft⟩
  · obtain ⟨draft, hread, hdraft⟩ := map_eq_ok_iff.mp hyaml
    exact ⟨draft, ⟨content, .inr hread⟩, hdraft⟩

theorem Parsed.not_repeatsKey {d : Document} (h : d.Parsed) : ¬ d.RepeatsKey := by
  obtain ⟨draft, hread, rfl⟩ := h.exists_read
  exact hread.sound.not_repeatsKey

end SchemaCodec.Document

import SchemaCodec.Proofs.Codec.Nodes
import SchemaCodec.Proofs.Conversion.Record
import SchemaCodec.Conversion.Compile

namespace SchemaCodec

/-! The nodes of codecs that refer to something outside of them, and the requirements on record:
each such node is provided for, and nothing is required that no node uses. -/

namespace Codec

/-- A node that refers to nothing and is not null. -/
def isInert : Codec → Bool
  | .custom .. => false
  | .primitive .null => false
  | _ => true

def ofHelper (helper : Helper) : Codec :=
  .custom helper.name helper.name []

def ofDefinition (name : String) : Codec :=
  .custom name name [name]

def ofImport (name target : String) : Codec :=
  .custom (name ++ "." ++ target) (name ++ "." ++ target) [name]

end Codec

namespace Conversion

open Codec

/-- A node that refers to something else is one of four: a helper for a property that must be there,
the helper that stands for null where null is masked, a definition of the same module, or a
definition of a module that is imported. What it refers to is provided. -/
inductive Bound (scope : Scope) (provided : Requirement → Prop) : Codec → Prop where
  | defined : provided (.helper .defined) → Bound scope provided (ofHelper .defined)
  | null :
      scope.maskNull = true → provided (.helper .null) → Bound scope provided (ofHelper .null)
  | definition {text name : String} :
      Reference.parse text = .ok ⟨"", name⟩ → Bound scope provided (ofDefinition name)
  | imported {text name : String} {target : Reference} :
      Reference.parse text = .ok target → target.file ≠ "" →
        scope.resolver.importName target.file text = .ok name →
        provided (.module name (scope.resolver.importPath target.file)) →
        Bound scope provided (ofImport name target.name)

theorem Bound.imp {scope : Scope} {provided others : Requirement → Prop} {node : Codec}
    (h : Bound scope provided node) (himp : ∀ requirement, provided requirement → others requirement) :
    Bound scope others node := by
  cases h with
  | defined hhelper => exact .defined (himp _ hhelper)
  | null hmask hhelper => exact .null hmask (himp _ hhelper)
  | definition htext => exact .definition htext
  | imported htext hfile hname hmodule => exact .imported htext hfile hname (himp _ hmodule)

def Occurs (node : Codec) (codecs : List Codec) : Prop :=
  ∃ codec ∈ codecs, codec.Contains node

private theorem not_occurs_nil {node : Codec} : ¬ Occurs node [] := by
  rintro ⟨codec, hcodec, -⟩
  cases hcodec

private theorem occurs_append {node : Codec} {first second : List Codec} :
    Occurs node (first ++ second) ↔ Occurs node first ∨ Occurs node second := by
  simp only [Occurs, List.mem_append, or_and_right, exists_or]

theorem occurs_singleton {node codec : Codec} :
    Occurs node [codec] ↔ node = codec ∨ Occurs node codec.children := by
  have hcodec : Occurs node [codec] ↔ codec.Contains node := by simp [Occurs]
  exact hcodec.trans contains_iff

def Uses (scope : Scope) (codecs : List Codec) : Requirement → Prop
  | .helper helper => Occurs (ofHelper helper) codecs
  | .module name path =>
    ∃ text target, Reference.parse text = .ok target ∧
      scope.resolver.importName target.file text = .ok name ∧
      path = scope.resolver.importPath target.file ∧ Occurs (ofImport name target.name) codecs
  | _ => True

theorem Uses.imp {scope : Scope} {codecs others : List Codec} {requirement : Requirement}
    (h : Uses scope codecs requirement) (himp : ∀ node, Occurs node codecs → Occurs node others) :
    Uses scope others requirement := by
  cases requirement with
  | helper helper => exact himp _ h
  | «module» name path =>
    obtain ⟨text, target, htext, hname, hpath, hoccurs⟩ := h
    exact ⟨text, target, htext, hname, hpath, himp _ hoccurs⟩
  | _ => trivial

def Failed (events : List Event) : Prop :=
  ∃ report, .reported report ∈ events ∧ report.severity = .error

/-- What a node refers to is required, unless an error is on record. -/
def Covered (scope : Scope) (events : List Event) (node : Codec) : Prop :=
  Bound scope (fun requirement => .required requirement ∈ events) node ∨ Failed events

theorem Covered.mono {scope : Scope} {events others : List Event} {node : Codec}
    (h : Covered scope events node) (hsub : events ⊆ others) : Covered scope others node := by
  rcases h with hbound | ⟨report, hmem, hseverity⟩
  · exact .inl (hbound.imp fun requirement hmem => hsub hmem)
  · exact .inr ⟨report, hsub hmem, hseverity⟩

/-- The events account for the codecs: what the nodes refer to is required, what is required is in
use, and no null is left where null is masked. -/
structure Accounts (scope : Scope) (events : List Event) (codecs : List Codec) : Prop where
  bound : ∀ node, Occurs node codecs → node.isCustom = true → Covered scope events node
  used : ∀ requirement, .required requirement ∈ events → Uses scope codecs requirement
  masked : scope.maskNull = true → ¬ Occurs .null codecs

namespace Accounts

variable {scope : Scope} {events before after : List Event} {first second codecs : List Codec}

/-- What no node needs to use may be required anywhere. -/
theorem of_idle (h : ∀ requirement, .required requirement ∈ events → Uses scope [] requirement) :
    Accounts scope events [] where
  bound _ hnode := absurd hnode not_occurs_nil
  used := h
  masked _ := not_occurs_nil

theorem required {requirement : Requirement} (h : Uses scope [] requirement) :
    Accounts scope [.required requirement] [] := by
  apply of_idle
  intro other hmem
  cases List.mem_singleton.1 hmem
  exact h

theorem of_demandless (h : Demandless events) : Accounts scope events [] :=
  of_idle fun requirement hmem => absurd hmem (h requirement)

theorem nil : Accounts scope [] [] :=
  of_demandless demandless_nil

theorem append (hfirst : Accounts scope before first) (hsecond : Accounts scope after second) :
    Accounts scope (before ++ after) (first ++ second) where
  bound := by
    intro node hnode hcustom
    rcases occurs_append.1 hnode with hnode | hnode
    · exact (hfirst.bound node hnode hcustom).mono (List.subset_append_left before after)
    · exact (hsecond.bound node hnode hcustom).mono (List.subset_append_right before after)
  used := by
    intro requirement hmem
    rcases List.mem_append.1 hmem with hmem | hmem
    · exact (hfirst.used requirement hmem).imp fun node hnode => occurs_append.2 (.inl hnode)
    · exact (hsecond.used requirement hmem).imp fun node hnode => occurs_append.2 (.inr hnode)
  masked := by
    intro hmask hnode
    rcases occurs_append.1 hnode with hnode | hnode
    · exact hfirst.masked hmask hnode
    · exact hsecond.masked hmask hnode

/-- Reports change nothing. -/
theorem after_demandless (hquiet : Demandless before) (h : Accounts scope after codecs) :
    Accounts scope (before ++ after) codecs :=
  (of_demandless hquiet).append h

theorem before_demandless (h : Accounts scope before codecs) (hquiet : Demandless after) :
    Accounts scope (before ++ after) codecs := by
  have happend := h.append (of_demandless hquiet)
  rwa [List.append_nil] at happend

/-- What accounts for the parts of a codec accounts for the codec. -/
theorem wrap {codec : Codec} (hinert : codec.isInert = true)
    (h : Accounts scope events codec.children) : Accounts scope events [codec] where
  bound := by
    intro node hnode hcustom
    rcases occurs_singleton.1 hnode with rfl | hnode
    · cases node with
      | custom => cases hinert
      | _ => cases hcustom
    · exact h.bound node hnode hcustom
  used requirement hmem :=
    (h.used requirement hmem).imp fun node hnode => occurs_singleton.2 (.inr hnode)
  masked := by
    intro hmask hnode
    rcases occurs_singleton.1 hnode with rfl | hnode
    · cases hinert
    · exact h.masked hmask hnode

theorem unite (h : Accounts scope events codecs) :
    Accounts scope events (Conversion.unite codecs) := by
  match codecs with
  | [] => exact h
  | [_] => exact h
  | _ :: _ :: _ => exact wrap rfl h

theorem intersect (h : Accounts scope events codecs) :
    Accounts scope events (Conversion.intersect codecs) := by
  match codecs with
  | [] => exact h
  | [_] => exact h
  | _ :: _ :: _ => exact wrap rfl h

end Accounts

section

variable {scope : Scope} {events : List Event}

theorem accounts_each {convert : α → Conversion β} (parts : β → List Codec)
    (hconvert : ∀ item events value, (convert item).Leaves events value →
      Accounts scope events (parts value))
    {items : List α} {values : List β} (h : (each convert items).Leaves events values) :
    Accounts scope events (values.flatMap parts) := by
  induction items generalizing events values with
  | nil =>
    obtain ⟨rfl, rfl⟩ := leaves_pure.1 h
    exact .nil
  | cons item rest ih =>
    simp only [each, leaves_bind, leaves_return] at h
    obtain ⟨before, first, after, hfirst, ⟨middle, others, last, hothers, ⟨rfl, rfl⟩, rfl⟩, rfl⟩ := h
    rw [List.flatMap_cons, List.append_nil]
    exact (hconvert _ _ _ hfirst).append (ih hothers)

/-! Nodes on their own -/

theorem accounts_custom {static runtime : String} {dependencies : List String}
    (hcovered : Covered scope events (.custom static runtime dependencies))
    (hused : ∀ requirement, .required requirement ∈ events →
      Uses scope [.custom static runtime dependencies] requirement) :
    Accounts scope events [.custom static runtime dependencies] := by
  refine ⟨?_, hused, ?_⟩
  · intro node hnode _
    rcases occurs_singleton.1 hnode with rfl | hnode
    · exact hcovered
    · exact absurd hnode not_occurs_nil
  · intro _ hnode
    rcases occurs_singleton.1 hnode with heq | hnode
    · cases heq
    · exact not_occurs_nil hnode

theorem accounts_helperCodec {helper : Helper} {codec : Codec}
    (h : (helperCodec helper).Leaves events codec)
    (hmask : helper = .null → scope.maskNull = true) : Accounts scope events [codec] := by
  simp only [helperCodec, leaves_bind, leaves_require, leaves_return] at h
  obtain ⟨before, -, after, rfl, ⟨rfl, rfl⟩, rfl⟩ := h
  apply accounts_custom
  · left
    cases helper with
    | defined => exact .defined List.mem_cons_self
    | null => exact .null (hmask rfl) List.mem_cons_self
  · intro requirement hmem
    cases List.mem_singleton.1 hmem
    exact occurs_singleton.2 (.inl rfl)

theorem accounts_nullCodec {codec : Codec} (h : (nullCodec scope).Leaves events codec) :
    Accounts scope events [codec] := by
  unfold nullCodec at h
  split at h
  case isTrue hmask => exact accounts_helperCodec h fun _ => hmask
  case isFalse hmask =>
    obtain ⟨rfl, rfl⟩ := leaves_pure.1 h
    refine ⟨?_, ?_, ?_⟩
    · intro node hnode hcustom
      rcases occurs_singleton.1 hnode with rfl | hnode
      · cases hcustom
      · exact absurd hnode not_occurs_nil
    · intro requirement hmem
      cases hmem
    · intro hmasked
      exact absurd hmasked hmask

end

end Conversion

end SchemaCodec

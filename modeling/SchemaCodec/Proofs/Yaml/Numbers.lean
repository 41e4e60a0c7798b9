import SchemaCodec.Proofs.Decimal.Denotation
import SchemaCodec.Proofs.Yaml.Drafts

/-! Which numbers of a YAML document are JSON numbers, and which integers keep their value. -/

namespace SchemaCodec.Document

/-- A number of the document at any depth. -/
inductive HoldsNumber (text : String) : Document → Prop where
  | here : HoldsNumber text (.number text)
  | item {items : List Document} {item : Document} :
      item ∈ items → HoldsNumber text item → HoldsNumber text (.array items)
  | member {members : List (String × Document)} {value : Document} :
      value ∈ members.map Prod.snd → HoldsNumber text value → HoldsNumber text (.object members)

end SchemaCodec.Document

namespace SchemaCodec.Yaml

open Decimal
open Document (Draft Table)

/-! Scalars -/

structure Scalar where
  position : Document.Position
  tag : Option String
  isPlain : Bool
  text : String

namespace Scalar

variable {scalar : Scalar} {text : String}

def kind (scalar : Scalar) : ScalarKind :=
  scalarKind scalar.tag scalar.isPlain scalar.text

def value (scalar : Scalar) : Except Document.ReadError Document :=
  scalarValue scalar.position scalar.tag scalar.isPlain scalar.text

/-- The number stays in a form that JSON does not have: an integer out of range that is kept as it
is written, or the word for an infinity or for what is no number. -/
def Stray (scalar : Scalar) : Prop :=
  scalar.kind = .integer ∧ Numeral.integer? scalar.text.toList = none ∧
      ¬ Json.Number scalar.text.toList ∨
    scalar.kind = .float ∧ Numeral.IsWord scalar.text.toList

private theorem value_of_integer (h : scalar.kind = .integer) {n : Int}
    (hn : Numeral.integer? scalar.text.toList = some n) :
    scalar.value = .ok (.number (toString n)) := by
  unfold value scalarValue
  rw [show scalarKind scalar.tag scalar.isPlain scalar.text = .integer from h]
  dsimp only
  rw [hn]

private theorem value_of_large (h : scalar.kind = .integer)
    (hn : Numeral.integer? scalar.text.toList = none) :
    scalar.value = if (Numeral.binary64? scalar.text.toList).isSome then .ok (.number scalar.text)
      else .error (.invalidInteger scalar.text scalar.position) := by
  unfold value scalarValue
  rw [show scalarKind scalar.tag scalar.isPlain scalar.text = .integer from h]
  dsimp only
  rw [hn]

/-- The three ways to a number. -/
theorem value_cases (h : scalar.value = .ok (.number text)) :
    scalar.kind = .integer ∧ (∃ n, Numeral.integer? scalar.text.toList = some n ∧
        text = toString n) ∨
      scalar.kind = .integer ∧ Numeral.integer? scalar.text.toList = none ∧ text = scalar.text ∨
      scalar.kind = .float ∧ ∃ x, Numeral.binary64? scalar.text.toList = some x ∧
        text = x.text compact := by
  unfold value scalarValue at h
  dsimp only at h
  split at h
  · cases h
  · split at h <;> cases h
  · next hkind =>
      split at h
      · next n hn =>
          cases h
          exact .inl ⟨hkind, n, hn, rfl⟩
      · next hn =>
          split at h
          · cases h
            exact .inr (.inl ⟨hkind, hn, rfl⟩)
          · cases h
  · next hkind =>
      split at h
      · next x hx =>
          cases h
          exact .inr (.inr ⟨hkind, x, hx, rfl⟩)
      · cases h
  · cases h

/-- A scalar has no parts. -/
theorem eq_of_holdsNumber {d : Document} (h : scalar.value = .ok d) (hnumber : d.HoldsNumber text) :
    d = .number text := by
  unfold value scalarValue at h
  dsimp only at h
  repeat' split at h
  all_goals
    cases h <;> cases hnumber
  · rfl
  · rfl
  · rfl

private theorem number_iff_not_stray (h : scalar.value = .ok (.number text)) :
    Json.Number text.toList ↔ ¬ scalar.Stray := by
  rcases value_cases h with ⟨hkind, n, hn, rfl⟩ | ⟨hkind, hn, rfl⟩ | ⟨hkind, x, hx, rfl⟩
  · refine ⟨fun _ => ?_, fun _ => (number_toString n).1⟩
    rintro (⟨-, hnone, -⟩ | ⟨hfloat, -⟩)
    · cases hn.symm.trans hnone
    · cases hkind.symm.trans hfloat
  · constructor
    · rintro hnumber (⟨-, -, hnot⟩ | ⟨hfloat, -⟩)
      · exact hnot hnumber
      · cases hkind.symm.trans hfloat
    · intro hstray
      exact Classical.byContradiction fun hnot => hstray (.inl ⟨hkind, hn, hnot⟩)
  · rw [number_text_iff]
    constructor
    · rintro hfinite (⟨hinteger, -⟩ | ⟨-, hword⟩)
      · cases hkind.symm.trans hinteger
      · obtain ⟨y, hy, hnot⟩ := Numeral.binary64?_of_isWord hword
        cases hx.symm.trans hy
        exact hnot hfinite
    · intro hstray
      exact Numeral.binary64?_isFinite (fun hword => hstray (.inr ⟨hkind, hword⟩)) hx

private theorem exists_number_of_stray {d : Document} (hstray : scalar.Stray)
    (h : scalar.value = .ok d) :
    ∃ text, d = .number text := by
  rcases hstray with ⟨hkind, hn, -⟩ | ⟨hkind, hword⟩
  · rw [value_of_large hkind hn] at h
    split at h <;> cases h
    exact ⟨_, rfl⟩
  · obtain ⟨x, hx, -⟩ := Numeral.binary64?_of_isWord hword
    unfold value scalarValue at h
    rw [show scalarKind scalar.tag scalar.isPlain scalar.text = .float from hkind] at h
    dsimp only at h
    rw [hx] at h
    cases h
    exact ⟨_, rfl⟩

/-- An integer out of range that JSON writes in the same way is kept. -/
theorem value_of_number (h : scalar.kind = .integer)
    (hn : Numeral.integer? scalar.text.toList = none) (hnumber : Json.Number scalar.text.toList)
    {n : Nat} (hword : Numeral.word? scalar.text.toList = some n) :
    scalar.value = .ok (.number scalar.text) ∧ Number.value? scalar.text = some (n : ℚ) := by
  obtain ⟨hnatural, hlt⟩ := Numeral.natural?_of_word? hword
  have hwhole := Numeral.whole_of_natural? hnumber hnatural
  have hvalue : Numeral.value 10 scalar.text.toList = n :=
    Option.some.inj ((Numeral.natural?_of_whole hwhole).symm.trans hnatural)
  have hsome := Numeral.binary64?_of_whole hwhole (hvalue ▸ hlt)
  constructor
  · rw [value_of_large h hn, if_pos hsome]
  · have htext := value?_whole hwhole
    rwa [String.ofList_toList, hvalue] at htext

/-- What an integer denotes is kept unless the scalar is stray. -/
theorem integer_kept_iff (h : scalar.kind = .integer) {n : Int}
    (hn : integerOf? scalar.text.toList = some n) :
    (∃ text, scalar.value = .ok (.number text) ∧ Json.Number text.toList ∧
      Number.value? text = some (n : ℚ)) ↔ ¬ scalar.Stray := by
  constructor
  · rintro ⟨text, hvalue, hnumber, -⟩
    exact (number_iff_not_stray hvalue).mp hnumber
  · intro hstray
    unfold integerOf? at hn
    split at hn
    · next m hm =>
        cases hn
        exact ⟨_, value_of_integer h hm, number_toString n⟩
    · next hnone =>
        obtain ⟨word, hword, rfl⟩ := Option.map_eq_some_iff.mp hn
        have hnumber : Json.Number scalar.text.toList :=
          Classical.byContradiction fun hnot => hstray (.inl ⟨h, hnone, hnot⟩)
        obtain ⟨hvalue, hdenotes⟩ := value_of_number h hnone hnumber hword
        exact ⟨_, hvalue, hnumber, hdenotes⟩

end Scalar

/-! Nodes -/

namespace Node

/-- A scalar that is read with the node. The keys of mappings are not. -/
inductive Holds (scalar : Scalar) : Node → Prop where
  | here : Holds scalar (.scalar scalar.position scalar.tag scalar.isPlain scalar.text)
  | item {position : Document.Position} {items : List Node} {item : Node} :
      item ∈ items → Holds scalar item → Holds scalar (.sequence position items)
  | member {position : Document.Position} {pairs : List (Node × Node)} {value : Node} :
      value ∈ pairs.map Prod.snd → Holds scalar value → Holds scalar (.mapping position pairs)
  | target {position : Document.Position} {name : String} {target : Node} :
      Holds scalar target → Holds scalar (.alias position name target)

/-- The documents are those of the nodes. -/
structure ReadAs (nodes : List Node) (documents : List Document) : Prop where
  each : ∀ node ∈ nodes, ∃ d ∈ documents, node.toDocument = .ok d
  only : ∀ d ∈ documents, ∃ node ∈ nodes, node.toDocument = .ok d

theorem ReadAs.nil : ReadAs [] [] :=
  ⟨List.forall_mem_nil _, List.forall_mem_nil _⟩

theorem ReadAs.cons {node : Node} {nodes : List Node} {d : Document} {documents : List Document}
    (hnode : node.toDocument = .ok d) (h : ReadAs nodes documents) :
    ReadAs (node :: nodes) (d :: documents) := by
  constructor
  · refine List.forall_mem_cons.mpr ⟨⟨d, List.mem_cons_self, hnode⟩, fun other hother => ?_⟩
    obtain ⟨found, hfound, hread⟩ := h.each other hother
    exact ⟨found, List.mem_cons_of_mem _ hfound, hread⟩
  · refine List.forall_mem_cons.mpr ⟨⟨node, List.mem_cons_self, hnode⟩, fun found hfound => ?_⟩
    obtain ⟨other, hother, hread⟩ := h.only found hfound
    exact ⟨other, List.mem_cons_of_mem _ hother, hread⟩

private theorem toDocument_of_toDraft {node : Node} {draft : Draft} (h : node.toDraft = .ok draft) :
    node.toDocument = .ok draft.document :=
  map_eq_ok_iff.mpr ⟨draft, h, rfl⟩

private theorem toDocument_scalar (position : Document.Position) (tag : Option String)
    (isPlain : Bool)
    (text : String) :
    (Node.scalar position tag isPlain text).toDocument = scalarValue position tag isPlain text := by
  rw [toDocument, toDraft]
  cases scalarValue position tag isPlain text with
  | error cause => rfl
  | ok d => exact congrArg Except.ok (Draft.document_whole d)

private theorem readAs_itemsOf {items : List Node} {drafts : List Draft}
    (h : itemsOf items = .ok drafts) :
    ReadAs items (drafts.map Draft.document) := by
  induction items generalizing drafts with
  | nil =>
      cases h
      exact .nil
  | cons item rest ih =>
      rw [itemsOf] at h
      obtain ⟨first, hitem, hitems⟩ := exists_of_bind_eq_ok h
      obtain ⟨others, hrest, hcons⟩ := exists_of_bind_eq_ok hitems
      cases hcons
      exact .cons (toDocument_of_toDraft hitem) (ih hrest)

/-- The members of a table are those it had before and those of the pairs. -/
theorem readAs_tableOf {begun : List (String × Document.Position)} {known table : Table Draft}
    {pairs : List (Node × Node)} (h : tableOf begun known pairs = .ok table) :
    ∃ added, table.members = known.members ++ added ∧
      ReadAs (pairs.map Prod.snd) (added.map fun member => member.2.document) := by
  induction pairs generalizing begun known with
  | nil =>
      cases h
      exact ⟨[], (List.append_nil _).symm, .nil⟩
  | cons pair rest ih =>
      obtain ⟨key, value⟩ := pair
      rw [tableOf] at h
      split at h
      · cases h
      · obtain ⟨draft, hdraft, hrest⟩ := exists_of_bind_eq_ok h
        obtain ⟨added, hmembers, hread⟩ := ih hrest
        refine ⟨(key.text, draft) :: added, ?_, .cons (toDocument_of_toDraft hdraft) hread⟩
        rw [hmembers]
        exact List.append_assoc ..

private theorem toDocument_sequence {position : Document.Position} {items : List Node}
    {d : Document}
    (h : (Node.sequence position items).toDocument = .ok d) :
    ∃ found, d = .array found ∧ ReadAs items found := by
  obtain ⟨draft, hdraft, rfl⟩ := map_eq_ok_iff.mp h
  rw [toDraft] at hdraft
  obtain ⟨drafts, hitems, hlist⟩ := exists_of_bind_eq_ok hdraft
  cases hlist
  exact ⟨_, Draft.document_list drafts, readAs_itemsOf hitems⟩

private theorem toDocument_mapping {position : Document.Position} {pairs : List (Node × Node)}
    {d : Document} (h : (Node.mapping position pairs).toDocument = .ok d) :
    ∃ members, d = .object members ∧ ReadAs (pairs.map Prod.snd) (members.map Prod.snd) := by
  obtain ⟨draft, hdraft, rfl⟩ := map_eq_ok_iff.mp h
  rw [toDraft] at hdraft
  obtain ⟨table, hpairs, hobject⟩ := exists_of_bind_eq_ok hdraft
  cases hobject
  obtain ⟨added, hmembers, hread⟩ := readAs_tableOf hpairs
  refine ⟨_, Draft.document_object table, ?_⟩
  rw [List.map_map, hmembers]
  exact hread

/-- The scalars of a node that is read have values, and their numbers are in the document. -/
theorem Holds.exists_value {scalar : Scalar} {node : Node} (hholds : node.Holds scalar)
    {d : Document} (h : node.toDocument = .ok d) :
    ∃ found, scalar.value = .ok found ∧ ∀ text, found = .number text → d.HoldsNumber text := by
  induction hholds generalizing d with
  | here =>
      rw [toDocument_scalar] at h
      refine ⟨d, h, ?_⟩
      rintro text rfl
      exact .here
  | item hmem _ ih =>
      obtain ⟨found, rfl, hread⟩ := toDocument_sequence h
      obtain ⟨first, hfirst, hitem⟩ := hread.each _ hmem
      obtain ⟨value, hvalue, hnumber⟩ := ih hitem
      exact ⟨value, hvalue, fun text heq => .item hfirst (hnumber text heq)⟩
  | member hmem _ ih =>
      obtain ⟨members, rfl, hread⟩ := toDocument_mapping h
      obtain ⟨first, hfirst, hmember⟩ := hread.each _ hmem
      obtain ⟨value, hvalue, hnumber⟩ := ih hmember
      exact ⟨value, hvalue, fun text heq => .member hfirst (hnumber text heq)⟩
  | target _ ih => exact ih h

/-- Every number of the document comes from a scalar of the node. -/
theorem exists_holds_of_holdsNumber (node : Node) {d : Document} (h : node.toDocument = .ok d)
    {text : String} (hnumber : d.HoldsNumber text) :
    ∃ scalar, node.Holds scalar ∧ scalar.value = .ok (.number text) := by
  induction node using Node.induction generalizing d with
  | scalar position tag isPlain chars =>
      rw [toDocument_scalar] at h
      have hvalue : Scalar.value ⟨position, tag, isPlain, chars⟩ = .ok d := h
      refine ⟨⟨position, tag, isPlain, chars⟩, .here, ?_⟩
      rw [hvalue, Scalar.eq_of_holdsNumber hvalue hnumber]
  | sequence position items ih =>
      obtain ⟨found, rfl, hread⟩ := toDocument_sequence h
      obtain ⟨⟩ | ⟨hitem, hinside⟩ := hnumber
      obtain ⟨item, hmem, hdocument⟩ := hread.only _ hitem
      obtain ⟨scalar, hholds, hvalue⟩ := ih item hmem hdocument hinside
      exact ⟨scalar, .item hmem hholds, hvalue⟩
  | mapping position pairs ih =>
      obtain ⟨members, rfl, hread⟩ := toDocument_mapping h
      obtain ⟨⟩ | ⟨⟩ | ⟨hmember, hinside⟩ := hnumber
      obtain ⟨value, hmem, hdocument⟩ := hread.only _ hmember
      obtain ⟨scalar, hholds, hvalue⟩ := ih value hmem hdocument hinside
      exact ⟨scalar, .member hmem hholds, hvalue⟩
  | named position name target ih =>
      obtain ⟨scalar, hholds, hvalue⟩ := ih h hnumber
      exact ⟨scalar, .target hholds, hvalue⟩
  | circular position name => cases h

end Node

/-- A document that is read from a node holds JSON numbers only, exactly if none of the scalars is
stray. A scalar that denotes an integer of 64 bits, with or without a sign, becomes a JSON number of
the same value, exactly if it is not stray. -/
theorem numbers_are_json_iff (node : Node) :
    (∀ d, node.toDocument = .ok d →
      ((∀ text, d.HoldsNumber text → Json.Number text.toList) ↔
        ∀ scalar, node.Holds scalar → ¬ scalar.Stray)) ∧
    ∀ (scalar : Scalar) (n : Int), node.Holds scalar → scalar.kind = .integer →
      integerOf? scalar.text.toList = some n →
        ((∃ text, scalar.value = .ok (.number text) ∧ Json.Number text.toList ∧
          Number.value? text = some (n : ℚ)) ↔ ¬ scalar.Stray) := by
  refine ⟨fun d h => ⟨?_, ?_⟩, fun scalar n _ hkind hn => scalar.integer_kept_iff hkind hn⟩
  · intro hall scalar hholds hstray
    obtain ⟨found, hvalue, hnumber⟩ := hholds.exists_value h
    obtain ⟨text, rfl⟩ := Scalar.exists_number_of_stray hstray hvalue
    exact (Scalar.number_iff_not_stray hvalue).mp (hall text (hnumber text rfl)) hstray
  · intro hnone text hnumber
    obtain ⟨scalar, hholds, hvalue⟩ := node.exists_holds_of_holdsNumber h hnumber
    exact (Scalar.number_iff_not_stray hvalue).mpr (hnone scalar hholds)

def ledger : Node :=
  .sequence ⟨1, 1⟩ [
    .scalar ⟨1, 3⟩ none true "0x1F",
    .alias ⟨2, 3⟩ "top" (.scalar ⟨4, 7⟩ none true "18446744073709551615"),
    .mapping ⟨3, 3⟩ [(.scalar ⟨3, 3⟩ none true "rate", .scalar ⟨3, 9⟩ none true "1e3")]]

def ledgerDocument : Document :=
  .array [.number "31", .number "18446744073709551615", .object [("rate", .number "1000")]]

theorem numbers_are_json_iff_ledger :
    ledger.toDocument = .ok ledgerDocument ∧
      (∀ scalar, ledger.Holds scalar → ¬ scalar.Stray) ∧
      ∃ text, Scalar.value ⟨⟨4, 7⟩, none, true, "18446744073709551615"⟩ = .ok (.number text) ∧
        Json.Number text.toList ∧ Number.value? text = some (18446744073709551615 : Int) := by
  have hread : ledger.toDocument = .ok ledgerDocument := by
    rfl
  obtain ⟨hnumbers, hintegers⟩ := numbers_are_json_iff ledger
  have hall : ∀ text, ledgerDocument.HoldsNumber text → Json.Number text.toList := by
    intro text h
    unfold ledgerDocument at h
    cases h with
    | item hitem hinside =>
        simp only [List.mem_cons, List.not_mem_nil, or_false] at hitem
        rcases hitem with rfl | rfl | rfl
        · cases hinside
          exact (number_toString 31).1
        · cases hinside
          exact (number_toString 18446744073709551615).1
        · cases hinside with
          | member hmember hvalue =>
              rw [List.mem_singleton.mp hmember] at hvalue
              cases hvalue
              exact (number_toString 1000).1
  have hstray := (hnumbers ledgerDocument hread).mp hall
  have hholds : ledger.Holds ⟨⟨4, 7⟩, none, true, "18446744073709551615"⟩ :=
    .item (.tail _ (.head _)) (.target .here)
  refine ⟨hread, hstray, ?_⟩
  refine (hintegers _ 18446744073709551615 hholds (by decide +kernel) (by decide +kernel)).mpr ?_
  exact hstray _ hholds

/-- The greatest integer of 64 bits in octal digits, kept as it is written: in JSON no number of
several digits begins with a zero, and these digits would stand for another number. -/
theorem octal_word_is_kept :
    parse "01777777777777777777777".toUTF8.toList = .ok (.number "01777777777777777777777") ∧
      integerOf? "01777777777777777777777".toList = some 18446744073709551615 ∧
      ¬ Json.Number "01777777777777777777777".toList := by
  have hparse : ((parse "01777777777777777777777".toUTF8.toList).toOption.any fun d =>
      d.number? == some "01777777777777777777777") = true := by
    decide +kernel
  have hnatural : Numeral.natural? "01777777777777777777777".toList =
      some 18446744073709551615 := by
    decide +kernel
  have hvalue : Numeral.value 10 "01777777777777777777777".toList = 1777777777777777777777 := by
    decide +kernel
  refine ⟨?_, by decide +kernel, fun hnumber => ?_⟩
  · obtain ⟨d, hd, htext⟩ := exists_ok_of_any hparse
    rw [hd]
    cases d <;> cases beq_iff_eq.mp htext
    rfl
  · have hdecimal := Numeral.natural?_of_whole (Numeral.whole_of_natural? hnumber hnatural)
    rw [hnatural, hvalue] at hdecimal
    cases hdecimal

end SchemaCodec.Yaml

import SchemaCodec.Proofs.Document.Repetition
import SchemaCodec.Proofs.Json.RoundTrip
import SchemaCodec.Proofs.Json.Spelling

namespace SchemaCodec

/-! Every text of the grammar is read as what it denotes, unless some object in it has a key twice:
then the key that comes again first is reported. Separators are skipped wherever they stand, so
what matters is that legal layout never hides a token nor the end of an object or array. -/

private theorem Pointer.shown_text (path : Pointer) :
    Pointer.shown path.text = if path = [] then "/" else path.text := by
  cases path with
  | nil => rfl
  | cons token rest =>
    have hne : Pointer.text (token :: rest) ≠ "" := by
      intro hempty
      have hlist := congrArg String.toList hempty
      simp [Pointer.text] at hlist
    rw [Pointer.shown, if_neg hne, if_neg (List.cons_ne_nil _ _)]

namespace Json

open Document

/-! Space -/

private theorem isBlank_of_space {space : List Char} (hspace : Space space) :
    ∀ b ∈ Text.encode space, isBlank b = true := by
  intro b hb
  obtain ⟨c, hc, hb⟩ := List.mem_flatMap.1 hb
  rcases hspace c hc with rfl | rfl | rfl | rfl
  all_goals
    rw [Text.utf8EncodeChar_of_ascii (by decide), List.mem_singleton] at hb
    rw [hb]
    rfl

private theorem hasMore_space {space : List Char} (hspace : Space space) (text : List Char) :
    hasMore (Text.encode (space ++ text)) = hasMore (Text.encode text) := by
  rw [Text.encode_append, hasMore, hasMore, List.dropWhile_append_of_pos (isBlank_of_space hspace)]

private theorem scan_space {space : List Char} (hspace : Space space) (text : List Char) :
    scan (Text.encode (space ++ text)) = scan (Text.encode text) := by
  have hfiller : ∀ b ∈ Text.encode space, isFiller b = true := by
    intro b hb
    rw [isFiller, isBlank_of_space hspace b hb]
    rfl
  rw [Text.encode_append, scan, scan, List.dropWhile_append_of_pos hfiller]

private theorem endsNumber_space {space : List Char} (hspace : Space space) {rest : List Char}
    (hrest : EndsNumber (Text.encode rest)) : EndsNumber (Text.encode (space ++ rest)) := by
  cases space with
  | nil => exact hrest
  | cons c space =>
    intro b hb
    rcases hspace c List.mem_cons_self with rfl | rfl | rfl | rfl
    all_goals
      cases hb
      rfl

/-! Values -/

theorem Denotes.ne_nil {text : List Char} {d : Document} (hdenotes : Denotes text d) :
    text ≠ [] := by
  cases hdenotes with
  | number hnumber =>
    obtain ⟨c, tail, htext, -⟩ := hnumber.isNumeral.starts
    rw [String.toList_ofList] at htext
    rw [htext]
    exact List.cons_ne_nil c tail
  | _ => exact List.cons_ne_nil _ _

private theorem hasMore_denotes {text : List Char} {d : Document} (hdenotes : Denotes text d)
    (rest : List Char) : hasMore (Text.encode (text ++ rest)) = true := by
  cases hdenotes with
  | number hnumber =>
    obtain ⟨b, digits, hb, -, hbytes⟩ := hnumber.isNumeral.exists_bytes
    rw [String.toList_ofList] at hbytes
    rw [Text.encode_append, hbytes]
    exact hasMore_opensNumber hb _
  | _ => rfl

/-- What reading comes to: the value, or the report of a key that comes again. -/
def outcome (again : Option (String × Pointer)) (value : α) : Except ReadError α :=
  match again with
  | none => .ok value
  | some (key, path) => .error (.duplicateKey key path)

/-- A text is read as `d` wherever it stands. Two steps for each of its characters are enough. -/
def Reads (text : List Char) (d : Document) : Prop :=
  ∀ fuel path rest, EndsNumber (Text.encode rest) → 2 * text.length ≤ fuel →
    Call.run fuel (.value path (Text.encode (text ++ rest))) =
      outcome (d.repeated? path) (.whole d, Text.encode rest)

private theorem reads_of_scan {text : List Char} {d : Document} (hne : text ≠ [])
    (hscalar : ∀ path, d.repeated? path = none)
    (hscan : ∀ rest, EndsNumber (Text.encode rest) →
      scan (Text.encode (text ++ rest)) = .token (.scalar d) (Text.encode rest)) :
    Reads text d := by
  intro fuel path rest hrest hfuel
  have hpos := List.length_pos_of_ne_nil hne
  obtain ⟨fuel, rfl⟩ : ∃ n, fuel = n + 1 := Nat.exists_eq_succ_of_ne_zero (by omega)
  rw [hscalar, Call.run_scalar (hscan rest hrest)]
  rfl

private theorem outcome_or {first second : Option (String × Pointer)} {value : α} {result : β}
    {next : α → Except ReadError β} (hnext : next value = outcome second result) :
    (outcome first value >>= next) = outcome (first.or second) result := by
  cases first with
  | none => exact hnext
  | some => rfl

/-! Items and members -/

theorem join_cons (part : List Char) (parts : List (List Char)) (rest : List Char) :
    Text.join [','] (part :: parts) ++ rest =
      part ++ separated parts (Text.join [','] parts ++ rest) := by
  cases parts with
  | nil => rfl
  | cons next parts =>
    simp only [Text.join, separated, List.append_assoc, List.cons_append, List.nil_append]

private theorem length_join_cons (part : List Char) (parts : List (List Char)) :
    part.length + (Text.join [','] parts).length ≤ (Text.join [','] (part :: parts)).length := by
  cases parts with
  | nil => exact Nat.le_refl _
  | cons next parts =>
    simp only [Text.join, List.length_append]
    omega

/-- A comma or the closing bracket ends a number. -/
theorem endsNumber_separated (parts : List (List Char)) {rest : List Char}
    (hrest : EndsNumber (Text.encode rest)) :
    EndsNumber (Text.encode (separated parts (Text.join [','] parts ++ rest))) := by
  cases parts with
  | nil => exact hrest
  | cons part parts =>
    intro b hb
    cases hb
    rfl

private theorem endsNumber_bracket {bracket : Char} (hbracket : bracket = ']' ∨ bracket = '\x7d')
    (rest : List Char) : EndsNumber (Text.encode (bracket :: rest)) := by
  intro b hb
  rcases hbracket with rfl | rfl
  all_goals
    cases hb
    rfl

private theorem hasMore_element {element : Element} (hspaced : element.Spaced)
    (hdenotes : Denotes element.text element.value) (rest : List Char) :
    hasMore (Text.encode (element.whole ++ rest)) = true := by
  rw [Element.whole, List.append_assoc, List.append_assoc, hasMore_space hspaced.1]
  exact hasMore_denotes hdenotes _

/-- The comma before an element is skipped. -/
theorem run_items_separator {elements : List Element}
    (hspaced : ∀ element ∈ elements, element.Spaced)
    (hdenotes : ∀ element ∈ elements, Denotes element.text element.value)
    (fuel : Nat) (path : Pointer) (known : List Draft) (rest : List Char) :
    Call.run fuel (.items path known (Text.encode (separated (elements.map Element.whole)
        (Text.join [','] (elements.map Element.whole) ++ rest)))) =
      Call.run fuel (.items path known
        (Text.encode (Text.join [','] (elements.map Element.whole) ++ rest))) := by
  cases elements with
  | nil => rfl
  | cons element elements =>
    apply Call.run_items_comma
    rw [List.map_cons, join_cons]
    exact hasMore_element (hspaced element List.mem_cons_self)
      (hdenotes element List.mem_cons_self) _

private theorem run_elements {elements : List Element}
    (hspaced : ∀ element ∈ elements, element.Spaced)
    (hdenotes : ∀ element ∈ elements, Denotes element.text element.value)
    (hreads : ∀ element ∈ elements, Reads element.text element.value)
    {fuel : Nat} (path : Pointer) (known : List Draft) (rest : List Char)
    (hfuel : 2 * (Text.join [','] (elements.map Element.whole)).length < fuel) :
    Call.run fuel (.items path known
        (Text.encode (Text.join [','] (elements.map Element.whole) ++ ']' :: rest))) =
      outcome (repeatedInItems? path known.length (elements.map Element.value))
        (.list (known.reverse ++ (elements.map Element.value).map Draft.whole),
          Text.encode rest) := by
  induction elements generalizing fuel known with
  | nil =>
    obtain ⟨fuel, rfl⟩ : ∃ n, fuel = n + 1 := Nat.exists_eq_succ_of_ne_zero (by omega)
    rw [List.map_nil, List.map_nil, List.map_nil, List.append_nil]
    exact Call.run_lastItem rfl rfl
  | cons element elements ih =>
    have hhead := hspaced element List.mem_cons_self
    have hvalue := hdenotes element List.mem_cons_self
    have htail : ∀ element ∈ elements, element.Spaced := fun e he => hspaced e (.tail _ he)
    have hvalues : ∀ element ∈ elements, Denotes element.text element.value :=
      fun e he => hdenotes e (.tail _ he)
    -- The character that the item takes at least pays for its step and for the next one.
    have hpos := List.length_pos_of_ne_nil hvalue.ne_nil
    have hlength := length_join_cons element.whole (elements.map Element.whole)
    have hwhole : element.text.length ≤ element.whole.length := by
      simp only [Element.whole, List.length_append]
      omega
    rw [List.map_cons] at hfuel
    obtain ⟨fuel, rfl⟩ : ∃ n, fuel = n + 1 := Nat.exists_eq_succ_of_ne_zero (by omega)
    have hends := endsNumber_space hhead.2
      (endsNumber_separated (elements.map Element.whole) (endsNumber_bracket (.inl rfl) rest))
    have hmore := hasMore_denotes hvalue
    rw [List.map_cons, join_cons, Element.whole, List.append_assoc, List.append_assoc,
      Call.run_items_congr (hasMore_space hhead.1 _) (scan_space hhead.1 _),
      Call.run_item (hmore _), hreads element List.mem_cons_self _ _ _ hends (by omega)]
    apply outcome_or
    rw [Call.run_items_congr (hasMore_space hhead.2 _) (scan_space hhead.2 _),
      run_items_separator htail hvalues,
      ih htail hvalues (fun e he => hreads e (.tail _ he)) _ (by omega), List.reverse_cons,
      List.append_assoc]
    rfl

private theorem hasMore_member {member : Member} (hspaced : member.Spaced) (rest : List Char) :
    hasMore (Text.encode (member.whole ++ rest)) = true := by
  rw [Member.whole, List.append_assoc, hasMore_space hspaced.1]
  rfl

private theorem run_members_separator {members : List Member}
    (hspaced : ∀ member ∈ members, member.Spaced)
    (fuel : Nat) (path : Pointer) (known : Table Draft) (rest : List Char) :
    Call.run fuel (.members path known (Text.encode (separated (members.map Member.whole)
        (Text.join [','] (members.map Member.whole) ++ rest)))) =
      Call.run fuel (.members path known
        (Text.encode (Text.join [','] (members.map Member.whole) ++ rest))) := by
  cases members with
  | nil => rfl
  | cons member members =>
    apply Call.run_members_comma
    rw [List.map_cons, join_cons]
    exact hasMore_member (hspaced member List.mem_cons_self) _

/-- The key of a member, with what stands before and behind it. -/
theorem scan_member {member : Member} (hspaced : member.Spaced)
    (hkey : Spells member.spelling member.key.toList) (rest : List Char) :
    scan (Text.encode (member.whole ++ rest)) =
      .token (.scalar (.string member.key))
        (Text.encode (member.after ++ ':' :: (member.element.whole ++ rest))) := by
  have htext : member.whole ++ rest = member.before ++ ('"' :: (member.spelling ++ '"' ::
      (member.after ++ ':' :: (member.element.whole ++ rest)))) := by
    simp only [Member.whole, List.append_assoc, List.cons_append]
  rw [htext, scan_space hspaced.1, scan_spells hkey, String.ofList_toList]

/-- A value in a member is read as it is alone: the space and the colon before it are skipped. -/
theorem run_memberValue {member : Member} (hspaced : member.Spaced) (fuel : Nat) (path : Pointer)
    (rest : List Char) :
    Call.run fuel
        (.value path (Text.encode (member.after ++ ':' :: (member.element.whole ++ rest)))) =
      Call.run fuel
        (.value path (Text.encode (member.element.text ++ (member.element.after ++ rest)))) := by
  apply Call.run_value_congr
  rw [scan_space hspaced.2.1, Text.encode_cons, Element.whole, List.append_assoc,
    List.append_assoc]
  exact (scan_filler rfl _).trans (scan_space hspaced.2.2.1 _)

private theorem isSome_place?_push {known : Table Draft} {seen : List String}
    (hseen : ∀ key, (known.place? key).isSome = true ↔ key ∈ seen) (key : String) (draft : Draft)
    (other : String) :
    ((known.push key draft).place? other).isSome = true ↔ other ∈ key :: seen := by
  rw [List.mem_cons, ← hseen]
  by_cases hother : other = key
  · have hplace : (known.push key draft).place? key = some known.members.length :=
      List.lookup_cons_self
    simp [hother, hplace]
  · simp [Table.place?_push_of_ne hother, hother]

private theorem run_members {members : List Member}
    (hspaced : ∀ member ∈ members, member.Spaced)
    (hkeys : ∀ member ∈ members, Spells member.spelling member.key.toList)
    (hreads : ∀ member ∈ members, Reads member.element.text member.element.value)
    {fuel : Nat} (path : Pointer) (known : Table Draft) {seen : List String}
    (hseen : ∀ key, (known.place? key).isSome = true ↔ key ∈ seen) (rest : List Char)
    (hfuel : 2 * (Text.join [','] (members.map Member.whole)).length < fuel) :
    Call.run fuel (.members path known
        (Text.encode (Text.join [','] (members.map Member.whole) ++ '\x7d' :: rest))) =
      outcome (repeatedInMembers? path seen (members.map Member.entry))
        (.object (Draft.wholeMembers known (members.map Member.entry)), Text.encode rest) := by
  induction members generalizing fuel known seen with
  | nil =>
    obtain ⟨fuel, rfl⟩ : ∃ n, fuel = n + 1 := Nat.exists_eq_succ_of_ne_zero (by omega)
    exact Call.run_lastMember rfl rfl
  | cons member members ih =>
    have hhead := hspaced member List.mem_cons_self
    have htail : ∀ member ∈ members, member.Spaced := fun m hm => hspaced m (.tail _ hm)
    have hlength := length_join_cons member.whole (members.map Member.whole)
    have hwhole : member.element.text.length + 3 ≤ member.whole.length := by
      simp only [Member.whole, Element.whole, List.length_append, List.length_cons]
      omega
    rw [List.map_cons] at hfuel
    obtain ⟨fuel, rfl⟩ : ∃ n, fuel = n + 1 := Nat.exists_eq_succ_of_ne_zero (by omega)
    have hends := endsNumber_space hhead.2.2.2
      (endsNumber_separated (members.map Member.whole) (endsNumber_bracket (.inr rfl) rest))
    have hmore := hasMore_member hhead
      (separated (members.map Member.whole) (Text.join [','] (members.map Member.whole) ++
        '\x7d' :: rest))
    have hscan := scan_member hhead (hkeys member List.mem_cons_self)
      (separated (members.map Member.whole) (Text.join [','] (members.map Member.whole) ++
        '\x7d' :: rest))
    rw [List.map_cons, join_cons, List.map_cons, Member.entry, repeatedInMembers?]
    split
    case isTrue hknown => exact Call.run_repeated hmore (readKey_again hscan ((hseen _).mpr hknown))
    case isFalse hnew =>
      have hfree : known.place? member.key = none :=
        Option.not_isSome_iff_eq_none.mp fun hsome => hnew ((hseen _).mp hsome)
      rw [Call.run_member hmore (readKey_new hscan hfree), run_memberValue hhead,
        hreads member List.mem_cons_self _ _ _ hends (by omega)]
      apply outcome_or
      rw [Call.run_members_congr (hasMore_space hhead.2.2.2 _) (scan_space hhead.2.2.2 _),
        run_members_separator htail,
        ih htail (fun m hm => hkeys m (.tail _ hm)) (fun m hm => hreads m (.tail _ hm)) _
          (isSome_place?_push hseen _ _) (by omega)]
      rfl

/-- Every value is read as what its text denotes. -/
theorem reads_of_denotes {text : List Char} {d : Document} (hdenotes : Denotes text d) :
    Reads text d := by
  induction hdenotes with
  | null => exact reads_of_scan (List.cons_ne_nil _ _) (fun _ => rfl) fun _ _ => rfl
  | true => exact reads_of_scan (List.cons_ne_nil _ _) (fun _ => rfl) fun _ _ => rfl
  | false => exact reads_of_scan (List.cons_ne_nil _ _) (fun _ => rfl) fun _ _ => rfl
  | @number text hnumber =>
    apply reads_of_scan (Denotes.number hnumber).ne_nil (fun _ => rfl)
    intro rest hrest
    have hscan := scan_number hnumber.isNumeral hrest
    rwa [String.toList_ofList] at hscan
  | @string spelling chars hspells =>
    apply reads_of_scan (List.cons_ne_nil _ _) (fun _ => rfl)
    intro rest _
    rw [List.cons_append, List.append_assoc]
    exact scan_spells hspells rest
  | @emptyArray space hspace =>
    intro fuel path rest _ hfuel
    rw [List.length_cons, List.length_append, List.length_singleton] at hfuel
    obtain ⟨fuel, rfl⟩ : ∃ n, fuel = n + 2 := ⟨fuel - 2, by omega⟩
    rw [List.cons_append, List.append_assoc, Call.run_array rfl]
    change Call.run (fuel + 1) (.items path [] (Text.encode (space ++ ']' :: rest))) = _
    rw [Call.run_items_congr (hasMore_space hspace _) (scan_space hspace _)]
    exact Call.run_lastItem rfl rfl
  | array hne hspaced hdenotes ih =>
    intro fuel path rest _ hfuel
    rw [arrayText, List.length_cons, List.length_append, List.length_singleton] at hfuel
    obtain ⟨fuel, rfl⟩ : ∃ n, fuel = n + 1 := Nat.exists_eq_succ_of_ne_zero (by omega)
    rw [arrayText, List.cons_append, List.append_assoc, Call.run_array rfl, Draft.whole,
      Draft.wholeItems_eq_map]
    exact run_elements hspaced hdenotes ih path [] rest (by omega)
  | @emptyObject space hspace =>
    intro fuel path rest _ hfuel
    rw [List.length_cons, List.length_append, List.length_singleton] at hfuel
    obtain ⟨fuel, rfl⟩ : ∃ n, fuel = n + 2 := ⟨fuel - 2, by omega⟩
    rw [List.cons_append, List.append_assoc, Call.run_object rfl]
    change Call.run (fuel + 1) (.members path .empty (Text.encode (space ++ '\x7d' :: rest))) = _
    rw [Call.run_members_congr (hasMore_space hspace _) (scan_space hspace _)]
    exact Call.run_lastMember rfl rfl
  | object hne hspaced hkeys hdenotes ih =>
    intro fuel path rest _ hfuel
    rw [objectText, List.length_cons, List.length_append, List.length_singleton] at hfuel
    obtain ⟨fuel, rfl⟩ : ∃ n, fuel = n + 1 := Nat.exists_eq_succ_of_ne_zero (by omega)
    have hnone : ∀ key, ((Table.empty : Table Draft).place? key).isSome = true ↔ key ∈ [] := by
      simp [Table.place?, Table.empty]
    rw [objectText, List.cons_append, List.append_assoc, Call.run_object rfl, Draft.whole]
    exact run_members hspaced hkeys ih path .empty hnone rest (by omega)

private theorem parse_isText {text : List Char} {d : Document} (htext : IsText text d) :
    parse (Text.encode text) = outcome (d.repeated? []) d := by
  obtain ⟨element, hspaced, hdenotes, rfl, rfl⟩ := htext
  have hends : EndsNumber (Text.encode element.after) := by
    rw [← List.append_nil element.after]
    apply endsNumber_space hspaced.2
    intro b hb
    cases hb
  have hlength := Text.length_le_encode element.whole
  have hwhole : element.text.length ≤ element.whole.length := by
    simp only [Element.whole, List.length_append]
    omega
  have hread := reads_of_denotes hdenotes (2 * (Text.encode element.whole).length + 2) []
    element.after hends (by omega)
  have hscan : scan (Text.encode element.after) = .finished := by
    rw [← List.append_nil element.after, scan_space hspaced.2]
    rfl
  rw [← Call.run_value_congr (scan_space hspaced.1 _), ← Element.whole] at hread
  rw [parse, read, hread]
  cases element.value.repeated? [] with
  | some again => rfl
  | none =>
    dsimp only [outcome, bind, Except.bind]
    rw [hscan]
    exact congrArg Except.ok (Draft.document_whole element.value)

/-- A text of the grammar is read as the document it denotes, or else, some object having a key
twice, the first key to come again is reported with the pointer to its object. -/
theorem parse_complete {text : List Char} {d : Document} (htext : IsText text d) :
    (¬ d.RepeatsKey → parse (Text.encode text) = .ok d) ∧
      (d.RepeatsKey → ∃ before again after, d.occurrences [] [] = before ++ again :: after ∧
        (before.map Occurrence.site).Nodup ∧ again.site ∈ before.map Occurrence.site ∧
        parse (Text.encode text) = .error (.duplicateKey again.key again.path) ∧
        (ReadError.duplicateKey again.key again.path).message =
          "duplicate key " ++ Text.quoted again.key ++ " at " ++
            if again.path = [] then "/" else again.path.text) := by
  have hparse := parse_isText htext
  constructor
  · intro hnot
    rw [hparse, (d.searched []).2 hnot]
    rfl
  · intro hrepeats
    obtain ⟨⟨key, path⟩, hagain⟩ := Option.ne_none_iff_exists'.1 fun hnone =>
      (d.searched []).1 hnone hrepeats
    obtain ⟨before, again, after, hsplit, hbefore, hmem, rfl, rfl⟩ := exists_of_repeated? hagain
    refine ⟨before, again, after, hsplit, hbefore, hmem, ?_, ?_⟩
    · rw [hparse, hagain]
      rfl
    · rw [← Pointer.shown_text]
      rfl

/-- One object: a key and a value spelled with escapes, among them a pair of surrogates and a lone
one, and an empty object under the empty key. -/
def wovenMembers : List Member :=
  [{ before := [' '], spelling := ['a', '\\', 'u', '0', '0', '6', '2'], after := ['\t']
     key := String.ofList ['a', 'b']
     element :=
      { before := ['\n'], after := []
        text := ['"', '\\', 'u', 'd', '8', '3', 'd', '\\', 'u', 'D', 'E', '0', '0',
          '\\', 'u', 'd', '8', '0', '0', '\\', 'n', '"']
        value := .string (String.ofList ['😀', '\uFFFD', '\n']) } },
   { before := [], spelling := [], after := [], key := String.ofList []
     element :=
      { before := [], text := ['\x7b', ' ', '\x7d'], after := [' '], value := .object [] } }]

private theorem denotes_woven :
    Denotes (objectText wovenMembers) (.object (wovenMembers.map Member.entry)) := by
  have hletter : UnitEscape ['\\', 'u', '0', '0', '6', '2'] 0x62 :=
    @UnitEscape.digits '0' '0' '6' '2' 0 0 6 2 rfl rfl rfl rfl
  have hhigh : UnitEscape ['\\', 'u', 'd', '8', '3', 'd'] 0xd83d :=
    @UnitEscape.digits 'd' '8' '3' 'd' 13 8 3 13 rfl rfl rfl rfl
  have hlow : UnitEscape ['\\', 'u', 'D', 'E', '0', '0'] 0xde00 :=
    @UnitEscape.digits 'D' 'E' '0' '0' 13 14 0 0 rfl rfl rfl rfl
  have hlone : UnitEscape ['\\', 'u', 'd', '8', '0', '0'] 0xd800 :=
    @UnitEscape.digits 'd' '8' '0' '0' 13 8 0 0 rfl rfl rfl rfl
  have hbreak : Spells ['\\', 'n'] ['\n'] := .letter (by decide) .done
  have hnext : NoLowNext ['\\', 'n'] := by
    rintro _ _ _ htext ⟨⟩
    cases htext
  apply Denotes.object
  · exact List.cons_ne_nil _ _
  · simp [wovenMembers, Member.Spaced, Element.Spaced, Space]
  · simp only [wovenMembers, List.forall_mem_cons, String.toList_ofList]
    refine ⟨?_, .done, List.forall_mem_nil _⟩
    exact .plain (by decide) (by decide) (by decide) (.unit hletter (by decide) (by decide) .done)
  · simp only [wovenMembers, List.forall_mem_cons]
    refine ⟨?_, @Denotes.emptyObject [' '] (by simp [Space]), List.forall_mem_nil _⟩
    exact .string (.pair hhigh (by decide) hlow (by decide)
      (.loneHigh hlone (by decide) hnext hbreak))

/-- The key `k` comes again in the object inside of the array, and only then in the outer one. -/
def innerTwice : List Member :=
  [{ before := [], spelling := ['k'], after := [], key := String.ofList ['k']
     element := { before := [' '], text := ['-', '0', '.', '5', 'E', '+', '1'], after := []
                  value := .number (String.ofList ['-', '0', '.', '5', 'E', '+', '1']) } },
   { before := ['\n'], spelling := ['\\', 'u', '0', '0', '6', 'b'], after := [' ']
     key := String.ofList ['k']
     element := { before := [], text := ['n', 'u', 'l', 'l'], after := ['\r'], value := .null } }]

def innerElement : Element :=
  { before := [' '], after := []
    text := objectText innerTwice
    value := .object (innerTwice.map Member.entry) }

def outerTwice : List Member :=
  [{ before := [], spelling := ['k'], after := [], key := String.ofList ['k']
     element :=
      { before := [], after := []
        text := arrayText [innerElement]
        value := .array ([innerElement].map Element.value) } },
   { before := [], spelling := ['k'], after := [], key := String.ofList ['k']
     element :=
      { before := [], text := ['t', 'r', 'u', 'e'], after := [], value := .bool true } }]

private theorem denotes_twice :
    Denotes (objectText outerTwice) (.object (outerTwice.map Member.entry)) := by
  have hplain : Spells ['k'] ['k'] := .plain (by decide) (by decide) (by decide) .done
  have hunit : UnitEscape ['\\', 'u', '0', '0', '6', 'b'] 0x6b :=
    @UnitEscape.digits '0' '0' '6' 'b' 0 0 6 11 rfl rfl rfl rfl
  have hnumber : Number ['-', '0', '.', '5', 'E', '+', '1'] :=
    @Number.parts ['-'] ['0'] ['.', '5'] ['E', '+', '1'] (.inr rfl) .zero
      (.digits ⟨List.cons_ne_nil _ _, by simp⟩)
      (@Exponent.digits 'E' ['+'] ['1'] (.inr rfl) (.inr (.inl rfl))
        ⟨List.cons_ne_nil _ _, by simp⟩)
  have hinner : Denotes innerElement.text innerElement.value := by
    apply Denotes.object
    · exact List.cons_ne_nil _ _
    · simp [innerTwice, Member.Spaced, Element.Spaced, Space]
    · simp only [innerTwice, List.forall_mem_cons, String.toList_ofList]
      exact ⟨hplain, .unit hunit (by decide) (by decide) .done, List.forall_mem_nil _⟩
    · simp only [innerTwice, List.forall_mem_cons]
      exact ⟨.number hnumber, .null, List.forall_mem_nil _⟩
  have harray : Denotes (arrayText [innerElement])
      (.array ([innerElement].map Element.value)) := by
    apply Denotes.array
    · exact List.cons_ne_nil _ _
    · simp [innerElement, Element.Spaced, Space]
    · simp only [List.forall_mem_cons]
      exact ⟨hinner, List.forall_mem_nil _⟩
  apply Denotes.object
  · exact List.cons_ne_nil _ _
  · simp [outerTwice, Member.Spaced, Element.Spaced, Space]
  · simp only [outerTwice, List.forall_mem_cons, String.toList_ofList]
    exact ⟨hplain, hplain, List.forall_mem_nil _⟩
  · simp only [outerTwice, List.forall_mem_cons]
    exact ⟨harray, .true, List.forall_mem_nil _⟩

private theorem isText_of_denotes {text : List Char} {d : Document} (hdenotes : Denotes text d) :
    IsText text d := by
  refine ⟨⟨[], text, [], d⟩, ⟨List.forall_mem_nil _, List.forall_mem_nil _⟩, hdenotes, ?_, rfl⟩
  rw [Element.whole, List.nil_append, List.append_nil]

theorem parse_complete_twice :
    (IsText (objectText wovenMembers) (.object (wovenMembers.map Member.entry)) ∧
      parse (Text.encode (objectText wovenMembers)) =
        .ok (.object (wovenMembers.map Member.entry))) ∧
    IsText (objectText outerTwice) (.object (outerTwice.map Member.entry)) ∧
      ∃ before again after, (Document.object (outerTwice.map Member.entry)).occurrences [] [] =
          before ++ again :: after ∧
        (before.map Occurrence.site).Nodup ∧ again.site ∈ before.map Occurrence.site ∧
        parse (Text.encode (objectText outerTwice)) =
          .error (.duplicateKey again.key again.path) ∧
        (ReadError.duplicateKey again.key again.path).message =
          "duplicate key " ++ Text.quoted again.key ++ " at " ++
            if again.path = [] then "/" else again.path.text := by
  have hwoven := isText_of_denotes denotes_woven
  have htwice := isText_of_denotes denotes_twice
  exact ⟨⟨hwoven, (parse_complete hwoven).1 ((searched _ []).1 rfl)⟩, htwice,
    (parse_complete htwice).2 (.here (by decide))⟩

end Json

end SchemaCodec

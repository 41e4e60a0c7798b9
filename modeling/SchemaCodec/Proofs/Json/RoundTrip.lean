import SchemaCodec.Proofs.Json.Reading

namespace SchemaCodec.Document

/-! Reading a document's text gives the document back. The text says where each number ends: behind
it stand a comma, a closing bracket or nothing. -/

private theorem write_array (items : List Document) (rest : List Char) :
    (array items).write rest = '[' :: writeItems items (']' :: rest) := rfl

private theorem write_object (members : List (String × Document)) (rest : List Char) :
    (object members).write rest = '\x7b' :: writeMembers members ('\x7d' :: rest) := rfl

/-- A comma stands before `text` unless it holds nothing more. -/
def separated (more : List α) (text : List Char) : List Char :=
  match more with
  | [] => text
  | _ :: _ => ',' :: text

private theorem length_le_separated (more : List α) (text : List Char) :
    text.length ≤ (separated more text).length := by
  cases more with
  | nil => exact Nat.le_refl _
  | cons => exact Nat.le_succ _

private theorem writeItems_cons (item : Document) (items : List Document) (rest : List Char) :
    writeItems (item :: items) rest = item.write (separated items (writeItems items rest)) := by
  cases items <;> rfl

private theorem writeMembers_cons (key : String) (value : Document)
    (members : List (String × Document))
    (rest : List Char) :
    writeMembers ((key, value) :: members) rest =
      writeString key (':' :: value.write (separated members (writeMembers members rest))) := by
  cases members <;> rfl

private theorem length_lt_writeString (text : String) (rest : List Char) :
    rest.length < (writeString text rest).length := by
  simp only [writeString, List.length_cons, List.length_append]
  omega

private theorem length_le_writeItems {items : List Document}
    (hitems : ∀ item ∈ items, ∀ rest : List Char, rest.length < (item.write rest).length)
    (rest : List Char) :
    rest.length ≤ (writeItems items rest).length := by
  induction items with
  | nil => exact Nat.le_refl _
  | cons item items ih =>
    rw [writeItems_cons]
    calc rest.length
      _ ≤ (writeItems items rest).length := ih fun item hmem => hitems item (.tail _ hmem)
      _ ≤ (separated items (writeItems items rest)).length := length_le_separated _ _
      _ ≤ _ := Nat.le_of_lt (hitems item List.mem_cons_self _)

private theorem length_le_writeMembers {members : List (String × Document)}
    (hmembers : ∀ member ∈ members, ∀ rest : List Char,
      rest.length < (member.2.write rest).length)
    (rest : List Char) :
    rest.length ≤ (writeMembers members rest).length := by
  induction members with
  | nil => exact Nat.le_refl _
  | cons member members ih =>
    obtain ⟨key, value⟩ := member
    have hvalue : ∀ rest : List Char, rest.length < (value.write rest).length :=
      hmembers (key, value) List.mem_cons_self
    rw [writeMembers_cons]
    calc rest.length
      _ ≤ (writeMembers members rest).length := ih fun member hmem => hmembers member (.tail _ hmem)
      _ ≤ (separated members (writeMembers members rest)).length := length_le_separated _ _
      _ ≤ (value.write (separated members (writeMembers members rest))).length :=
        Nat.le_of_lt (hvalue _)
      _ ≤ (':' :: value.write (separated members (writeMembers members rest))).length :=
        Nat.le_succ _
      _ ≤ _ := Nat.le_of_lt (length_lt_writeString _ _)

/-- Writing a document adds at least one character. -/
theorem WellFormed.length_lt_write {d : Document} (hd : d.WellFormed) (rest : List Char) :
    rest.length < (d.write rest).length := by
  induction hd generalizing rest with
  | null =>
    change rest.length < rest.length + 4
    omega
  | bool value =>
    cases value with
    | false =>
      change rest.length < rest.length + 5
      omega
    | true =>
      change rest.length < rest.length + 4
      omega
  | @number text htext =>
    obtain ⟨c, tail, hchars, -⟩ := htext.starts
    change rest.length < (text.toList ++ rest).length
    rw [hchars, List.length_append, List.length_cons]
    omega
  | string text => exact length_lt_writeString text rest
  | @array items _ ih =>
    have hitems := length_le_writeItems ih (']' :: rest)
    rw [List.length_cons] at hitems
    rw [write_array, List.length_cons]
    omega
  | @object members _ _ ih =>
    have hmembers := length_le_writeMembers ih ('\x7d' :: rest)
    rw [List.length_cons] at hmembers
    rw [write_object, List.length_cons]
    omega

end SchemaCodec.Document

namespace SchemaCodec.Json

open Document

private theorem endsNumber_separatedItems (items : List Document) (rest : List Char) :
    EndsNumber (Text.encode (separated items (writeItems items (']' :: rest)))) := by
  intro b hb
  cases items with
  | nil =>
    cases hb
    rfl
  | cons =>
    cases hb
    rfl

private theorem endsNumber_separatedMembers (members : List (String × Document))
    (rest : List Char) :
    EndsNumber (Text.encode (separated members (writeMembers members ('\x7d' :: rest)))) := by
  intro b hb
  cases members with
  | nil =>
    cases hb
    rfl
  | cons =>
    cases hb
    rfl

theorem hasMore_opensNumber {b : UInt8} (hb : OpensNumber b) (text : List UInt8) :
    hasMore (b :: text) = true := by
  have hblank : ¬ isBlank b = true := by grind [OpensNumber, isBlank, isDigit]
  have hopen : b ≠ 0x7d ∧ b ≠ 0x5d := by grind [OpensNumber, isDigit]
  rw [hasMore, List.dropWhile_cons_of_neg hblank]
  simp [hopen]

private theorem hasMore_write {d : Document} (hd : d.WellFormed) (rest : List Char) :
    hasMore (Text.encode (d.write rest)) = true := by
  cases hd with
  | null => rfl
  | bool value => cases value <;> rfl
  | @number text htext =>
    obtain ⟨b, digits, hb, -, hbytes⟩ := htext.exists_bytes
    change hasMore (Text.encode (text.toList ++ rest)) = true
    rw [Text.encode_append, hbytes]
    exact hasMore_opensNumber hb _
  | string => rfl
  | array => rfl
  | object => rfl

private theorem hasMore_writeItems {item : Document} (hitem : item.WellFormed)
    (items : List Document)
    (rest : List Char) : hasMore (Text.encode (writeItems (item :: items) rest)) = true := by
  rw [writeItems_cons]
  exact hasMore_write hitem _

private theorem hasMore_writeMembers (member : String × Document)
    (members : List (String × Document))
    (rest : List Char) : hasMore (Text.encode (writeMembers (member :: members) rest)) = true := by
  rw [writeMembers_cons]
  rfl

/-- Reading a document's text gives the document and leaves what follows. Two steps for each
character of the text are enough. -/
def ReadsBack (d : Document) : Prop :=
  ∀ fuel path rest, EndsNumber (Text.encode rest) →
    2 * (d.write rest).length ≤ fuel + 2 * rest.length →
      Call.run fuel (.value path (Text.encode (d.write rest))) = .ok (.whole d, Text.encode rest)

namespace Call

private theorem run_items_separated {items : List Document}
    (hitems : ∀ item ∈ items, item.WellFormed)
    (fuel : Nat) (path : Pointer) (known : List Draft) (rest : List Char) :
    run fuel (.items path known (Text.encode (separated items (writeItems items rest)))) =
      run fuel (.items path known (Text.encode (writeItems items rest))) := by
  cases items with
  | nil => rfl
  | cons item items =>
    exact run_items_comma (hasMore_writeItems (hitems item List.mem_cons_self) items rest)

private theorem run_writeItems {items : List Document} (hitems : ∀ item ∈ items, item.WellFormed)
    (hback : ∀ item ∈ items, ReadsBack item) {fuel : Nat} (path : Pointer) (known : List Draft)
    {rest : List Char}
    (hfuel : 2 * (writeItems items (']' :: rest)).length < fuel + 2 * (']' :: rest).length) :
    run fuel (.items path known (Text.encode (writeItems items (']' :: rest)))) =
      .ok (.list (known.reverse ++ items.map Draft.whole), Text.encode rest) := by
  induction items generalizing fuel known with
  | nil =>
    rw [writeItems] at hfuel
    obtain ⟨fuel, rfl⟩ : ∃ n, fuel = n + 1 := Nat.exists_eq_succ_of_ne_zero (by omega)
    rw [List.map_nil, List.append_nil]
    exact run_lastItem rfl rfl
  | cons item items ih =>
    have hitem := hitems item List.mem_cons_self
    have htail : ∀ item ∈ items, item.WellFormed := fun item hmem => hitems item (.tail _ hmem)
    have hmore := hasMore_writeItems hitem items (']' :: rest)
    rw [writeItems_cons] at hfuel hmore ⊢
    have hsep := length_le_separated items (writeItems items (']' :: rest))
    have hrest := length_le_writeItems (fun item hmem => (htail item hmem).length_lt_write)
      (']' :: rest)
    -- The character that the item takes at least pays for its step and for the next one.
    have hspent := hitem.length_lt_write (separated items (writeItems items (']' :: rest)))
    obtain ⟨fuel, rfl⟩ : ∃ n, fuel = n + 1 := Nat.exists_eq_succ_of_ne_zero (by omega)
    have hends := endsNumber_separatedItems items rest
    rw [run_item hmore, hback item List.mem_cons_self _ _ _ hends (by omega), ok_bind,
      run_items_separated htail, ih htail (fun item hmem => hback item (.tail _ hmem)) _ (by omega),
      List.reverse_cons, List.append_assoc, List.singleton_append, List.map_cons]

private theorem run_members_separated (members : List (String × Document)) (fuel : Nat)
    (path : Pointer)
    (known : Table Draft) (rest : List Char) :
    run fuel (.members path known (Text.encode (separated members (writeMembers members rest)))) =
      run fuel (.members path known (Text.encode (writeMembers members rest))) := by
  cases members with
  | nil => rfl
  | cons member members => exact run_members_comma (hasMore_writeMembers member members rest)

private theorem run_writeString {key : String} {value : Document} (hback : ReadsBack value)
    {fuel : Nat} (path : Pointer) {known : Table Draft} (hnew : known.place? key = none)
    {rest : List Char} (hrest : EndsNumber (Text.encode rest))
    (hfuel : 2 * (value.write rest).length ≤ fuel + 2 * rest.length) :
    run (fuel + 1) (.members path known
        (Text.encode (writeString key (':' :: value.write rest)))) =
      run fuel (.members path (known.push key (.whole value)) (Text.encode rest)) := by
  have hread := hback fuel (path ++ [key]) rest hrest hfuel
  -- The colon before the value is skipped like a blank.
  rw [← run_value_congr (scan_filler (b := 0x3a) rfl _)] at hread
  rw [run_member rfl (readKey_new (scan_string key _) hnew)]
  exact congrArg (· >>= _) hread

private theorem run_writeMembers {members : List (String × Document)}
    (hkeys : (members.map Prod.fst).Nodup) (hvalues : ∀ member ∈ members, member.2.WellFormed)
    (hback : ∀ member ∈ members, ReadsBack member.2) {fuel : Nat} (path : Pointer)
    {known : Table Draft} (hnew : ∀ member ∈ members, known.place? member.1 = none)
    {rest : List Char}
    (hfuel : 2 * (writeMembers members ('\x7d' :: rest)).length <
      fuel + 2 * ('\x7d' :: rest).length) :
    run fuel (.members path known (Text.encode (writeMembers members ('\x7d' :: rest)))) =
      .ok (.object (Draft.wholeMembers known members), Text.encode rest) := by
  induction members generalizing fuel known with
  | nil =>
    rw [writeMembers] at hfuel
    obtain ⟨fuel, rfl⟩ : ∃ n, fuel = n + 1 := Nat.exists_eq_succ_of_ne_zero (by omega)
    exact run_lastMember rfl rfl
  | cons member members ih =>
    obtain ⟨key, value⟩ := member
    obtain ⟨hkey, htailKeys⟩ := List.nodup_cons.1 hkeys
    have hvalue : value.WellFormed := hvalues (key, value) List.mem_cons_self
    have hvalueBack : ReadsBack value := hback (key, value) List.mem_cons_self
    have htail : ∀ member ∈ members, member.2.WellFormed :=
      fun member hmem => hvalues member (.tail _ hmem)
    have hnewTail : ∀ member ∈ members,
        (known.push key (.whole value)).place? member.1 = none := by
      intro member hmem
      have hne : member.1 ≠ key := by
        intro heq
        have hused : member.1 ∈ members.map Prod.fst := List.mem_map_of_mem hmem
        rw [heq] at hused
        exact hkey hused
      rw [Table.place?_push_of_ne hne]
      exact hnew member (.tail _ hmem)
    rw [writeMembers_cons] at hfuel ⊢
    have hends := endsNumber_separatedMembers members rest
    have hsep := length_le_separated members (writeMembers members ('\x7d' :: rest))
    have hrest := length_le_writeMembers
      (fun member hmem => (htail member hmem).length_lt_write) ('\x7d' :: rest)
    have hspent :=
      hvalue.length_lt_write (separated members (writeMembers members ('\x7d' :: rest)))
    have hlength := length_lt_writeString key
      (':' :: value.write (separated members (writeMembers members ('\x7d' :: rest))))
    rw [List.length_cons] at hlength
    obtain ⟨fuel, rfl⟩ : ∃ n, fuel = n + 1 := Nat.exists_eq_succ_of_ne_zero (by omega)
    rw [run_writeString hvalueBack path (hnew (key, value) List.mem_cons_self) hends (by omega),
      run_members_separated,
      ih htailKeys htail (fun member hmem => hback member (.tail _ hmem)) hnewTail (by omega)]
    rfl

end Call

private theorem readsBack_of_scan {d : Document} (hd : d.WellFormed)
    (hscan : ∀ rest, EndsNumber (Text.encode rest) →
      scan (Text.encode (d.write rest)) = .token (.scalar d) (Text.encode rest)) :
    ReadsBack d := by
  intro fuel path rest hrest hfuel
  have hspent := hd.length_lt_write rest
  obtain ⟨fuel, rfl⟩ : ∃ n, fuel = n + 1 := Nat.exists_eq_succ_of_ne_zero (by omega)
  exact Call.run_scalar (hscan rest hrest)

/-- Reading undoes writing at every depth. -/
theorem readsBack_of_wellFormed {d : Document} (hd : d.WellFormed) : ReadsBack d := by
  induction hd with
  | null => exact readsBack_of_scan .null fun _ _ => rfl
  | bool value =>
    apply readsBack_of_scan (.bool value)
    intro rest _
    cases value <;> rfl
  | number htext => exact readsBack_of_scan (.number htext) fun _ hrest => scan_number htext hrest
  | string text => exact readsBack_of_scan (.string text) fun rest _ => scan_string text rest
  | @array items hitems ih =>
    intro fuel path rest _ hfuel
    have hspent := (WellFormed.array hitems).length_lt_write rest
    obtain ⟨fuel, rfl⟩ : ∃ n, fuel = n + 1 := Nat.exists_eq_succ_of_ne_zero (by omega)
    rw [write_array, List.length_cons] at hfuel
    have hfuelItems :
        2 * (writeItems items (']' :: rest)).length < fuel + 2 * (']' :: rest).length := by
      rw [List.length_cons]
      omega
    rw [Call.run_array rfl, Draft.whole, Draft.wholeItems_eq_map]
    exact Call.run_writeItems hitems ih path [] hfuelItems
  | @object members hkeys hvalues ih =>
    intro fuel path rest _ hfuel
    have hspent := (WellFormed.object hkeys hvalues).length_lt_write rest
    obtain ⟨fuel, rfl⟩ : ∃ n, fuel = n + 1 := Nat.exists_eq_succ_of_ne_zero (by omega)
    rw [write_object, List.length_cons] at hfuel
    have hfuelMembers : 2 * (writeMembers members ('\x7d' :: rest)).length <
        fuel + 2 * ('\x7d' :: rest).length := by
      rw [List.length_cons]
      omega
    rw [Call.run_object rfl, Draft.whole]
    exact Call.run_writeMembers hkeys hvalues ih path (fun _ _ => rfl) hfuelMembers

theorem read_encode_of_wellFormed {d : Document} (hd : d.WellFormed) :
    read (Text.encode d.encode.toList) = .ok (.whole d) := by
  have htext : d.encode.toList = d.write [] := String.toList_ofList
  have hlength := Text.length_le_encode (d.write [])
  have hread := readsBack_of_wellFormed hd (2 * (Text.encode (d.write [])).length + 2) [] []
    (by intro b hb; cases hb) (by rw [List.length_nil]; omega)
  rw [htext, read, hread]
  rfl

theorem parse_encode_of_wellFormed {d : Document} (hd : d.WellFormed) :
    parse (Text.encode d.encode.toList) = .ok d := by
  rw [parse, read_encode_of_wellFormed hd]
  exact congrArg Except.ok (Draft.document_whole d)

/-- Decoding undoes encoding, for every well-formed document and so for every document that was
itself read, however loosely its text was written. -/
theorem parse_encode :
    (∀ d : Document, d.WellFormed → parse (Text.encode d.encode.toList) = .ok d) ∧
      ∀ text d, parse text = .ok d → parse (Text.encode d.encode.toList) = .ok d := by
  constructor
  · intro d hd
    exact parse_encode_of_wellFormed hd
  · intro text d hparse
    exact parse_encode_of_wellFormed (wellFormed_of_parse hparse)

def tangled : Document :=
  .object [("\"\\\u2028", .array [.number "-e", .number "007"]), ("", .string "\x01é\n")]

def looseText : List UInt8 :=
  Text.encode ['[', 'n', 'u', 'l', 'l', ',', ',', 't', 'r', 'u', 'e', '\x7d']

theorem parse_encode_tangled :
    (tangled.WellFormed ∧ parse (Text.encode tangled.encode.toList) = .ok tangled) ∧
      ∃ d : Document, parse looseText = .ok d ∧ parse (Text.encode d.encode.toList) = .ok d := by
  have hletter : IsNumeral "-e" := ⟨⟨'-', ['e'], rfl, by decide⟩, by simp [numeralChars]⟩
  have hzeros : IsNumeral "007" := ⟨⟨'0', ['0', '7'], rfl, by decide⟩, by simp [numeralChars]⟩
  have hwf : tangled.WellFormed := by
    apply WellFormed.object
    · decide
    · simp only [List.forall_mem_cons]
      refine ⟨.array ?_, .string _, List.forall_mem_nil _⟩
      simp only [List.forall_mem_cons]
      exact ⟨.number hletter, .number hzeros, List.forall_mem_nil _⟩
  have hloose : parse looseText = .ok (.array [.null, .bool true]) := rfl
  exact ⟨⟨hwf, parse_encode.1 tangled hwf⟩, _, hloose, parse_encode.2 looseText _ hloose⟩

end SchemaCodec.Json

import SchemaCodec.Proofs.Order.Sorting

namespace SchemaCodec.Declaration

open Relation

/-! Sorting moves a declaration to the front only for the sake of one that leads to it, so sorted
declarations stay where they are. -/

section

variable {declarations : List Declaration} {i j : Nat}

private theorem Precedes.mem_front {front back : List Nat} (hnodup : (front ++ back).Nodup)
    (hi : i ∈ front) (h : Precedes (front ++ back) j i) : j ∈ front := by
  obtain ⟨p, q, hpq, hp, hq⟩ := h
  have hfront : q < front.length := by
    apply Decidable.byContradiction
    intro hback
    rw [List.getElem?_append_right (Nat.le_of_not_lt hback)] at hq
    exact (List.nodup_append.mp hnodup).2.2 i hi i (List.mem_of_getElem? hq) rfl
  rw [List.getElem?_append_left (Nat.lt_trans hpq hfront)] at hp
  exact List.mem_of_getElem? hp

private theorem nodup_order (declarations : List Declaration) : (order declarations).Nodup :=
  (order_perm declarations).nodup_iff.mpr List.nodup_range

private theorem order_inj {p q : Nat} (hp : (order declarations)[p]? = some i)
    (hq : (order declarations)[q]? = some i) : p = q := by
  obtain ⟨hlength, -⟩ := List.getElem?_eq_some_iff.mp hp
  exact (List.getElem?_inj hlength (nodup_order declarations)).mp (hp.trans hq.symm)

/-- What comes in front of a declaration it was behind of is led to from there, or from further
ahead. -/
theorem leads_of_precedes (hlt : i < j) (h : Precedes (order declarations) j i) :
    ∃ k, k ≤ i ∧ TransGen (Leads declarations) k j := by
  have hi : i < declarations.length := by
    obtain ⟨p, q, -, -, hq⟩ := h
    exact lt_length_of_mem_order (List.mem_of_getElem? hq)
  obtain ⟨walk, horder, htraverses⟩ := order_traversal declarations
  -- When all positions up to `i` have been gone through, `i` is left, and so is what precedes it.
  rw [← List.take_append_drop (i + 1) (List.range declarations.length)] at htraverses
  obtain ⟨middle, hfront, hback⟩ := htraverses.split
  have hmem : i ∈ (List.range declarations.length).take (i + 1) := by
    rw [List.take_range, List.mem_range]
    omega
  have hleft : i ∈ middle.left := by
    rcases hfront.left_of_entered i (hfront.entered_of_mem i hmem) with hnone | hleft
    · cases hnone
    · exact hleft
  obtain ⟨further, hfurther⟩ := hback.left_suffix
  have hsplit : order declarations = middle.left.reverse ++ further.reverse := by
    rw [horder, ← hfurther, List.reverse_append]
  have hnodup := nodup_order declarations
  rw [hsplit] at h hnodup
  have hj := h.mem_front hnodup (List.mem_reverse.mpr hleft)
  rcases hfront.reached_of_left j (List.mem_reverse.mp hj) with hnone | ⟨k, hk, hreach⟩
  · cases hnone
  · rw [List.take_range, List.mem_range] at hk
    rw [targets_eq_leads] at hreach
    exact ⟨k, by omega, (reflTransGen_iff_eq_or_transGen.mp hreach).resolve_left (by omega)⟩

/-! Declarations that stand in order -/

private theorem order_eq_range (h : ∀ i j, Leads declarations i j → j < i) :
    order declarations = List.range declarations.length := by
  have hpairwise : (order declarations).Pairwise (· < ·) := by
    rw [List.pairwise_iff_getElem]
    intro p q hp hq hpq
    have hprecedes : Precedes (order declarations) (order declarations)[p]
        (order declarations)[q] :=
      ⟨p, q, hpq, List.getElem?_eq_getElem hp, List.getElem?_eq_getElem hq⟩
    rcases Nat.lt_trichotomy (order declarations)[p] (order declarations)[q] with hlt | heq | hgt
    · exact hlt
    · exact absurd heq (List.pairwise_iff_getElem.mp (nodup_order declarations) p q hp hq hpq)
    · obtain ⟨k, hk, hleads⟩ := leads_of_precedes hgt hprecedes
      have hless : id (order declarations)[p] < id k := transGen_lt h hleads
      simp only [id] at hless
      omega
  exact List.Perm.eq_of_pairwise (fun a b _ _ hab hba => absurd hab (Nat.lt_asymm hba)) hpairwise
    List.pairwise_lt_range (order_perm declarations)

private theorem sort_eq_self (h : ∀ i j, Leads declarations i j → j < i) :
    sort declarations = declarations := by
  rw [sort, order_eq_range h, filterMap_range]

/-! Sorted declarations -/

private theorem Precedes.lt {p q : Nat} (h : Precedes (order declarations) j i)
    (hj : (order declarations)[q]? = some j) (hi : (order declarations)[p]? = some i) :
    q < p := by
  obtain ⟨first, second, hlt, hfirst, hsecond⟩ := h
  rw [order_inj hj hfirst, order_inj hi hsecond]
  exact hlt

private theorem exists_place (h : i < declarations.length) :
    ∃ p : Nat, (order declarations)[p]? = some i :=
  List.mem_iff_getElem?.mp ((order_perm declarations).mem_iff.mpr (List.mem_range.mpr h))

section

variable {name : String} {first : Nat} {declaration : Declaration}

/-- What is led to is the first declaration of its name. -/
theorem findIdx?_of_leads (h : Leads declarations i j)
    (hget : declarations[j]? = some declaration) (hname : declaration.name = name) :
    declarations.findIdx? (fun other => other.name == name) = some j := by
  obtain ⟨⟨_, found, -, -, hfirst⟩, -⟩ := h
  obtain ⟨hlength, hfound, -⟩ := List.findIdx?_eq_some_iff_getElem.mp hfirst
  obtain ⟨_, heq⟩ := List.getElem?_eq_some_iff.mp hget
  rw [heq, hname, beq_iff_eq] at hfound
  rw [hfound]
  exact hfirst

private theorem first_lt
    (hfirst : declarations.findIdx? (fun other => other.name == name) = some first)
    (hget : declarations[j]? = some declaration) (hname : declaration.name = name)
    (hne : j ≠ first) : first < j := by
  obtain ⟨_, -, hnone⟩ := List.findIdx?_eq_some_iff_getElem.mp hfirst
  obtain ⟨_, heq⟩ := List.getElem?_eq_some_iff.mp hget
  have hnot : ¬ j < first := by
    intro hless
    have hother := hnone j hless
    rw [heq] at hother
    exact hother (beq_iff_eq.mpr hname)
  omega

/-- The first declaration of a name is not overtaken by another one. -/
theorem first_precedes
    (hfirst : declarations.findIdx? (fun other => other.name == name) = some first)
    (hget : declarations[j]? = some declaration) (hname : declaration.name = name)
    (hne : j ≠ first) : Precedes (order declarations) first j := by
  obtain ⟨hlength, -⟩ := List.findIdx?_eq_some_iff_getElem.mp hfirst
  obtain ⟨hj, -⟩ := List.getElem?_eq_some_iff.mp hget
  obtain ⟨p, hp⟩ := exists_place hlength
  obtain ⟨q, hq⟩ := exists_place hj
  rcases Nat.lt_trichotomy p q with hlt | rfl | hgt
  · exact ⟨p, q, hlt, hp, hq⟩
  · exact absurd (Option.some.inj (hq.symm.trans hp)) hne
  · -- Something would lead to the other one, which would then be the first.
    obtain ⟨k, -, hleads⟩ :=
      leads_of_precedes (first_lt hfirst hget hname hne) ⟨q, p, hgt, hq, hp⟩
    obtain ⟨_, -, hstep⟩ := TransGen.tail'_iff.mp hleads
    have hsame := (findIdx?_of_leads hstep hget hname).symm.trans hfirst
    exact absurd (Option.some.inj hsame) hne

/-- The first declaration of a name stays the first. -/
theorem findIdx?_sort {q : Nat}
    (h : (sort declarations).findIdx? (fun other => other.name == name) = some q) :
    ∃ j, (order declarations)[q]? = some j ∧
      declarations.findIdx? (fun other => other.name == name) = some j := by
  obtain ⟨hq, hname, hbefore⟩ := List.findIdx?_eq_some_iff_getElem.mp h
  have hget := List.getElem?_eq_getElem hq
  rw [getElem?_sort, Option.bind_eq_some_iff] at hget
  obtain ⟨j, hj, hdeclaration⟩ := hget
  refine ⟨j, hj, ?_⟩
  obtain ⟨first, hfirst⟩ : ∃ first,
      declarations.findIdx? (fun other => other.name == name) = some first :=
    ⟨_, List.findIdx?_eq_some_of_exists ⟨_, List.mem_of_getElem? hdeclaration, hname⟩⟩
  by_cases hsame : j = first
  · rwa [hsame]
  · obtain ⟨r, s, hrs, hr, hs⟩ :=
      first_precedes hfirst hdeclaration (beq_iff_eq.mp hname) hsame
    obtain ⟨hlength, hfound, -⟩ := List.findIdx?_eq_some_iff_getElem.mp hfirst
    have hrget : (sort declarations)[r]? = some declarations[first] := by
      rw [getElem?_sort, hr]
      exact List.getElem?_eq_getElem hlength
    obtain ⟨_, heq⟩ := List.getElem?_eq_some_iff.mp hrget
    have hother := hbefore r (by rwa [order_inj hj hs])
    rw [heq] at hother
    exact absurd hfound hother

end

private theorem leads_of_sort {p q : Nat} (h : Leads (sort declarations) p q) :
    ∃ i j, (order declarations)[p]? = some i ∧ (order declarations)[q]? = some j ∧
      Leads declarations i j := by
  obtain ⟨⟨declaration, name, hget, hname, hfirst⟩, hne⟩ := h
  rw [getElem?_sort, Option.bind_eq_some_iff] at hget
  obtain ⟨i, hi, hdeclaration⟩ := hget
  obtain ⟨j, hj, hfound⟩ := findIdx?_sort hfirst
  refine ⟨i, j, hi, hj, ⟨declaration, name, hdeclaration, hname, hfound⟩, ?_⟩
  rintro rfl
  exact hne (order_inj hj hi)

private theorem sort_sort (hacyclic : ∀ i, ¬ TransGen (Leads declarations) i i) :
    sort (sort declarations) = sort declarations := by
  apply sort_eq_self
  intro p q h
  obtain ⟨i, j, hi, hj, hleads⟩ := leads_of_sort h
  exact (order_leads_of_acyclic hacyclic hleads).lt hj hi

end

/-- Sorting moves only what it must: what overtakes a declaration is needed there or further ahead,
declarations in order stay as they are, and so do sorted ones without cycles. -/
theorem sort_moves_needed (declarations : List Declaration) :
    (sort declarations).map some = (order declarations).map (fun i => declarations[i]?) ∧
    (∀ i j, i < j → Precedes (order declarations) j i →
      ∃ k, k ≤ i ∧ TransGen (Leads declarations) k j) ∧
    ((∀ i j, Leads declarations i j → j < i) → sort declarations = declarations) ∧
    ((∀ i, ¬ TransGen (Leads declarations) i i) →
      sort (sort declarations) = sort declarations) :=
  ⟨map_some_sort declarations, fun _ _ hlt h => leads_of_precedes hlt h, sort_eq_self, sort_sort⟩

private theorem depotDeclarations_tail_descends :
    ∀ i j, Leads depotDeclarations.tail i j → j < i := by
  intro i j h
  have hmem : j ∈ targets depotDeclarations.tail i := mem_targets.mpr h
  rcases i with _ | _ | _ | i
  · have htargets : targets depotDeclarations.tail 0 = [] := by decide
    rw [htargets] at hmem
    cases hmem
  · have htargets : targets depotDeclarations.tail 1 = [0] := by decide
    rw [htargets, List.mem_singleton] at hmem
    omega
  · have htargets : targets depotDeclarations.tail 2 = [0] := by decide
    rw [htargets, List.mem_singleton] at hmem
    omega
  · cases hmem

theorem sort_moves_needed_depot :
    (Precedes (order depotDeclarations) 2 0 ∧
      ∃ k, k ≤ 0 ∧ TransGen (Leads depotDeclarations) k 2) ∧
    ((∀ i j, Leads depotDeclarations.tail i j → j < i) ∧
      sort depotDeclarations.tail = depotDeclarations.tail) ∧
    (∀ i, ¬ TransGen (Leads depotDeclarations) i i) ∧
      sort (sort depotDeclarations) = sort depotDeclarations := by
  have horder : order depotDeclarations = [1, 2, 0, 3] := by decide
  have hprecedes : Precedes (order depotDeclarations) 2 0 := by
    rw [horder]
    exact ⟨1, 2, by decide, rfl, rfl⟩
  obtain ⟨-, hmoved, -, hsorted⟩ := sort_moves_needed depotDeclarations
  obtain ⟨-, -, hstays, -⟩ := sort_moves_needed depotDeclarations.tail
  exact ⟨⟨hprecedes, hmoved 0 2 (by decide) hprecedes⟩,
    ⟨depotDeclarations_tail_descends, hstays depotDeclarations_tail_descends⟩,
    depotDeclarations_acyclic, hsorted depotDeclarations_acyclic⟩

end SchemaCodec.Declaration

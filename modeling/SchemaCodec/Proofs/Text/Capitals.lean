import SchemaCodec.Text.UpperCase
import Mathlib.Data.List.Chain

namespace SchemaCodec.Text

/-! Capital forms are final: no run of the table covers what another leads to. -/

namespace CaseRun

def capital (run : CaseRun) (code : Nat) : Nat :=
  (code + run.offset).toNat

/-- The capitals of the run are all even or all odd. -/
def isSpaced (run : CaseRun) : Bool :=
  run.step == 2 || run.first == run.last

/-- Whether no run covers a code point between the bounds, where those that count are all even or
all odd if `spaced`. The runs ascend, so the search is over at the first that begins too high. -/
def leavesOut (low high : Nat) (spaced : Bool) : List CaseRun → Bool
  | [] => true
  | run :: rest =>
    bif run.last.blt low then leavesOut low high spaced rest
    else high.blt run.first ||
      spaced && run.step == 2 && low % 2 != run.first % 2 && leavesOut low high spaced rest

/-- The capitals of the run are characters from `A` on, as are those that have them, and no run
covers them. -/
def isFinal (run : CaseRun) : Bool :=
  let low := run.capital run.first
  let high := run.capital run.last
  0x41 ≤ run.first && 0x41 ≤ low && (high < 0xd800 || 0xdfff < low && high < 0x110000) &&
    leavesOut low high run.isSpaced caseRuns

private theorem covers_iff {run : CaseRun} {code : Nat} : run.covers code = true ↔
    run.first ≤ code ∧ code ≤ run.last ∧ (code - run.first) % run.step = 0 := by
  simp [covers, and_assoc]

private theorem not_covers_of_leavesOut {low high code : Nat} {spaced : Bool} {runs : List CaseRun}
    (hascend : (runs.map first).Pairwise (· < ·)) (hleaves : leavesOut low high spaced runs = true)
    (hlow : low ≤ code) (hhigh : code ≤ high) (hspaced : spaced = true → code % 2 = low % 2) :
    ∀ run ∈ runs, ¬ run.covers code = true := by
  induction runs with
  | nil => exact List.forall_mem_nil _
  | cons run rest ih =>
      rw [List.map_cons, List.pairwise_cons] at hascend
      rw [List.forall_mem_cons, covers_iff]
      cases hbelow : run.last.blt low with
      | true =>
          rw [leavesOut, hbelow] at hleaves
          have hlast : run.last < low := by simpa using hbelow
          exact ⟨by omega, ih hascend.2 hleaves⟩
      | false =>
          rw [leavesOut, hbelow] at hleaves
          simp only [cond_false, Bool.or_eq_true, Bool.and_eq_true, bne_iff_ne, beq_iff_eq] at hleaves
          rcases hleaves with habove | ⟨⟨⟨hsparse, hstep⟩, hparity⟩, hrest⟩
          · have hfirst : high < run.first := by simpa using habove
            refine ⟨by omega, ?_⟩
            intro other hother hcovers
            have hnext := hascend.1 other.first (List.mem_map_of_mem hother)
            have hreached := (covers_iff.mp hcovers).1
            omega
          · have hsame := hspaced hsparse
            rw [hstep]
            exact ⟨by omega, ih hascend.2 hrest⟩

end CaseRun

open CaseRun

private theorem isFinal_of_mem {run : CaseRun} (h : run ∈ caseRuns) : run.isFinal = true := by
  have hall : caseRuns.all isFinal = true := by decide +kernel
  exact List.all_eq_true.mp hall run h

private theorem caseRuns_ascend : (caseRuns.map first).Pairwise (· < ·) := by
  have hchain : (caseRuns.map first).IsChain (· < ·) := by decide +kernel
  exact hchain.pairwise

/-- What the table says of a character that it covers. -/
structure IsCapital (code capital : Nat) : Prop where
  from_A : 0x41 ≤ code ∧ 0x41 ≤ capital
  valid : capital.isValidChar
  uncovered : ∀ run ∈ caseRuns, ¬ run.covers capital = true

private theorem isCapital_of_covers {run : CaseRun} {code : Nat} (hrun : run ∈ caseRuns)
    (hcovers : run.covers code = true) : IsCapital code (run.capital code) := by
  obtain ⟨hfirst, hlast, hstep⟩ := covers_iff.mp hcovers
  have hfinal := isFinal_of_mem hrun
  simp only [isFinal, Bool.and_eq_true, Bool.or_eq_true, decide_eq_true_eq] at hfinal
  obtain ⟨⟨⟨hsource, hlow⟩, hvalid⟩, hleaves⟩ := hfinal
  have hbounds : run.capital run.first ≤ run.capital code ∧
      run.capital code ≤ run.capital run.last := by
    unfold capital
    omega
  have hparity : run.isSpaced = true → run.capital code % 2 = run.capital run.first % 2 := by
    intro hspaced
    simp only [isSpaced, Bool.or_eq_true, beq_iff_eq] at hspaced
    rcases hspaced with htwo | hsingle
    · rw [htwo] at hstep
      unfold capital at hlow ⊢
      omega
    · have hcode : code = run.first := by omega
      rw [hcode]
  refine ⟨⟨by omega, by omega⟩, ?_, ?_⟩
  · unfold Nat.isValidChar
    omega
  · exact not_covers_of_leavesOut caseRuns_ascend hleaves hbounds.1 hbounds.2 hparity

private theorem upper_of_uncovered {c : Char} (h : ∀ run ∈ caseRuns, ¬ run.covers c.toNat = true) :
    upper c = c := by
  have hnone : caseRuns.find? (·.covers c.toNat) = none := List.find?_eq_none.mpr h
  rw [upper, hnone]

private theorem upper_cases (c : Char) : upper c = c ∨ IsCapital c.toNat (upper c).toNat := by
  cases hfind : caseRuns.find? (·.covers c.toNat) with
  | none => exact .inl (by rw [upper, hfind])
  | some run =>
      have hcovers := List.find?_some hfind
      have hcapital := isCapital_of_covers (List.mem_of_find?_eq_some hfind) hcovers
      have hcode : (upper c).toNat = run.capital c.toNat := by
        rw [upper, hfind]
        change (Char.ofNat (run.capital c.toNat)).toNat = _
        rw [Char.ofNat, dif_pos hcapital.valid]
        rfl
      exact .inr (hcode ▸ hcapital)

theorem upper_upper (c : Char) : upper (upper c) = upper c := by
  rcases upper_cases c with hsame | hcapital
  · rw [hsame, hsame]
  · exact upper_of_uncovered hcapital.uncovered

/-- Characters below `A` are neither changed nor what others are changed to. -/
theorem upper_eq_iff {c d : Char} (hd : d.toNat < 0x41) : upper c = d ↔ c = d := by
  constructor
  · rintro rfl
    rcases upper_cases c with hsame | hcapital
    · exact hsame.symm
    · have hfrom := hcapital.from_A.2
      omega
  · rintro rfl
    rcases upper_cases c with hsame | hcapital
    · exact hsame
    · have hfrom := hcapital.from_A.1
      omega

end SchemaCodec.Text

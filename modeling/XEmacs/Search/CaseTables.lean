import XEmacs.Lib.Rings
import XEmacs.Lib.Runs

/-!
# Case tables

A case table (`casetab.c`) holds four maps of characters: to lower case, to upper case, to the
canonical character of a class of characters that match each other, and from each character to
the next one of its class.
-/

namespace XEmacs.Search

open Rings

/-- `Emchar`: a character by its code. -/
abbrev Emchar := ℕ

/-- A char table of characters; `none` is nil. -/
abbrev CharTable := Emchar → Option Emchar

/-- `TRT_TABLE_OF`: a character without an entry stands for itself. -/
def trtTableOf (table : CharTable) (ch : Emchar) : Emchar :=
  (table ch).getD ch

/-- `Fput_char_table` for one character. -/
def putCharTable (ch value : Emchar) (table : CharTable) : CharTable :=
  Function.update table ch (some value)

/-- `struct Lisp_Case_Table`. -/
structure CaseTable where
  downcaseTable : CharTable
  upcaseTable : CharTable
  caseCanonTable : CharTable
  caseEqvTable : CharTable

/-- `TRANSLATE (trt, ch)` where `trt` is the canonicalize map. -/
def CaseTable.canon (ct : CaseTable) : Emchar → Emchar := trtTableOf ct.caseCanonTable

/-- `TRANSLATE (inverse_trt, ch)` where `inverse_trt` is the equivalence map. -/
def CaseTable.eqv (ct : CaseTable) : Emchar → Emchar := trtTableOf ct.caseEqvTable

def putCaseTablePair (uc lc : Emchar) (ct : CaseTable) : CaseTable where
  downcaseTable := putCharTable uc lc (putCharTable lc lc ct.downcaseTable)
  upcaseTable := putCharTable lc uc (putCharTable uc lc ct.upcaseTable)
  caseCanonTable := putCharTable uc lc (putCharTable lc lc ct.caseCanonTable)
  caseEqvTable := putCharTable lc uc (putCharTable uc lc ct.caseEqvTable)

/-- The `while (1)` loop of `boyer_moore` over the class of a character of the pattern: the
characters it gives the entries of the canonical one, in order. `none` is a loop that has not
ended after so many rounds. -/
def boyerMooreClass (ct : CaseTable) (fuel : ℕ) (untranslated : Emchar) : Option (List Emchar) :=
  tour ct.eqv (ct.canon untranslated) fuel (ct.canon untranslated)

/-! ## What a consistent table is -/

/-- The canonicalize map is idempotent, and the equivalence map permutes the characters with the
same canonical character in one cycle. -/
def CaseTable.Consistent (ct : CaseTable) : Prop := Ringed ct.canon ct.eqv

/-- The loop of `boyer_moore` ends for every character of a pattern, and visits exactly the
characters that match it. -/
def CaseTable.Searchable (ct : CaseTable) : Prop :=
  ∀ c, ∃ visited, (∃ n, ∀ fuel, n ≤ fuel → boyerMooreClass ct fuel c = some visited) ∧
    ∀ d, d ∈ visited ↔ ct.canon d = ct.canon c

theorem CaseTable.Consistent.searchable {ct : CaseTable} (h : ct.Consistent) : ct.Searchable := by
  intro c
  obtain ⟨visited, hends, hmem⟩ := h.tour_self (ct.canon c)
  refine ⟨visited, hends, fun d => ?_⟩
  rw [hmem d, h.idem]

/-- No character besides `uc` and `lc` matches one of them. -/
def CaseTable.Apart (ct : CaseTable) (uc lc : Emchar) : Prop := Rings.Apart ct.canon uc lc

/-- A table without entries: every character is alone in its class. -/
def emptyCaseTable : CaseTable where
  downcaseTable := fun _ => none
  upcaseTable := fun _ => none
  caseCanonTable := fun _ => none
  caseEqvTable := fun _ => none

theorem emptyCaseTable_consistent : emptyCaseTable.Consistent where
  idem _ := rfl
  ring x y := by
    constructor
    · rintro rfl
      exact ⟨0, rfl⟩
    · rintro ⟨n, rfl⟩
      exact (Function.iterate_fixed (f := emptyCaseTable.eqv) rfl n).symm

/-! ## One call -/

theorem trtTableOf_putCharTable (ch value : Emchar) (table : CharTable) :
    trtTableOf (putCharTable ch value table) = Function.update (trtTableOf table) ch value := by
  funext c
  by_cases hc : c = ch
  · subst hc
    simp [trtTableOf, putCharTable]
  · simp [trtTableOf, putCharTable, Function.update_of_ne hc]

theorem putCaseTablePair_canon (uc lc : Emchar) (ct : CaseTable) :
    (putCaseTablePair uc lc ct).canon = pairRep uc lc ct.canon := by
  simp only [CaseTable.canon, putCaseTablePair, trtTableOf_putCharTable, pairRep]

theorem putCaseTablePair_eqv (uc lc : Emchar) (ct : CaseTable) :
    (putCaseTablePair uc lc ct).eqv = pairNext uc lc ct.eqv := by
  simp only [CaseTable.eqv, putCaseTablePair, trtTableOf_putCharTable, pairNext]

theorem consistent_putCaseTablePair {ct : CaseTable} (h : ct.Consistent) (uc lc : Emchar) :
    (putCaseTablePair uc lc ct).Consistent ↔ ct.Apart uc lc := by
  unfold CaseTable.Consistent
  rw [putCaseTablePair_canon, putCaseTablePair_eqv]
  exact pair_iff h

/-! ## A sequence of calls -/

/-- A call of `put-case-table-pair` with its two characters. -/
def pairStep (ct : CaseTable) (pair : Emchar × Emchar) : Option CaseTable :=
  some (putCaseTablePair pair.1 pair.2 ct)

/-- **Case tables stay consistent**, and searches with them end and see every match, exactly
while no call names a character that already matches a third one. -/
theorem putCaseTablePairs_consistent {ct : CaseTable} (h : ct.Consistent)
    (pairs : List (Emchar × Emchar)) :
    Runs.Always pairStep (fun ct => ct.Consistent ∧ ct.Searchable) ct pairs ↔
      Runs.StepsMeet pairStep (fun ct pair => ct.Apart pair.1 pair.2) ct pairs := by
  refine Runs.always_iff_stepsMeet (fun _ hct => ⟨hct, hct.searchable⟩) ?_ ?_ h
  · intro ct pair hct hapart
    exact ⟨_, rfl, (consistent_putCaseTablePair hct _ _).mpr hapart⟩
  · rintro ct pair _ hct hno ⟨⟩ ⟨hct', -⟩
    exact hno ((consistent_putCaseTablePair hct _ _).mp hct')

/-- The letters A and B with their lower case letters. -/
theorem letters_consistent :
    Runs.Always pairStep (fun ct => ct.Consistent ∧ ct.Searchable) emptyCaseTable
      [(0x41, 0x61), (0x42, 0x62)] := by
  refine (putCaseTablePairs_consistent emptyCaseTable_consistent _).mpr ⟨?_, ?_⟩
  · rintro c (hc | hc)
    · exact .inl hc
    · exact .inr hc
  · rintro _ ⟨⟩
    refine ⟨fun c hc => ?_, fun _ _ => trivial⟩
    by_cases hA : c = 0x41 ∨ c = 0x61
    · obtain rfl | rfl := hA <;> exact absurd hc (by decide)
    · rwa [putCaseTablePair_canon, pairRep_of_ne hA] at hc

/-- After the pair A and a, the pair A and x takes A out of the class of a, where the
equivalence map still leads to A: the search for an a does not end. -/
theorem reusedLetter_search_loops :
    emptyCaseTable.Consistent ∧
      ∃ ct, Runs.after pairStep emptyCaseTable [(0x41, 0x61), (0x41, 0x78)] = some ct ∧
        ¬ ct.Consistent ∧ ∀ fuel, boyerMooreClass ct fuel 0x61 = none := by
  have hloop : ∀ fuel, tour (putCaseTablePair 0x41 0x78
      (putCaseTablePair 0x41 0x61 emptyCaseTable)).eqv 0x61 fuel 0x41 = none ∧
      tour (putCaseTablePair 0x41 0x78
        (putCaseTablePair 0x41 0x61 emptyCaseTable)).eqv 0x61 fuel 0x78 = none := by
    intro fuel
    induction fuel with
    | zero => exact ⟨rfl, rfl⟩
    | succ fuel ih =>
      -- A leads to x and x to A
      constructor
      · exact congrArg (Option.map (0x78 :: ·)) ih.2
      · exact congrArg (Option.map (0x41 :: ·)) ih.1
  have hends : ∀ fuel, boyerMooreClass (putCaseTablePair 0x41 0x78
      (putCaseTablePair 0x41 0x61 emptyCaseTable)) fuel 0x61 = none := by
    rintro (_ | fuel)
    · rfl
    · exact congrArg (Option.map (0x41 :: ·)) (hloop fuel).1
  refine ⟨emptyCaseTable_consistent, _, rfl, fun hct => ?_, hends⟩
  obtain ⟨visited, ⟨n, hn⟩, -⟩ := hct.searchable 0x61
  have := hn n le_rfl
  rw [hends n] at this
  cases this

end XEmacs.Search

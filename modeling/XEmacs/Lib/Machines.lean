import Mathlib.Data.Nat.Notation
import Mathlib.Logic.Relation

/-!
# Machines that run step by step

A step of a machine goes on to another state, ends with a result, or fails. `Ends` is the run to
the result, `runFor` computes it with a bound on the steps. The rules turn a fact about single
steps into one about runs.
-/

namespace Machines

/-- What a step comes to. -/
inductive Outcome (σ ρ : Type*)
  | next (s : σ)
  | done (r : ρ)

variable {σ τ ρ ε : Type*} {step : σ → Except ε (Outcome σ ρ)}

variable (step) in
/-- One step that goes on. -/
def Next (s s' : σ) : Prop := step s = .ok (.next s')

variable (step) in
/-- Some steps that all go on. -/
abbrev Reaches : σ → σ → Prop := Relation.ReflTransGen (Next step)

variable (step) in
/-- The run from a state ends with a result. -/
inductive Ends : σ → ρ → Prop
  | done {s : σ} {r : ρ} (h : step s = .ok (.done r)) : Ends s r
  | next {s s' : σ} {r : ρ} (h : step s = .ok (.next s')) (hs : Ends s' r) : Ends s r

variable (step) in
/-- The result of a run, if it ends within `n` steps. -/
def runFor : ℕ → σ → Option ρ
  | 0, _ => none
  | n + 1, s =>
    match step s with
    | .ok (.next s') => runFor n s'
    | .ok (.done r) => some r
    | .error _ => none

theorem Ends.of_runFor {n : ℕ} {s : σ} {r : ρ} (h : runFor step n s = some r) :
    Ends step s r := by
  induction n generalizing s with
  | zero => cases h
  | succ n ih =>
    rw [runFor] at h
    split at h
    · exact .next ‹_› (ih h)
    · cases h
      exact .done ‹_›
    · cases h

theorem Ends.exists_runFor {s : σ} {r : ρ} (h : Ends step s r) :
    ∃ n, ∀ m, n ≤ m → runFor step m s = some r := by
  induction h with
  | done hs =>
    refine ⟨1, fun m hm => ?_⟩
    obtain ⟨m, rfl⟩ := Nat.exists_eq_add_of_le' hm
    rw [runFor, hs]
  | next hs _ ih =>
    obtain ⟨n, hn⟩ := ih
    refine ⟨n + 1, fun m hm => ?_⟩
    obtain ⟨m, rfl⟩ := Nat.exists_eq_add_of_le' (Nat.le_trans (Nat.le_add_left 1 n) hm)
    rw [runFor, hs]
    exact hn m (by omega)

theorem Ends.of_reaches {s s' : σ} {r : ρ} (hsteps : Reaches step s s') (h : Ends step s' r) :
    Ends step s r := by
  induction hsteps using Relation.ReflTransGen.head_induction_on with
  | refl => exact h
  | head hs _ ih => exact .next hs ih

theorem Ends.unique {s : σ} {r r' : ρ} (h : Ends step s r) (h' : Ends step s r') : r = r' := by
  induction h with
  | done hs =>
    cases h' with
    | done hs' =>
      rw [hs] at hs'
      cases hs'
      rfl
    | next hs' _ =>
      rw [hs] at hs'
      cases hs'
  | next hs _ ih =>
    cases h' with
    | done hs' =>
      rw [hs] at hs'
      cases hs'
    | next hs' h' =>
      rw [hs] at hs'
      cases hs'
      exact ih h'

theorem Ends.of_keeps {I : σ → Prop} {P : ρ → Prop} {s : σ} {r : ρ} (h : Ends step s r)
    (hnext : ∀ s s', I s → Next step s s' → I s')
    (hdone : ∀ s r, I s → step s = .ok (.done r) → P r) (hI : I s) : P r := by
  induction h with
  | done hs => exact hdone _ _ hI hs
  | next hs _ ih => exact ih (hnext _ _ hI hs)

theorem not_ends {I : σ → Prop} {s : σ} (hnext : ∀ s, I s → ∃ s', Next step s s' ∧ I s')
    (hI : I s) (r : ρ) : ¬ Ends step s r := by
  intro h
  induction h with
  | done hs =>
    obtain ⟨s', hs', -⟩ := hnext _ hI
    rw [Next, hs] at hs'
    cases hs'
  | next hs _ ih =>
    obtain ⟨s', hs', hI'⟩ := hnext _ hI
    rw [Next, hs] at hs'
    cases hs'
    exact ih hI'

/-! ## Loops -/

/-- The machine of a loop: while `cond` holds it goes on by `body`, then it ends with `last`. -/
def whileDo (cond : σ → Bool) (body : σ → σ) (last : σ → ρ) (s : σ) : Except ε (Outcome σ ρ) :=
  .ok (if cond s then .next (body s) else .done (last s))

section Loops

variable {cond : σ → Bool} {body : σ → σ} {last : σ → ρ} {s : σ} {r : ρ}

theorem Ends.whileDo_next (hc : cond s = true)
    (h : Ends (whileDo (ε := ε) cond body last) (body s) r) :
    Ends (whileDo (ε := ε) cond body last) s r :=
  .next (by rw [whileDo, if_pos hc]) h

theorem Ends.whileDo_done (hc : cond s = false) :
    Ends (whileDo (ε := ε) cond body last) s (last s) :=
  .done (by rw [whileDo, hc, if_neg Bool.false_ne_true])

theorem Ends.of_whileDo_next (h : Ends (whileDo (ε := ε) cond body last) s r)
    (hc : cond s = true) : Ends (whileDo (ε := ε) cond body last) (body s) r := by
  cases h with
  | done h =>
    rw [whileDo, if_pos hc] at h
    cases h
  | next h hs =>
    rw [whileDo, if_pos hc] at h
    cases h
    exact hs

theorem Ends.whileDo_keeps {I : σ → Prop} (h : Ends (whileDo (ε := ε) cond body last) s r)
    (hstep : ∀ s, cond s = true → I s → I (body s)) (hI : I s) :
    ∃ s', I s' ∧ cond s' = false ∧ r = last s' := by
  induction h with
  | @done s r h =>
    rw [whileDo] at h
    by_cases hc : cond s = true
    · rw [if_pos hc] at h
      cases h
    · rw [if_neg hc] at h
      cases h
      exact ⟨s, hI, Bool.eq_false_iff.mpr hc, rfl⟩
  | @next s s' r h _ ih =>
    rw [whileDo] at h
    by_cases hc : cond s = true
    · rw [if_pos hc] at h
      cases h
      exact ih (hstep s hc hI)
    · rw [if_neg hc] at h
      cases h

end Loops

end Machines

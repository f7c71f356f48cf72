import Mathlib.Data.List.Basic

/-!
# Runs of a partial step function

A program that takes operations one after the other is a step function `step : σ → ι → Option σ`;
no state after a step means that the step does not end.
-/

namespace Runs

open List

variable {σ ι : Type*} (step : σ → ι → Option σ)

/-- The state after a run. -/
def after (s : σ) : List ι → Option σ
  | [] => some s
  | i :: l => (step s i).bind fun s' => after s' l

/-- A run has a state after every operation, and `P` holds in all of them and in
the first one. -/
def Always (P : σ → Prop) : σ → List ι → Prop
  | s, [] => P s
  | s, i :: l => P s ∧ ∃ s', step s i = some s' ∧ Always P s' l

/-- Every operation of a run meets `Ok` in the state it is applied to. -/
def StepsMeet (Ok : σ → ι → Prop) : σ → List ι → Prop
  | _, [] => True
  | s, i :: l => Ok s i ∧ ∀ s', step s i = some s' → StepsMeet Ok s' l

instance decidableStepsMeet (Ok : σ → ι → Prop) [∀ s i, Decidable (Ok s i)] :
    ∀ s l, Decidable (StepsMeet step Ok s l)
  | _, [] => isTrue trivial
  | s, i :: l =>
    have : Decidable (∀ s', step s i = some s' → StepsMeet step Ok s' l) :=
      match h : step s i with
      | none => isTrue fun _ h' => by cases h'
      | some s' =>
        have := decidableStepsMeet Ok s' l
        decidable_of_iff (StepsMeet step Ok s' l)
          ⟨fun hl t ht => Option.some.inj ht ▸ hl, fun hl => hl s' rfl⟩
    instDecidableAnd

variable {step} {P Inv : σ → Prop} {Ok : σ → ι → Prop}

theorem after_append {s : σ} (l₁ l₂ : List ι) :
    after step s (l₁ ++ l₂) = (after step s l₁).bind fun s' => after step s' l₂ := by
  induction l₁ generalizing s with
  | nil => rfl
  | cons i l ih =>
    rw [cons_append, after, after]
    cases step s i with
    | none => rfl
    | some s' => exact ih

theorem Always.head {s : σ} {l : List ι} (h : Always step P s l) : P s := by
  cases l with
  | nil => exact h
  | cons i l => exact h.1

theorem Always.exists_after {s : σ} {l₁ l₂ : List ι} (h : Always step P s (l₁ ++ l₂)) :
    ∃ s', after step s l₁ = some s' ∧ P s' := by
  induction l₁ generalizing s with
  | nil => exact ⟨s, rfl, h.head⟩
  | cons i l ih =>
    obtain ⟨-, s', hs, hl⟩ := h
    obtain ⟨s'', hrun, hP⟩ := ih hl
    exact ⟨s'', by rw [after, hs, Option.bind_some, hrun], hP⟩

theorem Always.after {s : σ} {l : List ι} (h : Always step P s l) :
    ∃ s', Runs.after step s l = some s' ∧ P s' := by
  rw [← append_nil l] at h
  exact h.exists_after

theorem Always.imp {Q : σ → Prop} (hPQ : ∀ s, P s → Q s) {s : σ} {l : List ι}
    (h : Always step P s l) : Always step Q s l := by
  induction l generalizing s with
  | nil => exact hPQ s h
  | cons i l ih =>
    obtain ⟨hP, s', hs, hl⟩ := h
    exact ⟨hPQ s hP, s', hs, ih hl⟩

theorem StepsMeet.of_forall {Q : ι → Prop} {s : σ} {l : List ι} (h : ∀ i ∈ l, Q i) :
    StepsMeet step (fun _ i => Q i) s l := by
  induction l generalizing s with
  | nil => trivial
  | cons i l ih =>
    exact ⟨h i (mem_cons_self ..), fun _ _ => ih fun j hj => h j (mem_cons_of_mem i hj)⟩

theorem StepsMeet.of_fixed {s : σ} {l : List ι} (hl : StepsMeet step Ok s l)
    (hs : ∀ i ∈ l, step s i = some s) : ∀ i ∈ l, Ok s i := by
  induction l with
  | nil => exact nofun
  | cons i l ih =>
    rintro j (_ | ⟨_, hj⟩)
    · exact hl.1
    · exact ih (hl.2 s (hs i (mem_cons_self ..)))
        (fun k hk => hs k (mem_cons_of_mem i hk)) j hj

/-- **The invariant rule**: what a step keeps when its condition is met, a run
keeps whose steps all meet theirs. -/
theorem Always.of_step
    (hstep : ∀ s i, Inv s → Ok s i → ∃ s', step s i = some s' ∧ Inv s') {s : σ}
    {l : List ι} (hs : Inv s) (hl : StepsMeet step Ok s l) : Always step Inv s l := by
  induction l generalizing s with
  | nil => exact hs
  | cons i l ih =>
    obtain ⟨s', hrun, hs'⟩ := hstep s i hs hl.1
    exact ⟨hs, s', hrun, ih hs' (hl.2 s' hrun)⟩

/-- **The invariant rule for steps that may not end**: what a step keeps where it ends,
if its condition is met, holds after the run, and before every step of it. -/
theorem StepsMeet.keeps {Safe : σ → ι → Prop}
    (hstep : ∀ s i, Inv s → Ok s i → Safe s i ∧ ∀ s', step s i = some s' → Inv s') {s : σ}
    {l : List ι} (hs : Inv s) (hl : StepsMeet step Ok s l) :
    StepsMeet step Safe s l ∧ ∀ s', after step s l = some s' → Inv s' := by
  induction l generalizing s with
  | nil =>
    refine ⟨trivial, fun s' hs' => ?_⟩
    cases hs'
    exact hs
  | cons i l ih =>
    obtain ⟨hsafe, hinv⟩ := hstep s i hs hl.1
    refine ⟨⟨hsafe, fun s' hs' => (ih (hinv s' hs') (hl.2 s' hs')).1⟩, fun s'' hrun => ?_⟩
    obtain ⟨s', hs', hrun⟩ := Option.bind_eq_some_iff.mp hrun
    exact (ih (hinv s' hs') (hl.2 s' hs')).2 s'' hrun

theorem StepsMeet.after_of_step
    (hstep : ∀ s i s', Inv s → Ok s i → step s i = some s' → Inv s') {s s' : σ} {l : List ι}
    (hl : StepsMeet step Ok s l) (hs : Inv s) (hrun : after step s l = some s') : Inv s' := by
  have hkeeps : ∀ s i, Inv s → Ok s i → True ∧ ∀ s', step s i = some s' → Inv s' :=
    fun s i hs hok => ⟨trivial, fun s' => hstep s i s' hs hok⟩
  exact (StepsMeet.keeps hkeeps hs hl).2 s' hrun

theorem keeps_after (hstep : ∀ s i s', Inv s → step s i = some s' → Inv s') {s s' : σ}
    {l : List ι} (hs : Inv s) (hrun : after step s l = some s') : Inv s' := by
  have hmeet : StepsMeet step (fun _ _ => True) s l := .of_forall fun _ _ => trivial
  exact hmeet.after_of_step (fun s i s' hs _ => hstep s i s' hs) hs hrun

/-- **The converse rule**: in a run of operations that break the property `P` when
their condition is not met, the property holds always only if all steps meet their
conditions. -/
theorem StepsMeet.of_always {Q : ι → Prop}
    (hstep : ∀ s i, Inv s → Ok s i → ∃ s', step s i = some s' ∧ Inv s')
    (hbreak : ∀ s i s', Inv s → Q i → ¬ Ok s i → step s i = some s' → ¬ P s') {s : σ}
    {l : List ι} (hs : Inv s) (hQ : ∀ i ∈ l, Q i) (h : Always step P s l) :
    StepsMeet step Ok s l := by
  induction l generalizing s with
  | nil => trivial
  | cons i l ih =>
    obtain ⟨-, s', hrun, hl⟩ := h
    have hok : Ok s i := by
      by_contra hno
      exact hbreak s i s' hs (hQ i (mem_cons_self ..)) hno hrun hl.head
    refine ⟨hok, fun s'' hrun' => ?_⟩
    obtain ⟨t, ht, hinv⟩ := hstep s i hs hok
    rw [hrun, Option.some.injEq] at ht hrun'
    rw [← hrun']
    exact ih (ht ▸ hinv) (fun j hj => hQ j (mem_cons_of_mem _ hj)) hl

/-- **The exact rule**: where a step keeps the invariant if its condition is met,
and breaks the property `P` the invariant gives if it is not, the property holds
always in a run if and only if all its steps meet their conditions. -/
theorem always_iff_stepsMeet (hP : ∀ s, Inv s → P s)
    (hstep : ∀ s i, Inv s → Ok s i → ∃ s', step s i = some s' ∧ Inv s')
    (hbreak : ∀ s i s', Inv s → ¬ Ok s i → step s i = some s' → ¬ P s') {s : σ}
    {l : List ι} (hs : Inv s) : Always step P s l ↔ StepsMeet step Ok s l :=
  ⟨StepsMeet.of_always (Q := fun _ => True) hstep
    (fun s i s' hInv _ => hbreak s i s' hInv) hs (fun _ _ => trivial),
    fun h => (Always.of_step hstep hs h).imp hP⟩

end Runs

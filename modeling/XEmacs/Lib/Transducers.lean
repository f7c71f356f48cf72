import Mathlib.Data.List.Basic

/-!
# Machines that read and write

A machine reads items one at a time. In each step it writes some items, or it fails. Its input
may come in parts: then it is called once for each part, and what it does at the end of a call
(`finish`) belongs to the result.
-/

namespace XEmacs.Transducer

variable {σ ι ο ε : Type}

/-- The steps for a list of items. -/
def run (step : σ → ι → Option (σ × List ο)) : σ → List ι → Option (σ × List ο)
  | s, [] => some (s, [])
  | s, i :: l =>
    (step s i).bind fun r => (run step r.1 l).map fun r' => (r'.1, r.2 ++ r'.2)

variable {step : σ → ι → Option (σ × List ο)}

@[simp] theorem run_nil (s : σ) : run step s [] = some (s, []) := rfl

theorem run_cons (s : σ) (i : ι) (l : List ι) :
    run step s (i :: l)
      = (step s i).bind fun r => (run step r.1 l).map fun r' => (r'.1, r.2 ++ r'.2) := rfl

theorem run_append (s : σ) (l l' : List ι) :
    run step s (l ++ l')
      = (run step s l).bind fun r => (run step r.1 l').map fun r' => (r'.1, r.2 ++ r'.2) := by
  induction l generalizing s with
  | nil => simp
  | cons i l ih =>
    rw [List.cons_append, run_cons, run_cons]
    cases step s i with
    | none => rfl
    | some r =>
      simp only [Option.bind_some, ih]
      cases run step r.1 l with
      | none => rfl
      | some r₁ =>
        simp only [Option.bind_some, Option.map_some]
        cases run step r₁.1 l' with
        | none => rfl
        | some r₂ => simp

/-- A call of the machine, for a part of the input. -/
def call (step : σ → ι → Option (σ × List ο)) (finish : σ → σ × List ο) (s : σ) (l : List ι) :
    Option (σ × List ο) :=
  (run step s l).map fun r => ((finish r.1).1, r.2 ++ (finish r.1).2)

/-- One call for each part. -/
def calls (step : σ → ι → Option (σ × List ο)) (finish : σ → σ × List ο) :
    σ → List (List ι) → Option (σ × List ο) :=
  run fun s part => call step finish s part

theorem calls_eq_run {finish : σ → σ × List ο} {P : σ → Prop}
    (hfinish : ∀ s, P s → finish s = (s, []))
    (hstep : ∀ s i r, P s → step s i = some r → P r.1) {s : σ} (hs : P s)
    (parts : List (List ι)) : calls step finish s parts = run step s parts.flatten := by
  have hrun : ∀ (l : List ι) {s : σ}, P s → ∀ r, run step s l = some r → P r.1 := by
    intro l
    induction l with
    | nil =>
      rintro s hs r ⟨⟩
      exact hs
    | cons i l ih =>
      intro s hs r hr
      rw [run_cons] at hr
      obtain ⟨r₁, hr₁, hr⟩ := Option.bind_eq_some_iff.mp hr
      obtain ⟨r₂, hr₂, rfl⟩ := Option.map_eq_some_iff.mp hr
      exact ih (hstep s i r₁ hs hr₁) r₂ hr₂
  induction parts generalizing s with
  | nil => rfl
  | cons part parts ih =>
    rw [List.flatten_cons, run_append, calls, run_cons, call]
    cases hpart : run step s part with
    | none => rfl
    | some r =>
      have hr := hrun part hs r hpart
      simp only [Option.map_some, Option.bind_some, hfinish r.1 hr, List.append_nil]
      rw [← ih hr]
      rfl

/-! ### The ends of the calls in the input -/

/-- The steps for items of which some are marked as the last one of a call. -/
def runCut (step : σ → ι → Option (σ × List ο)) (finish : σ → σ × List ο) :
    σ → List (ι × Bool) → Option (σ × List ο)
  | s, [] => some (s, [])
  | s, (i, last) :: l =>
    (step s i).bind fun r =>
      let r' := if last then ((finish r.1).1, r.2 ++ (finish r.1).2) else r
      (runCut step finish r'.1 l).map fun r'' => (r''.1, r'.2 ++ r''.2)

/-- The last item of a part is marked. -/
def markLast : List ι → List (ι × Bool)
  | [] => []
  | [i] => [(i, true)]
  | i :: i' :: l => (i, false) :: markLast (i' :: l)

theorem map_markLast (l : List ι) : (markLast l).map Prod.fst = l := by
  induction l with
  | nil => rfl
  | cons i l ih =>
    cases l with
    | nil => rfl
    | cons i' l => rw [markLast, List.map_cons, ih]

section Cuts

variable {finish : σ → σ × List ο}

theorem runCut_append (s : σ) (l l' : List (ι × Bool)) :
    runCut step finish s (l ++ l')
      = (runCut step finish s l).bind fun r =>
          (runCut step finish r.1 l').map fun r' => (r'.1, r.2 ++ r'.2) := by
  induction l generalizing s with
  | nil => simp [runCut]
  | cons i l ih =>
    rw [List.cons_append, runCut, runCut]
    cases step s i.1 with
    | none => rfl
    | some r =>
      simp only [Option.bind_some, ih]
      generalize (if i.2 = true then ((finish r.1).1, r.2 ++ (finish r.1).2) else r) = r₁
      cases runCut step finish r₁.1 l with
      | none => rfl
      | some r₂ =>
        simp only [Option.bind_some, Option.map_some]
        cases runCut step finish r₂.1 l' with
        | none => rfl
        | some r₃ => simp

theorem runCut_markLast (s : σ) {l : List ι} (hl : l ≠ []) :
    runCut step finish s (markLast l) = call step finish s l := by
  induction l generalizing s with
  | nil => exact absurd rfl hl
  | cons i l ih =>
    rw [call, run_cons]
    cases l with
    | nil =>
      simp only [markLast, runCut]
      cases step s i with
      | none => rfl
      | some r => simp
    | cons i' l =>
      rw [markLast, runCut]
      cases step s i with
      | none => rfl
      | some r =>
        simp only [Option.bind_some, Bool.false_eq_true, if_false]
        rw [ih r.1 (List.cons_ne_nil i' l), call]
        cases run step r.1 (i' :: l) with
        | none => rfl
        | some r' => simp

theorem calls_eq_runCut (hfinish : ∀ s, finish (finish s).1 = ((finish s).1, [])) {s : σ}
    (hs : finish s = (s, [])) (parts : List (List ι)) :
    calls step finish s parts = runCut step finish s (parts.flatMap markLast) := by
  induction parts generalizing s with
  | nil => rfl
  | cons part parts ih =>
    rw [List.flatMap_cons, calls, run_cons, runCut_append]
    by_cases hpart : part = []
    · subst hpart
      have hrest : run (fun s part => call step finish s part) s parts
          = runCut step finish s (parts.flatMap markLast) := ih hs
      have hcall : call step finish s [] = some (s, []) := by
        rw [call, run_nil, Option.map_some, hs]
        rfl
      rw [hcall, Option.bind_some, hrest]
      rfl
    · rw [runCut_markLast s hpart]
      cases hcall : call step finish s part with
      | none => rfl
      | some r =>
        have hr : finish r.1 = (r.1, []) := by
          obtain ⟨r₁, -, rfl⟩ := Option.map_eq_some_iff.mp hcall
          exact hfinish r₁.1
        simp only [Option.bind_some]
        rw [← ih hr]
        rfl

end Cuts

/-! ### Machines that write events -/

/-- Every event written out. -/
def render (write : ε → Option (List ο)) (events : List ε) : Option (List ο) :=
  (events.mapM write).map List.flatten

variable {write : ε → Option (List ο)}

@[simp] theorem render_nil : render write [] = some [] := rfl

theorem render_cons (e : ε) (l : List ε) :
    render write (e :: l)
      = (write e).bind fun out => (render write l).map fun out' => out ++ out' := by
  rw [render, render, List.mapM_cons]
  cases write e with
  | none => rfl
  | some out =>
    cases l.mapM write with
    | none => rfl
    | some outs => rfl

theorem render_append (l l' : List ε) :
    render write (l ++ l')
      = (render write l).bind fun out => (render write l').map fun out' => out ++ out' := by
  induction l with
  | nil =>
    rw [List.nil_append, render_nil, Option.bind_some]
    simp
  | cons e l ih =>
    rw [List.cons_append, render_cons, render_cons, ih]
    cases write e with
    | none => rfl
    | some out =>
      cases render write l with
      | none => rfl
      | some out₁ =>
        cases render write l' with
        | none => rfl
        | some out₂ => simp

/-- A machine without failures. -/
def scan (step : σ → ι → σ × List ε) : σ → List ι → σ × List ε
  | s, [] => (s, [])
  | s, i :: l => ((scan step (step s i).1 l).1, (step s i).2 ++ (scan step (step s i).1 l).2)

theorem scan_append {next : σ → ι → σ × List ε} (s : σ) (l l' : List ι) :
    scan next s (l ++ l')
      = ((scan next (scan next s l).1 l').1,
        (scan next s l).2 ++ (scan next (scan next s l).1 l').2) := by
  induction l generalizing s with
  | nil => rfl
  | cons i l ih => simp only [List.cons_append, scan, ih, List.append_assoc]

theorem forall_scan {next : σ → ι → σ × List ε} {P : ε → Prop}
    (h : ∀ s i, ∀ e ∈ (next s i).2, P e) (s : σ) (l : List ι) : ∀ e ∈ (scan next s l).2, P e := by
  induction l generalizing s with
  | nil => exact nofun
  | cons i l ih =>
    intro e he
    obtain he | he := List.mem_append.mp he
    · exact h s i e he
    · exact ih _ e he

theorem run_eq_render {next : σ → ι → σ × List ε}
    (h : ∀ s i, step s i = (render write (next s i).2).map fun out => ((next s i).1, out))
    (s : σ) (l : List ι) :
    run step s l = (render write (scan next s l).2).map fun out => ((scan next s l).1, out) := by
  induction l generalizing s with
  | nil => rfl
  | cons i l ih =>
    rw [run_cons, h, scan, render_append]
    cases render write (next s i).2 with
    | none => rfl
    | some out =>
      simp only [Option.map_some, Option.bind_some, ih, Option.map_map]
      rfl

/-- A call of a machine without failures. -/
def scanCall (next : σ → ι → σ × List ε) (finish : σ → σ × List ε) (s : σ) (l : List ι) :
    σ × List ε :=
  ((finish (scan next s l).1).1, (scan next s l).2 ++ (finish (scan next s l).1).2)

theorem scan_invariant {next : σ → ι → σ × List ε} {P : σ → Prop}
    (hstep : ∀ s i, P s → P (next s i).1) {s : σ} (hs : P s) (l : List ι) :
    P (scan next s l).1 := by
  induction l generalizing s with
  | nil => exact hs
  | cons i l ih => exact ih (hstep s i hs)

theorem scan_scanCall {next : σ → ι → σ × List ε} {finish : σ → σ × List ε} {P : σ → Prop}
    (hfinish : ∀ s, P s → finish s = (s, [])) (hstep : ∀ s i, P s → P (next s i).1) {s : σ}
    (hs : P s) (parts : List (List ι)) :
    scan (scanCall next finish) s parts = scan next s parts.flatten := by
  induction parts generalizing s with
  | nil => rfl
  | cons part parts ih =>
    have hpart := scan_invariant hstep hs part
    rw [List.flatten_cons, scan_append, scan, scanCall, hfinish _ hpart, ih hpart,
      List.append_nil]

theorem call_eq_render {next : σ → ι → σ × List ε} {finish : σ → σ × List ο}
    {finishEvents : σ → σ × List ε}
    (h : ∀ s i, step s i = (render write (next s i).2).map fun out => ((next s i).1, out))
    (hfinish : ∀ s, (finishEvents s).1 = (finish s).1 ∧
      render write (finishEvents s).2 = some (finish s).2) (s : σ) (l : List ι) :
    call step finish s l = (render write (scanCall next finishEvents s l).2).map
      fun out => ((scanCall next finishEvents s l).1, out) := by
  obtain ⟨hstate, hout⟩ := hfinish (scan next s l).1
  rw [call, run_eq_render h, scanCall, render_append, hout, hstate]
  cases render write (scan next s l).2 with
  | none => rfl
  | some out => rfl

end XEmacs.Transducer

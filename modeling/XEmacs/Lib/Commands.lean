import Mathlib.Data.List.Basic

/-!
# Commands over a state

A function of a program written in a language with assignment is a command.
-/

namespace Commands

/-- How a command ends. -/
inductive Outcome (σ α : Type)
  | diverges
  | aborts
  | signals (s : σ)
  | returns (a : α) (s : σ)

/-- A command: what happens from each state. -/
def Command (σ α : Type) : Type :=
  σ → Outcome σ α

variable {σ α β : Type}

instance : Monad (Command σ) where
  pure a := fun s => .returns a s
  bind x f := fun s =>
    match x s with
    | .diverges => .diverges
    | .aborts => .aborts
    | .signals s' => .signals s'
    | .returns a s' => f a s'

namespace Command

def state : Command σ σ :=
  fun s => .returns s s

def modify (f : σ → σ) : Command σ Unit :=
  fun s => .returns () (f s)

/-- Leave with an error. -/
def signal : Command σ α :=
  fun s => .signals s

def abort : Command σ α :=
  fun _ => .aborts

def diverge : Command σ α :=
  fun _ => .diverges

/-- Run a command on a condition. -/
def when (c : Bool) (x : Command σ Unit) : Command σ Unit :=
  if c then x else pure ()

end Command

/-- The state a command leaves behind, if it leaves one. -/
def Outcome.state? : Outcome σ α → Option σ
  | .diverges | .aborts => none
  | .signals s | .returns _ s => some s

section equations

variable (s : σ)

@[simp] theorem pure_apply (a : α) : (pure a : Command σ α) s = .returns a s :=
  rfl

@[simp] theorem state_apply : (Command.state : Command σ σ) s = .returns s s :=
  rfl

@[simp] theorem modify_apply (f : σ → σ) : Command.modify f s = .returns () (f s) :=
  rfl

@[simp] theorem signal_apply : (Command.signal : Command σ α) s = .signals s :=
  rfl

theorem bind_apply (x : Command σ α) (f : α → Command σ β) :
    (x >>= f) s = match x s with
      | .diverges => .diverges
      | .aborts => .aborts
      | .signals s' => .signals s'
      | .returns a s' => f a s' :=
  rfl

theorem bind_of_returns {x : Command σ α} {f : α → Command σ β} {a : α} {s s' : σ}
    (h : x s = .returns a s') : (x >>= f) s = f a s' := by
  rw [bind_apply, h]

end equations

/-! ### The program logic -/

/-- An outcome meets the condition for its kind. -/
def Outcome.Meets (A : Prop) (Q : α → σ → Prop) (E : σ → Prop) : Outcome σ α → Prop
  | .diverges => True
  | .aborts => A
  | .signals s => E s
  | .returns a s => Q a s

/-- Started where `P` holds, the command aborts only if `A`, returns only where `Q`
holds and signals only where `E` holds. -/
def Triple (A : Prop) (P : σ → Prop) (x : Command σ α) (Q : α → σ → Prop)
    (E : σ → Prop) : Prop :=
  ∀ s, P s → (x s).Meets A Q E

variable {A : Prop} {P C : σ → Prop} {Q Q' : α → σ → Prop} {E E' : σ → Prop}
  {x : Command σ α} {f : α → Command σ β} {R : β → σ → Prop}

theorem Triple.pure {a : α} (h : ∀ s, P s → Q a s) :
    Triple A P (Pure.pure a) Q E :=
  h

theorem Triple.modify {g : σ → σ} {Q : Unit → σ → Prop} (h : ∀ s, P s → Q () (g s)) :
    Triple A P (Command.modify g) Q E :=
  h

theorem Triple.state {Q : σ → σ → Prop} (h : ∀ s, P s → Q s s) :
    Triple A P Command.state Q E :=
  h

theorem Triple.signal (h : ∀ s, P s → E s) : Triple A P (Command.signal (α := α)) Q E :=
  h

theorem Triple.abort (h : A) : Triple A P (Command.abort (α := α)) Q E :=
  fun _ _ => h

theorem Triple.diverge : Triple A P (Command.diverge (α := α)) Q E :=
  fun _ _ => trivial

/-- **Sequence.** -/
theorem Triple.bind (hx : Triple A P x Q E) (hf : ∀ a, Triple A (Q a) (f a) R E) :
    Triple A P (x >>= f) R E := by
  intro s hs
  have h := hx s hs
  rw [bind_apply]
  cases hxs : x s with
  | diverges => trivial
  | aborts =>
    rw [hxs] at h
    exact h
  | signals s' =>
    rw [hxs] at h
    exact h
  | returns a s' =>
    rw [hxs] at h
    exact hf a s' h

theorem Outcome.Meets.imp {o : Outcome σ α} (h : o.Meets A Q E) (hQ : ∀ a s, Q a s → Q' a s)
    (hE : ∀ s, E s → E' s) : o.Meets A Q' E' := by
  cases o with
  | diverges => trivial
  | aborts => exact h
  | signals s => exact hE s h
  | returns a s => exact hQ a s h

/-- **Consequence.** -/
theorem Triple.conseq (h : Triple A P x Q E) (hP : ∀ s, C s → P s)
    (hQ : ∀ a s, Q a s → Q' a s) (hE : ∀ s, E s → E' s) : Triple A C x Q' E' :=
  fun s hs => (h s (hP s hs)).imp hQ hE

/-- **Conjunction.** -/
theorem Triple.and (h : Triple A P x Q E) (h' : Triple A P x Q' E') :
    Triple A P x (fun a s => Q a s ∧ Q' a s) (fun s => E s ∧ E' s) := by
  intro s hs
  have hx := h s hs
  have hx' := h' s hs
  cases hxs : x s with
  | diverges => trivial
  | aborts =>
    rw [hxs] at hx
    exact hx
  | signals s' =>
    rw [hxs] at hx hx'
    exact ⟨hx, hx'⟩
  | returns a s' =>
    rw [hxs] at hx hx'
    exact ⟨hx, hx'⟩

theorem Triple.state_bind {f : σ → Command σ β}
    (h : ∀ s, P s → Triple A (· = s) (f s) R E) : Triple A P (Command.state >>= f) R E :=
  fun s hs => h s hs s rfl

theorem Triple.when {c : Bool} {x : Command σ Unit}
    (h : Triple A P x (fun _ => P) E) : Triple A P (Command.when c x) (fun _ => P) E := by
  unfold Command.when
  split
  · exact h
  · exact Triple.pure fun _ hs => hs

/-- **A loop over a list**: the invariant speaks of the elements still to come. -/
theorem Triple.forM {f : α → Command σ PUnit} {I : List α → σ → Prop}
    (h : ∀ a l, Triple A (I (a :: l)) (f a) (fun _ => I l) E) (l : List α) :
    Triple A (I l) (l.forM f) (fun _ => I []) E := by
  induction l with
  | nil => exact Triple.pure fun s hs => hs
  | cons a l ih => exact Triple.bind (h a l) fun _ => ih

theorem Triple.foldlM {f : β → α → Command σ β} (h : ∀ b a, Triple A P (f b a) (fun _ => P) E)
    (b : β) (l : List α) : Triple A P (l.foldlM f b) (fun _ => P) E := by
  induction l generalizing b with
  | nil => exact Triple.pure fun s hs => hs
  | cons a l ih => exact Triple.bind (h b a) fun b' => ih b'

/-! ### Commands that end -/

/-- Total correctness: started where `P` holds, the command also ends. -/
def Total (A : Prop) (P : σ → Prop) (x : Command σ α) (Q : α → σ → Prop)
    (E : σ → Prop) : Prop :=
  Triple A P x Q E ∧ ∀ s, P s → x s ≠ .diverges

theorem Total.pure {a : α} (h : ∀ s, P s → Q a s) : Total A P (Pure.pure a) Q E :=
  ⟨Triple.pure h, fun _ _ h => by cases h⟩

theorem Total.modify {g : σ → σ} {Q : Unit → σ → Prop} (h : ∀ s, P s → Q () (g s)) :
    Total A P (Command.modify g) Q E :=
  ⟨Triple.modify h, fun _ _ h => by cases h⟩

theorem Total.signal (h : ∀ s, P s → E s) : Total A P (Command.signal (α := α)) Q E :=
  ⟨Triple.signal h, fun _ _ h => by cases h⟩

theorem Total.abort (h : A) : Total A P (Command.abort (α := α)) Q E :=
  ⟨Triple.abort h, fun _ _ h => by cases h⟩

/-- **Sequence.** -/
theorem Total.bind (hx : Total A P x Q E) (hf : ∀ a, Total A (Q a) (f a) R E) :
    Total A P (x >>= f) R E := by
  refine ⟨hx.1.bind fun a => (hf a).1, fun s hs => ?_⟩
  have hrun := hx.2 s hs
  have hmeets := hx.1 s hs
  rw [bind_apply]
  cases hxs : x s with
  | diverges => exact absurd hxs hrun
  | aborts => exact fun h => by cases h
  | signals s' => exact fun h => by cases h
  | returns a s' =>
    rw [hxs] at hmeets
    exact (hf a).2 s' hmeets

/-- **Consequence.** -/
theorem Total.conseq (h : Total A P x Q E) (hP : ∀ s, C s → P s)
    (hQ : ∀ a s, Q a s → Q' a s) (hE : ∀ s, E s → E' s) : Total A C x Q' E' :=
  ⟨h.1.conseq hP hQ hE, fun s hs => h.2 s (hP s hs)⟩

theorem Total.abort_mono {A' : Prop} (h : Total A P x Q E) (hA : A → A') : Total A' P x Q E := by
  refine ⟨fun s hs => ?_, h.2⟩
  have hx := h.1 s hs
  cases hxs : x s with
  | diverges => trivial
  | aborts =>
    rw [hxs] at hx
    exact hA hx
  | signals s' =>
    rw [hxs] at hx
    exact hx
  | returns a s' =>
    rw [hxs] at hx
    exact hx

theorem Total.state_bind {f : σ → Command σ β}
    (h : ∀ s, P s → Total A (· = s) (f s) R E) : Total A P (Command.state >>= f) R E :=
  ⟨Triple.state_bind fun s hs => (h s hs).1, fun s hs => (h s hs).2 s rfl⟩

theorem Total.of_and {φ : Prop} (h : φ → Total A P x Q E) :
    Total A (fun s => P s ∧ φ) x Q E :=
  ⟨fun s hs => (h hs.2).1 s hs.1, fun s hs => (h hs.2).2 s hs.1⟩

theorem Total.of_returns (h : ∀ s, P s → ∃ a s', x s = .returns a s' ∧ Q a s') :
    Total A P x Q E := by
  refine ⟨fun s hs => ?_, fun s hs => ?_⟩
  · obtain ⟨a, s', hrun, hQ⟩ := h s hs
    rw [hrun]
    exact hQ
  · obtain ⟨a, s', hrun, -⟩ := h s hs
    rw [hrun]
    exact fun h => by cases h

/-- **A loop over a list.** -/
theorem Total.forM {f : α → Command σ PUnit} {I : List α → σ → Prop} {l : List α}
    (h : ∀ a ∈ l, ∀ l', Total A (I (a :: l')) (f a) (fun _ => I l') E) :
    Total A (I l) (l.forM f) (fun _ => I []) E := by
  induction l with
  | nil => exact Total.pure fun s hs => hs
  | cons a l ih =>
    exact Total.bind (h a (List.mem_cons_self ..) l) fun _ =>
      ih fun b hb => h b (List.mem_cons_of_mem a hb)

theorem Triple.of_state? (h : Triple A P x (fun _ => E) E) {s s' : σ} (hs : P s)
    (hx : (x s).state? = some s') : E s' := by
  have := h s hs
  cases hxs : x s with
  | diverges => simp [hxs, Outcome.state?] at hx
  | aborts => simp [hxs, Outcome.state?] at hx
  | signals t =>
    rw [hxs] at this hx
    cases hx
    exact this
  | returns a t =>
    rw [hxs] at this hx
    cases hx
    exact this

end Commands

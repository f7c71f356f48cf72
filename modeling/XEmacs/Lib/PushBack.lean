import Mathlib.Data.List.Basic

/-!
# Queues with push-back

Things are taken from the front of a queue, up to a number of them or one alone, and others are
pushed back there. `Serves` tells what is left of a queue after some events; each may have to
meet a condition with what is left.
-/

namespace PushBack

variable {α : Type*}

/-- What happens to a queue. -/
inductive Event (α : Type*)
  | took (size : ℕ) (xs : List α)
  | single (x : α)
  | pushed (xs : List α)

/-- An event leads from a queue to another. -/
def Event.Leads : Event α → List α → List α → Prop
  | .took size xs, q, q' => q = xs ++ q' ∧ xs.length ≤ size
  | .single x, q, q' => q = x :: q'
  | .pushed xs, q, q' => q' = xs ++ q

variable (Ok : Event α → List α → Prop)

/-- What is left of a queue after some events. -/
inductive Serves (q : List α) : List (Event α) → List α → Prop
  | start : Serves q [] q
  | step {es : List (Event α)} {e : Event α} {q' q'' : List α} (h : Serves q es q')
      (hlead : e.Leads q' q'') (hok : Ok e q'') : Serves q (es ++ [e]) q''

variable {Ok} {q q₁ q₂ : List α} {es : List (Event α)} {e : Event α}

theorem Serves.last (h : Serves Ok q (es ++ [e]) q₂) :
    ∃ q₁, Serves Ok q es q₁ ∧ e.Leads q₁ q₂ ∧ Ok e q₂ := by
  generalize hes : es ++ [e] = es' at h
  cases h with
  | start => exact absurd hes (List.append_ne_nil_of_right_ne_nil _ (List.cons_ne_nil _ _))
  | step h hlead hok =>
    obtain ⟨rfl, rfl⟩ := List.append_singleton_inj.mp hes
    exact ⟨_, h, hlead, hok⟩

end PushBack

import Mathlib.Data.List.Nodup

/-!
# Chains of links

A linked structure is a function `next : α → Option α` that gives the node after a node, if there
is one. `Chain next o l` says that from `o` the links lead through the nodes of `l`, in this
order, and then end.
-/

namespace Chains

open List

variable {α : Type*}

/-- From `o`, the links lead through `l` and end. -/
inductive Chain (next : α → Option α) : Option α → List α → Prop where
  | nil : Chain next none []
  | cons {a : α} {l : List α} : Chain next (next a) l → Chain next (some a) (a :: l)

variable {next next' : α → Option α} {o : Option α} {l l' : List α}

theorem Chain.unique (hl : Chain next o l) (hl' : Chain next o l') : l = l' := by
  induction hl generalizing l' with
  | nil =>
    cases hl'
    rfl
  | cons _ ih =>
    cases hl' with
    | cons htail => rw [ih htail]

theorem Chain.first_eq (hl : Chain next o l) : o = l.head? := by
  cases hl <;> rfl

theorem Chain.of_mem (hl : Chain next o l) {a : α} (ha : a ∈ l) :
    ∃ l', Chain next (some a) l' ∧ l'.length ≤ l.length := by
  induction hl with
  | nil => exact absurd ha not_mem_nil
  | cons htail ih =>
    obtain rfl | ha := List.mem_cons.mp ha
    · exact ⟨_, .cons htail, Nat.le_refl _⟩
    · obtain ⟨l', hl', hlen⟩ := ih ha
      exact ⟨l', hl', Nat.le_succ_of_le hlen⟩

theorem Chain.nodup (hl : Chain next o l) : l.Nodup := by
  induction hl with
  | nil => exact nodup_nil
  | cons htail ih =>
    refine List.nodup_cons.mpr ⟨fun ha => ?_, ih⟩
    -- its chain would be the tail of itself
    obtain ⟨l', hl', hlen⟩ := htail.of_mem ha
    have heq := hl'.unique (.cons htail)
    rw [heq, length_cons] at hlen
    exact Nat.not_succ_le_self _ hlen

theorem Chain.forall_mem {P : α → Prop} (hnext : ∀ {a b}, P a → next a = some b → P b)
    (hl : Chain next o l) (ho : ∀ a ∈ o, P a) : ∀ a ∈ l, P a := by
  induction hl with
  | nil => exact fun a ha => absurd ha not_mem_nil
  | @cons a tail _ ih =>
    intro b hb
    obtain rfl | hb := List.mem_cons.mp hb
    · exact ho _ rfl
    · exact ih (fun c hc => hnext (ho a rfl) hc) b hb

theorem Chain.congr (hl : Chain next o l) (hsame : ∀ a ∈ l, next' a = next a) :
    Chain next' o l := by
  induction hl with
  | nil => exact .nil
  | @cons a tail _ ih =>
    refine .cons ?_
    rw [hsame a (mem_cons_self ..)]
    exact ih fun b hb => hsame b (mem_cons_of_mem a hb)

theorem Chain.ends_of_changed {e : α} (hl : Chain next o l)
    (hsame : ∀ a, a ≠ e → next' a = next a) (he : ∃ l', Chain next' (next' e) l') :
    ∃ l', Chain next' o l' := by
  classical
  induction hl with
  | nil => exact ⟨[], .nil⟩
  | @cons a tail _ ih =>
    by_cases ha : a = e
    · obtain ⟨l', hl'⟩ := he
      exact ⟨_, .cons (ha ▸ hl')⟩
    · obtain ⟨l', hl'⟩ := ih
      exact ⟨_, .cons (hsame a ha ▸ hl')⟩

theorem Chain.after {a : α} {l₁ l₂ : List α} (hl : Chain next o (l₁ ++ a :: l₂)) :
    Chain next (next a) l₂ := by
  induction l₁ generalizing o with
  | nil =>
    cases hl with
    | cons htail => exact htail
  | cons b l₁ ih =>
    cases hl with
    | cons htail => exact ih htail

theorem Chain.relink {a : α} {l₁ l₂ l₃ : List α} (hl : Chain next o (l₁ ++ a :: l₂))
    (hsame : ∀ b, b ≠ a → next' b = next b) (hl₃ : Chain next' (next' a) l₃) :
    Chain next' o (l₁ ++ a :: l₃) := by
  have hnodup := hl.nodup
  induction l₁ generalizing o with
  | nil =>
    cases hl with
    | cons _ => exact .cons hl₃
  | cons b l₁ ih =>
    cases hl with
    | cons htail =>
      rw [cons_append, nodup_cons] at hnodup
      have hne : b ≠ a := by
        rintro rfl
        exact hnodup.1 (mem_append_right _ (mem_cons_self ..))
      exact .cons (hsame b hne ▸ ih htail hnodup.2)

end Chains

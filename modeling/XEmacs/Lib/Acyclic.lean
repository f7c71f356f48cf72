import Mathlib.Algebra.BigOperators.Group.List.Basic
import Mathlib.Algebra.GroupWithZero.Nat
import Mathlib.Logic.Relation
import Mathlib.Order.Preorder.Finite
import Mathlib.Order.WellFounded

/-!
# Graphs without cycles

A relation has no cycle when nothing is related to itself by a chain of links. New links from one
element to others make a cycle only if one of these leads back to it (`NoCycle.link`).
-/

namespace Acyclic

open Relation

variable {ν : Type*} {r r' : ν → ν → Prop}

/-- Nothing leads to itself. -/
def NoCycle (r : ν → ν → Prop) : Prop :=
  ∀ a, ¬ TransGen r a a

theorem NoCycle.mono (h : NoCycle r) (hle : ∀ a b, r' a b → r a b) : NoCycle r' :=
  fun a ha => h a (TransGen.mono hle a a ha)

theorem transGen_link {m : ν} {D : ν → Prop} (hD : ∀ b, D b → ¬ ReflTransGen r b m)
    (hle : ∀ a b, r' a b → r a b ∨ a = m ∧ D b) {x y : ν} (h : TransGen r' x y) :
    TransGen r x y ∨ ReflTransGen r x m ∧ ∃ b, D b ∧ ReflTransGen r b y := by
  induction h with
  | single h =>
    obtain h | ⟨rfl, hb⟩ := hle _ _ h
    · exact .inl (.single h)
    · exact .inr ⟨.refl, _, hb, .refl⟩
  | tail _ h ih =>
    obtain ih | ⟨hx, b, hb, hby⟩ := ih
    · obtain h | ⟨rfl, hz⟩ := hle _ _ h
      · exact .inl (ih.tail h)
      · exact .inr ⟨ih.to_reflTransGen, _, hz, .refl⟩
    · obtain h | ⟨rfl, -⟩ := hle _ _ h
      · exact .inr ⟨hx, b, hb, hby.tail h⟩
      · exact absurd hby (hD b hb)

/-- **New links** from one element, to elements that do not lead to it, make no cycle. -/
theorem NoCycle.link (h : NoCycle r) {m : ν} {D : ν → Prop}
    (hD : ∀ b, D b → ¬ ReflTransGen r b m)
    (hle : ∀ a b, r' a b → r a b ∨ a = m ∧ D b) : NoCycle r' := by
  intro a ha
  obtain ha | ⟨ham, b, hb, hba⟩ := transGen_link hD hle ha
  · exact h a ha
  · exact hD b hb (hba.trans ham)

theorem NoCycle.wellFounded (h : NoCycle r) (hfin : {a | ∃ b, r a b}.Finite) :
    WellFounded fun b a => r a b := by
  refine wellFounded_iff_isEmpty_descending_chain.mpr ⟨fun ⟨f, hf⟩ => ?_⟩
  -- two places of a descending sequence hold the same element
  have hmem : ∀ n, f n ∈ {a | ∃ b, r a b} := fun n => ⟨f (n + 1), hf n⟩
  obtain ⟨i, j, hij, heq⟩ := Set.Finite.exists_lt_map_eq_of_forall_mem hmem hfin
  have hchain : ∀ n k, TransGen r (f n) (f (n + k + 1)) := by
    intro n k
    induction k with
    | zero => exact .single (hf n)
    | succ k ih => exact ih.tail (hf _)
  obtain ⟨k, rfl⟩ := Nat.exists_eq_add_of_lt hij
  have hcycle := hchain i k
  rw [← heq] at hcycle
  exact h _ hcycle

/-- **The weight** of a graph of lists of children. -/
theorem exists_weight {children : ν → List ν}
    (hwf : WellFounded fun b a => b ∈ children a) :
    ∃ w : ν → ℕ, ∀ a, w a = ((children a).map w).sum + 1 := by
  refine ⟨hwf.fix fun a rec => ((children a).attach.map fun b => rec b.1 b.2).sum + 1,
    fun a => ?_⟩
  rw [hwf.fix_eq]
  congr 2
  exact List.attach_map_val

end Acyclic

import Mathlib.Data.Set.Lattice
import Mathlib.Order.CompletePartialOrder

/-!
# Partitions given as lists of blocks

A block `b` has the elements `a` with `has b a`. A list of blocks partitions a set if each block has
an element, no element is in two of them, and the elements of the blocks are those of the set.
-/

namespace Blocks

open List

variable {α β ι : Type*} {has : β → Set α} {S T : Set α} {l m : List β} {b : β}

/-- The blocks of the list partition the set. -/
structure Partitions (has : β → Set α) (S : Set α) (l : List β) : Prop where
  nonempty : ∀ b ∈ l, (has b).Nonempty
  union : ∀ a, a ∈ S ↔ ∃ b ∈ l, a ∈ has b
  disjoint : l.Pairwise fun b c => Disjoint (has b) (has c)

namespace Partitions

theorem nil (h : S = ∅) : Partitions has S [] :=
  ⟨nofun, fun a => ⟨fun ha => absurd ha (h ▸ Set.notMem_empty a), nofun⟩, .nil⟩

theorem singleton (hne : S.Nonempty) (h : has b = S) : Partitions has S [b] := by
  refine ⟨fun c hc => ?_, fun a => ?_, pairwise_singleton ..⟩
  · rw [List.mem_singleton.mp hc, h]
    exact hne
  · rw [← h]
    exact ⟨fun ha => ⟨b, mem_singleton_self b, ha⟩, fun ⟨c, hc, ha⟩ =>
      List.mem_singleton.mp hc ▸ ha⟩

theorem congr (h : Partitions has S l) (hST : ∀ a, a ∈ S ↔ a ∈ T) : Partitions has T l :=
  Set.ext hST ▸ h

theorem subset (h : Partitions has S l) (hb : b ∈ l) : has b ⊆ S :=
  fun a ha => (h.union a).mpr ⟨b, hb, ha⟩

theorem append (h : Partitions has S l) (h' : Partitions has T m) (hdisjoint : Disjoint S T) :
    Partitions has (S ∪ T) (l ++ m) := by
  refine ⟨List.forall_mem_append.mpr ⟨h.nonempty, h'.nonempty⟩, fun a => ?_,
    List.pairwise_append.mpr ⟨h.disjoint, h'.disjoint, fun b hb c hc => ?_⟩⟩
  · rw [Set.mem_union, h.union, h'.union]
    simp only [mem_append, or_and_right, exists_or]
  · exact hdisjoint.mono (h.subset hb) (h'.subset hc)

theorem flatMap {is : List ι} {f : ι → List β} {S : ι → Set α}
    (h : ∀ i ∈ is, Partitions has (S i) (f i))
    (hdisjoint : is.Pairwise fun i j => Disjoint (S i) (S j)) :
    Partitions has {a | ∃ i ∈ is, a ∈ S i} (is.flatMap f) := by
  induction is with
  | nil => exact .nil (Set.eq_empty_of_forall_notMem fun a ⟨i, hi, _⟩ => nomatch hi)
  | cons i is ih =>
    rw [pairwise_cons] at hdisjoint
    rw [flatMap_cons]
    have hfirst := h i (mem_cons_self ..)
    have hrest := ih (fun j hj => h j (mem_cons_of_mem i hj)) hdisjoint.2
    have hboth := hfirst.append hrest (Set.disjoint_left.mpr fun a ha ⟨j, hj, ha'⟩ =>
      Set.disjoint_left.mp (hdisjoint.1 j hj) ha ha')
    refine ⟨hboth.nonempty, fun a => (iff_of_eq ?_).trans (hboth.union a), hboth.disjoint⟩
    simp only [Set.mem_ofPred_eq, mem_cons, exists_eq_or_imp, Set.mem_union]

theorem map {is : List ι} {f : ι → β} {S : ι → Set α} (hne : ∀ i ∈ is, (S i).Nonempty)
    (h : ∀ i ∈ is, has (f i) = S i) (hdisjoint : is.Pairwise fun i j => Disjoint (S i) (S j)) :
    Partitions has {a | ∃ i ∈ is, a ∈ S i} (is.map f) := by
  rw [map_eq_flatMap]
  exact flatMap (fun i hi => singleton (hne i hi) (h i hi)) hdisjoint

end Partitions

end Blocks

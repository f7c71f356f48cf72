import Mathlib.Data.List.Nodup
import Mathlib.Data.List.Perm.Basic
import Mathlib.Logic.Equiv.Basic

/-!
# Sorting lists by merging

A list is sorted by a predicate that says which of two elements comes first: each half is sorted
and the two are merged.
-/

namespace ListSort

open List

variable {α β : Type*}

section sort

variable (before : α → α → Bool)

/-- Merge two lists; the first one goes first where neither head comes before the other. -/
def listMerge : List α → List α → List α
  | [], l₂ => l₂
  | l₁, [] => l₁
  | a :: l₁, b :: l₂ =>
    if before b a then b :: listMerge (a :: l₁) l₂ else a :: listMerge l₁ (b :: l₂)
termination_by l₁ l₂ => l₁.length + l₂.length

/-- Sort both halves of a list and merge them. -/
def listSort (l : List α) : List α :=
  if l.length < 2 then l
  else
    listMerge before (listSort (l.take (l.length / 2))) (listSort (l.drop (l.length / 2)))
termination_by l.length
decreasing_by
  · rw [length_take]
    omega
  · rw [length_drop]
    omega

/-- The predicate is a strict weak order on the elements that satisfy `S`. -/
structure StrictWeakOn (S : α → Prop) : Prop where
  asymm : ∀ a b, S a → S b → before a b → before b a = false
  trans : ∀ a b c, S a → S b → S c → before a b → before b c → before a c
  incomp_trans : ∀ a b c, S a → S b → S c → before a b = false → before b a = false →
    before b c = false → before c b = false → before a c = false ∧ before c a = false

/-- No element comes before an earlier one. -/
def InOrder (l : List α) : Prop :=
  l.Pairwise fun a b => before b a = false

end sort

variable {before : α → α → Bool} {S : α → Prop} {l l₁ l₂ : List α}

theorem StrictWeakOn.neg_trans (h : StrictWeakOn before S) {a b c : α} (ha : S a) (hb : S b)
    (hc : S c) (hba : before b a = false) (hcb : before c b = false) : before c a = false := by
  by_contra hca
  rw [Bool.not_eq_false] at hca
  have hbc : before b c = false := by
    by_contra hbc
    rw [Bool.not_eq_false] at hbc
    rw [h.trans b c a hb hc ha hbc hca] at hba
    cases hba
  have hab : before a b = false := by
    by_contra hab
    rw [Bool.not_eq_false] at hab
    rw [h.trans c a b hc ha hb hca hab] at hcb
    cases hcb
  -- both are incomparable with `b`
  have hac := (h.incomp_trans a b c ha hb hc hab hba hbc hcb).2
  rw [hca] at hac
  cases hac

/-! ### Merging -/

theorem listMerge_perm (l₁ l₂ : List α) : (listMerge before l₁ l₂).Perm (l₁ ++ l₂) := by
  induction l₁, l₂ using listMerge.induct before with
  | case1 l₂ => rw [listMerge, nil_append]
  | case2 l₁ h =>
    rw [listMerge, append_nil]
    exact h
  | case3 a l₁ b l₂ hlt ih =>
    rw [listMerge, if_pos hlt]
    exact (ih.cons b).trans List.perm_middle.symm
  | case4 a l₁ b l₂ hlt ih =>
    rw [listMerge, if_neg hlt]
    exact ih.cons a

/-- **Merging** two lists in order gives one in order. -/
theorem StrictWeakOn.listMerge_inOrder (h : StrictWeakOn before S) (h₁ : ∀ a ∈ l₁, S a)
    (h₂ : ∀ a ∈ l₂, S a) (ho₁ : InOrder before l₁) (ho₂ : InOrder before l₂) :
    InOrder before (listMerge before l₁ l₂) := by
  induction l₁, l₂ using listMerge.induct before with
  | case1 l₂ => rwa [listMerge]
  | case2 l₁ hl₁ =>
    rw [listMerge]
    · exact ho₁
    · exact hl₁
  | case3 a l₁ b l₂ hlt ih =>
    obtain ⟨ha, -⟩ := List.pairwise_cons.mp ho₁
    obtain ⟨hb, ho₂⟩ := List.pairwise_cons.mp ho₂
    have hSa := h₁ a (mem_cons_self ..)
    have hSb := h₂ b (mem_cons_self ..)
    rw [listMerge, if_pos hlt]
    refine List.pairwise_cons.mpr
      ⟨fun x hx => ?_, ih h₁ (fun x hx => h₂ x (mem_cons_of_mem b hx)) ho₁ ho₂⟩
    obtain hx | hx := List.mem_append.mp ((listMerge_perm _ _).mem_iff.mp hx)
    · obtain rfl | hx' := List.mem_cons.mp hx
      · exact h.asymm b x hSb hSa hlt
      · exact h.neg_trans hSb hSa (h₁ x hx) (h.asymm b a hSb hSa hlt) (ha x hx')
    · exact hb x hx
  | case4 a l₁ b l₂ hlt ih =>
    obtain ⟨ha, ho₁⟩ := List.pairwise_cons.mp ho₁
    obtain ⟨hb, -⟩ := List.pairwise_cons.mp ho₂
    have hSa := h₁ a (mem_cons_self ..)
    have hSb := h₂ b (mem_cons_self ..)
    rw [Bool.not_eq_true] at hlt
    rw [listMerge, if_neg (by rw [hlt]; exact Bool.false_ne_true)]
    refine List.pairwise_cons.mpr
      ⟨fun x hx => ?_, ih (fun x hx => h₁ x (mem_cons_of_mem a hx)) h₂ ho₁ ho₂⟩
    obtain hx | hx := List.mem_append.mp ((listMerge_perm _ _).mem_iff.mp hx)
    · exact ha x hx
    · obtain rfl | hx' := List.mem_cons.mp hx
      · exact hlt
      · exact h.neg_trans hSa hSb (h₂ x hx) hlt (hb x hx')

theorem listMerge_of_inOrder (ho : InOrder before (l₁ ++ l₂)) :
    listMerge before l₁ l₂ = l₁ ++ l₂ := by
  induction l₁, l₂ using listMerge.induct before with
  | case1 l₂ => rw [listMerge, nil_append]
  | case2 l₁ h =>
    rw [listMerge, append_nil]
    exact h
  | case3 a l₁ b l₂ hlt ih =>
    have hba := (List.pairwise_append.mp ho).2.2 a (mem_cons_self ..) b
      (mem_cons_self ..)
    rw [hlt] at hba
    cases hba
  | case4 a l₁ b l₂ hlt ih =>
    rw [listMerge, if_neg hlt, ih ho.of_cons, cons_append]

theorem listMerge_map (f : β → α) (l₁ l₂ : List β) :
    listMerge before (l₁.map f) (l₂.map f) =
      (listMerge (fun a b => before (f a) (f b)) l₁ l₂).map f := by
  induction l₁, l₂ using listMerge.induct (fun a b => before (f a) (f b)) with
  | case1 l₂ => rw [map_nil, listMerge, listMerge]
  | case2 l₁ h =>
    cases l₁ with
    | nil => exact absurd rfl h
    | cons a l₁ => simp only [map_cons, map_nil, listMerge]
  | case3 a l₁ b l₂ hlt ih =>
    rw [map_cons, map_cons, listMerge, listMerge, if_pos hlt, if_pos hlt, map_cons,
      ← ih, map_cons]
  | case4 a l₁ b l₂ hlt ih =>
    rw [map_cons, map_cons, listMerge, listMerge, if_neg hlt, if_neg hlt, map_cons,
      ← ih, map_cons]

/-! ### Sorting -/

theorem listSort_perm (l : List α) : (listSort before l).Perm l := by
  induction l using listSort.induct with
  | case1 l h => rw [listSort, if_pos h]
  | case2 l h ih₁ ih₂ =>
    rw [listSort, if_neg h]
    refine (listMerge_perm _ _).trans ((ih₁.append ih₂).trans ?_)
    rw [take_append_drop]

theorem StrictWeakOn.listSort_inOrder (h : StrictWeakOn before S) (hl : ∀ a ∈ l, S a) :
    InOrder before (listSort before l) := by
  induction l using listSort.induct with
  | case1 l hlen =>
    rw [listSort, if_pos hlen]
    match l, hlen with
    | [], _ => exact .nil
    | [a], _ => exact pairwise_singleton _ a
  | case2 l hlen ih₁ ih₂ =>
    have hl₁ : ∀ a ∈ l.take (l.length / 2), S a := fun a ha => hl a (mem_of_mem_take ha)
    have hl₂ : ∀ a ∈ l.drop (l.length / 2), S a := fun a ha => hl a (mem_of_mem_drop ha)
    rw [listSort, if_neg hlen]
    exact h.listMerge_inOrder (fun a ha => hl₁ a ((listSort_perm _).mem_iff.mp ha))
      (fun a ha => hl₂ a ((listSort_perm _).mem_iff.mp ha)) (ih₁ hl₁) (ih₂ hl₂)

theorem listSort_of_inOrder (ho : InOrder before l) : listSort before l = l := by
  induction l using listSort.induct with
  | case1 l h => rw [listSort, if_pos h]
  | case2 l h ih₁ ih₂ =>
    have hl := take_append_drop (l.length / 2) l
    rw [listSort, if_neg h, ih₁ (ho.sublist (take_sublist ..)),
      ih₂ (ho.sublist (drop_sublist ..))]
    rw [listMerge_of_inOrder (hl.symm ▸ ho), hl]

theorem listSort_map (f : β → α) (l : List β) :
    listSort before (l.map f) = (listSort (fun a b => before (f a) (f b)) l).map f := by
  induction l using listSort.induct with
  | case1 l h => rw [listSort, length_map, if_pos h, listSort, if_pos h]
  | case2 l h ih₁ ih₂ =>
    rw [listSort, length_map, if_neg h, ← map_take, ← map_drop, ih₁, ih₂,
      listMerge_map]
    conv_rhs => rw [listSort, if_neg h]

theorem StrictWeakOn.compare_eq (h : StrictWeakOn before S) {a b c : α} (ha : S a) (hb : S b)
    (hc : S c) (hab : before a b = false) (hba : before b a = false) :
    before a c = before b c ∧ before c a = before c b := by
  constructor
  · cases hbc : before b c with
    | false => exact h.neg_trans hc hb ha hbc hab
    | true =>
      by_contra hac
      rw [h.neg_trans hc ha hb (eq_false_of_ne_true hac) hba] at hbc
      cases hbc
  · cases hcb : before c b with
    | false => exact h.neg_trans ha hb hc hba hcb
    | true =>
      by_contra hca
      rw [h.neg_trans hb ha hc hab (eq_false_of_ne_true hca)] at hcb
      cases hcb

/-! ### Stability -/

/-- The predicate does not tell two elements apart. -/
def alike (before : α → α → Bool) (a b : α) : Bool := !before a b && !before b a

theorem alike_iff {a b : α} :
    alike before a b = true ↔ before a b = false ∧ before b a = false := by
  rw [alike, Bool.and_eq_true, Bool.not_eq_true', Bool.not_eq_true']

theorem StrictWeakOn.irrefl (h : StrictWeakOn before S) {a : α} (ha : S a) :
    before a a = false := by
  by_contra hlt
  rw [Bool.not_eq_false] at hlt
  rw [h.asymm a a ha ha hlt] at hlt
  cases hlt

theorem StrictWeakOn.listMerge_stable (h : StrictWeakOn before S) (h₁ : ∀ a ∈ l₁, S a)
    (h₂ : ∀ a ∈ l₂, S a) (ho : InOrder before l₁) {x : α} (hx : S x) :
    (listMerge before l₁ l₂).filter (alike before x) =
      l₁.filter (alike before x) ++ l₂.filter (alike before x) := by
  induction l₁, l₂ using listMerge.induct before with
  | case1 l₂ => rw [listMerge, filter_nil, nil_append]
  | case2 l₁ hl₁ =>
    rw [listMerge, filter_nil, append_nil]
    exact hl₁
  | case3 a l₁ b l₂ hlt ih =>
    have ha := h₁ a (mem_cons_self ..)
    have hb := h₂ b (mem_cons_self ..)
    rw [listMerge, if_pos hlt, filter_cons, filter_cons (x := b),
      ih h₁ (fun y hy => h₂ y (mem_cons_of_mem b hy)) ho]
    by_cases hxb : alike before x b = true
    · -- nothing like `b` is left in a list whose head it comes before
      have hnone : (a :: l₁).filter (alike before x) = [] := by
        refine List.filter_eq_nil_iff.mpr fun y hy hxy => ?_
        obtain ⟨hxb, hbx⟩ := alike_iff.mp hxb
        obtain ⟨hxy, hyx⟩ := alike_iff.mp hxy
        have hy' := h₁ y hy
        have hya : before y a = true := by
          rw [← (h.compare_eq hx hy' ha hxy hyx).1, (h.compare_eq hx hb ha hxb hbx).1, hlt]
        obtain rfl | hy := List.mem_cons.mp hy
        · rw [h.irrefl ha] at hya
          cases hya
        · rw [(List.pairwise_cons.mp ho).1 y hy] at hya
          cases hya
      rw [if_pos hxb, if_pos hxb, hnone, nil_append, nil_append]
    · rw [if_neg hxb, if_neg hxb]
  | case4 a l₁ b l₂ hlt ih =>
    rw [listMerge, if_neg hlt, filter_cons, filter_cons (x := a),
      ih (fun y hy => h₁ y (mem_cons_of_mem a hy)) h₂ ho.of_cons]
    split <;> rfl

/-- **Sorting is stable**: the elements like a given one keep their order. -/
theorem StrictWeakOn.listSort_stable (h : StrictWeakOn before S) (hl : ∀ a ∈ l, S a) {x : α}
    (hx : S x) : (listSort before l).filter (alike before x) = l.filter (alike before x) := by
  induction l using listSort.induct with
  | case1 l hlen => rw [listSort, if_pos hlen]
  | case2 l hlen ih₁ ih₂ =>
    have hl₁ : ∀ a ∈ l.take (l.length / 2), S a := fun a ha => hl a (mem_of_mem_take ha)
    have hl₂ : ∀ a ∈ l.drop (l.length / 2), S a := fun a ha => hl a (mem_of_mem_drop ha)
    rw [listSort, if_neg hlen, h.listMerge_stable
      (fun a ha => hl₁ a ((listSort_perm _).mem_iff.mp ha))
      (fun a ha => hl₂ a ((listSort_perm _).mem_iff.mp ha)) (h.listSort_inOrder hl₁) hx,
      ih₁ hl₁, ih₂ hl₂, ← List.filter_append, take_append_drop]

theorem StrictWeakOn.listSort_sublist (h : StrictWeakOn before S) (hl : ∀ a ∈ l, S a) {a b : α}
    (hab : [a, b].Sublist l) (halike : alike before a b = true) :
    [a, b].Sublist (listSort before l) := by
  have ha : S a := hl a (hab.subset (mem_cons_self ..))
  have haa : alike before a a = true := alike_iff.mpr ⟨h.irrefl ha, h.irrefl ha⟩
  have hfilter : [a, b].filter (alike before a) = [a, b] := by
    rw [filter_cons_of_pos haa, filter_cons_of_pos halike, filter_nil]
  have hsub := hab.filter (alike before a)
  rw [hfilter, ← h.listSort_stable hl ha] at hsub
  exact hsub.trans filter_sublist

/-- **Sorting is canonical** by a strict weak order if and only if it tells any two elements
apart. -/
theorem listSort_canonical_iff (h : StrictWeakOn before (· ∈ l)) (hl : l.Nodup) :
    (∀ l₁ l₂ : List α, l₁.Perm l → l₂.Perm l → listSort before l₁ = listSort before l₂) ↔
      ∀ a ∈ l, ∀ b ∈ l, a ≠ b → before a b ∨ before b a := by
  classical
  constructor
  · intro hsame a ha b hb hne
    by_contra hincomp
    rw [not_or, Bool.not_eq_true, Bool.not_eq_true] at hincomp
    obtain ⟨hab, hba⟩ := hincomp
    have hperm : (listSort before l).Perm l := listSort_perm l
    have horder := h.listSort_inOrder fun a ha => ha
    generalize listSort before l = r at hperm horder
    -- the two exchanged in a list that is in order leave it in order
    have hlike : ∀ x ∈ l, Equiv.swap a b x ∈ l ∧ ∀ c ∈ l,
        before (Equiv.swap a b x) c = before x c ∧ before c (Equiv.swap a b x) = before c x := by
      intro x hx
      by_cases hxa : x = a
      · rw [hxa, Equiv.swap_apply_left]
        exact ⟨hb, fun c hc => h.compare_eq hb ha hc hba hab⟩
      by_cases hxb : x = b
      · rw [hxb, Equiv.swap_apply_right]
        exact ⟨ha, fun c hc => h.compare_eq ha hb hc hab hba⟩
      rw [Equiv.swap_apply_of_ne_of_ne hxa hxb]
      exact ⟨hx, fun c _ => ⟨rfl, rfl⟩⟩
    have horder' : InOrder before (r.map (Equiv.swap a b)) := by
      refine List.pairwise_map.mpr (horder.imp_of_mem fun {x y} hx hy hyx => ?_)
      have hxl := hperm.mem_iff.mp hx
      have hyl := hperm.mem_iff.mp hy
      rw [((hlike y hyl).2 _ (hlike x hxl).1).1, ((hlike x hxl).2 y hyl).2]
      exact hyx
    have hperm' : (r.map (Equiv.swap a b)).Perm l := by
      refine (perm_ext_iff_of_nodup ?_ hl).mpr fun x => ?_
      · exact (hperm.nodup_iff.mpr hl).map (Equiv.swap a b).injective
      · rw [mem_map]
        constructor
        · rintro ⟨y, hy, rfl⟩
          exact (hlike y (hperm.mem_iff.mp hy)).1
        · exact fun hx => ⟨_, hperm.mem_iff.mpr (hlike x hx).1, Equiv.swap_apply_self a b x⟩
    have heq := hsame _ _ hperm hperm'
    rw [listSort_of_inOrder horder, listSort_of_inOrder horder'] at heq
    have hfix : r.map id = r.map (Equiv.swap a b) := (map_id r).trans heq
    have hswap := List.map_inj_left.mp hfix a (hperm.mem_iff.mpr ha)
    rw [Equiv.swap_apply_left] at hswap
    exact hne hswap
  · intro htotal l₁ l₂ h₁ h₂
    refine List.Perm.eq_of_pairwise (fun a b ha hb hba hab => ?_)
      (h.listSort_inOrder fun a ha => h₁.mem_iff.mp ha)
      (h.listSort_inOrder fun a ha => h₂.mem_iff.mp ha)
      (((listSort_perm l₁).trans h₁).trans ((listSort_perm l₂).trans h₂).symm)
    by_contra hne
    have hal := h₁.mem_iff.mp ((listSort_perm l₁).mem_iff.mp ha)
    have hbl := h₂.mem_iff.mp ((listSort_perm l₂).mem_iff.mp hb)
    obtain h | h := htotal a hal b hbl hne
    · rw [h] at hab
      cases hab
    · rw [h] at hba
      cases hba

end ListSort

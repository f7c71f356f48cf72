import Mathlib.Data.List.Basic
import Mathlib.Data.List.Nodup
import Mathlib.Order.Lattice

/-!
# Lists in the order of a key

The elements of a list stand in the order of a key, and elements with the same key in an order of
their own.
-/

namespace KeyedLists

open List

/-- A binary search: halve the interval between `left` and `right` until it is empty. The first
argument bounds the rounds. -/
def bisect (below : Nat → Bool) : Nat → Nat → Nat → Nat
  | 0, left, _ => left
  | rounds + 1, left, right =>
    if left = right then left
    else
      let mid := (left + right) / 2
      if below mid then bisect below rounds (mid + 1) right
      else bisect below rounds left mid

theorem bisect_eq {below : Nat → Bool} {k : Nat} :
    ∀ {rounds left right : Nat}, left ≤ k → k ≤ right → right - left ≤ rounds →
      (∀ i, left ≤ i → i < right → (below i = true ↔ i < k)) →
      bisect below rounds left right = k
  | 0, left, right, hl, hr, hrounds, _ => by
    rw [bisect]
    omega
  | rounds + 1, left, right, hl, hr, hrounds, hbelow => by
    rw [bisect]
    split
    · omega
    · have hmid := hbelow ((left + right) / 2) (by omega) (by omega)
      dsimp only
      split
      · rename_i h
        have hlt := hmid.mp h
        exact bisect_eq (by omega) hr (by omega) fun i hi => hbelow i (by omega)
      · rename_i h
        have hge := mt hmid.mpr h
        exact bisect_eq hl (by omega) (by omega) fun i hi hi' => hbelow i hi (by omega)

theorem takeWhile_congr {α : Type*} {p q : α → Bool} :
    ∀ {l : List α}, (∀ a ∈ l, p a = q a) → l.takeWhile p = l.takeWhile q
  | [], _ => rfl
  | a :: l, h => by
    rw [takeWhile_cons, takeWhile_cons, h a (mem_cons_self ..),
      takeWhile_congr fun b hb => h b (mem_cons_of_mem a hb)]

theorem dropWhile_congr {α : Type*} {p q : α → Bool} :
    ∀ {l : List α}, (∀ a ∈ l, p a = q a) → l.dropWhile p = l.dropWhile q
  | [], _ => rfl
  | a :: l, h => by
    rw [dropWhile_cons, dropWhile_cons, h a (mem_cons_self ..),
      dropWhile_congr fun b hb => h b (mem_cons_of_mem a hb)]

theorem insert_filter {α : Type*} [DecidableEq α] {P q : α → Bool} {l₁ l₂ : List α} {e : α}
    (h₁ : ∀ a ∈ l₁, P a = true → q a = true) (h₂ : ∀ a ∈ l₂, P a = true → q a = false)
    (he : P e = false) (hnodup : (l₁ ++ e :: l₂).Nodup) :
    ((l₁ ++ e :: l₂).filter P).take (((l₁ ++ e :: l₂).filter P).countP q) ++
        ([e] ++ ((l₁ ++ e :: l₂).filter P).drop (((l₁ ++ e :: l₂).filter P).countP q))
      = (l₁ ++ e :: l₂).filter fun a => P a || a == e := by
  have hne := (List.nodup_middle.mp hnodup).notMem
  have hpart : (l₁ ++ e :: l₂).filter P = l₁.filter P ++ l₂.filter P := by
    rw [List.filter_append, filter_cons_of_neg (by rw [he]; decide)]
  have hcount : (l₁.filter P ++ l₂.filter P).countP q = (l₁.filter P).length := by
    rw [countP_append, List.countP_eq_length.mpr fun a ha => ?_,
      List.countP_eq_zero.mpr fun a ha => ?_, Nat.add_zero]
    · obtain ⟨ha, hPa⟩ := List.mem_filter.mp ha
      rw [h₂ a ha hPa]
      decide
    · obtain ⟨ha, hPa⟩ := List.mem_filter.mp ha
      exact h₁ a ha hPa
  have hcongr : ∀ l : List α, e ∉ l → l.filter (fun a => P a || a == e) = l.filter P := by
    intro l hl
    refine filter_congr fun a ha => ?_
    have hae : a ≠ e := fun hae => hl (hae ▸ ha)
    rw [beq_eq_false_iff_ne.mpr hae, Bool.or_false]
  rw [hpart, hcount, take_left, drop_left, List.filter_append,
    filter_cons_of_pos (by rw [beq_self_eq_true, Bool.or_true]),
    hcongr l₁ fun h => hne (mem_append_left _ h),
    hcongr l₂ fun h => hne (mem_append_right _ h)]
  rfl

theorem dropWhile_perm_iff {α : Type*} {q r : α → Bool} :
    ∀ {l : List α}, ((l.dropWhile fun a => !q a).filter r).Perm (l.filter fun a => q a && r a) ↔
      l.Pairwise fun a b => q a = true → r b = true → q b = true
  | [] => iff_of_true (.refl _) .nil
  | a :: l => by
    cases hqa : q a with
    | false =>
      rw [dropWhile_cons_of_pos (by rw [hqa]; rfl),
        filter_cons_of_neg (by rw [hqa, Bool.false_and]; decide), dropWhile_perm_iff,
        pairwise_cons]
      exact (and_iff_right fun b _ hq => absurd (hqa.symm.trans hq) (by decide)).symm
    | true =>
      rw [dropWhile_cons_of_neg (by rw [hqa]; decide)]
      constructor
      · intro hperm
        refine pairwise_of_forall_mem_list fun _ _ b hb _ hrb => ?_
        have hmem := hperm.mem_iff.mp (List.mem_filter.mpr ⟨hb, hrb⟩)
        exact (Bool.and_eq_true .. ▸ of_mem_filter hmem).1
      · intro hpairs
        refine .of_eq (filter_congr fun b hb => ?_)
        rcases List.mem_cons.mp hb with rfl | hb
        · rw [hqa, Bool.true_and]
        · cases hrb : r b with
          | false => rw [Bool.and_false]
          | true => rw [(List.pairwise_cons.mp hpairs).1 b hb hqa hrb, Bool.true_and]

section order

variable {α κ : Type*} [LinearOrder κ] (key : α → κ)

/-- The keys do not decrease. -/
def InOrder (l : List α) : Prop := l.Pairwise fun a b => key a ≤ key b

instance (l : List α) : Decidable (InOrder key l) :=
  inferInstanceAs (Decidable (l.Pairwise fun a b => key a ≤ key b))

/-- A property that goes down with the key. -/
def Initial (p : α → Bool) : Prop := ∀ a b, key a ≤ key b → p b = true → p a = true

variable {key} {l l₁ l₂ : List α} {p : α → Bool} {a : α}

theorem initial_lt (k : κ) : Initial key fun a => key a < k :=
  fun _ _ hab hb => decide_eq_true (lt_of_le_of_lt hab (of_decide_eq_true hb))

theorem initial_le (k : κ) : Initial key fun a => key a ≤ k :=
  fun _ _ hab hb => decide_eq_true (le_trans hab (of_decide_eq_true hb))

theorem InOrder.filter_append (h : InOrder key l) (hp : Initial key p) :
    l.filter p ++ l.filter (fun a => !p a) = l := by
  induction l with
  | nil => rfl
  | cons a l ih =>
    obtain ⟨ha, hl⟩ := List.pairwise_cons.mp h
    cases hpa : p a with
    | true =>
      rw [filter_cons_of_pos hpa, filter_cons_of_neg (by rw [hpa]; decide),
        cons_append, ih hl]
    | false =>
      have hnone : l.filter p = [] := by
        refine List.filter_eq_nil_iff.mpr fun b hb hpb => ?_
        rw [hp a b (ha b hb) hpb] at hpa
        cases hpa
      have hall : l.filter (fun a => !p a) = l := by
        rw [← nil_append (l.filter _), ← hnone, ih hl]
      rw [filter_cons_of_neg (by rw [hpa]; decide), hnone,
        filter_cons_of_pos (by rw [hpa]; rfl), hall]
      rfl

theorem InOrder.take_countP (h : InOrder key l) (hp : Initial key p) :
    l.take (l.countP p) = l.filter p := by
  rw [countP_eq_length_filter]
  exact (congrArg (List.take _) (h.filter_append hp)).symm.trans take_left

theorem InOrder.drop_countP (h : InOrder key l) (hp : Initial key p) :
    l.drop (l.countP p) = l.filter fun a => !p a := by
  rw [countP_eq_length_filter]
  exact (congrArg (List.drop _) (h.filter_append hp)).symm.trans drop_left

theorem InOrder.takeWhile_eq_filter (h : InOrder key l) (hp : Initial key p) :
    l.takeWhile p = l.filter p := by
  induction l with
  | nil => rfl
  | cons a l ih =>
    obtain ⟨ha, hl⟩ := List.pairwise_cons.mp h
    cases hpa : p a with
    | true => rw [takeWhile_cons_of_pos hpa, filter_cons_of_pos hpa, ih hl]
    | false =>
      rw [takeWhile_cons_of_neg (by rw [hpa]; decide),
        filter_cons_of_neg (by rw [hpa]; decide)]
      refine (List.filter_eq_nil_iff.mpr fun b hb hpb => ?_).symm
      rw [hp a b (ha b hb) hpb] at hpa
      cases hpa

theorem InOrder.dropWhile_eq_filter (h : InOrder key l) (hp : Initial key p) :
    l.dropWhile p = l.filter fun a => !p a := by
  have hsplit := takeWhile_append_dropWhile (p := p) (l := l)
  rw [h.takeWhile_eq_filter hp] at hsplit
  exact append_cancel_left (hsplit.trans (h.filter_append hp).symm)

theorem InOrder.countP_add (h : InOrder key l) {q : α → Bool} (hp : Initial key p)
    (hq : Initial key q) (hpq : ∀ a, p a = true → q a = true) :
    l.countP p + ((l.drop (l.countP p)).takeWhile q).length = l.countP q := by
  have hdrop : InOrder key (l.drop (l.countP p)) := List.Pairwise.sublist (drop_sublist ..) h
  have htake : (l.take (l.countP p)).countP q = l.countP p := by
    rw [h.take_countP hp, countP_eq_length_filter (l := l), countP_eq_length]
    exact fun a ha => hpq a (of_mem_filter ha)
  rw [hdrop.takeWhile_eq_filter hq, ← countP_eq_length_filter]
  conv_rhs => rw [← take_append_drop (l.countP p) l, countP_append, htake]

theorem InOrder.getElem?_iff (h : InOrder key l) (hp : Initial key p) {i : Nat}
    (hi : l[i]? = some a) : p a = true ↔ i < l.countP p := by
  rw [← h.filter_append hp] at hi
  rw [countP_eq_length_filter]
  rcases Nat.lt_or_ge i (l.filter p).length with hlt | hge
  · rw [getElem?_append_left hlt] at hi
    exact iff_of_true (of_mem_filter (mem_of_getElem? hi)) hlt
  · rw [getElem?_append_right hge] at hi
    refine iff_of_false (fun hpa => ?_) (Nat.not_lt.mpr hge)
    have := of_mem_filter (mem_of_getElem? hi)
    rw [hpa] at this
    cases this

/-- **The binary search** counts the elements with an initial property. -/
theorem InOrder.bisect_countP (h : InOrder key l) (hp : Initial key p) {below : Nat → Bool}
    (hbelow : ∀ i a, l[i]? = some a → below i = p a) :
    bisect below l.length 0 l.length = l.countP p := by
  refine bisect_eq (Nat.zero_le _) countP_le_length (Nat.sub_le ..) fun i _ hi => ?_
  have hget := getElem?_eq_getElem hi
  rw [hbelow i _ hget]
  exact h.getElem?_iff hp hget

theorem InOrder.sublist (h : InOrder key l₂) (hl : l₁.Sublist l₂) : InOrder key l₁ :=
  List.Pairwise.sublist hl h

theorem InOrder.cons_iff :
    InOrder key (a :: l) ↔ (∀ b ∈ l, key a ≤ key b) ∧ InOrder key l :=
  pairwise_cons

theorem InOrder.append_iff :
    InOrder key (l₁ ++ l₂) ↔
      InOrder key l₁ ∧ InOrder key l₂ ∧ ∀ a ∈ l₁, ∀ b ∈ l₂, key a ≤ key b :=
  pairwise_append

end order

end KeyedLists

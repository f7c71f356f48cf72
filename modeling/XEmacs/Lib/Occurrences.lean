import Mathlib.Data.List.Range

/-!
# The occurrences of an element in a list

`places t l` are the places at which `t` stands in `l`, and `pass t n l` is what a scan of `l`
for the `n`-th `t` comes to: how many elements it passes, and how many `t` it leaves unfound.
-/

namespace Occurrences

open List

variable {α : Type*} [DecidableEq α]

/-- The places of `t` in `l`. -/
def places (t : α) (l : List α) : List Nat := (List.range l.length).filter (l[·]? = some t)

/-- A scan for the `n`-th `t`: how many elements are passed, and how many `t` are left
unfound. -/
def pass (t : α) : Nat → List α → Nat × Nat
  | 0, _ => (0, 0)
  | n + 1, [] => (0, n + 1)
  | n + 1, a :: l =>
    let (k, r) := pass t (if a = t then n else n + 1) l
    (k + 1, r)

variable {t : α}

theorem places_cons (a : α) (l : List α) :
    places t (a :: l) = (if a = t then [0] else []) ++ (places t l).map (· + 1) := by
  have htail : (List.range l.length).filter ((fun i => (a :: l)[i]? = some t) ∘ Nat.succ)
      = places t l := rfl
  rw [places, length_cons, range_succ_eq_map, filter_cons, filter_map]
  by_cases h : a = t <;> simp [h, places, Function.comp_def]

theorem places_append (l l' : List α) :
    places t (l ++ l') = places t l ++ (places t l').map (· + l.length) := by
  induction l with
  | nil => simp [places]
  | cons a l ih =>
    rw [cons_append, places_cons, places_cons, ih, map_append, map_map,
      append_assoc]
    rfl

theorem places_reverse (l : List α) :
    places t l.reverse = (places t l).reverse.map (l.length - 1 - ·) := by
  induction l with
  | nil => rfl
  | cons a l ih =>
    have hone : places t [a] = if a = t then [0] else [] := by
      rw [places_cons]
      exact append_nil _
    rw [reverse_cons, places_append, ih, hone, places_cons, reverse_append,
      map_append, ← map_reverse, map_map, length_reverse, length_cons,
      Nat.add_sub_cancel]
    congr 1
    · refine map_congr_left fun i _ => ?_
      simp only [Function.comp_apply]
      omega
    · split_ifs <;> simp

@[simp]
theorem pass_zero (l : List α) : pass t 0 l = (0, 0) := by cases l <;> rfl

@[simp]
theorem pass_nil (n : Nat) : pass t n [] = (0, n) := by cases n <;> rfl

theorem pass_append {l : List α} (h : t ∉ l) (l' : List α) {n : Nat} (hn : 1 ≤ n) :
    pass t n (l ++ l') = (l.length + (pass t n l').1, (pass t n l').2) := by
  obtain ⟨n, rfl⟩ : ∃ m, n = m + 1 := ⟨n - 1, by omega⟩
  induction l with
  | nil => rw [nil_append, length_nil, Nat.zero_add]
  | cons a l ih =>
    obtain ⟨ha, hl⟩ := not_or.mp (mt List.mem_cons.mpr h)
    rw [cons_append, pass, if_neg (Ne.symm ha), ih hl, length_cons]
    simp only [Prod.mk.injEq, and_true]
    omega

theorem pass_found {l : List α} (h : t ∉ l) (l' : List α) (n : Nat) :
    pass t (n + 1) (l ++ t :: l') = (l.length + 1 + (pass t n l').1, (pass t n l').2) := by
  rw [pass_append h _ (Nat.le_add_left 1 n), pass, if_pos rfl]
  simp only [Prod.mk.injEq, and_true]
  omega

theorem pass_eq {l : List α} {n : Nat} (hn : 1 ≤ n) :
    pass t n l = match (places t l)[n - 1]? with
      | some i => (i + 1, 0)
      | none => (l.length, n - (places t l).length) := by
  induction l generalizing n with
  | nil => simp [places]
  | cons a l ih =>
    obtain ⟨n, rfl⟩ : ∃ m, n = m + 1 := ⟨n - 1, by omega⟩
    rw [pass, places_cons, Nat.add_sub_cancel]
    by_cases ha : a = t
    · rw [if_pos ha, if_pos ha, singleton_append, length_cons]
      cases n with
      | zero => simp
      | succ n =>
        rw [ih (Nat.le_add_left 1 n), getElem?_cons_succ, getElem?_map,
          Nat.add_sub_cancel]
        cases (places t l)[n]? with
        | some i => rfl
        | none =>
          simp only [Option.map_none, length_cons, length_map, Prod.mk.injEq, true_and]
          omega
    · rw [if_neg ha, if_neg ha, nil_append, getElem?_map, ih (Nat.le_add_left 1 n),
        Nat.add_sub_cancel, length_map]
      cases (places t l)[n]? <;> rfl

end Occurrences

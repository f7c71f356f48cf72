import Mathlib.Data.List.Basic
import Mathlib.Data.Nat.Notation

/-!
# Strides of a Boyer-Moore search

A text is given by its element at each place, and a pattern is looked for by the place of its
last element.
-/

namespace BoyerMoore

open List

variable {α : Type*}

/-- The pattern ends at the place `c`. -/
def EndsAt (text : ℕ → α) (q : List α) (c : ℕ) : Prop :=
  q.length ≤ c + 1 ∧ ∀ k (hk : k < q.length), text (c + 1 - q.length + k) = q[k]

theorem EndsAt.getLast {text : ℕ → α} {q : List α} {c : ℕ} (h : EndsAt text q c) (hq : q ≠ []) :
    text c = q.getLast hq := by
  have hpos := List.length_pos_iff.mpr hq
  have hle := h.1
  rw [getLast_eq_getElem, ← h.2 (q.length - 1) (by omega)]
  congr 1
  omega

theorem endsAt_reverse_iff {text m : ℕ → α} {l : List α} {c p : ℕ} (hlen : l.length ≤ c + 1)
    (hm : ∀ k < l.length, text (c - k) = m (p + k)) :
    EndsAt text l.reverse c ↔ ∀ k (hk : k < l.length), m (p + k) = l[k] := by
  have hback : ∀ k < l.length, c + 1 - l.reverse.length + (l.length - 1 - k) = c - k := by
    intro k hk
    rw [length_reverse]
    omega
  constructor
  · rintro ⟨-, h⟩ k hk
    have hk' : l.length - 1 - k < l.reverse.length := by
      rw [length_reverse]
      omega
    have hend := h (l.length - 1 - k) hk'
    rw [hback k hk, hm k hk, getElem_reverse] at hend
    rw [hend]
    congr 1
    omega
  · refine fun h => ⟨by rwa [length_reverse], fun k hk => ?_⟩
    have hk' : k < l.length := by rwa [length_reverse] at hk
    have hsame := hback (l.length - 1 - k) (by omega)
    rw [show l.length - 1 - (l.length - 1 - k) = k by omega] at hsame
    rw [hsame, hm _ (by omega), h _ (by omega), getElem_reverse]

/-- How far the pattern is moved on where the text has `x` at its last element. -/
def stride [DecidableEq α] (q : List α) (x : α) : ℕ := q.dropLast.reverse.findIdx (· == x) + 1

section Stride

variable [DecidableEq α] {q : List α} {text : ℕ → α}

theorem stride_pos (q : List α) (x : α) : 1 ≤ stride q x := Nat.le_add_left _ _

theorem stride_le (hq : q ≠ []) (x : α) : stride q x ≤ q.length := by
  have hle : q.dropLast.reverse.findIdx (· == x) ≤ q.dropLast.reverse.length :=
    findIdx_le_length
  have hpos := List.length_pos_iff.mpr hq
  rw [length_reverse, length_dropLast] at hle
  rw [stride]
  omega

theorem stride_le_of_endsAt {c d : ℕ} (hq : q ≠ []) (hcd : c < d) (hd : EndsAt text q d) :
    c + stride q (text c) ≤ d := by
  have hpos := List.length_pos_iff.mpr hq
  by_cases hfar : c + q.length ≤ d
  · have := stride_le hq (text c)
    omega
  -- the element is one of the pattern that ends at `d`
  have hk : c + q.length - 1 - d < q.length := by omega
  have hsame : text c = q[c + q.length - 1 - d] := by
    rw [← hd.2 _ hk]
    congr 1
    have := hd.1
    omega
  by_contra hlt
  have hlt' : d - c - 1 < q.dropLast.reverse.findIdx (· == text c) := by
    rw [stride] at hlt
    omega
  have hnot := not_of_lt_findIdx hlt'
  have hlt'' : d - c - 1 < q.dropLast.reverse.length :=
    Nat.lt_of_lt_of_le hlt' findIdx_le_length
  have hget : q.dropLast.reverse[d - c - 1] = q[c + q.length - 1 - d] := by
    rw [getElem_reverse, getElem_dropLast]
    congr 1
    rw [length_dropLast]
    omega
  rw [hget, hsame] at hnot
  simp at hnot

end Stride

/-- The places taken from `c` on, `n` of them if there are as many. -/
inductive Taken (hit : ℕ → Prop) (len : ℕ) : ℕ → ℕ → List ℕ → Prop where
  | enough {c : ℕ} : Taken hit len c 0 []
  | fewer {c n : ℕ} (h : ∀ d, c ≤ d → ¬ hit d) : Taken hit len c (n + 1) []
  | take {c d n : ℕ} {ds : List ℕ} (hcd : c ≤ d) (hd : hit d)
      (hnearest : ∀ e, c ≤ e → e < d → ¬ hit e) (h : Taken hit len (d + len) n ds) :
      Taken hit len c (n + 1) (d :: ds)

namespace Taken

variable {hit : ℕ → Prop} {len c n : ℕ} {ds : List ℕ}

theorem skip {c' : ℕ} (h : Taken hit len c n ds) (hnot : ∀ d, hit d → c ≤ d → c' ≤ d)
    (hle : c ≤ c') : Taken hit len c' n ds := by
  cases h with
  | enough => exact .enough
  | fewer h => exact .fewer fun d hd => h d (Nat.le_trans hle hd)
  | take hcd hd hnearest h =>
    exact .take (hnot _ hd hcd) hd (fun e he => hnearest e (Nat.le_trans hle he)) h

theorem of_hit (h : Taken hit len c (n + 1) ds) (hc : hit c) :
    ∃ ds', ds = c :: ds' ∧ Taken hit len (c + len) n ds' := by
  cases h with
  | fewer h => exact absurd hc (h c (Nat.le_refl c))
  | @take _ d _ ds hcd hd hnearest h =>
    obtain rfl : c = d := by
      refine Nat.le_antisymm hcd (Nat.not_lt.mp fun hlt => ?_)
      exact hnearest c (Nat.le_refl c) hlt hc
    exact ⟨ds, rfl, h⟩

theorem eq_nil (h : Taken hit len c n ds) (hnot : ∀ d, c ≤ d → ¬ hit d) : ds = [] := by
  cases h with
  | enough => rfl
  | fewer => rfl
  | take hcd hd _ _ => exact absurd hd (hnot _ hcd)

end Taken

end BoyerMoore

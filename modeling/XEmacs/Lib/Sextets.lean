import Mathlib.Data.List.Basic

/-!
# Bytes as digits of six bits

Three bytes are four digits, two bytes three of them and one byte two; a group is filled up with
pads to four (`Group`).
-/

namespace Sextets

/-- A group of digits, where there are no pads, and its bytes. -/
inductive Group : List (Option ℕ) → List ℕ → Prop
  | one (v w : ℕ) : Group [some v, some w, none, none] [v * 4 + w / 16]
  | two (v w x : ℕ) : Group [some v, some w, some x, none] [v * 4 + w / 16, w % 16 * 16 + x / 4]
  | three (v w x y : ℕ) : Group [some v, some w, some x, some y]
      [v * 4 + w / 16, w % 16 * 16 + x / 4, x % 4 * 64 + y]

/-- Groups of digits and their bytes. -/
inductive Groups : List (Option ℕ) → List ℕ → Prop
  | nil : Groups [] []
  | cons {g s : List (Option ℕ)} {bs bytes : List ℕ} (hg : Group g bs) (h : Groups s bytes) :
      Groups (g ++ s) (bs ++ bytes)

/-- The digits of some bytes. -/
def digits : List ℕ → List (Option ℕ)
  | [] => []
  | [a] => [some (a / 4), some (a % 4 * 16), none, none]
  | [a, b] => [some (a / 4), some (a % 4 * 16 + b / 16), some (b % 16 * 4), none]
  | a :: b :: c :: bytes =>
    some (a / 4) :: some (a % 4 * 16 + b / 16) :: some (b % 16 * 4 + c / 64) :: some (c % 64) ::
      digits bytes

variable {g g' s s' : List (Option ℕ)} {bs bs' bytes bytes' : List ℕ}

theorem Group.length (h : Group g bs) : g.length = 4 := by cases h <;> rfl

theorem Group.length_le (h : Group g bs) : bs.length ≤ g.length := by
  cases h <;> simp

theorem Group.unique (h : Group g bs) (h' : Group g bs') : bs = bs' := by
  cases h <;> cases h' <;> rfl

theorem Groups.split (h : Groups (g ++ s) bytes) (hg : Group g bs) :
    ∃ bytes', bytes = bs ++ bytes' ∧ Groups s bytes' := by
  generalize hs : g ++ s = s' at h
  cases h with
  | nil =>
    have hlength := hg.length
    rw [(List.append_eq_nil_iff.mp hs).1] at hlength
    cases hlength
  | cons hg' h =>
    obtain ⟨rfl, rfl⟩ := List.append_inj hs (hg.length.trans hg'.length.symm)
    exact ⟨_, by rw [hg.unique hg'], h⟩

theorem Groups.shape (h : Groups s bytes) : s = [] ∨
    ∃ v w p q s', s = some v :: some w :: p :: q :: s' ∧ (p = none → q = none) := by
  cases h with
  | nil => exact .inl rfl
  | cons hg =>
    cases hg with
    | one v w => exact .inr ⟨v, w, none, none, _, rfl, id⟩
    | two v w x => exact .inr ⟨v, w, some x, none, _, rfl, nofun⟩
    | three v w x y => exact .inr ⟨v, w, some x, some y, _, rfl, nofun⟩

theorem Groups.unique (h : Groups s bytes) (h' : Groups s bytes') : bytes = bytes' := by
  induction h generalizing bytes' with
  | nil =>
    generalize hs : [] = s at h'
    cases h' with
    | nil => rfl
    | cons hg =>
      have hlength := hg.length
      rw [(List.append_eq_nil_iff.mp hs.symm).1] at hlength
      cases hlength
  | cons hg _ ih =>
    obtain ⟨bytes₂, rfl, h₂⟩ := h'.split hg
    rw [ih h₂]

theorem Groups.length_le (h : Groups s bytes) : bytes.length ≤ s.length := by
  induction h with
  | nil => exact Nat.le_refl _
  | cons hg _ ih =>
    rw [List.length_append, List.length_append]
    exact Nat.add_le_add hg.length_le ih

theorem Groups.eq_nil (h : Groups s []) : s = [] := by
  generalize hbytes : [] = bytes at h
  cases h with
  | nil => rfl
  | cons hg _ =>
    have hnone := (List.append_eq_nil_iff.mp hbytes.symm).1
    cases hg <;> cases hnone

/-- **What is written can be read**. -/
theorem groups_digits (h : ∀ b ∈ bytes, b < 256) : Groups (digits bytes) bytes := by
  fun_induction digits bytes with
  | case1 => exact .nil
  | case2 a =>
    have hgroup := Group.one (a / 4) (a % 4 * 16)
    have ha : a / 4 * 4 + a % 4 * 16 / 16 = a := by omega
    rw [ha] at hgroup
    exact .cons hgroup .nil
  | case3 a b =>
    have hb := h b (by simp)
    have hgroup := Group.two (a / 4) (a % 4 * 16 + b / 16) (b % 16 * 4)
    have ha : a / 4 * 4 + (a % 4 * 16 + b / 16) / 16 = a := by omega
    have hb : (a % 4 * 16 + b / 16) % 16 * 16 + b % 16 * 4 / 4 = b := by omega
    rw [ha, hb] at hgroup
    exact .cons hgroup .nil
  | case4 a b c bytes ih =>
    have hb := h b (by simp)
    have hc := h c (by simp)
    have hgroup := Group.three (a / 4) (a % 4 * 16 + b / 16) (b % 16 * 4 + c / 64) (c % 64)
    have ha : a / 4 * 4 + (a % 4 * 16 + b / 16) / 16 = a := by omega
    have hb : (a % 4 * 16 + b / 16) % 16 * 16 + (b % 16 * 4 + c / 64) / 4 = b := by omega
    have hc : (b % 16 * 4 + c / 64) % 4 * 64 + c % 64 = c := by omega
    rw [ha, hb, hc] at hgroup
    exact .cons hgroup (ih fun d hd => h d (by simp [hd]))

end Sextets

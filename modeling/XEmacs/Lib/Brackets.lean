import Mathlib.Data.Int.Notation

/-!
# Matching brackets by counting

A sequence of characters is given by their weights: 1 for an opening bracket, -1 for a closing
one, 0 for the others. The level of a place is the sum of the weights before it.
-/

namespace Brackets

variable (w : Nat → ℤ)

/-- The sum of the weights before a place. -/
def level : Nat → ℤ
  | 0 => 0
  | n + 1 => level n + w n

/-- The brackets at `o` and `c` match. -/
structure Matched (o c : Nat) : Prop where
  opens : w o = 1
  closes : w c = -1
  lt : o < c
  level_eq : level w (c + 1) = level w o
  above : ∀ r, o < r → r ≤ c → level w o < level w r

/-- The first bracket from `p` on, before `stop`. -/
structure FirstBracket (p stop o : Nat) : Prop where
  le : p ≤ o
  lt : o < stop
  bracket : w o ≠ 0
  none_before : ∀ r, p ≤ r → r < o → w r = 0

/-- The last bracket before `q`, from `start` on. -/
structure LastBracket (start q c : Nat) : Prop where
  le : start ≤ c
  lt : c < q
  bracket : w c ≠ 0
  none_behind : ∀ r, c < r → r < q → w r = 0

variable {w} {o o' c c' p q start stop : Nat}

theorem Matched.open_unique (h : Matched w o c) (h' : Matched w o' c) : o = o' := by
  have hle : ∀ {o o'}, Matched w o c → Matched w o' c → o' ≤ o := by
    intro o o' h h'
    refine Nat.le_of_not_lt fun hlt => ?_
    have habove := h.above o' hlt (Nat.le_of_lt h'.lt)
    rw [← h.level_eq, h'.level_eq] at habove
    exact absurd habove (Int.lt_irrefl _)
  exact Nat.le_antisymm (hle h' h) (hle h h')

theorem LastBracket.unique (h : LastBracket w start q c) (h' : LastBracket w start q c') :
    c = c' := by
  rcases Nat.lt_trichotomy c c' with hlt | heq | hlt
  · exact absurd (h.none_behind c' hlt h'.lt) h'.bracket
  · exact heq
  · exact absurd (h'.none_behind c hlt h.lt) h.bracket

theorem Matched.lastBracket (h : Matched w o c) (hle : start ≤ c) :
    LastBracket w start (c + 1) c where
  le := hle
  lt := Nat.lt_succ_self c
  bracket := by
    rw [h.closes]
    decide
  none_behind r hr hr' := absurd hr (Nat.not_lt.mpr (Nat.le_of_lt_succ hr'))

/-! ## Scanning forward -/

/-- From behind the opening bracket at `o` up to `p` all levels are higher. -/
structure Inside (w : Nat → ℤ) (o p : Nat) : Prop where
  opens : w o = 1
  lt : o < p
  above : ∀ r, o < r → r ≤ p → level w o < level w r

theorem Inside.first (h : w o = 1) : Inside w o (o + 1) where
  opens := h
  lt := Nat.lt_succ_self o
  above r hr hr' := by
    obtain rfl : r = o + 1 := by omega
    rw [level, h]
    omega

theorem Inside.not_matched (h : Inside w o p) (hc : Matched w o c) : p ≤ c := by
  refine Nat.le_of_not_lt fun hlt => ?_
  have habove := h.above (c + 1) (Nat.lt_succ_of_lt hc.lt) hlt
  rw [hc.level_eq] at habove
  exact absurd habove (Int.lt_irrefl _)

theorem Inside.matched (h : Inside w o p) (hclose : w p = -1)
    (hlevel : level w p = level w o + 1) : Matched w o p where
  opens := h.opens
  closes := hclose
  lt := h.lt
  level_eq := by
    rw [level, hlevel, hclose]
    omega
  above := h.above

theorem Inside.step (h : Inside w o p) (hlevel : level w o < level w p + w p) :
    Inside w o (p + 1) where
  opens := h.opens
  lt := Nat.lt_succ_of_lt h.lt
  above r hr hr' := by
    rcases Nat.lt_or_eq_of_le hr' with hlt | rfl
    · exact h.above r hr (Nat.le_of_lt_succ hlt)
    · exact hlevel

/-! ## Scanning backward -/

/-- From the closing bracket at `c` back to `p` all levels are higher than behind it. -/
structure InsideBack (w : Nat → ℤ) (c p : Nat) : Prop where
  closes : w c = -1
  le : p ≤ c
  above : ∀ r, p ≤ r → r ≤ c → level w (c + 1) < level w r

theorem InsideBack.first (h : w c = -1) : InsideBack w c c where
  closes := h
  le := Nat.le_refl c
  above r hr hr' := by
    obtain rfl : r = c := Nat.le_antisymm hr' hr
    rw [level, h]
    omega

theorem InsideBack.not_matched (h : InsideBack w c p) (ho : Matched w o c) : o < p := by
  refine Nat.lt_of_not_le fun hle => ?_
  have habove := h.above o hle (Nat.le_of_lt ho.lt)
  rw [ho.level_eq] at habove
  exact absurd habove (Int.lt_irrefl _)

theorem InsideBack.matched (h : InsideBack w c (p + 1)) (hopen : w p = 1)
    (hlevel : level w (p + 1) = level w (c + 1) + 1) : Matched w p c where
  opens := hopen
  closes := h.closes
  lt := h.le
  level_eq := by
    rw [level, hopen] at hlevel
    omega
  above r hr hr' := by
    have habove := h.above r hr hr'
    rw [level, hopen] at hlevel
    omega

theorem InsideBack.step (h : InsideBack w c (p + 1))
    (hlevel : level w (c + 1) < level w p) : InsideBack w c p where
  closes := h.closes
  le := Nat.le_of_succ_le h.le
  above r hr hr' := by
    rcases Nat.lt_or_eq_of_le hr with hlt | rfl
    · exact h.above r hlt hr'
    · exact hlevel

end Brackets

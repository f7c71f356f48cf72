import XEmacs.Lread.ParseInteger

/-!
# Printing integers (print.c)

`long_to_string` writes the digits of a number from the greatest power of ten on and leaves out
leading zeros. A fixnum is read back from what is written for it.
-/

namespace XEmacs.Lread

open List

/-- `(char) (x + '0')`. -/
def digitChar (x : Int) : Nat := ((x + '0'.toNat) % 256).toNat

/-- What `long_to_string` has written, what is left of the number, and `force`. -/
structure Frobbing where
  p : List Nat
  number : Int
  force : Bool

/-- `FROB (figure)`. -/
def Frobbing.frob (s : Frobbing) (figure : Int) : Frobbing :=
  if s.force ∨ figure ≤ s.number then
    ⟨s.p ++ [digitChar (s.number.tdiv figure)], s.number.tmod figure, true⟩
  else s

/-- The figures from a power of ten on. -/
def figures : Nat → List Int
  | 0 => []
  | k + 1 => 10 ^ (k + 1) :: figures k

/-- The figures and the last digit. -/
def Frobbing.run (s : Frobbing) (k : Nat) : List Nat :=
  let s := (figures k).foldl frob s
  s.p ++ [digitChar s.number]

/-- `long_to_string`, without the zero byte at the end; a `long` has `w` bits. -/
def longToString (w : Nat) (number : Int) : List Nat :=
  let start : Frobbing :=
    if number < 0 then ⟨['-'.toNat], emacsInt w (-number), false⟩ else ⟨[], number, false⟩
  start.run (if w = 64 then 18 else 9)

theorem digitValue_digitChar {d : Nat} (hd : d < 10) : digitValue (digitChar d) = some d := by
  have hchar : digitChar d = d + '0'.toNat := by
    rw [digitChar, show '0'.toNat = 48 from rfl]
    omega
  rw [hchar, digitValue, if_pos ⟨Nat.le_add_left _ _, Nat.add_le_add_right (Nat.le_of_lt_succ hd) _⟩,
    Nat.add_sub_cancel]

theorem magnitude_cons {base : Nat} (c : Nat) (digits : List Nat) :
    magnitude base (c :: digits)
      = (digitValue c).getD 0 * base ^ digits.length + magnitude base digits := by
  rw [magnitude, map_cons, reverse_cons, Nat.ofDigits_append, length_reverse, length_map,
    Nat.ofDigits_singleton, ← magnitude, Nat.mul_comm, Nat.add_comm]

theorem Frobbing.run_digits (k : Nat) {m : Nat} (hm : m < 10 ^ (k + 1)) (p : List Nat)
    (force : Bool) :
    ∃ digits, Frobbing.run ⟨p, m, force⟩ k = p ++ digits ∧ digits ≠ [] ∧
      (∀ c ∈ digits, IsDigit 10 c) ∧ magnitude 10 digits = m ∧ digits.length ≤ k + 1 ∧
      (force = true → digits.length = k + 1) := by
  induction k generalizing m p force with
  | zero =>
    have hm : m < 10 := hm
    have hvalue := digitValue_digitChar hm
    refine ⟨[digitChar m], rfl, cons_ne_nil _ _, ?_, ?_, Nat.le_refl 1, fun _ => rfl⟩
    · intro c hc
      obtain rfl := mem_singleton.mp hc
      exact ⟨m, hvalue, hm⟩
    · rw [magnitude_cons, hvalue]
      show m * 10 ^ 0 + 0 = m
      omega
  | succ k ih =>
    have hfold : Frobbing.run ⟨p, m, force⟩ (k + 1)
        = (Frobbing.frob ⟨p, m, force⟩ (10 ^ (k + 1))).run k := rfl
    have hfigure : (10 : Int) ^ (k + 1) = (10 ^ (k + 1) : Nat) := by push_cast; rfl
    rw [hfold, frob, hfigure]
    by_cases hwrite : force = true ∨ ((10 ^ (k + 1) : Nat) : Int) ≤ m
    · -- a digit, and then all the others
      have hd : m / 10 ^ (k + 1) < 10 := Nat.div_lt_of_lt_mul (by rw [← Nat.pow_succ]; exact hm)
      have hvalue := digitValue_digitChar hd
      obtain ⟨digits, hrun, -, hdigits, hmagnitude, -, hlength⟩ :=
        ih (Nat.mod_lt m (Nat.pow_pos (by decide)))
          (p ++ [digitChar (m / 10 ^ (k + 1) : Nat)]) true
      have hlength := hlength rfl
      rw [if_pos hwrite]
      refine ⟨digitChar (m / 10 ^ (k + 1) : Nat) :: digits, ?_, cons_ne_nil _ _, ?_, ?_, ?_, ?_⟩
      · rw [append_assoc, singleton_append] at hrun
        exact hrun
      · intro c hc
        obtain rfl | hc := mem_cons.mp hc
        · exact ⟨_, hvalue, hd⟩
        · exact hdigits c hc
      · rw [magnitude_cons, hvalue, hmagnitude, hlength]
        exact Nat.div_add_mod' m _
      · rw [length_cons, hlength]
      · intro _
        rw [length_cons, hlength]
    · -- a leading zero is left out
      rw [if_neg hwrite]
      rw [not_or] at hwrite
      obtain ⟨digits, hrun, hne, hdigits, hmagnitude, hle, -⟩ := ih (m := m) (by omega) p force
      exact ⟨digits, hrun, hne, hdigits, hmagnitude, Nat.le_succ_of_le hle,
        fun hforce => absurd hforce hwrite.1⟩

theorem parseInteger_of_fits {w base : Nat} (hw : 2 ≤ w) (hbase : 0 < base) (sign : Sign)
    {digits : List Nat} (hne : digits ≠ []) (hdigits : ∀ c ∈ digits, IsDigit base c)
    (hfits : Fits w (sign.apply (magnitude base digits))) :
    parseInteger w base (sign.chars ++ digits) = .ok (sign.apply (magnitude base digits)) := by
  have hlt := lt_of_fits hw hfits
  rw [parseInteger_eq sign hne hdigits, parseNumber]
  have hloop := parseDigits_eq (w := w) hdigits []
  rw [nil_append, show magnitude base [] = 0 from rfl, Nat.zero_mod] at hloop
  rcases hloop with ⟨hfalls, -⟩ | ⟨-, hnumber⟩
  · exact absurd hfalls (not_falls_of_lt hbase hlt)
  · rw [hnumber, Nat.mod_eq_of_lt hlt]
    simp only [integerResult_eq hw hlt, if_pos hfits]

end XEmacs.Lread

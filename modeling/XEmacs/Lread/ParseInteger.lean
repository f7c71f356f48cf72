import Mathlib.Data.Nat.Digits.Defs
import Mathlib.Algebra.Order.Ring.Int
import Mathlib.Tactic.Ring

/-!
# Reading integers (lread.c)

`parse_integer` accumulates the digits in an `EMACS_UINT` of `w` bits. It takes for an overflow
that the accumulator gets smaller, or that the result has the wrong sign or does not fit into a
fixnum of `w - 1` bits.
-/

namespace XEmacs.Lread

open List

/-- The errors `parse_integer` signals (`invalid-read-syntax`), with the text of the token and
the base. -/
inductive ReadError where
  /-- `Integer constant overflow in reader` -/
  | overflow (token : List Nat) (base : Nat)
  /-- `Invalid integer constant in reader` -/
  | invalid (token : List Nat) (base : Nat)
deriving DecidableEq, Repr

/-- `isdigit`, `isupper` and `islower`, and what the character stands for. -/
def digitValue (c : Nat) : Option Nat :=
  if '0'.toNat ≤ c ∧ c ≤ '9'.toNat then some (c - '0'.toNat)
  else if 'A'.toNat ≤ c ∧ c ≤ 'Z'.toNat then some (c - 'A'.toNat + 10)
  else if 'a'.toNat ≤ c ∧ c ≤ 'z'.toNat then some (c - 'a'.toNat + 10)
  else none

/-- Where the loop over the digits ends. -/
inductive Digits where
  | number (num : Nat)
  | overflow
  | loser
deriving DecidableEq, Repr

/-- The loop over the digits, up to the end or to a zero byte. -/
def parseDigits (w base : Nat) : Nat → List Nat → Digits
  | num, [] => .number num
  | num, p :: rest =>
    if p = 0 then .number num
    else
      match digitValue p with
      | none => .loser
      | some c =>
        if base ≤ c then .loser
        else
          let onum := num
          let num := (num * base + c) % 2 ^ w
          if num < onum then .overflow else parseDigits w base num rest

/-- `(EMACS_INT)`, and what negation makes of an `EMACS_INT`. -/
def emacsInt (w : Nat) (x : Int) : Int := x.bmod (2 ^ w)

/-- `XINT (make_int (x))`. -/
def fixnum (w : Nat) (x : Int) : Int := x.bmod (2 ^ (w - 1))

/-- The result for the accumulated number, or `none` for an overflow. -/
def integerResult (w : Nat) (negativland : Bool) (num : Nat) : Option Int :=
  let intResult := if negativland then emacsInt w (-emacsInt w num) else emacsInt w num
  let result := fixnum w intResult
  if num ≠ 0 ∧ (decide (result < 0)) ≠ negativland then none
  else if result ≠ intResult then none
  else some result

/-- The part of `parse_integer` behind the sign. -/
def parseNumber (w base : Nat) (buf : List Nat) (negativland : Bool) (p : List Nat) :
    Except ReadError Int :=
  match parseDigits w base 0 p with
  | .loser => .error (.invalid buf base)
  | .overflow => .error (.overflow buf base)
  | .number num =>
    match integerResult w negativland num with
    | none => .error (.overflow buf base)
    | some result => .ok result

/-- `parse_integer`, for a token that a zero byte follows. -/
def parseInteger (w base : Nat) (buf : List Nat) : Except ReadError Int :=
  let negativland := decide (buf.head? = some '-'.toNat)
  let p := if negativland ∨ buf.head? = some '+'.toNat then buf.tail else buf
  if p = [] then .error (.invalid buf base) else parseNumber w base buf negativland p

/-! ### What the reader should return -/

/-- A digit of a base. -/
def IsDigit (base c : Nat) : Prop :=
  ∃ d, digitValue c = some d ∧ d < base

instance (base c : Nat) : Decidable (IsDigit base c) :=
  inferInstanceAs (Decidable (∃ d ∈ digitValue c, d < base))

/-- The number that digits denote. -/
def magnitude (base : Nat) (digits : List Nat) : Nat :=
  Nat.ofDigits base ((digits.map fun c => (digitValue c).getD 0).reverse)

/-- An optional sign. -/
inductive Sign where
  | none
  | plus
  | minus
deriving DecidableEq, Repr

def Sign.chars : Sign → List Nat
  | none => []
  | plus => ['+'.toNat]
  | minus => ['-'.toNat]

def Sign.apply (sign : Sign) (n : Nat) : Int :=
  if sign = minus then -n else n

/-- A fixnum of `w - 1` bits has the value. -/
def Fits (w : Nat) (x : Int) : Prop :=
  -2 ^ (w - 2) ≤ x ∧ x < 2 ^ (w - 2)

instance (w : Nat) (x : Int) : Decidable (Fits w x) :=
  inferInstanceAs (Decidable (_ ∧ _))

/-- The reader returns the value of the token if it fits, and signals an overflow otherwise. -/
def ReadExactly (w base : Nat) (sign : Sign) (digits : List Nat) : Prop :=
  parseInteger w base (sign.chars ++ digits)
    = if Fits w (sign.apply (magnitude base digits)) then .ok (sign.apply (magnitude base digits))
      else .error (.overflow (sign.chars ++ digits) base)

instance (w base : Nat) (sign : Sign) (digits : List Nat) :
    Decidable (ReadExactly w base sign digits) :=
  inferInstanceAs (Decidable (_ = _))

/-- One of some digits makes the accumulator smaller, after the digits `pre`. -/
def FallsAfter (w base : Nat) (pre digits : List Nat) : Prop :=
  ∃ p c, p ++ [c] <+: digits ∧
    magnitude base (pre ++ p ++ [c]) % 2 ^ w < magnitude base (pre ++ p) % 2 ^ w

/-- A digit makes the accumulator smaller. -/
def Falls (w base : Nat) (digits : List Nat) : Prop :=
  FallsAfter w base [] digits

variable {w base : Nat}

/-! ### The loop over the digits -/

theorem magnitude_concat (digits : List Nat) (c : Nat) :
    magnitude base (digits ++ [c]) = magnitude base digits * base + (digitValue c).getD 0 := by
  rw [magnitude, magnitude, map_append, reverse_append, map_singleton,
    reverse_singleton, singleton_append, Nat.ofDigits_cons, Nat.mul_comm base,
    Nat.add_comm]

theorem digitValue_zero : digitValue 0 = none := by decide

theorem IsDigit.ne_zero {c : Nat} (hc : IsDigit base c) : c ≠ 0 := by
  rintro rfl
  obtain ⟨d, hd, -⟩ := hc
  rw [digitValue_zero] at hd
  cases hd

theorem not_fallsAfter_nil (pre : List Nat) : ¬ FallsAfter w base pre [] := by
  rintro ⟨p, c, hprefix, -⟩
  exact absurd (List.prefix_nil.mp hprefix) (append_ne_nil_of_right_ne_nil p
    (cons_ne_nil c []))

theorem fallsAfter_cons {pre digits : List Nat} {c : Nat} :
    FallsAfter w base pre (c :: digits) ↔
      magnitude base (pre ++ [c]) % 2 ^ w < magnitude base pre % 2 ^ w ∨
        FallsAfter w base (pre ++ [c]) digits := by
  constructor
  · rintro ⟨p, d, hprefix, hfall⟩
    cases p with
    | nil =>
      obtain ⟨rfl, -⟩ := List.cons_prefix_cons.mp hprefix
      rw [append_nil] at hfall
      exact .inl hfall
    | cons e p =>
      obtain ⟨rfl, htail⟩ := List.cons_prefix_cons.mp hprefix
      rw [← singleton_append, ← append_assoc] at hfall
      exact .inr ⟨p, d, htail, hfall⟩
  · rintro (hfall | ⟨p, d, hprefix, hfall⟩)
    · refine ⟨[], c, List.cons_prefix_cons.mpr ⟨rfl, nil_prefix⟩, ?_⟩
      rwa [append_nil]
    · refine ⟨c :: p, d, List.cons_prefix_cons.mpr ⟨rfl, hprefix⟩, ?_⟩
      rwa [← singleton_append, ← append_assoc]

theorem wrapped_concat (pre : List Nat) {c d : Nat} (hd : digitValue c = some d) :
    (magnitude base pre % 2 ^ w * base + d) % 2 ^ w = magnitude base (pre ++ [c]) % 2 ^ w := by
  rw [magnitude_concat, hd, Option.getD_some, Nat.add_mod, Nat.mod_mul_mod, ← Nat.add_mod]

/-- **The loop** goes through the wrapped values of the digits so far, and ends early where they
fall. -/
theorem parseDigits_eq {digits : List Nat} (hdigits : ∀ c ∈ digits, IsDigit base c)
    (pre : List Nat) :
    (FallsAfter w base pre digits ∧
      parseDigits w base (magnitude base pre % 2 ^ w) digits = .overflow) ∨
    (¬ FallsAfter w base pre digits ∧
      parseDigits w base (magnitude base pre % 2 ^ w) digits
        = .number (magnitude base (pre ++ digits) % 2 ^ w)) := by
  induction digits generalizing pre with
  | nil =>
    refine .inr ⟨not_fallsAfter_nil pre, ?_⟩
    rw [append_nil, parseDigits]
  | cons c digits ih =>
    have hc := hdigits c mem_cons_self
    obtain ⟨d, hd, hlt⟩ := hc
    have hrest := ih (fun e he => hdigits e (mem_cons_of_mem c he)) (pre ++ [c])
    rw [append_assoc, singleton_append] at hrest
    rw [parseDigits, if_neg (hdigits c mem_cons_self).ne_zero]
    simp only [hd, if_neg (Nat.not_le.mpr hlt), wrapped_concat pre hd, fallsAfter_cons]
    by_cases hfall : magnitude base (pre ++ [c]) % 2 ^ w < magnitude base pre % 2 ^ w
    · rw [if_pos hfall]
      exact .inl ⟨.inl hfall, rfl⟩
    · rw [if_neg hfall]
      obtain ⟨hlater, heq⟩ | ⟨hlater, heq⟩ := hrest
      · exact .inl ⟨.inr hlater, heq⟩
      · exact .inr ⟨fun h => h.elim hfall hlater, heq⟩

theorem magnitude_le_concat (hbase : 0 < base) (pre digits : List Nat) :
    magnitude base pre ≤ magnitude base (pre ++ digits) := by
  induction digits generalizing pre with
  | nil => rw [append_nil]
  | cons c digits ih =>
    calc magnitude base pre ≤ magnitude base pre * base := Nat.le_mul_of_pos_right _ hbase
      _ ≤ magnitude base (pre ++ [c]) := by
        rw [magnitude_concat]
        exact Nat.le_add_right _ _
      _ ≤ magnitude base (pre ++ c :: digits) := by
        have hle := ih (pre ++ [c])
        rwa [append_assoc, singleton_append] at hle

theorem not_falls_of_lt (hbase : 0 < base) {digits : List Nat}
    (hlt : magnitude base digits < 2 ^ w) : ¬ Falls w base digits := by
  rintro ⟨p, c, ⟨rest, rfl⟩, hfall⟩
  have hpre := magnitude_le_concat hbase p [c]
  have hconcat := magnitude_le_concat hbase (p ++ [c]) rest
  rw [nil_append, Nat.mod_eq_of_lt (hconcat.trans_lt hlt),
    Nat.mod_eq_of_lt ((hpre.trans hconcat).trans_lt hlt)] at hfall
  exact absurd hpre (Nat.not_le.mpr hfall)

/-! ### The result -/

theorem bmod_two_mul {P : Nat} {x : Int} (hlo : -(2 * P) ≤ x) (hhi : x < 2 * P) :
    x.bmod (2 * P) = if x < -P then x + 2 * P else if x < P then x else x - 2 * P := by
  have hself : ∀ y : Int, -P ≤ y → y < P → y.bmod (2 * P) = y := by
    intro y hlo hhi
    refine Int.bmod_eq_of_le_mul_two ?_ ?_
    · push_cast
      omega
    · push_cast
      omega
  split
  · rw [← Int.add_bmod_right]
    push_cast
    exact hself _ (by omega) (by omega)
  · split
    · exact hself x (by omega) (by omega)
    · rw [← Int.sub_bmod_right]
      push_cast
      exact hself _ (by omega) (by omega)

section result

variable {P num : Nat}

theorem emacsInt_natCast (hw : 2 ^ w = 2 * (2 * P)) (hnum : num < 2 ^ w) :
    emacsInt w num = if num < 2 * P then (num : Int) else num - 4 * P := by
  rw [hw] at hnum
  rw [emacsInt, hw, bmod_two_mul (by omega) (by push_cast; omega)]
  push_cast
  split_ifs <;> omega

theorem emacsInt_neg (hw : 2 ^ w = 2 * (2 * P)) (hnum : num < 2 ^ w) :
    emacsInt w (-emacsInt w num)
      = if num ≤ 2 * P then -(num : Int) else 4 * P - num := by
  rw [emacsInt_natCast hw hnum]
  rw [hw] at hnum
  rw [emacsInt, hw, bmod_two_mul (by split_ifs <;> omega) (by push_cast; split_ifs <;> omega)]
  push_cast
  split_ifs <;> omega

theorem fixnum_eq (hw : 2 ^ (w - 1) = 2 * P) {x : Int} (hlo : -(2 * P) ≤ x) (hhi : x < 2 * P) :
    fixnum w x = if x < -P then x + 2 * P else if x < P then x else x - 2 * P := by
  rw [fixnum, hw, bmod_two_mul hlo hhi]

/-- **The checks at the end** let exactly the fixnums through. -/
theorem integerResult_eq {sign : Sign} (hw : 2 ≤ w) (hnum : num < 2 ^ w) :
    integerResult w (decide (sign = .minus)) num
      = if Fits w (sign.apply num) then some (sign.apply num) else none := by
  obtain ⟨u, rfl⟩ := Nat.exists_eq_add_of_le' hw
  have hP : (2 : Nat) ^ (u + 2) = 2 * (2 * 2 ^ u) := by ring
  have hQ : (2 : Nat) ^ (u + 2 - 1) = 2 * 2 ^ u := by
    rw [Nat.add_succ_sub_one]
    ring
  have hpos : 0 < 2 ^ u := Nat.two_pow_pos u
  have hfits : ∀ x : Int, Fits (u + 2) x ↔ -((2 ^ u : Nat) : Int) ≤ x ∧ x < (2 ^ u : Nat) := by
    intro x
    rw [Fits, Nat.add_sub_cancel]
    push_cast
    rfl
  have hplus := emacsInt_natCast hP hnum
  have hminus := emacsInt_neg hP hnum
  have hfixnum := fun x => fixnum_eq (x := x) hQ
  rw [hP] at hnum
  simp only [hfits]
  generalize 2 ^ u = P at *
  unfold integerResult Sign.apply
  by_cases hsign : sign = .minus
  · simp only [hsign, decide_true, if_true, hminus]
    rw [hfixnum _ (by split_ifs <;> omega) (by split_ifs <;> omega)]
    split_ifs <;> grind
  · simp only [hsign, decide_false, Bool.false_eq_true, if_false, hplus]
    rw [hfixnum _ (by split_ifs <;> omega) (by split_ifs <;> omega)]
    split_ifs <;> grind

end result

theorem lt_of_fits {sign : Sign} {num : Nat} (hw : 2 ≤ w) (hfits : Fits w (sign.apply num)) :
    num < 2 ^ w := by
  obtain ⟨u, rfl⟩ := Nat.exists_eq_add_of_le' hw
  have hP : (2 : Nat) ^ (u + 2) = 4 * 2 ^ u := by ring
  have hpos : 0 < 2 ^ u := Nat.two_pow_pos u
  rw [Fits, Nat.add_sub_cancel] at hfits
  have hcast : ((2 : Int) ^ u) = ((2 ^ u : Nat) : Int) := by push_cast; rfl
  rw [hcast] at hfits
  unfold Sign.apply at hfits
  split at hfits
  · omega
  · omega

/-! ### Tokens -/

theorem IsDigit.ne_sign {c : Nat} (hc : IsDigit base c) :
    c ≠ '-'.toNat ∧ c ≠ '+'.toNat := by
  obtain ⟨d, hd, -⟩ := hc
  constructor
  · rintro rfl
    cases hd
  · rintro rfl
    cases hd

theorem parseInteger_eq (sign : Sign) {digits : List Nat} (hne : digits ≠ [])
    (hdigits : ∀ c ∈ digits, IsDigit base c) :
    parseInteger w base (sign.chars ++ digits)
      = parseNumber w base (sign.chars ++ digits) (decide (sign = .minus)) digits := by
  obtain ⟨c, rest, rfl⟩ := exists_cons_of_ne_nil hne
  obtain ⟨hminus, hplus⟩ := (hdigits c mem_cons_self).ne_sign
  have hnot : ∀ x, c ≠ x → ¬ some c = some x := fun x hx h => hx (Option.some.inj h)
  unfold parseInteger
  cases sign with
  | none =>
    simp only [Sign.chars, nil_append, head?_cons, hnot _ hminus, hnot _ hplus,
      decide_false, Bool.false_eq_true, or_self, if_false, hne, reduceCtorEq]
  | plus => simp [Sign.chars]
  | minus => simp [Sign.chars]

/-- **The reader misreads an integer** if and only if it does not fit, but the accumulator never
gets smaller, and what it wraps around to fits. -/
theorem parseInteger_exact_iff (w base : Nat) (hw : 2 ≤ w) (sign : Sign) (digits : List Nat)
    (hne : digits ≠ []) (hdigits : ∀ c ∈ digits, IsDigit base c) :
    ReadExactly w base sign digits ↔
      Fits w (sign.apply (magnitude base digits)) ∨ Falls w base digits ∨
        ¬ Fits w (sign.apply (magnitude base digits % 2 ^ w : Nat)) := by
  have hbase : 0 < base := by
    obtain ⟨c, rest, rfl⟩ := List.exists_cons_of_ne_nil hne
    obtain ⟨d, -, hd⟩ := hdigits c List.mem_cons_self
    exact Nat.zero_lt_of_lt hd
  have hloop := parseDigits_eq (w := w) hdigits []
  have hwrap : magnitude base digits % 2 ^ w < 2 ^ w := Nat.mod_lt _ (Nat.two_pow_pos w)
  rw [List.nil_append, show magnitude base [] = 0 from rfl, Nat.zero_mod] at hloop
  unfold ReadExactly
  rw [parseInteger_eq sign hne hdigits, parseNumber]
  by_cases hfits : Fits w (sign.apply (magnitude base digits))
  · -- the accumulator is the number itself
    have hlt := lt_of_fits hw hfits
    obtain ⟨hfalls, -⟩ | ⟨-, hnumber⟩ := hloop
    · exact absurd hfalls (not_falls_of_lt hbase hlt)
    · rw [hnumber, Nat.mod_eq_of_lt hlt]
      simp only [integerResult_eq hw hlt, if_pos hfits, true_iff]
      exact .inl hfits
  · rw [if_neg hfits]
    obtain ⟨hfalls, hoverflow⟩ | ⟨hfalls, hnumber⟩ := hloop
    · rw [hoverflow]
      exact ⟨fun _ => .inr (.inl hfalls), fun _ => rfl⟩
    · rw [hnumber]
      simp only [integerResult_eq hw hwrap]
      by_cases hwrapped : Fits w (sign.apply (magnitude base digits % 2 ^ w : Nat))
      · rw [if_pos hwrapped]
        constructor
        · intro h
          cases h
        · rintro (h | h | h)
          · exact absurd h hfits
          · exact absurd h hfalls
          · exact absurd hwrapped h
      · rw [if_neg hwrapped]
        exact ⟨fun _ => .inr (.inr hwrapped), fun _ => rfl⟩

/-- The least fixnum of 63 bits, and a number that is too great by one. -/
theorem parseInteger_exact_minus : ReadExactly 64 16 .minus ('4'.toNat :: List.replicate 15 48) ∧
    ReadExactly 64 16 .plus ('4'.toNat :: List.replicate 15 48) := by
  constructor
  · exact (parseInteger_exact_iff 64 16 (by decide) .minus _ (List.cons_ne_nil _ _)
      (by decide)).mpr (.inl (by decide +kernel))
  · exact (parseInteger_exact_iff 64 16 (by decide) .plus _ (List.cons_ne_nil _ _)
      (by decide)).mpr (.inr (.inr (by decide +kernel)))

/-- On a machine with 64 bits `21000000000000000000` is read as 2553255926290448384. -/
theorem parseInteger_misreads : ¬ ∀ (w base : Nat) (sign : Sign) (digits : List Nat),
    2 ≤ w → base ∈ [2, 8, 10, 16] → digits ≠ [] → (∀ c ∈ digits, IsDigit base c) →
    ReadExactly w base sign digits := by
  intro h
  have hread := h 64 10 .none ('2'.toNat :: '1'.toNat :: List.replicate 18 '0'.toNat)
    (by decide) (by decide) (List.cons_ne_nil _ _) (by decide)
  revert hread
  decide +kernel

end XEmacs.Lread

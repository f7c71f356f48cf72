import XEmacs.Base64.Coding
import Mathlib.Algebra.Ring.Nat
import Mathlib.Data.List.GetD

/-!
# What the base64 coder writes and the decoder reads

Of the characters only the digits and the pads count (`symbols`). The coder writes the digits of its
bytes (`encode_symbols`); the decoder reads groups of digits and fails on all other symbols
(`decode_groups`).
-/

namespace XEmacs.Base64

open Sextets Fallible List

/-- The value of a digit. -/
def value (c : ℕ) : ℕ := (base64CharToValue.getD c (-1)).toNat

/-- What a character is to the decoder, a digit or a pad, if anything. -/
def symbol (c : ℕ) : Option (Option ℕ) :=
  if c = pad then some none else if isBase64 c then some (some (value c)) else none

/-- What counts for the decoder. -/
def symbols (stream : List ℕ) : List (Option ℕ) := stream.filterMap symbol

theorem symbol_pad : symbol pad = some none := if_pos rfl

theorem symbol_valueToChar {v : ℕ} (hv : v < 64) : symbol (valueToChar v) = some (some v) := by
  have h : ∀ v < 64, symbol (valueToChar v) = some (some v) := by decide
  exact h v hv

theorem value_lt (c : ℕ) : value c < 64 := by
  by_cases hc : c < 128
  · have h : ∀ c < 128, value c < 64 := by decide
    exact h c hc
  · rw [value, getD_eq_default _ _ (Nat.not_lt.mp hc)]
    decide

theorem charToValue_eq {c v : ℕ} (h : symbol c = some (some v)) : charToValue c = .ok v := by
  rw [symbol] at h
  split at h
  · cases h
  · split at h
    · cases h
      exact if_pos ‹_›
    · cases h

theorem symbol_lt {c v : ℕ} (h : symbol c = some (some v)) : v < 64 := by
  rw [symbol] at h
  split at h
  · cases h
  · split at h
    · cases h
      exact value_lt c
    · cases h

theorem ne_pad {c v : ℕ} (h : symbol c = some (some v)) : c ≠ pad := by
  rintro rfl
  rw [symbol_pad] at h
  cases h

theorem eq_pad {c : ℕ} (h : symbol c = some none) : c = pad := by
  rw [symbol] at h
  split at h
  · assumption
  · split at h <;> cases h

/-! ### The bits -/

theorem and_mask (x n : ℕ) : (2 ^ n - 1) &&& x = x % 2 ^ n := by
  rw [Nat.and_comm, Nat.and_two_pow_sub_one_eq_mod]

theorem shift_or {a b k : ℕ} (hb : b < 2 ^ k) : a <<< k ||| b = a * 2 ^ k + b := by
  rw [← Nat.shiftLeft_add_eq_or_of_lt hb, Nat.shiftLeft_eq]

theorem join {b : ℕ} (a k : ℕ) (hb : b < 64) : a <<< (6 + k) ||| b <<< k = (a * 64 + b) <<< k := by
  rw [Nat.shiftLeft_add, ← Nat.shiftLeft_or_distrib, shift_or hb]
  rfl

variable {v w x y : ℕ}

theorem first_byte (hv : v < 64) (hw : w < 64) :
    storeByte ((v <<< 18 ||| w <<< 12) >>> 16) = v * 4 + w / 16 := by
  have hjoin : v <<< 18 ||| w <<< 12 = (v * 64 + w) <<< 12 := join v 12 hw
  rw [hjoin, Nat.shiftLeft_eq, Nat.shiftRight_eq_div_pow, storeByte]
  omega

theorem second_byte (hw : w < 64) (hx : x < 64) :
    storeByte (0xff &&& ((v <<< 18 ||| w <<< 12) ||| x <<< 6) >>> 8) = w % 16 * 16 + x / 4 := by
  have hjoin : v <<< 18 ||| w <<< 12 = (v * 64 + w) <<< 12 := join v 12 hw
  have hjoin' : (v * 64 + w) <<< 12 ||| x <<< 6 = ((v * 64 + w) * 64 + x) <<< 6 := join _ 6 hx
  have hmask (n : ℕ) : 0xff &&& n = n % 256 := and_mask n 8
  rw [hjoin, hjoin', hmask, Nat.shiftLeft_eq, Nat.shiftRight_eq_div_pow, storeByte]
  omega

theorem third_byte (hw : w < 64) (hx : x < 64) (hy : y < 64) :
    storeByte (0xff &&& (((v <<< 18 ||| w <<< 12) ||| x <<< 6) ||| y)) = x % 4 * 64 + y := by
  have hjoin : v <<< 18 ||| w <<< 12 = (v * 64 + w) <<< 12 := join v 12 hw
  have hjoin' : (v * 64 + w) <<< 12 ||| x <<< 6 = ((v * 64 + w) * 64 + x) <<< 6 := join _ 6 hx
  have hjoin'' : ((v * 64 + w) * 64 + x) <<< 6 ||| y = ((v * 64 + w) * 64 + x) * 64 + y := shift_or hy
  have hmask (n : ℕ) : 0xff &&& n = n % 256 := and_mask n 8
  rw [hjoin, hjoin', hjoin'', hmask, storeByte]
  omega

variable {a b c : ℕ}

theorem first_digit (ha : a < 256) : 0x3f &&& a >>> 2 = a / 4 := by
  have hmask : 0x3f &&& a >>> 2 = a >>> 2 % 64 := and_mask _ 6
  rw [hmask, Nat.shiftRight_eq_div_pow]
  omega

theorem low_bits (a : ℕ) : (0x03 &&& a) <<< 4 = a % 4 * 16 := by
  have hmask : 0x03 &&& a = a % 4 := and_mask _ 2
  rw [hmask, Nat.shiftLeft_eq]

theorem second_digit (hb : b < 256) : (0x03 &&& a) <<< 4 ||| (0x0f &&& b >>> 4) =
    a % 4 * 16 + b / 16 := by
  have hmask : 0x0f &&& b >>> 4 = b >>> 4 % 16 := and_mask _ 4
  have hlow : 0x03 &&& a = a % 4 := and_mask _ 2
  have hdiv : b >>> 4 % 16 = b / 16 := by
    rw [Nat.shiftRight_eq_div_pow]
    omega
  rw [hmask, hlow, hdiv, shift_or (k := 4) (by omega)]
  rfl

theorem low_bits' (b : ℕ) : (0x0f &&& b) <<< 2 = b % 16 * 4 := by
  have hmask : 0x0f &&& b = b % 16 := and_mask _ 4
  rw [hmask, Nat.shiftLeft_eq]

theorem third_digit (hc : c < 256) : (0x0f &&& b) <<< 2 ||| (0x03 &&& c >>> 6) =
    b % 16 * 4 + c / 64 := by
  have hmask : 0x03 &&& c >>> 6 = c >>> 6 % 4 := and_mask _ 2
  have hlow : 0x0f &&& b = b % 16 := and_mask _ 4
  have hdiv : c >>> 6 % 4 = c / 64 := by
    rw [Nat.shiftRight_eq_div_pow]
    omega
  rw [hmask, hlow, hdiv, shift_or (k := 2) (by omega)]
  rfl

theorem fourth_digit (c : ℕ) : 0x3f &&& c = c % 64 := and_mask c 6

/-! ### The coder -/

variable {lineBreak : Bool} {counter : ℕ} {stream e : List ℕ}

theorem advanceInput_cons (ha : a ≤ 255) (stream : List ℕ) :
    advanceInput (a :: stream) = .ok (some (a, stream)) := if_neg (Nat.not_lt.mpr ha)

theorem triplet_one (ha : a ≤ 255) : triplet lineBreak counter [a] =
    .ok ((wrap lineBreak counter).1 ++
      [valueToChar (a / 4), valueToChar (a % 4 * 16), pad, pad], none) := by
  rw [← first_digit (Nat.lt_succ_of_le ha), ← low_bits]
  simp only [triplet, advanceInput_cons ha, bind, Except.bind]
  rfl

theorem triplet_two (ha : a ≤ 255) (hb : b ≤ 255) : triplet lineBreak counter [a, b] =
    .ok ((wrap lineBreak counter).1 ++
      [valueToChar (a / 4), valueToChar (a % 4 * 16 + b / 16), valueToChar (b % 16 * 4), pad],
      none) := by
  rw [← first_digit (Nat.lt_succ_of_le ha), ← second_digit (Nat.lt_succ_of_le hb), ← low_bits']
  simp only [triplet, advanceInput_cons ha, advanceInput_cons hb, bind, Except.bind]
  rfl

theorem triplet_three (ha : a ≤ 255) (hb : b ≤ 255) (hc : c ≤ 255) (stream : List ℕ) :
    triplet lineBreak counter (a :: b :: c :: stream) =
      .ok ((wrap lineBreak counter).1 ++
        [valueToChar (a / 4), valueToChar (a % 4 * 16 + b / 16), valueToChar (b % 16 * 4 + c / 64),
          valueToChar (c % 64)], some ((wrap lineBreak counter).2, stream)) := by
  rw [← first_digit (Nat.lt_succ_of_le ha), ← second_digit (Nat.lt_succ_of_le hb),
    ← third_digit (Nat.lt_succ_of_le hc), ← fourth_digit c]
  simp only [triplet, advanceInput_cons ha, advanceInput_cons hb, advanceInput_cons hc, bind,
    Except.bind]
  rfl

theorem base64Encode1_last (h : triplet lineBreak counter stream = .ok (e, none)) :
    base64Encode1 lineBreak counter stream = .ok e := by
  rw [base64Encode1]
  split <;> rename_i h' <;> rw [h] at h' <;> cases h'
  rfl

theorem base64Encode1_next {counter' : ℕ} {stream' : List ℕ}
    (h : triplet lineBreak counter stream = .ok (e, some (counter', stream'))) :
    base64Encode1 lineBreak counter stream =
      (base64Encode1 lineBreak counter' stream').map (e ++ ·) := by
  rw [base64Encode1]
  split <;> rename_i h' <;> rw [h] at h' <;> cases h'
  rfl

theorem symbols_append (stream stream' : List ℕ) :
    symbols (stream ++ stream') = symbols stream ++ symbols stream' := filterMap_append

theorem symbols_wrap (lineBreak : Bool) (counter : ℕ) : symbols (wrap lineBreak counter).1 = [] := by
  rw [wrap]
  split
  · split <;> rfl
  · rfl

/-- A newline comes after nineteen groups. -/
def newlines (lineBreak : Bool) (counter groups : ℕ) : ℕ :=
  if lineBreak then (counter + groups - 1) / 19 else 0

theorem newlines_succ (lineBreak : Bool) (hcounter : counter ≤ 19) (groups : ℕ) :
    (wrap lineBreak counter).1.length + newlines lineBreak (wrap lineBreak counter).2 groups =
      newlines lineBreak counter (groups + 1) ∧ (wrap lineBreak counter).2 ≤ 19 := by
  rw [newlines, newlines, wrap]
  cases lineBreak with
  | false => exact ⟨rfl, hcounter⟩
  | true =>
    rw [if_pos rfl, if_pos rfl, if_pos rfl]
    have hlines : mimeLineLength / 4 = 19 := rfl
    rw [hlines]
    split
    · refine ⟨?_, by assumption⟩
      rw [length_nil]
      dsimp only
      omega
    · refine ⟨?_, by decide⟩
      rw [length_singleton]
      dsimp only
      omega

theorem newlines_zero (hcounter : counter ≤ 19) : newlines lineBreak counter 0 = 0 := by
  rw [newlines]
  split <;> omega

theorem newlines_one (hcounter : counter ≤ 19) :
    newlines lineBreak counter 1 = (wrap lineBreak counter).1.length := by
  obtain ⟨hlines, hcounter'⟩ := newlines_succ lineBreak hcounter 0
  rw [← hlines, newlines_zero hcounter', Nat.add_zero]

theorem symbols_digit (hv : v < 64) (stream : List ℕ) :
    symbols (valueToChar v :: stream) = some v :: symbols stream :=
  filterMap_cons_some (symbol_valueToChar hv)

theorem symbols_pad (stream : List ℕ) : symbols (pad :: stream) = none :: symbols stream :=
  filterMap_cons_some symbol_pad

/-- **`base64_encode_1`** writes the digits of its bytes. -/
theorem encode_symbols (lineBreak : Bool) (hstream : ∀ c ∈ stream, c ≤ 255)
    (hcounter : counter ≤ 19) : ∃ e, base64Encode1 lineBreak counter stream = .ok e ∧
      symbols e = digits stream ∧ e.length = 4 * ((stream.length + 2) / 3) +
        newlines lineBreak counter ((stream.length + 2) / 3) := by
  fun_induction digits stream generalizing counter with
  | case1 =>
    have hgroups : (([] : List ℕ).length + 2) / 3 = 0 := by decide
    refine ⟨[], base64Encode1_last rfl, rfl, ?_⟩
    rw [hgroups, newlines_zero hcounter]
    rfl
  | case2 a =>
    have ha := hstream a (by simp)
    refine ⟨_, base64Encode1_last (triplet_one ha), ?_, ?_⟩
    · rw [symbols_append, symbols_wrap, nil_append, symbols_digit (by omega),
        symbols_digit (by omega), symbols_pad, symbols_pad]
      rfl
    · have hgroups : ([a].length + 2) / 3 = 1 := by simp
      rw [length_append, ← newlines_one hcounter, Nat.add_comm, hgroups]
      rfl
  | case3 a b =>
    have ha := hstream a (by simp)
    have hb := hstream b (by simp)
    refine ⟨_, base64Encode1_last (triplet_two ha hb), ?_, ?_⟩
    · rw [symbols_append, symbols_wrap, nil_append, symbols_digit (by omega),
        symbols_digit (by omega), symbols_digit (by omega), symbols_pad]
      rfl
    · have hgroups : ([a, b].length + 2) / 3 = 1 := by simp
      rw [length_append, ← newlines_one hcounter, Nat.add_comm, hgroups]
      rfl
  | case4 a b c stream ih =>
    have ha := hstream a (by simp)
    have hb := hstream b (by simp)
    have hc := hstream c (by simp)
    have hgroups : ((a :: b :: c :: stream).length + 2) / 3 = (stream.length + 2) / 3 + 1 := by
      simp only [length_cons]
      omega
    obtain ⟨hlines, hcounter'⟩ := newlines_succ lineBreak hcounter
      ((stream.length + 2) / 3)
    obtain ⟨e, hencode, hsymbols, hlength⟩ := ih (fun d hd => hstream d (by simp [hd])) hcounter'
    refine ⟨_, (base64Encode1_next (triplet_three ha hb hc stream)).trans (by rw [hencode]; rfl),
      ?_, ?_⟩
    · rw [symbols_append, symbols_append, symbols_wrap, nil_append, symbols_digit (by omega),
        symbols_digit (by omega), symbols_digit (by omega), symbols_digit (by omega), hsymbols]
      rfl
    · rw [length_append, length_append, hlength, hgroups, ← hlines]
      simp only [length_cons, length_nil]
      omega

/-! ### The decoder -/

theorem counts_iff (c : ℕ) : (isBase64 c || decide (c = pad)) = (symbol c).isSome := by
  rw [symbol]
  split
  · rw [decide_eq_true ‹_›, Bool.or_true]
    rfl
  · rw [decide_eq_false ‹_›, Bool.or_false]
    split
    · assumption
    · exact Bool.eq_false_iff.mpr ‹_›

theorem advanceIgnoring_spec (stream : List ℕ) (streampos : ℕ) :
    (symbols stream = [] ∧ ∃ pos, advanceIgnoring stream streampos = (none, [], pos)) ∨
      ∃ ec s stream' pos, advanceIgnoring stream streampos = (some ec, stream', pos) ∧
        symbol ec = some s ∧ symbols stream = s :: symbols stream' ∧
          stream'.length < stream.length := by
  induction stream generalizing streampos with
  | nil => exact .inl ⟨rfl, _, rfl⟩
  | cons ec stream ih =>
    rw [advanceIgnoring, counts_iff]
    cases hsymbol : symbol ec with
    | none =>
      have hsymbols : symbols (ec :: stream) = symbols stream := filterMap_cons_none hsymbol
      rw [hsymbols]
      obtain hnone | ⟨ec', s, stream', pos, hadvance, hs, heq, hlt⟩ := ih (streampos + 1)
      · exact .inl hnone
      · exact .inr ⟨ec', s, stream', pos, hadvance, hs, heq, Nat.lt_succ_of_lt hlt⟩
    | some s =>
      exact .inr ⟨ec, s, stream, _, rfl, hsymbol, filterMap_cons_some hsymbol,
        Nat.lt_succ_self _⟩

/-- What the loop does with a quadruplet. -/
inductive Read (stream : List ℕ) : Except Fault (Option (List ℕ × List ℕ × ℕ)) → Prop
  | done (h : symbols stream = []) : Read stream (.ok none)
  | next {g : List (Option ℕ)} {bs stream' : List ℕ} {pos : ℕ} (hg : Group g bs)
      (h : symbols stream = g ++ symbols stream') (hlt : stream'.length < stream.length) :
      Read stream (.ok (some (bs, stream', pos)))
  | signal {message : String} {pos : ℕ}
      (h : ∀ bytes, ¬ Groups (symbols stream) bytes) : Read stream (.error (.signal message pos))
  | error {message : String} (h : ∀ bytes, ¬ Groups (symbols stream) bytes) :
      Read stream (.error (.error message))

theorem not_groups {s : List (Option ℕ)} (hne : s ≠ [])
    (h : ∀ v w p q s', s = some v :: some w :: p :: q :: s' → p = none ∧ q ≠ none)
    (bytes : List ℕ) : ¬ Groups s bytes := by
  intro hgroups
  obtain hnil | ⟨v, w, p, q, s', heq, hpads⟩ := hgroups.shape
  · exact hne hnil
  · obtain ⟨hp, hq⟩ := h v w p q s' heq
    exact hq (hpads hp)

theorem quadruplet_read (stream : List ℕ) (streampos : ℕ) :
    Read stream (quadruplet stream streampos) := by
  rw [quadruplet]
  obtain ⟨hend, pos₁, hadvance₁⟩ | ⟨ec₁, s₁, stream₁, pos₁, hadvance₁, hec₁, hsymbols₁, hlt₁⟩ :=
    advanceIgnoring_spec stream streampos
  · rw [hadvance₁]
    exact .done hend
  simp only [hadvance₁]
  cases s₁ with
  | none =>
    rw [if_pos (eq_pad hec₁)]
    refine .signal (not_groups ?_ ?_) <;> rw [hsymbols₁]
    · exact cons_ne_nil _ _
    · exact nofun
  | some v =>
  simp only [if_neg (ne_pad hec₁), charToValue_eq hec₁, bind, Except.bind]
  obtain ⟨hend, pos₂, hadvance₂⟩ | ⟨ec₂, s₂, stream₂, pos₂, hadvance₂, hec₂, hsymbols₂, hlt₂⟩ :=
    advanceIgnoring_spec stream₁ pos₁
  · simp only [hadvance₂]
    refine .error (not_groups ?_ ?_) <;> rw [hsymbols₁, hend]
    · exact cons_ne_nil _ _
    · exact nofun
  simp only [hadvance₂]
  rw [hsymbols₂] at hsymbols₁
  cases s₂ with
  | none =>
    rw [if_pos (eq_pad hec₂)]
    refine .signal (not_groups ?_ ?_) <;> rw [hsymbols₁]
    · exact cons_ne_nil _ _
    · exact nofun
  | some w =>
  have hv := symbol_lt hec₁
  have hw := symbol_lt hec₂
  simp only [if_neg (ne_pad hec₂), charToValue_eq hec₂, first_byte hv hw]
  obtain ⟨hend, pos₃, hadvance₃⟩ | ⟨ec₃, s₃, stream₃, pos₃, hadvance₃, hec₃, hsymbols₃, hlt₃⟩ :=
    advanceIgnoring_spec stream₂ pos₂
  · simp only [hadvance₃]
    refine .error (not_groups ?_ ?_) <;> rw [hsymbols₁, hend]
    · exact cons_ne_nil _ _
    · exact nofun
  simp only [hadvance₃]
  rw [hsymbols₃] at hsymbols₁
  cases s₃ with
  | none =>
    rw [if_pos (eq_pad hec₃)]
    obtain ⟨hend, pos₄, hadvance₄⟩ | ⟨ec₄, s₄, stream₄, pos₄, hadvance₄, hec₄, hsymbols₄, hlt₄⟩ :=
      advanceIgnoring_spec stream₃ pos₃
    · simp only [hadvance₄]
      refine .error (not_groups ?_ ?_) <;> rw [hsymbols₁, hend]
      · exact cons_ne_nil _ _
      · exact nofun
    simp only [hadvance₄]
    rw [hsymbols₄] at hsymbols₁
    cases s₄ with
    | none =>
      rw [if_neg (not_not_intro (eq_pad hec₄))]
      exact .next (.one v w) hsymbols₁ (by omega)
    | some y =>
      rw [if_pos (ne_pad hec₄)]
      refine .signal (not_groups ?_ ?_) <;> rw [hsymbols₁]
      · exact cons_ne_nil _ _
      · rintro v w p q s' ⟨⟩
        exact ⟨rfl, nofun⟩
  | some x =>
    have hx := symbol_lt hec₃
    simp only [if_neg (ne_pad hec₃), charToValue_eq hec₃, second_byte hw hx]
    obtain ⟨hend, pos₄, hadvance₄⟩ | ⟨ec₄, s₄, stream₄, pos₄, hadvance₄, hec₄, hsymbols₄, hlt₄⟩ :=
      advanceIgnoring_spec stream₃ pos₃
    · simp only [hadvance₄]
      refine .error (not_groups ?_ ?_) <;> rw [hsymbols₁, hend]
      · exact cons_ne_nil _ _
      · exact nofun
    simp only [hadvance₄]
    rw [hsymbols₄] at hsymbols₁
    cases s₄ with
    | none =>
      rw [if_pos (eq_pad hec₄)]
      exact .next (.two v w x) hsymbols₁ (by omega)
    | some y =>
      simp only [if_neg (ne_pad hec₄), charToValue_eq hec₄, third_byte hw hx (symbol_lt hec₄)]
      exact .next (.three v w x y) hsymbols₁ (by omega)

end XEmacs.Base64

import XEmacs.Bytecode.Format
import XEmacs.Coding.Charsets

/-!
# Instructions of an optimized function

`compiled_function_instructions` makes a string of instructions again from the program that
`optimize_byte_code` has made, for printing and for `equal`.
-/

namespace XEmacs.Bytecode

open Coding List

/-- `READ_INT_1` and `READ_INT_2`. -/
def readInt1 (b : UInt8) : Int := signed b.toNat

def readInt2 (lo hi : UInt8) : Int := signed hi.toNat * 256 + lo.toNat

/-- The number of operand bytes behind an opcode. -/
def operandCount (opcode : Nat) : Nat :=
  match classify opcode with
  | .nargs group =>
    if opcode - group.base = 7 then 2 else if opcode - group.base = 6 then 1 else 0
  | .constant2 | .goto _ => 2
  | .counted | .rgoto _ => 1
  | .simple | .constant | .invalid => 0

/-- The characters for the operand bytes at a place. -/
def operandChars (opcode place : Nat) (operand : List UInt8) : List Int :=
  match classify opcode, operand with
  | .goto _, [lo, hi] =>
    -- convert back to program-relative address
    let jump := readInt2 lo hi + place
    [jump % 256, jump / 256 % 256]
  | .rgoto _, [b] => [readInt1 b + 127]
  | _, operand => operand.map fun b => (b.toNat : Int)

/-- The characters that `compiled_function_instructions` writes, for the rest of the program
from `place` on. Every turn reads an opcode. -/
def instructionChars : Nat → Nat → List UInt8 → Option (List Int)
  | _, _, [] => some []
  | 0, _, _ :: _ => none
  | fuel + 1, place, opcode :: rest =>
    let count := operandCount opcode.toNat
    if rest.length < count then none
    else
      (instructionChars fuel (place + 1 + count) (rest.drop count)).map fun cs =>
        (opcode.toNat : Int) :: operandChars opcode.toNat (place + 1) (rest.take count) ++ cs

/-- `set_charptr_emchar`, for any `int`. -/
def charBytes (charsets : Charsets) (c : Int) : Option (List Nat) :=
  if c < 0x80 then some [(c % 256).toNat] else setCharptrEmchar charsets c.toNat

def charsBytes (charsets : Charsets) : List Int → Option (List Nat)
  | [] => some []
  | c :: cs => (charBytes charsets c).bind fun b => (charsBytes charsets cs).map (b ++ ·)

/-- The string that `compiled_function_instructions` makes of a program. -/
def instructionsString (charsets : Charsets) (program : List UInt8) : Option (List Nat) :=
  (instructionChars program.length 0 program).bind (charsBytes charsets)

/-! ### The program can be told from the string -/

theorem toNat_inj {a b : UInt8} (h : (a.toNat : Int) = b.toNat) : a = b :=
  UInt8.toNat_inj.mp (Int.ofNat.inj h)

theorem readInt1_inj {a b : UInt8} (h : readInt1 a = readInt1 b) : a = b := by
  have ha := a.toNat_lt
  have hb := b.toNat_lt
  refine UInt8.toNat_inj.mp ?_
  rw [readInt1, readInt1, signed, signed] at h
  grind

theorem readInt2_inj {lo hi lo' hi' : UInt8} {d : Int}
    (h₁ : (readInt2 lo hi + d) % 256 = (readInt2 lo' hi' + d) % 256)
    (h₂ : (readInt2 lo hi + d) / 256 % 256 = (readInt2 lo' hi' + d) / 256 % 256) :
    lo = lo' ∧ hi = hi' := by
  have hlo := lo.toNat_lt
  have hhi := hi.toNat_lt
  have hlo' := lo'.toNat_lt
  have hhi' := hi'.toNat_lt
  rw [← UInt8.toNat_inj, ← UInt8.toNat_inj]
  rw [readInt2, readInt2, signed, signed] at h₁ h₂
  grind

theorem map_toNat_inj {l l' : List UInt8}
    (h : (l.map fun b => (b.toNat : Int)) = l'.map fun b => (b.toNat : Int)) : l = l' :=
  List.map_injective_iff.mpr (fun _ _ => toNat_inj) h

theorem operandChars_inj {opcode place : Nat} {l l' : List UInt8} {cs cs' : List Int}
    (hl : l.length = operandCount opcode) (hl' : l'.length = operandCount opcode)
    (h : operandChars opcode place l ++ cs = operandChars opcode place l' ++ cs') :
    l = l' ∧ cs = cs' := by
  have hplain : (l.map fun b => (b.toNat : Int)) ++ cs
      = (l'.map fun b => (b.toNat : Int)) ++ cs' → l = l' ∧ cs = cs' := by
    intro h
    have hlen : (l.map fun b => (b.toNat : Int)).length
        = (l'.map fun b => (b.toNat : Int)).length := by
      rw [length_map, length_map, hl, hl']
    obtain ⟨hmap, hrest⟩ := append_inj h hlen
    exact ⟨map_toNat_inj hmap, hrest⟩
  unfold operandCount at hl hl'
  unfold operandChars at h
  cases hclass : classify opcode with
  | nargs group =>
    simp only [hclass] at h
    exact hplain h
  | constant2 | counted | constant | simple | invalid =>
    simp only [hclass] at h
    exact hplain h
  | goto condition =>
    simp only [hclass] at hl hl' h
    obtain ⟨lo, hi, rfl⟩ := List.length_eq_two.mp hl
    obtain ⟨lo', hi', rfl⟩ := List.length_eq_two.mp hl'
    simp only [cons_append, nil_append, List.cons.injEq] at h
    obtain ⟨h₁, h₂, hrest⟩ := h
    obtain ⟨rfl, rfl⟩ := readInt2_inj h₁ h₂
    exact ⟨rfl, hrest⟩
  | rgoto condition =>
    simp only [hclass] at hl hl' h
    obtain ⟨b, rfl⟩ := List.length_eq_one_iff.mp hl
    obtain ⟨b', rfl⟩ := List.length_eq_one_iff.mp hl'
    simp only [cons_append, nil_append, List.cons.injEq] at h
    obtain ⟨h, hrest⟩ := h
    rw [readInt1_inj ((Int.add_left_inj 127).mp h)]
    exact ⟨rfl, hrest⟩

theorem instructionChars_cons {fuel place : Nat} {opcode : UInt8} {rest : List UInt8}
    {cs : List Int} (h : instructionChars fuel place (opcode :: rest) = some cs) :
    ∃ fuel' tail, fuel = fuel' + 1 ∧ operandCount opcode.toNat ≤ rest.length ∧
      instructionChars fuel' (place + 1 + operandCount opcode.toNat)
        (rest.drop (operandCount opcode.toNat)) = some tail ∧
      cs = (opcode.toNat : Int) ::
        (operandChars opcode.toNat (place + 1) (rest.take (operandCount opcode.toNat)) ++ tail) := by
  cases fuel with
  | zero => cases h
  | succ fuel =>
    rw [instructionChars] at h
    obtain hlt | hle := Nat.lt_or_ge rest.length (operandCount opcode.toNat)
    · rw [if_pos hlt] at h
      cases h
    · rw [if_neg (Nat.not_lt.mpr hle)] at h
      obtain ⟨tail, htail, rfl⟩ := Option.map_eq_some_iff.mp h
      exact ⟨fuel, tail, rfl, hle, htail, rfl⟩

theorem instructionChars_inj {fuel fuel' place : Nat} {l l' : List UInt8} {cs : List Int}
    (h : instructionChars fuel place l = some cs)
    (h' : instructionChars fuel' place l' = some cs) : l = l' := by
  induction fuel generalizing fuel' place l l' cs with
  | zero =>
    cases l with
    | cons opcode rest => cases h
    | nil =>
      cases h
      cases l' with
      | nil => rfl
      | cons opcode' rest' =>
        obtain ⟨_, _, _, _, _, hnil⟩ := instructionChars_cons h'
        cases hnil
  | succ fuel ih =>
    cases l with
    | nil =>
      cases h
      cases l' with
      | nil => rfl
      | cons opcode' rest' =>
        obtain ⟨_, _, _, _, _, hnil⟩ := instructionChars_cons h'
        cases hnil
    | cons opcode rest =>
      obtain ⟨_, tail, hfuel, hle, htail, rfl⟩ := instructionChars_cons h
      cases hfuel
      cases l' with
      | nil =>
        cases fuel' with
        | zero => cases h'
        | succ fuel' => cases h'
      | cons opcode' rest' =>
        obtain ⟨fuel'', tail', -, hle', htail', heq⟩ := instructionChars_cons h'
        obtain ⟨hopcode, heq⟩ := List.cons.inj heq
        obtain rfl := toNat_inj hopcode
        obtain ⟨htake, rfl⟩ := operandChars_inj (length_take_of_le hle)
          (length_take_of_le hle') heq
        have hdrop := ih htail htail'
        rw [← take_append_drop (operandCount opcode.toNat) rest, htake, hdrop,
          take_append_drop]

/-! ### The string of the characters -/

section strings

variable (charsets : Charsets)

/-- The bytes of a character that a byte is converted to. -/
inductive CharShape (c : Int) : List Nat → Prop where
  | ascii (hlo : 0 ≤ c) (hhi : c < 128) : CharShape c [c.toNat]
  | control1 (hlo : 128 ≤ c) (hhi : c < 160) : CharShape c [0x8F, c.toNat + 0x20]
  | latin1 (hlo : 160 ≤ c) (hhi : c ≤ 255) : CharShape c [0x81, c.toNat]
  -- the distance -128 of a short jump
  | negative (h : c = -1) : CharShape c [0xFF]

theorem charShape {c : Int} (hlo : -1 ≤ c) (hhi : c ≤ 255) {b : List Nat}
    (h : charBytes charsets c = some b) : CharShape c b := by
  unfold charBytes at h
  obtain hlt | hge := Int.lt_or_le c 0x80
  · rw [if_pos hlt] at h
    cases h
    obtain hneg | hpos := Int.lt_or_le c 0
    · obtain rfl : c = -1 := by omega
      exact .negative rfl
    · rw [show (c % 256).toNat = c.toNat by omega]
      exact .ascii hpos hlt
  · rw [if_neg (Int.not_lt.mpr hge)] at h
    obtain hcontrol | hlatin := Int.lt_or_le c 160
    · obtain ⟨ch, hch, hbytes, hc⟩ :=
        exists_control1 charsets (c := c.toNat) (by omega) (by omega)
      rw [← hc, setCharptrEmchar_emchar hch, hbytes] at h
      cases h
      exact .control1 hge hcontrol
    · obtain ⟨ch, hch, hbytes, hc⟩ :=
        exists_latin1 charsets (c := c.toNat) (by omega) (by omega)
      rw [← hc, setCharptrEmchar_emchar hch, hbytes] at h
      cases h
      exact .latin1 hlatin hhi

theorem CharShape.inj {c c' : Int} {b b' rest rest' : List Nat} (h : CharShape c b)
    (h' : CharShape c' b') (heq : b ++ rest = b' ++ rest') : c = c' ∧ rest = rest' := by
  cases h with
  | ascii hlo hhi | control1 hlo hhi | latin1 hlo hhi | negative h =>
    cases h' with
    | ascii hlo' hhi' | control1 hlo' hhi' | latin1 hlo' hhi' | negative h' =>
      simp only [cons_append, nil_append, List.cons.injEq] at heq
      first
        | exact ⟨by omega, heq.2⟩
        | exact ⟨by omega, heq.2.2⟩
        | omega

/-- What a byte of a program is converted to. -/
def IsOperand (c : Int) : Prop := -1 ≤ c ∧ c ≤ 255

theorem charsBytes_cons {c : Int} {cs : List Int} {b : List Nat} (hc : IsOperand c)
    (h : charsBytes charsets (c :: cs) = some b) :
    ∃ first rest, CharShape c first ∧ charsBytes charsets cs = some rest ∧ b = first ++ rest := by
  obtain ⟨first, hfirst, h⟩ := Option.bind_eq_some_iff.mp h
  obtain ⟨rest, hrest, rfl⟩ := Option.map_eq_some_iff.mp h
  exact ⟨first, rest, charShape charsets hc.1 hc.2 hfirst, hrest, rfl⟩

theorem CharShape.ne_nil {c : Int} {b rest : List Nat} (h : CharShape c b) : b ++ rest ≠ [] := by
  cases h with
  | ascii | control1 | latin1 | negative => exact cons_ne_nil _ _

theorem charsBytes_inj {cs cs' : List Int} (hcs : ∀ c ∈ cs, IsOperand c)
    (hcs' : ∀ c ∈ cs', IsOperand c) {b : List Nat} (h : charsBytes charsets cs = some b)
    (h' : charsBytes charsets cs' = some b) : cs = cs' := by
  induction cs generalizing cs' b with
  | nil =>
    cases h
    cases cs' with
    | nil => rfl
    | cons c' cs' =>
      obtain ⟨_, _, hshape, _, hnil⟩ := charsBytes_cons charsets (hcs' c' mem_cons_self) h'
      exact absurd hnil.symm hshape.ne_nil
  | cons c cs ih =>
    obtain ⟨first, rest, hshape, hrest, rfl⟩ :=
      charsBytes_cons charsets (hcs c mem_cons_self) h
    cases cs' with
    | nil => exact absurd (Option.some.inj h').symm hshape.ne_nil
    | cons c' cs' =>
      obtain ⟨first', rest', hshape', hrest', heq⟩ :=
        charsBytes_cons charsets (hcs' c' mem_cons_self) h'
      obtain ⟨rfl, rfl⟩ := hshape.inj hshape' heq
      rw [ih (fun x hx => hcs x (mem_cons_of_mem c hx))
        (fun x hx => hcs' x (mem_cons_of_mem c hx)) hrest hrest']

theorem isOperand_toNat (b : UInt8) : IsOperand b.toNat := by
  have hb := b.toNat_lt
  exact ⟨by omega, by omega⟩

theorem isOperand_operandChars {opcode place : Nat} {l : List UInt8} {c : Int}
    (hc : c ∈ operandChars opcode place l) : IsOperand c := by
  unfold operandChars at hc
  split at hc
  · simp only [mem_cons, not_mem_nil, or_false] at hc
    rw [IsOperand]
    omega
  · rename_i b _
    have hb := b.toNat_lt
    rw [List.mem_singleton.mp hc, readInt1, signed, IsOperand]
    split <;> omega
  · obtain ⟨b, -, rfl⟩ := List.mem_map.mp hc
    exact isOperand_toNat b

theorem isOperand_instructionChars {fuel place : Nat} {l : List UInt8} {cs : List Int}
    (h : instructionChars fuel place l = some cs) : ∀ c ∈ cs, IsOperand c := by
  induction fuel generalizing place l cs with
  | zero =>
    cases l with
    | nil =>
      cases h
      exact fun c hc => absurd hc not_mem_nil
    | cons opcode rest => cases h
  | succ fuel ih =>
    cases l with
    | nil =>
      cases h
      exact fun c hc => absurd hc not_mem_nil
    | cons opcode rest =>
      obtain ⟨_, tail, hfuel, -, htail, rfl⟩ := instructionChars_cons h
      cases hfuel
      intro c hc
      obtain rfl | hc := List.mem_cons.mp hc
      · exact isOperand_toNat opcode
      · obtain hc | hc := List.mem_append.mp hc
        · exact isOperand_operandChars hc
        · exact ih htail c hc

/-- **Two programs** are converted to the same string only if they are the same. -/
theorem instructionsString_inj {program program' : List UInt8} {b : List Nat}
    (h : instructionsString charsets program = some b)
    (h' : instructionsString charsets program' = some b) : program = program' := by
  obtain ⟨cs, hcs, hb⟩ := Option.bind_eq_some_iff.mp h
  obtain ⟨cs', hcs', hb'⟩ := Option.bind_eq_some_iff.mp h'
  have heq := charsBytes_inj charsets (isOperand_instructionChars hcs)
    (isOperand_instructionChars hcs') hb hb'
  rw [← heq] at hcs'
  exact instructionChars_inj hcs hcs'

end strings

end XEmacs.Bytecode

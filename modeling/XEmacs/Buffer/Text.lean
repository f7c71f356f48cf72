import XEmacs.Lib.BytePositions
import Mathlib.Data.List.Basic

/-!
# Buffer text under Mule

A character is stored as a first byte, below `0xA0`, which determines the number of bytes, and
further bytes from `0xA0` on.
-/

namespace XEmacs.Buffer

open BytePositions List

abbrev Bufbyte := UInt8

/-- `REP_BYTES_BY_FIRST_BYTE`, for first bytes. -/
def repBytesByFirstByte (fb : Bufbyte) : Nat :=
  if fb < 0x80 then 1
  else if fb < 0x90 then 2
  else if fb < 0x9F then 3
  else 4

def bufbyteFirstByteP (byte : Bufbyte) : Bool := byte < 0xA0

/-- A character, in its internal representation. -/
structure Emchar where
  first : Bufbyte
  rest : List Bufbyte
  first_firstByteP : bufbyteFirstByteP first = true
  rest_firstByteP : ∀ b ∈ rest, bufbyteFirstByteP b = false
  length_rest : rest.length + 1 = repBytesByFirstByte first
  deriving DecidableEq

/-- The bytes of a character. -/
def Emchar.bytes (c : Emchar) : List Bufbyte := c.first :: c.rest

theorem Emchar.bytes_inj {c c' : Emchar} : c.bytes = c'.bytes ↔ c = c' := by
  refine ⟨fun h => ?_, congrArg Emchar.bytes⟩
  obtain ⟨f, r, _, _, _⟩ := c
  obtain ⟨f', r', _, _, _⟩ := c'
  cases h
  rfl

/-- The number of bytes of a character. -/
def Emchar.width (c : Emchar) : Nat := c.bytes.length

theorem Emchar.width_pos (c : Emchar) : 1 ≤ c.width := Nat.le_add_left _ _

theorem Emchar.width_le (c : Emchar) : c.width ≤ 4 := by
  have h := c.length_rest
  unfold repBytesByFirstByte at h
  rw [Emchar.width, Emchar.bytes, length_cons]
  split at h
  · omega
  · split at h
    · omega
    · split at h <;> omega

def letterA : Emchar where
  first := 0x61
  rest := []
  first_firstByteP := by decide
  rest_firstByteP := fun _ h => absurd h not_mem_nil
  length_rest := by decide

def newlineChar : Emchar where
  first := 0x0A
  rest := []
  first_firstByteP := by decide
  rest_firstByteP := fun _ h => absurd h not_mem_nil
  length_rest := by decide

/-- Hiragana A, of three bytes. -/
def hiraganaA : Emchar where
  first := 0x92
  rest := [0xA4, 0xA2]
  first_firstByteP := by decide
  rest_firstByteP := List.forall_mem_cons.mpr ⟨rfl, List.forall_mem_singleton.mpr rfl⟩
  length_rest := by decide

/-- The bytes of a text. -/
def textBytes (text : List Emchar) : List Bufbyte := text.flatMap Emchar.bytes

/-- The byte position of a character position. -/
abbrev bytind (text : List Emchar) (x : Nat) : Nat := bytePos Emchar.width text x

/-! ## Moving over a character -/

/-- The loop of `VALIDATE_BYTIND_FORWARD`, at position `x` with the bytes from there
on; no byte is the sentinel. -/
def validateForward : List Bufbyte → Nat → Nat
  | [], x => x
  | b :: bs, x => if bufbyteFirstByteP b then x else validateForward bs (x + 1)

/-- The loop of `VALIDATE_BYTIND_BACKWARD`, at position `x` with the bytes from there
back. -/
def validateBackward : List Bufbyte → Nat → Nat
  | [], x => x
  | b :: bs, x => if bufbyteFirstByteP b then x else validateBackward bs (x - 1)

def incBytind (bytes : List Bufbyte) (x : Nat) : Nat :=
  validateForward (bytes.drop x) (x + 1)

def decBytind (bytes : List Bufbyte) (x : Nat) : Nat :=
  validateBackward (bytes.take (x - 1)).reverse (x - 1)

theorem length_textBytes (text : List Emchar) :
    (textBytes text).length = byteLength Emchar.width text := by
  induction text with
  | nil => rfl
  | cons c text ih =>
    rw [textBytes, flatMap_cons, length_append, byteLength_cons, ← ih]
    rfl

theorem validateForward_append {l : List Bufbyte}
    (hl : ∀ b ∈ l, bufbyteFirstByteP b = false) (l' : List Bufbyte) (x : Nat) :
    validateForward (l ++ l') x = validateForward l' (x + l.length) := by
  induction l generalizing x with
  | nil => rfl
  | cons b l ih =>
    rw [cons_append, validateForward, hl b (mem_cons_self ..),
      if_neg Bool.false_ne_true, ih (fun b hb => hl b (mem_cons_of_mem _ hb)),
      length_cons]
    congr 1
    omega

theorem validateForward_textBytes (text : List Emchar) (x : Nat) :
    validateForward (textBytes text) x = x := by
  cases text with
  | nil => rfl
  | cons c text =>
    show validateForward (c.first :: (c.rest ++ textBytes text)) x = x
    rw [validateForward, c.first_firstByteP, if_pos rfl]

theorem validateBackward_append {l : List Bufbyte}
    (hl : ∀ b ∈ l, bufbyteFirstByteP b = false) {b : Bufbyte}
    (hb : bufbyteFirstByteP b = true) (l' : List Bufbyte) (x : Nat) :
    validateBackward (l ++ b :: l') x = x - l.length := by
  induction l generalizing x with
  | nil => rw [nil_append, validateBackward, hb, if_pos rfl, length_nil]; rfl
  | cons a l ih =>
    rw [cons_append, validateBackward, hl a (mem_cons_self ..),
      if_neg Bool.false_ne_true, ih (fun b hb => hl b (mem_cons_of_mem _ hb)),
      length_cons]
    omega

theorem textBytes_split {text : List Emchar} {i : Nat} (hi : i < text.length) :
    textBytes text = textBytes (text.take i) ++
      (text[i].bytes ++ textBytes (text.drop (i + 1))) := by
  conv_lhs => rw [← take_append_drop i text, drop_eq_getElem_cons hi]
  rw [textBytes, flatMap_append, flatMap_cons]
  rfl

theorem bytind_eq (text : List Emchar) (x : Nat) :
    bytind text x = (textBytes (text.take (x - 1))).length + 1 := by
  rw [length_textBytes]
  rfl

theorem incBytind_bytePos {text : List Emchar} {x : Nat} (hx : 1 ≤ x)
    (hx' : x ≤ text.length) : incBytind (textBytes text) (bytind text x)
      = bytind text (x + 1) := by
  have hi : x - 1 < text.length := by omega
  have hdrop : (textBytes text).drop (bytind text x)
      = text[x - 1].rest ++ textBytes (text.drop (x - 1 + 1)) := by
    rw [bytind_eq, textBytes_split hi, drop_length_add_append]
    rfl
  have hstep : bytind text (x + 1) = bytind text x + (text[x - 1].rest.length + 1) :=
    bytePos_succ hx (getElem?_eq_getElem hi)
  rw [incBytind, hdrop, validateForward_append text[x - 1].rest_firstByteP,
    validateForward_textBytes, hstep]
  omega

theorem decBytind_bytePos {text : List Emchar} {x : Nat} (hx : 1 ≤ x)
    (hx' : x ≤ text.length) : decBytind (textBytes text) (bytind text (x + 1))
      = bytind text x := by
  have hi : x - 1 < text.length := by omega
  have hstep : bytind text (x + 1) = bytind text x + (text[x - 1].rest.length + 1) :=
    bytePos_succ hx (getElem?_eq_getElem hi)
  have htake : (textBytes text).take (bytind text (x + 1) - 1)
      = textBytes (text.take (x - 1)) ++ text[x - 1].bytes := by
    have hlen : bytind text (x + 1) - 1
        = (textBytes (text.take (x - 1))).length + text[x - 1].bytes.length := by
      rw [hstep, bytind_eq, Emchar.bytes, length_cons]
      omega
    rw [hlen, textBytes_split hi, take_length_add_append, take_left]
  rw [decBytind, htake, reverse_append, Emchar.bytes, reverse_cons,
    append_assoc, singleton_append,
    validateBackward_append (fun b hb => text[x - 1].rest_firstByteP b
      (List.mem_reverse.mp hb)) text[x - 1].first_firstByteP, length_reverse, hstep]
  omega

end XEmacs.Buffer

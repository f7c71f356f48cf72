import XEmacs.Lib.Sextets
import XEmacs.Lib.Fallible
import Mathlib.Data.Int.Notation

/-!
# The base64 coder and decoder (fns.c)

The coder writes the digits of its bytes, with a newline after every nineteen groups if lines are
to be broken. The decoder leaves out all characters that are no digits or pads, and reads groups,
also behind a group with pads.
-/

namespace XEmacs.Base64

open Sextets Fallible

/-! ### The functions -/

/-- How a function fails. -/
inductive Fault
  /-- `signal_simple_error` -/
  | signal (message : String) (datum : ℕ)
  /-- `error` -/
  | error (message : String)
  /-- The table of values is read with a character that has none. -/
  | noValue
  /-- `ABORT` -/
  | abort
deriving DecidableEq

def mimeLineLength : ℕ := 76

def maxEmcharLen : ℕ := 4

def base64ValueToChar : List Char :=
  ['A', 'B', 'C', 'D', 'E', 'F', 'G', 'H', 'I', 'J',
   'K', 'L', 'M', 'N', 'O', 'P', 'Q', 'R', 'S', 'T',
   'U', 'V', 'W', 'X', 'Y', 'Z', 'a', 'b', 'c', 'd',
   'e', 'f', 'g', 'h', 'i', 'j', 'k', 'l', 'm', 'n',
   'o', 'p', 'q', 'r', 's', 't', 'u', 'v', 'w', 'x',
   'y', 'z', '0', '1', '2', '3', '4', '5', '6', '7',
   '8', '9', '+', '/']

def base64CharToValue : List ℤ :=
  [-1,  -1,  -1,  -1,  -1,  -1,  -1,  -1,  -1,  -1,
   -1,  -1,  -1,  -1,  -1,  -1,  -1,  -1,  -1,  -1,
   -1,  -1,  -1,  -1,  -1,  -1,  -1,  -1,  -1,  -1,
   -1,  -1,  -1,  -1,  -1,  -1,  -1,  -1,  -1,  -1,
   -1,  -1,  -1,  62,  -1,  -1,  -1,  63,  52,  53,
   54,  55,  56,  57,  58,  59,  60,  61,  -1,  -1,
   -1,  -1,  -1,  -1,  -1,  0,   1,   2,   3,   4,
   5,   6,   7,   8,   9,   10,  11,  12,  13,  14,
   15,  16,  17,  18,  19,  20,  21,  22,  23,  24,
   25,  -1,  -1,  -1,  -1,  -1,  -1,  26,  27,  28,
   29,  30,  31,  32,  33,  34,  35,  36,  37,  38,
   39,  40,  41,  42,  43,  44,  45,  46,  47,  48,
   49,  50,  51,  -1,  -1,  -1,  -1,  -1]

/-- The character of a value. -/
def valueToChar (value : ℕ) : ℕ := (base64ValueToChar.getD value '=').toNat

def pad : ℕ := '='.toNat

def isBase64 (c : ℕ) : Bool := c < 128 && base64CharToValue.getD c (-1) ≥ 0

/-- The value of a character. -/
def charToValue (ec : ℕ) : Except Fault ℕ :=
  if isBase64 ec then .ok (base64CharToValue.getD ec (-1)).toNat else .error .noValue

def advanceInput : List ℕ → Except Fault (Option (ℕ × List ℕ))
  | [] => .ok none
  | ec :: stream =>
    if ec > 255 then .error (.signal "Non-ascii character in base64 input" ec)
    else .ok (some (ec, stream))

/-- The newline before a triplet, and the counter after it. -/
def wrap (lineBreak : Bool) (counter : ℕ) : List ℕ × ℕ :=
  if lineBreak then
    if counter < mimeLineLength / 4 then ([], counter + 1) else (['\n'.toNat], 1)
  else ([], counter)

/-- A triplet, in the loop of `base64_encode_1`: what is written, and where the loop goes on if
it does. -/
def triplet (lineBreak : Bool) (counter : ℕ) (stream : List ℕ) :
    Except Fault (List ℕ × Option (ℕ × List ℕ)) := do
  match ← advanceInput stream with
  | none => return ([], none)
  | some (c, stream) =>
    let (newline, counter) := wrap lineBreak counter
    let first := valueToChar (0x3f &&& c >>> 2)
    let value := (0x03 &&& c) <<< 4
    match ← advanceInput stream with
    | none => return (newline ++ [first, valueToChar value, pad, pad], none)
    | some (c, stream) =>
      let second := valueToChar (value ||| (0x0f &&& c >>> 4))
      let value := (0x0f &&& c) <<< 2
      match ← advanceInput stream with
      | none => return (newline ++ [first, second, valueToChar value, pad], none)
      | some (c, stream) =>
        return (newline ++ [first, second, valueToChar (value ||| (0x03 &&& c >>> 6)),
          valueToChar (0x3f &&& c)], some (counter, stream))

theorem advanceInput_some {stream stream' : List ℕ} {c : ℕ}
    (h : advanceInput stream = .ok (some (c, stream'))) : stream = c :: stream' ∧ c ≤ 255 := by
  cases stream with
  | nil => cases h
  | cons ec stream =>
    rw [advanceInput] at h
    split at h
    · cases h
    · cases h
      exact ⟨rfl, by omega⟩

theorem triplet_length {lineBreak : Bool} {counter counter' : ℕ} {stream stream' e : List ℕ}
    (h : triplet lineBreak counter stream = .ok (e, some (counter', stream'))) :
    stream'.length < stream.length := by
  obtain ⟨_ | ⟨a, stream₁⟩, h₁, h⟩ := bind_eq_ok.mp h
  · cases h
  obtain ⟨_ | ⟨b, stream₂⟩, h₂, h⟩ := bind_eq_ok.mp h
  · cases h
  obtain ⟨_ | ⟨c, stream₃⟩, h₃, h⟩ := bind_eq_ok.mp h
  · cases h
  cases h
  obtain ⟨rfl, -⟩ := advanceInput_some h₁
  obtain ⟨rfl, -⟩ := advanceInput_some h₂
  obtain ⟨rfl, -⟩ := advanceInput_some h₃
  simp only [List.length_cons]
  omega

/-- `base64_encode_1`, with what it writes. -/
def base64Encode1 (lineBreak : Bool) (counter : ℕ) (stream : List ℕ) : Except Fault (List ℕ) :=
  match _h : triplet lineBreak counter stream with
  | .error e => .error e
  | .ok (e, none) => .ok e
  | .ok (e, some (counter, stream')) => (base64Encode1 lineBreak counter stream').map (e ++ ·)
termination_by stream.length
decreasing_by exact triplet_length _h

/-- `ADVANCE_INPUT_IGNORE_NONBASE64`: the character, if there is one, the stream and the
position. -/
def advanceIgnoring : List ℕ → ℕ → Option ℕ × List ℕ × ℕ
  | [], streampos => (none, [], streampos + 1)
  | ec :: stream, streampos =>
    if isBase64 ec || ec = pad then (some ec, stream, streampos + 1)
    else advanceIgnoring stream (streampos + 1)

/-- `STORE_BYTE`, the character. -/
def storeByte (val : ℕ) : ℕ := val % 256

/-- A pad where there should be none. -/
def illegalPad {α : Type} (streampos : ℕ) : Except Fault α :=
  .error (.signal "Illegal `=' character while decoding base64" streampos)

/-- The end where there should be none. -/
def prematureEof {α : Type} : Except Fault α := .error (.error "Premature EOF while decoding base64")

/-- A quadruplet, in the loop of `base64_decode_1`: nothing if the loop ends, else what is stored,
and where the loop goes on. -/
def quadruplet (stream : List ℕ) (streampos : ℕ) : Except Fault (Option (List ℕ × List ℕ × ℕ)) :=
  match advanceIgnoring stream streampos with
  | (none, _, _) => .ok none
  | (some ec, stream, streampos) =>
    if ec = pad then illegalPad streampos
    else do
      let value := (← charToValue ec) <<< 18
      match advanceIgnoring stream streampos with
      | (none, _, _) => prematureEof
      | (some ec, stream, streampos) =>
        if ec = pad then illegalPad streampos
        else
          let value := value ||| (← charToValue ec) <<< 12
          let first := storeByte (value >>> 16)
          match advanceIgnoring stream streampos with
          | (none, _, _) => prematureEof
          | (some ec, stream, streampos) =>
            if ec = pad then
              match advanceIgnoring stream streampos with
              | (none, _, _) => prematureEof
              | (some ec, stream, streampos) =>
                if ec ≠ pad then
                  .error (.signal "Padding `=' expected but not found while decoding base64"
                    streampos)
                else return some ([first], stream, streampos)
            else
              let value := value ||| (← charToValue ec) <<< 6
              let second := storeByte (0xff &&& value >>> 8)
              match advanceIgnoring stream streampos with
              | (none, _, _) => prematureEof
              | (some ec, stream, streampos) =>
                if ec = pad then return some ([first, second], stream, streampos)
                else
                  let value := value ||| (← charToValue ec)
                  return some ([first, second, storeByte (0xff &&& value)], stream, streampos)

end XEmacs.Base64

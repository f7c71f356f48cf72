import Mathlib.Data.BitVec
import Mathlib.Logic.Function.Basic
import XEmacs.Coding.Charsets

/-!
# CCL programs

A CCL program (`mule-ccl.c`) is a vector of code words that work on eight registers. This module
has the parts of `ccl_driver` that do not read: the fields of a code, the expressions, and the
macros that write to the destination.
-/

namespace XEmacs.Ccl

open XEmacs.Coding

/-- An `int`. -/
abbrev CInt := BitVec 32

/-- The code words of a program, as `XINT` gives them. -/
abbrev Program := List ℤ

/-- The registers `reg[8]`. -/
abbrev Registers := Fin 8 → CInt

/-- What the C code does not check, and what then goes wrong. -/
inductive Fault
  /-- a place outside of the vector -/
  | outside
  /-- a register outside of the array -/
  | noRegister
  /-- a division the processor traps on -/
  | division
  /-- nil taken for a charset -/
  | noCharset
  /-- an integer taken from an object that is none -/
  | noInteger
deriving DecidableEq, Repr

/-! ## Code words -/

/-- `XINT (ccl_prog[ic])`. -/
def word (prog : Program) (ic : ℤ) : Except Fault ℤ :=
  if 0 ≤ ic then
    match prog[ic.toNat]? with
    | some w => .ok w
    | none => .error .outside
  else .error .outside

/-- A code word that is assigned to an `int`. -/
def intAt (prog : Program) (ic : ℤ) : Except Fault CInt :=
  (word prog ic).map (BitVec.ofInt 32)

theorem toNat_byte {b : ℕ} (hb : b < 256) : (BitVec.ofNat 32 b).toNat = b := by
  rw [BitVec.toNat_ofNat]
  omega

theorem toInt_byte {b : ℕ} (hb : b < 256) : (BitVec.ofNat 32 b).toInt = b := by
  have hnat := toNat_byte hb
  rw [BitVec.toInt_eq_toNat_of_lt (by omega), hnat]

def field1 (code : CInt) : CInt := code.sshiftRight 8

/-- `rrr`, which is `field2`. -/
def rrr (code : CInt) : Fin 8 := Fin.ofNat 8 ((code &&& 0xFF).toNat >>> 5)

def RRR (code : CInt) : Fin 8 := Fin.ofNat 8 (field1 code &&& 7).toNat

def Rrr (code : CInt) : Fin 8 := Fin.ofNat 8 ((field1 code).sshiftRight 3 &&& 7).toNat

/-- The registers that a program calls by name. -/
abbrev r0 : Fin 8 := 0

abbrev r7 : Fin 8 := 7

theorem toNat_lt_eight {n : ℤ} (h : 0 ≤ n ∧ n < 8) : n.toNat < 8 := by omega

/-- `ADDR`, and the number `CC..C` of a code. -/
def ADDR (code : CInt) : ℤ := (field1 code).toInt

/-- `op`, and `EXCMD`. -/
def opOf (code : CInt) : CInt := (field1 code).sshiftRight 6

/-! ## Expressions -/

/-- The operators. -/
inductive Operator
  | plus | minus | mul | div | mod | and | or | xor | lsh | rsh | lsh8 | rsh8 | divmod
  | ls | gt | eq | le | ge | ne
  | decodeSjis | encodeSjis
deriving DecidableEq, Repr

def Operator.ofCode : ℕ → Option Operator
  | 0x00 => some plus
  | 0x01 => some minus
  | 0x02 => some mul
  | 0x03 => some div
  | 0x04 => some mod
  | 0x05 => some and
  | 0x06 => some or
  | 0x07 => some xor
  | 0x08 => some lsh
  | 0x09 => some rsh
  | 0x0A => some lsh8
  | 0x0B => some rsh8
  | 0x0C => some divmod
  | 0x10 => some ls
  | 0x11 => some gt
  | 0x12 => some eq
  | 0x13 => some le
  | 0x14 => some ge
  | 0x15 => some ne
  | 0x16 => some decodeSjis
  | 0x17 => some encodeSjis
  | _ => none

/-- A division the processor traps on: by zero, or with a quotient that does not fit. -/
def Traps (x y : CInt) : Prop := y = 0 ∨ (x = BitVec.intMin 32 ∧ y = -1)

instance (x y : CInt) : Decidable (Traps x y) := inferInstanceAs (Decidable (_ ∨ _))

def quotient (x y : CInt) : Except Fault CInt :=
  if Traps x y then .error .division else .ok (x.sdiv y)

def remainder (x y : CInt) : Except Fault CInt :=
  if Traps x y then .error .division else .ok (x.srem y)

/-- The processor takes five bits of a shift count. -/
def shiftCount (y : CInt) : ℕ := (y &&& 31).toNat

def truth (b : Bool) : CInt := if b then 1 else 0

/-- `ccl_expr_self`: the registers after `reg[r] OP= i`; none is `CCL_INVALID_CMD`. -/
def cclExprSelf (r : Fin 8) (i : CInt) (reg : Registers) :
    Operator → Except Fault (Option Registers)
  | .plus => set (reg r + i)
  | .minus => set (reg r - i)
  | .mul => set (reg r * i)
  | .div => do set (← quotient (reg r) i)
  | .mod => do set (← remainder (reg r) i)
  | .and => set (reg r &&& i)
  | .or => set (reg r ||| i)
  | .xor => set (reg r ^^^ i)
  | .lsh => set (reg r <<< shiftCount i)
  | .rsh => set ((reg r).sshiftRight (shiftCount i))
  | .lsh8 => set ((reg r <<< 8) ||| i)
  | .rsh8 =>
    let reg := Function.update reg 7 (reg r &&& 0xFF)
    .ok (some (Function.update reg r ((reg r).sshiftRight 8)))
  | .divmod => do
    let reg := Function.update reg 7 (← remainder (reg r) i)
    return some (Function.update reg r (← quotient (reg r) i))
  | .ls => set (truth ((reg r).slt i))
  | .gt => set (truth (i.slt (reg r)))
  | .eq => set (truth (reg r == i))
  | .le => set (truth ((reg r).sle i))
  | .ge => set (truth (i.sle (reg r)))
  | .ne => set (truth (reg r != i))
  | .decodeSjis | .encodeSjis => .ok none
where
  set (x : CInt) : Except Fault (Option Registers) := .ok (some (Function.update reg r x))

def decodeSjis (sj1 sj2 : CInt) : CInt × CInt :=
  if (0x9F : CInt).sle sj2 then
    ((sj1 <<< 1) - (if (0xE0 : CInt).sle sj1 then 0xE0 else 0x60), sj2 + 2)
  else
    ((sj1 <<< 1) - (if (0xE0 : CInt).sle sj1 then 0xE1 else 0x61),
      sj2 + (if (0x7F : CInt).sle sj2 then 0x60 else 0x61))

def encodeSjis (c1 c2 : CInt) : CInt × CInt :=
  if c1 &&& 1 ≠ 0 then
    ((c1.sshiftRight 1) + (if c1.slt 0xDF then 0x31 else 0x71),
      c2 - (if (0xE0 : CInt).sle c2 then 0x60 else 0x61))
  else
    ((c1.sshiftRight 1) + (if c1.slt 0xDF then 0x30 else 0x70), c2 - 2)

/-- `ccl_set_expr`: the registers after `reg[r] = i OP j`; none is `CCL_INVALID_CMD`. -/
def cclSetExpr (r : Fin 8) (i j : CInt) (reg : Registers) :
    Operator → Except Fault (Option Registers)
  | .plus => set (i + j)
  | .minus => set (i - j)
  | .mul => set (i * j)
  | .div => do set (← quotient i j)
  | .mod => do set (← remainder i j)
  | .and => set (i &&& j)
  | .or => set (i ||| j)
  | .xor => set (i ^^^ j)
  | .lsh => set (i <<< shiftCount j)
  | .rsh => set (i.sshiftRight (shiftCount j))
  | .lsh8 => set ((i <<< 8) ||| j)
  | .rsh8 => setTwo (i.sshiftRight 8) (i &&& 0xFF)
  | .divmod => do setTwo (← quotient i j) (← remainder i j)
  | .ls => set (truth (i.slt j))
  | .gt => set (truth (j.slt i))
  | .eq => set (truth (i == j))
  | .le => set (truth (i.sle j))
  | .ge => set (truth (j.sle i))
  | .ne => set (truth (i != j))
  | .decodeSjis =>
    -- with r = 7 both are masked in the one register
    let reg := Function.update (Function.update reg r (decodeSjis i j).1) 7 (decodeSjis i j).2
    let reg := Function.update reg r (reg r &&& 0x7F)
    .ok (some (Function.update reg 7 (reg 7 &&& 0x7F)))
  | .encodeSjis =>
    setTwo (encodeSjis (i ||| 0x80) (j ||| 0x80)).1 (encodeSjis (i ||| 0x80) (j ||| 0x80)).2
where
  set (x : CInt) : Except Fault (Option Registers) := .ok (some (Function.update reg r x))
  setTwo (x y : CInt) : Except Fault (Option Registers) :=
    .ok (some (Function.update (Function.update reg r x) 7 y))

/-! ## Writing -/

/-- `eol_type`. -/
inductive EolType
  | lf
  | crlf
  | cr
deriving DecidableEq, Repr

/-- `conversion_mode`. -/
inductive ConversionMode
  | encoding
  | decoding
deriving DecidableEq, Repr

/-- What writing depends on. `memory` is what is in memory from the local `work` on. -/
structure Output where
  charsets : Charsets
  mode : ConversionMode
  eolType : EolType
  memory : ℕ → ℕ

variable (out : Output)

/-- An `int` that becomes a byte of the destination. -/
def asByte (ch : CInt) : ℕ := (ch &&& 0xFF).toNat

/-- The line end that is written for a newline. -/
def EolType.bytes : EolType → List ℕ
  | crlf => [13, 10]
  | cr => [13]
  | lf => [10]

def nonAsciiSetCharptrEmchar (ch : CInt) : Except Fault (List ℕ) :=
  match setCharptrEmchar out.charsets ch.toNat with
  | some work => .ok work
  | none => .error .noCharset

/-- What `CCL_WRITE_CHAR` adds to the destination. -/
def cclWriteChar (ch : CInt) : Except Fault (List ℕ) :=
  match out.mode with
  | .encoding =>
    if ch = 10 then .ok out.eolType.bytes
    else if ch.slt 0x100 then .ok [asByte ch]
    else nonAsciiSetCharptrEmchar out ch
  | .decoding =>
    if ¬ (0x80 : CInt).sle ch then .ok [asByte ch]
    else nonAsciiSetCharptrEmchar out ch

/-- The byte `i` of a string at `ic`, three in each code word. -/
def stringByte (prog : Program) (ic : ℤ) (i : ℕ) : Except Fault ℕ :=
  (word prog (ic + (i / 3 : ℕ))).map fun w : ℤ => ((w >>> ((2 - i % 3) * 8) : ℤ) % 256).toNat

/-- The bytes of a string of length `len`. -/
def stringBytes (prog : Program) (ic : ℤ) (len : CInt) : Except Fault (List ℕ) :=
  (List.range len.toInt.toNat).mapM (stringByte prog ic)

/-- `Dynarr_add_many (destination, work, len)`, after `work` has been set. -/
def addMany (work : List ℕ) (len : CInt) : List ℕ :=
  (List.range len.toInt.toNat).map fun i => work.getD i (out.memory i)

/-- What a round of `CCL_WRITE_STRING` adds for the byte `ch`. The length given to
`Dynarr_add_many` is that of the string, as `len` is the parameter of the macro. -/
def cclWriteStringRound (len : CInt) (ch : ℕ) : Except Fault (List ℕ) :=
  match out.mode with
  | .encoding => do
    let lineEnd := if ch = 10 then out.eolType.bytes else []
    if ch < 0x100 then return lineEnd ++ [ch]
    else return lineEnd ++ addMany out (← nonAsciiSetCharptrEmchar out (BitVec.ofNat 32 ch)) len
  | .decoding =>
    if ¬ 0x80 ≤ ch then .ok [ch]
    else do return addMany out (← nonAsciiSetCharptrEmchar out (BitVec.ofNat 32 ch)) len

/-- What `CCL_WRITE_STRING` adds to the destination. -/
def cclWriteString (prog : Program) (ic : ℤ) (len : CInt) : Except Fault (List ℕ) := do
  let added ← (← stringBytes prog ic len).mapM (cclWriteStringRound out len)
  return added.flatten

end XEmacs.Ccl

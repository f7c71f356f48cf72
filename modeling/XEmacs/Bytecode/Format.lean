import Mathlib.Data.List.Basic

/-!
# Byte code

The instructions of byte-compiled functions (bytecode.c), and how they are read. There are two
formats. The *source* is the string of instructions that the byte compiler writes.
-/

namespace XEmacs.Bytecode

/-- The instructions whose operand is part of the opcode, up to 5, or in one or two
bytes. -/
inductive Nargs where
  | varref
  | varset
  | varbind
  | call
  | unbind
deriving DecidableEq, Repr

/-- The first of the eight opcodes. -/
def Nargs.base : Nargs → Nat
  | varref => 0o010
  | varset => 0o020
  | varbind => 0o030
  | call => 0o040
  | unbind => 0o050

def Bconstant2 : Nat := 0o201
def Bgoto : Nat := 0o202
def Bdiscard : Nat := 0o210
def BRgoto : Nat := 0o252
def BlistN : Nat := 0o257
def Bassq : Nat := 0o267
def Bconstant : Nat := 0o300

/-- `SCHAR_MAX` and so on. -/
def scharMin : Int := -128
def scharMax : Int := 127
def ucharMax : Nat := 255

/-- The cases of the two `switch` statements over opcodes. The five conditions of jumps
are numbered from `Bgoto` and `BRgoto` on. -/
inductive OpcodeClass where
  | nargs (group : Nargs)
  | goto (condition : Nat)
  | rgoto (condition : Nat)
  | constant2
  | counted
  | constant
  | simple
  | invalid
deriving DecidableEq, Repr

def classify (opcode : Nat) : OpcodeClass :=
  if opcode < 0o010 then .invalid
  else if opcode < 0o020 then .nargs .varref
  else if opcode < 0o030 then .nargs .varset
  else if opcode < 0o040 then .nargs .varbind
  else if opcode < 0o050 then .nargs .call
  else if opcode < 0o060 then .nargs .unbind
  else if opcode < Bconstant2 then .simple
  else if opcode = Bconstant2 then .constant2
  else if opcode < Bgoto + 5 then .goto (opcode - Bgoto)
  else if opcode < 0o251 then .simple
  else if opcode = 0o251 then .invalid
  else if opcode < BRgoto + 5 then .rgoto (opcode - BRgoto)
  else if opcode < BlistN + 3 then .counted
  else if opcode ≤ Bassq then .simple
  else if opcode < Bconstant then .invalid
  else .constant

/-- An instruction as it is executed, with the target of a jump as a position. -/
inductive Instr where
  | simple (opcode : Nat)
  | nargs (group : Nargs) (arg : Nat)
  | constant (arg : Nat)
  | counted (opcode arg : Nat)
  | jump (condition : Nat) (target : Int)
deriving DecidableEq, Repr

/-- What the operand bytes of a jump mean, at the position of the first one. -/
structure JumpFormat where
  short : Nat → Nat → Int
  long : Nat → Nat → Nat → Int

def signed (b : Nat) : Int := if b < 128 then b else b - 256

/-- `READ_OPERAND_2` has an absolute address, `READ_OPERAND_1` a biased distance. -/
def sourceFormat : JumpFormat where
  short origin b := origin + b - 127
  long _ lo hi := lo + 256 * hi

/-- `PEEK_INT_1`, `PEEK_INT_2` and `JUMP_RELATIVE`. -/
def programFormat : JumpFormat where
  short origin b := origin + signed b
  long origin lo hi := origin + (signed hi * 256 + lo)

/-- The instruction at the front, and the number of bytes it takes. -/
def readInstr (f : JumpFormat) (pos : Nat) : List Nat → Option (Instr × Nat)
  | [] => none
  | opcode :: rest =>
    match classify opcode with
    | .nargs group =>
      if opcode - group.base ≤ 5 then some (.nargs group (opcode - group.base), 1)
      else if opcode - group.base = 6 then
        match rest with
        | arg :: _ => some (.nargs group arg, 2)
        | [] => none
      else
        match rest with
        | arg1 :: arg2 :: _ => some (.nargs group (arg1 + 256 * arg2), 3)
        | _ => none
    | .goto condition =>
      match rest with
      | arg1 :: arg2 :: _ => some (.jump condition (f.long (pos + 1) arg1 arg2), 3)
      | _ => none
    | .rgoto condition =>
      match rest with
      | arg :: _ => some (.jump condition (f.short (pos + 1) arg), 2)
      | [] => none
    | .constant2 =>
      match rest with
      | arg1 :: arg2 :: _ => some (.constant (arg1 + 256 * arg2), 3)
      | _ => none
    | .counted =>
      match rest with
      | arg :: _ => some (.counted opcode arg, 2)
      | [] => none
    | .constant => some (.constant (opcode - Bconstant), 1)
    | .simple => some (.simple opcode, 1)
    | .invalid => none

/-- All instructions, with their positions, up to the last `rest` bytes. -/
def readAll (f : JumpFormat) (rest : Nat) : Nat → Nat → List Nat → Option (List (Nat × Instr))
  | 0, _, _ => none
  | fuel + 1, pos, l =>
    if l.length ≤ rest then some []
    else
      (readInstr f pos l).bind fun (i, size) =>
        (readAll f rest fuel (pos + size) (l.drop size)).map ((pos, i) :: ·)

/-- The instructions of a source string. -/
def readSource (chars : List Nat) : Option (List (Nat × Instr)) :=
  readAll sourceFormat 1 (chars.length + 1) 0 (chars ++ [0])

/-- The instructions of a program. -/
def readProgram (program : List Nat) : Option (List (Nat × Instr)) :=
  readAll programFormat 0 (program.length + 1) 0 program

/-! ### The classes of opcodes -/

theorem classify_base_add {group : Nargs} {k : Nat} (hk : k < 8) :
    classify (group.base + k) = .nargs group := by
  cases group with
  | varref | varset | varbind | call | unbind =>
    revert k
    decide

theorem base_le_of_classify {opcode : Nat} {group : Nargs}
    (h : classify opcode = .nargs group) : group.base ≤ opcode ∧ opcode < group.base + 8 := by
  by_cases hlt : opcode < 0o060
  · cases group with
    | varref | varset | varbind | call | unbind =>
      revert opcode
      decide
  · grind [classify]

theorem classify_goto {k : Nat} (hk : k < 5) : classify (Bgoto + k) = .goto k := by
  revert k
  decide

theorem classify_rgoto {k : Nat} (hk : k < 5) : classify (BRgoto + k) = .rgoto k := by
  revert k
  decide

/-- What the class says about the opcode. -/
def OpcodeClass.Describes (opcode : Nat) : OpcodeClass → Prop
  | .goto condition => condition < 5 ∧ opcode = Bgoto + condition
  | .rgoto condition => condition < 5 ∧ opcode = BRgoto + condition
  | .invalid => opcode < 0o010 ∨ opcode = 0o251 ∨ (opcode > Bassq ∧ opcode < Bconstant)
  | .constant => Bconstant ≤ opcode
  | _ => True

instance (opcode : Nat) : (c : OpcodeClass) → Decidable (c.Describes opcode)
  | .goto _ | .rgoto _ => inferInstanceAs (Decidable (_ ∧ _))
  | .invalid => inferInstanceAs (Decidable (_ ∨ _))
  | .constant => inferInstanceAs (Decidable (_ ≤ _))
  | .nargs _ | .constant2 | .counted | .simple => inferInstanceAs (Decidable True)

theorem classify_describes (opcode : Nat) : (classify opcode).Describes opcode := by
  obtain hlt | hge := Nat.lt_or_ge opcode Bconstant
  · revert opcode
    decide +kernel
  · have hclass : classify opcode = .constant := by
      rw [Bconstant] at hge
      grind [classify, Bconstant2, Bgoto, BRgoto, BlistN, Bassq, Bconstant]
    rw [hclass]
    exact hge

end XEmacs.Bytecode

import XEmacs.Bytecode.Format
import XEmacs.Lib.Fallible

/-!
# `optimize_byte_code`

The translator goes once through the source and writes the program, with operands in their
shortest form. It keeps the place in the program of every character it reads (`icounts`) and a
table of the jumps.
-/

namespace XEmacs.Bytecode

open Fallible

/-- What the checks of the translator want to know of an element of the constants vector. -/
inductive Constant where
  | nil
  | t
  | keyword
  | symbol
  | other
deriving DecidableEq, Repr

inductive BytecodeError where
  /-- `Invalid character %c in byte code string` -/
  | invalidCharacter (c : Nat)
  /-- `invalid opcode %d in instruction stream` -/
  | invalidOpcode (opcode : Nat)
  /-- `reference %d to constants array out of range 0, %d` -/
  | constantsIndex (idx : Nat)
  /-- `variable reference to non-symbol %S`, `attempt to set non-symbol %S`,
  `attempt to let-bind non-symbol %S` -/
  | nonSymbol (group : Nargs)
  /-- `variable reference to constant symbol %s`, `attempt to set constant symbol %s`,
  `attempt to let-bind constant symbol %s` -/
  | constantSymbol (group : Nargs)
  /-- `goto instruction is its own target` -/
  | ownTarget
  /-- An `assert` fails, or `ABORT` is called. -/
  | aborted
  /-- A read from memory that has not been written. -/
  | undefined
  /-- Not an error of the source: a loop of the model has run out of fuel. -/
  | outOfFuel
deriving DecidableEq, Repr

def checkOpcode (opcode : Nat) : Except BytecodeError Unit :=
  if opcode < 0o010 ∨ opcode = 0o251 ∨ (opcode > Bassq ∧ opcode < Bconstant) then
    .error (.invalidOpcode opcode)
  else .ok ()

/-- `check_constants_index`, and the constant it lets through. -/
def checkConstantsIndex (idx : Nat) (constants : List Constant) : Except BytecodeError Constant :=
  match constants[idx]? with
  | none => .error (.constantsIndex idx)
  | some val => .ok val

/-- What is stored in a byte. -/
def byte (value : Int) : Nat := (value % 256).toNat

/-- The variables of the first loop. `ptr` has the characters that are left, with the zero
byte at the end; `icounts` and `jumps` go up to `icounts_ptr` and `jumps_ptr`, `program` up
to `program_ptr`. -/
structure Translation where
  ptr : List Nat
  icounts : List Nat
  jumps : List (Nat × Int)
  program : List Nat
  varbindCount : Nat
deriving DecidableEq

namespace Translation

variable (s : Translation)

def readInstructionChar : Except BytecodeError (Nat × Translation) :=
  match s.ptr with
  | [] => .error .undefined
  | c :: ptr =>
    if c > ucharMax then .error (.invalidCharacter c)
    else .ok (c, { s with ptr := ptr, icounts := s.icounts ++ [s.program.length] })

def readOperand1 : Except BytecodeError (Nat × Translation) := s.readInstructionChar

def readOperand2 : Except BytecodeError (Nat × Translation) := do
  let (arg1, s) ← s.readInstructionChar
  let (arg2, s) ← s.readInstructionChar
  return (arg1 + arg2 * 256, s)

def writeInt8 (value : Int) : Translation :=
  { s with program := s.program ++ [byte value] }

def writeInt16 (value : Int) : Translation := (s.writeInt8 value).writeInt8 (value / 256)

def rewriteOpcode (opcode : Nat) : Translation :=
  { s with program := s.program.dropLast ++ [opcode] }

def writeNargs (base arg : Nat) : Translation :=
  if arg ≤ 5 then s.rewriteOpcode (base + arg)
  else if arg ≤ ucharMax then (s.rewriteOpcode (base + 6)).writeInt8 arg
  else (s.rewriteOpcode (base + 7)).writeInt16 arg

def writeConstant (constants : List Constant) (arg : Nat) : Except BytecodeError Translation := do
  let _ ← checkConstantsIndex arg constants
  if arg ≤ ucharMax - Bconstant then return s.rewriteOpcode (Bconstant + arg)
  else return (s.rewriteOpcode Bconstant2).writeInt16 arg

/-- The operand of an instruction that has it in the opcode or behind it. -/
def readNargs (group : Nargs) (opcode : Nat) : Except BytecodeError (Nat × Translation) :=
  if opcode - group.base = 7 then s.readOperand2
  else if opcode - group.base = 6 then s.readOperand1
  else .ok (opcode - group.base, s)

/-- `do_varref`, `do_varset`, `do_varbind`, `do_call` and `do_unbind`. -/
def doNargs (constants : List Constant) (group : Nargs) (arg : Nat) :
    Except BytecodeError Translation :=
  match group with
  | .varref => do
    match ← checkConstantsIndex arg constants with
    | .other => .error (.nonSymbol .varref)
    | .nil | .t | .keyword => .error (.constantSymbol .varref)
    | .symbol => return s.writeNargs Nargs.varref.base arg
  | .varset => do
    match ← checkConstantsIndex arg constants with
    | .other => .error (.nonSymbol .varset)
    | .nil | .t => .error (.constantSymbol .varset)
    -- assignments to keywords are ignored
    | .keyword => return s.rewriteOpcode Bdiscard
    | .symbol => return s.writeNargs Nargs.varset.base arg
  | .varbind => do
    let s := { s with varbindCount := s.varbindCount + 1 }
    match ← checkConstantsIndex arg constants with
    | .other => .error (.nonSymbol .varbind)
    | .nil | .t | .keyword => .error (.constantSymbol .varbind)
    | .symbol => return s.writeNargs Nargs.varbind.base arg
  | .call => .ok (s.writeNargs Nargs.call.base arg)
  | .unbind => .ok (s.writeNargs Nargs.unbind.base arg)

/-- `do_jump`, with the distance `arg` from the operand in the source. `short` is the opcode
with an operand of one byte, `long` that with two. -/
def doJump (short long : Nat) (arg : Int) (argsize : Nat) : Except BytecodeError Translation :=
  let origin := s.icounts.length - argsize
  let s := { s with jumps := s.jumps ++ [(origin, origin + arg)] }
  if arg ≥ -1 ∧ arg ≤ argsize then .error .ownTarget
  else if arg ≤ scharMin ∨ arg > scharMax then
    .ok ((if argsize = 1 then s.rewriteOpcode long else s).writeInt16 arg)
  else .ok ((if argsize = 2 then s.rewriteOpcode short else s).writeInt8 arg)

/-- One turn of the first loop. -/
def translateInstruction (constants : List Constant) : Except BytecodeError Translation := do
  let (opcode, s) ← s.readInstructionChar
  let s := s.writeInt8 opcode
  match classify opcode with
  | .nargs group =>
    let (arg, s) ← s.readNargs group opcode
    s.doNargs constants group arg
  | .goto condition =>
    let (arg, s) ← s.readOperand2
    -- make it program_ptr-relative
    s.doJump (BRgoto + condition) opcode (arg - (s.icounts.length - 2 : Int)) 2
  | .rgoto condition =>
    let (arg, s) ← s.readOperand1
    s.doJump opcode (Bgoto + condition) (arg - 127) 1
  | .constant2 =>
    let (arg, s) ← s.readOperand2
    s.writeConstant constants arg
  | .counted =>
    let (arg, s) ← s.readOperand1
    return s.writeInt8 arg
  | .constant => s.writeConstant constants (opcode - Bconstant)
  | .simple | .invalid => do
    checkOpcode opcode
    return s

def translate (constants : List Constant) :
    Nat → Translation → Except BytecodeError Translation
  | 0, _ => .error .outOfFuel
  | fuel + 1, s =>
    if s.ptr.length ≤ 1 then .ok s
    else do
      let s ← s.translateInstruction constants
      translate constants fuel s

/-- The place in the program for an index into `icounts`. -/
def icount (x : Int) : Except BytecodeError Nat :=
  if x < 0 then .error .undefined
  else
    match s.icounts[x.toNat]? with
    | none => .error .undefined
    | some place => .ok place

end Translation

/-- The byte of the program at a place. -/
def readByte (program : List Nat) (place : Nat) : Except BytecodeError Nat :=
  match program[place]? with
  | none => .error .undefined
  | some b => .ok b

/-- A jump of the table, with places in the program. -/
structure Jump where
  origin : Nat
  target : Nat
deriving DecidableEq, Repr

/-- `Fix up jumps table to refer to NEW offsets`, for one jump. -/
def fixUpJump (s : Translation) (j : Nat × Int) : Except BytecodeError Jump := do
  let origin ← s.icount j.1
  let target ← s.icount j.2
  let opcode ← readByte s.program target
  checkOpcode opcode
  return ⟨origin, target⟩

/-- The variables of the loop over the jumps. -/
structure Fixups where
  program : List Nat
  jumps : List Jump
  moreFixupsNeeded : Bool
deriving DecidableEq

namespace Fixups

variable (s : Fixups)

/-- `WRITE_INT8` and `WRITE_INT16` over bytes of the program. -/
def writeInt8At (place : Nat) (value : Int) : Fixups :=
  { s with program := s.program.set place (byte value) }

def writeInt16At (place : Nat) (value : Int) : Fixups :=
  (s.writeInt8At place value).writeInt8At (place + 1) (value / 256)

/-- `memmove (p+1, p, program_ptr++ - p)`; the byte at `p` stays. -/
def makeRoom (place : Nat) : Fixups :=
  { s with program := s.program.take (place + 1) ++ s.program.drop place }

/-- A place, after another byte has been put in behind `origin`. -/
def shift (origin place : Nat) : Nat := if place > origin then place + 1 else place

/-- The widening of a jump (`barf`). -/
def widen (origin opcode : Nat) (jump : Int) : Except BytecodeError Fixups :=
  if s.jumps.any fun jj : Jump =>
      ¬ (jj.origin < s.program.length ∧ jj.target < s.program.length) then
    .error .aborted
  else
    let s : Fixups := { s with
      jumps := s.jumps.map fun jj => ⟨shift origin jj.origin, shift origin jj.target⟩
      program := s.program.set (origin - 1) (opcode + (Bgoto - BRgoto : Int)).toNat
      moreFixupsNeeded := true }
    .ok ((s.makeRoom origin).writeInt16At origin jump)

/-- The check of the opcode a jump leads to, as long as no jump has moved in the pass. -/
def checkTarget (j : Jump) : Except BytecodeError Unit :=
  if s.moreFixupsNeeded then .ok ()
  else do
    let opcode ← readByte s.program j.target
    checkOpcode opcode

/-- The body of the loop over the jumps, for the jump with this index. -/
def fixup (i : Nat) : Except BytecodeError Fixups :=
  match s.jumps[i]? with
  | none => .error .undefined
  | some j => do
    let jump : Int := j.target - j.origin
    let opcode ← readByte s.program (j.origin - 1)
    s.checkTarget j
    if ¬ j.target < s.program.length then .error .aborted
    else
      match classify opcode with
      | .goto _ => return s.writeInt16At j.origin jump
      | .rgoto _ =>
        if jump > scharMin ∧ jump ≤ scharMax then return s.writeInt8At j.origin jump
        else s.widen j.origin opcode jump
      | _ => .error .aborted

/-- One pass over the jumps. -/
def pass : Except BytecodeError Fixups :=
  (List.range s.jumps.length).foldlM fixup { s with moreFixupsNeeded := false }

/-- `Fixup jumps in byte-code until no more fixups needed`. -/
def passes : Nat → Fixups → Except BytecodeError Fixups
  | 0, _ => .error .outOfFuel
  | fuel + 1, s => do
    let s ← s.pass
    if s.moreFixupsNeeded then passes fuel s else return s

end Fixups

/-- What `optimize_byte_code` returns, with the table of jumps as it is at the end. -/
structure Optimized where
  program : List Nat
  varbindCount : Nat
  jumps : List Jump
deriving DecidableEq

/-- `optimize_byte_code`. Every turn of the first loop reads a character, and every pass but
the last makes a jump longer. -/
def optimizeByteCode (constants : List Constant) (chars : List Nat) :
    Except BytecodeError Optimized := do
  let s ← Translation.translate constants (chars.length + 1) ⟨chars ++ [0], [], [], [], 0⟩
  let jumps ← s.jumps.mapM (fixUpJump s)
  let r ← Fixups.passes (jumps.length + 1) ⟨s.program, jumps, true⟩
  return ⟨r.program, s.varbindCount, r.jumps⟩

end XEmacs.Bytecode

import XEmacs.Ccl.Programs
import XEmacs.Lib.Machines

/-!
# The CCL interpreter

`ccl_driver` runs a program over a block of input. A step here is a round of its loop: it fetches
a code word and executes it, or goes on with an instruction at the place its `Label` says. What
an instruction does is an `Effect`.
-/

namespace XEmacs.Ccl

open XEmacs.Coding Machines

/-! ## The data -/

/-- `struct ccl_prog_stack`. -/
structure Frame where
  prog : Program
  ic : ℤ
deriving DecidableEq, Repr

/-- The places where a round goes on. -/
inductive Label
  /-- `ccl_repeat` -/
  | cclRepeat
  /-- behind the read in the loop of `CCL_ReadRegister` -/
  | readRegister
  /-- the loop of `CCL_WriteRegister` -/
  | writeRegister
  /-- `case CCL_Branch` -/
  | branch
  /-- `case CCL_JumpCondExprConst` -/
  | jumpCondExprConst
  /-- `case CCL_JumpCondExprReg` -/
  | jumpCondExprReg
  /-- the loop of `CCL_IterateMultipleMap` -/
  | iterateMultipleMap (i j op : CInt) (finIc : ℤ)
  /-- the loops of `CCL_MapMultiple` -/
  | mapMultiple (i rest op : CInt) (finIc currentIc : ℤ)
deriving DecidableEq, Repr

/-- The symbols in code conversion maps. -/
inductive Symbol
  | t
  | lambda
  | named (n : ℕ)
deriving DecidableEq, Repr

/-- An element of a code conversion map. Of a cons it has the integers. -/
inductive Content
  | nil
  | int (n : ℤ)
  | symbol (s : Symbol)
  | cons (attrib value : Option ℤ)
  | other
deriving DecidableEq, Repr

/-- `Vccl_program_table`, `ccl_get_compiled_code` and `Vcode_conversion_map_vector`. A map is none
where its place in the vector has no cons with a vector. `XUINT` has `valBits` bits. -/
structure Tables where
  programTable : List (Option Program)
  compiledCode : Symbol → Option Program
  maps : List (Option (List Content))
  valBits : ℕ

/-- What stays the same in a call of `ccl_driver`. -/
structure Setting where
  out : Output
  tables : Tables
  eofIc : ℤ
  lastBlock : Bool

/-- The variables of `ccl_driver` that all instructions work on. -/
structure Core where
  reg : Registers
  ic : ℤ
  code : CInt
  thisIc : ℤ
  destination : Option (List ℕ)
  label : Label

/-- What an instruction does. A read is into the register `r`, and behind it the round goes on at
`label`, with `jump` added to `ic`. A call is of a program, if there is one, and returns to
`retIc`. -/
inductive Effect
  | next (c : Core)
  | read (c : Core) (r : Fin 8) (jump : ℤ) (label : Label)
  | readMultibyteChar2 (c : Core)
  | call (c : Core) (prog : Option Program) (retIc : ℤ)
  | cclEnd (c : Core)
  | mapMultiple (c : Core)
  | mapMultipleRound (c : Core) (i rest op : CInt) (finIc currentIc : ℤ)
  | invalidCmd (c : Core)

/-! ## Instructions -/

variable (env : Setting) (prog : Program) (c : Core)

/-- `break` out of the switch. -/
def Core.break : Except Fault Effect := .ok (.next { c with label := .cclRepeat })

/-- The rest of an instruction behind `CCL_WRITE_CHAR`. -/
def Core.writeChar (ch : CInt) (rest : Core → Except Fault Effect) : Except Fault Effect :=
  match c.destination with
  | none => .ok (.invalidCmd c)
  | some dst => do rest { c with destination := some (dst ++ (← cclWriteChar env.out ch)) }

/-- The rest of an instruction behind `CCL_WRITE_STRING`. -/
def Core.writeString (len : CInt) (rest : Core → Except Fault Effect) : Except Fault Effect :=
  match c.destination with
  | none => .ok (.invalidCmd c)
  | some dst => do
    rest { c with destination := some (dst ++ (← cclWriteString env.out prog c.ic len)) }

/-- From `ccl_expr_self` on. -/
def Core.exprSelf (r : Fin 8) (i op : CInt) : Except Fault Effect :=
  match Operator.ofCode op.toNat with
  | none => .ok (.invalidCmd c)
  | some op => do
    match ← cclExprSelf r i c.reg op with
    | none => return .invalidCmd c
    | some reg => Core.break { c with reg }

/-- From `ccl_set_expr` on. -/
def Core.setExpr (r : Fin 8) (i j op : CInt) (jumpAddress : ℤ) : Except Fault Effect :=
  match Operator.ofCode op.toNat with
  | none => .ok (.invalidCmd c)
  | some op => do
    match ← cclSetExpr r i j c.reg op with
    | none => return .invalidCmd c
    | some reg =>
      let c : Core := { c with reg, code := c.code &&& 0x1F }
      if c.code = 0x0F ∨ c.code = 0x12 then
        c.writeChar env (reg r) fun c => Core.break { c with ic := jumpAddress }
      else if reg r = 0 then Core.break { c with ic := jumpAddress }
      else c.break

/-- `CCL_JumpCondExprConst`, and `CCL_ReadJumpCondExprConst` behind the read. -/
def Core.jumpCondExprConst : Except Fault Effect := do
  let op ← intAt prog c.ic
  let j ← intAt prog (c.ic + 1)
  Core.setExpr env { c with ic := c.ic + 2 } r7 (c.reg (rrr c.code)) j op (c.ic + ADDR c.code)

/-- `CCL_JumpCondExprReg`, and `CCL_ReadJumpCondExprReg` behind the read. -/
def Core.jumpCondExprReg : Except Fault Effect := do
  let op ← intAt prog c.ic
  let n ← word prog (c.ic + 1)
  if h : 0 ≤ n ∧ n < 8 then
    Core.setExpr env { c with ic := c.ic + 2 } r7 (c.reg (rrr c.code))
      (c.reg ⟨n.toNat, toNat_lt_eight h⟩) op (c.ic + ADDR c.code)
  else .error .noRegister

/-- `CCL_Branch`, and `CCL_ReadBranch` behind the read. -/
def Core.branch : Except Fault Effect := do
  let place := if (c.reg (rrr c.code)).ult (field1 c.code) then (c.reg (rrr c.code)).toInt
    else ADDR c.code
  let addr ← intAt prog (c.ic + place)
  Core.break { c with ic := c.ic + addr.toInt }

/-- `CCL_CALL_FOR_MAP_INSTRUCTION`. -/
def Core.callForMapInstruction (symbol : Symbol) (retIc : ℤ) : Except Fault Effect :=
  .ok (.call c (env.tables.compiledCode symbol) retIc)

def Core.cclCall : Except Fault Effect := do
  let far := rrr c.code ≠ r0
  let progId ← if far then intAt prog c.ic else pure (field1 c.code)
  let c := if far then { c with ic := c.ic + 1 } else c
  if progId.toInt < 0 then return .call c none c.ic
  else return .call c ((env.tables.programTable[progId.toNat]?).join) c.ic

/-- A round of the loop of `CCL_WriteRegister`. -/
def Core.writeRegister : Except Fault Effect :=
  c.writeChar env (c.reg (rrr c.code)) fun c =>
    if field1 c.code = 0 then c.break
    else do
      let code ← intAt prog c.ic
      return .next { c with code, ic := c.ic + 1, label := .writeRegister }

/-- The loop of `CCL_ReadRegister` behind a read. -/
def Core.readRegister : Except Fault Effect :=
  if field1 c.code = 0 then c.break
  else do
    let code ← intAt prog c.ic
    return .read { c with code, ic := c.ic + 1 } (rrr code) 0 .readRegister

/-! ## Multibyte characters -/

def possibleLeadingByteP (lb : CInt) : Bool :=
  (0x80 : CInt).slt lb && (lb - 0x80).slt 128

/-- The character `CCL_WriteMultibyteChar2` makes of the charset `i` and the code `x`. -/
def multibyteChar (charsets : Charsets) (i x : CInt) : CInt :=
  if i = 0x8E then x &&& 0xFF
  else if i = 0x8F then (x &&& 0xFF) - 0xA0
  else
    match (if possibleLeadingByteP i then charsets.byLeadingByte i.toNat else none) with
    | some charset =>
      if charset.dimension = 1 then ((i - 0x80) <<< 7) ||| (x &&& 0x7F)
      else if i.sle 0x98 then ((i - 0x8F) <<< 14) ||| x
      else ((i - 0xE1) <<< 14) ||| x
    -- no charset we know about: U+3012 GETA MARK
    | none => ((0x92 - 0x8F) <<< 14) ||| (34 <<< 7) ||| 46

/-- `CCL_WriteMultibyteChar2`. -/
def Core.writeMultibyteChar2 : Except Fault Effect :=
  c.writeChar env (multibyteChar env.out.charsets (c.reg (RRR c.code)) (c.reg (rrr c.code)))
    Core.break

/-- What `CCL_ReadMultibyteChar2` reads: the registers and the bytes that are left. There is none
where the bytes end inside a character. -/
def readMultibyteChar2 (r rr : Fin 8) (reg : Registers) (src : List ℕ) :
    Option (Registers × List ℕ) :=
  match src with
  | [] => none
  | i :: src =>
    let byte (b : ℕ) : CInt := BitVec.ofNat 32 b
    let set (charset code : CInt) := Function.update (Function.update reg rr charset) r code
    if i < 0x80 then some (Function.update (Function.update reg r (byte i)) rr 0x8E, src)
    else if i = 0x8F then
      match src with
      | b :: src => some (set (byte i) (byte b - 0xA0), src)
      | [] => none
    else if i ≤ 0x8C then
      match src with
      | b :: src => some (set (byte i) (byte b &&& 0x7F), src)
      | [] => none
    else if i ≤ 0x98 then
      match src with
      | b :: b' :: src => some (set (byte i) (((byte b &&& 0x7F) <<< 7) ||| (byte b' &&& 0x7F)), src)
      | _ => none
    else if i = 0x9E then
      match src with
      | lb :: b :: src => some (set (byte lb) (byte b &&& 0x7F), src)
      | _ => none
    else if i = 0x9F then
      match src with
      | lb :: b :: b' :: src =>
        some (set (byte lb) (((byte b &&& 0x7F) <<< 7) ||| (byte b' &&& 0x7F)), src)
      | _ => none
    -- an invalid code is a character of a single byte
    else some (set 0x8E (byte i), src)

/-! ## Code conversion maps -/

def xuint (tables : Tables) : Content → Except Fault ℕ
  | .int n => .ok (n % 2 ^ tables.valBits).toNat
  | _ => .error .noInteger

/-- `XVECTOR (..)->contents[i]`. -/
def contents {α : Type*} (l : List α) (i : CInt) : Except Fault α :=
  if 0 ≤ i.toInt then
    match l[i.toNat]? with
    | some x => .ok x
    | none => .error .outside
  else .error .outside

/-- What the map `point` of `Vcode_conversion_map_vector` has for `op`; none where the loops of
`CCL_IterateMultipleMap` and `CCL_MapMultiple` go on with the next map. -/
def mapContent (tables : Tables) (point op : CInt) : Except Fault (Option Content) := do
  if (tables.maps.length : ℤ) ≤ point.toInt then return none
  match ← contents tables.maps point with
  | none => return none
  | some map =>
    if map.length ≤ 1 then return none
    match map.head? with
    | some (.int n) =>
      let point := op - BitVec.ofNat 32 (← xuint tables (.int n)) + 1
      if ¬ (1 ≤ point.toInt ∧ point.toInt < map.length) then return none
      notNil <$> contents map point
    | some (.symbol .t) =>
      if map.length ≠ 4 then return none
      let start ← xuint tables (← contents map 2)
      let fin ← xuint tables (← contents map 3)
      -- `op' is compared as an unsigned integer
      if (op.toInt < 0 ∨ start ≤ op.toInt) ∧ 0 ≤ op.toInt ∧ op.toInt < fin then
        notNil <$> contents map 1
      else return none
    | _ => return none
where
  notNil : Content → Option Content
    | .nil => none
    | content => some content

/-- `CCL_IterateMultipleMap` up to its loop. -/
def Core.iterateMultipleMap : Except Fault Effect := do
  let j ← intAt prog c.ic
  let finIc := c.ic + 1 + j.toInt
  let rrr := rrr c.code
  let RRR := RRR c.code
  if (c.reg RRR).toInt < j.toInt ∧ 0 ≤ j.toInt then
    return .next { c with
      ic := c.ic + 1 + (c.reg RRR).toInt
      label := .iterateMultipleMap (c.reg RRR) j (c.reg rrr) finIc }
  else Core.break { c with reg := Function.update c.reg RRR (-1), ic := finIc }

/-- A round of the loop of `CCL_IterateMultipleMap`. -/
def Core.iterateMultipleMapRound (i j op : CInt) (finIc : ℤ) : Except Fault Effect := do
  let rrr := rrr c.code
  let RRR := RRR c.code
  if i.slt j then
    let point ← intAt prog c.ic
    let c := { c with ic := c.ic + 1 }
    let goOn : Except Fault Effect :=
      return .next { c with label := .iterateMultipleMap (i + 1) j op finIc }
    match ← mapContent env.tables point op with
    | none | some .nil => goOn
    | some (.int n) =>
      Core.break { c with
        reg := Function.update (Function.update c.reg RRR i) rrr (BitVec.ofInt 32 n)
        ic := finIc }
    | some (.symbol .t) | some (.symbol .lambda) =>
      Core.break { c with reg := Function.update c.reg RRR i, ic := finIc }
    | some (.cons (some _) (some value)) =>
      let value := BitVec.ofNat 32 (← xuint env.tables (.int value))
      Core.break { c with
        reg := Function.update (Function.update c.reg RRR i) rrr value
        ic := finIc }
    | some (.cons _ _) => goOn
    | some (.symbol s) => c.callForMapInstruction env s finIc
    | some .other => return .invalidCmd c
  else if i = j then
    Core.break { c with reg := Function.update c.reg RRR (-1), ic := finIc }
  else Core.break { c with ic := finIc }

def Core.mapSingle : Except Fault Effect := do
  let rrr := rrr c.code
  let RRR := RRR c.code
  let j ← intAt prog c.ic
  let c := { c with ic := c.ic + 1 }
  let op := c.reg rrr
  let fail := Core.break { c with reg := Function.update c.reg RRR (-1) }
  if (env.tables.maps.length : ℤ) ≤ j.toInt then fail
  else
    match ← contents env.tables.maps j with
    | none => fail
    | some map =>
      let point := op - BitVec.ofNat 32 (← xuint env.tables (← contents map 0)) + 1
      if map.length ≤ 1 ∨ ¬ (1 ≤ point.toInt ∧ point.toInt < map.length) then fail
      else
        let c := { c with reg := Function.update c.reg RRR 0 }
        match ← contents map point with
        | .nil => Core.break { c with reg := Function.update c.reg RRR (-1) }
        | .int n => Core.break { c with reg := Function.update c.reg rrr (BitVec.ofInt 32 n) }
        | .symbol .t => c.break
        | .cons (some _) (some value) =>
          let value := BitVec.ofNat 32 (← xuint env.tables (.int value))
          Core.break { c with reg := Function.update c.reg rrr value }
        | .cons _ _ => c.break
        | .symbol s => c.callForMapInstruction env s c.ic
        | .other => Core.break { c with reg := Function.update c.reg RRR (-1) }

/-! ## Rounds -/

/-- The switch of `ccl_driver`, for the code word that has been fetched. -/
def Core.dispatch : Except Fault Effect :=
  let code := c.code
  let rrr := rrr code
  let RRR := RRR code
  let Rrr := Rrr code
  match (code &&& 0x1F).toNat with
  | 0x00 => Core.break { c with reg := Function.update c.reg rrr (c.reg RRR) }  -- SetRegister
  | 0x01 => Core.break { c with reg := Function.update c.reg rrr (field1 code) }  -- SetShortConst
  | 0x02 => do  -- SetConst
    let x ← intAt prog c.ic
    Core.break { c with reg := Function.update c.reg rrr x, ic := c.ic + 1 }
  | 0x03 => do  -- SetArray
    let i := c.reg RRR
    let j := (field1 code).sshiftRight 3
    if i.ult j then
      let x ← intAt prog (c.ic + i.toInt)
      Core.break { c with reg := Function.update c.reg rrr x, ic := c.ic + j.toInt }
    else Core.break { c with ic := c.ic + j.toInt }
  | 0x04 => Core.break { c with ic := c.ic + ADDR code }  -- Jump
  | 0x05 =>  -- JumpCond
    if c.reg rrr = 0 then Core.break { c with ic := c.ic + ADDR code } else c.break
  | 0x06 =>  -- WriteRegisterJump
    c.writeChar env (c.reg rrr) fun c => Core.break { c with ic := c.ic + ADDR code }
  | 0x07 =>  -- WriteRegisterReadJump
    c.writeChar env (c.reg rrr) fun c =>
      .ok (.read { c with ic := c.ic + 1 } rrr (ADDR code - 1) .cclRepeat)
  | 0x08 => do  -- WriteConstJump
    let i ← intAt prog c.ic
    c.writeChar env i fun c => Core.break { c with ic := c.ic + ADDR code }
  | 0x09 => do  -- WriteConstReadJump
    let i ← intAt prog c.ic
    c.writeChar env i fun c =>
      .ok (.read { c with ic := c.ic + 1 } rrr (ADDR code - 1) .cclRepeat)
  | 0x0A => do  -- WriteStringJump
    let j ← intAt prog c.ic
    Core.writeString env prog { c with ic := c.ic + 1 } j fun c =>
      Core.break { c with ic := c.ic + ADDR code - 1 }
  | 0x0B => do  -- WriteArrayReadJump
    let i := c.reg rrr
    let j ← intAt prog c.ic
    let rest (c : Core) : Except Fault Effect :=
      .ok (.read { c with ic := c.ic + (j.toInt + 2) } rrr (ADDR code - (j.toInt + 2)) .cclRepeat)
    if i.ult j then c.writeChar env (← intAt prog (c.ic + 1 + i.toInt)) rest else rest c
  | 0x0C => .ok (.read c rrr (ADDR code) .cclRepeat)  -- ReadJump
  | 0x0D => c.branch prog  -- Branch
  | 0x0E => .ok (.read c rrr 0 .readRegister)  -- ReadRegister
  | 0x0F => do  -- WriteExprConst
    let j ← intAt prog c.ic
    c.setExpr env r7 (c.reg RRR) j (opOf code) (c.ic + 1)
  | 0x10 => .ok (.read c rrr 0 .branch)  -- ReadBranch
  | 0x11 => c.writeRegister env prog  -- WriteRegister
  | 0x12 => c.setExpr env r7 (c.reg RRR) (c.reg Rrr) (opOf code) c.ic  -- WriteExprRegister
  | 0x13 => c.cclCall env prog  -- Call
  | 0x14 =>  -- WriteConstString
    if rrr = r0 then c.writeChar env (field1 code) Core.break
    else c.writeString env prog (field1 code) fun c =>
      Core.break { c with ic := c.ic + (ADDR code + 2).tdiv 3 }
  | 0x15 => do  -- WriteArray
    let i := c.reg rrr
    if i.ult (field1 code) then
      c.writeChar env (← intAt prog (c.ic + i.toInt)) fun c =>
        Core.break { c with ic := c.ic + ADDR code }
    else Core.break { c with ic := c.ic + ADDR code }
  | 0x16 => .ok (.cclEnd c)  -- End
  | 0x17 => do  -- ExprSelfConst
    let i ← intAt prog c.ic
    Core.exprSelf { c with ic := c.ic + 1 } rrr i (opOf code)
  | 0x18 => c.exprSelf rrr (c.reg RRR) (opOf code)  -- ExprSelfReg
  | 0x19 => do  -- SetExprConst
    let j ← intAt prog c.ic
    Core.setExpr env { c with ic := c.ic + 1 } rrr (c.reg RRR) j (opOf code) (c.ic + 1)
  | 0x1A => c.setExpr env rrr (c.reg RRR) (c.reg Rrr) (opOf code) c.ic  -- SetExprReg
  | 0x1B => c.jumpCondExprConst env prog  -- JumpCondExprConst
  | 0x1C => c.jumpCondExprReg env prog  -- JumpCondExprReg
  | 0x1D => .ok (.read c rrr 0 .jumpCondExprConst)  -- ReadJumpCondExprConst
  | 0x1E => .ok (.read c rrr 0 .jumpCondExprReg)  -- ReadJumpCondExprReg
  | _ =>  -- Extension
    match (opOf code).toNat with
    | 0x00 => .ok (.readMultibyteChar2 c)
    | 0x01 => c.writeMultibyteChar2 env
    -- XEmacs does not have translate_char: TranslateCharacter, TranslateCharacterConstTbl
    | 0x02 | 0x03 => c.break
    | 0x10 => c.iterateMultipleMap prog
    | 0x11 => .ok (.mapMultiple c)
    | 0x12 => c.mapSingle env prog
    | _ => .ok (.invalidCmd c)

/-- A round up to its effect: from `ccl_repeat` the next code word is fetched. -/
def Core.execute : Except Fault Effect :=
  match c.label with
  | .cclRepeat => do
    let code ← intAt prog c.ic
    Core.dispatch env prog { c with code, thisIc := c.ic, ic := c.ic + 1 }
  | .readRegister => c.readRegister prog
  | .writeRegister => c.writeRegister env prog
  | .branch => c.branch prog
  | .jumpCondExprConst => c.jumpCondExprConst env prog
  | .jumpCondExprReg => c.jumpCondExprReg env prog
  | .iterateMultipleMap i j op finIc => c.iterateMultipleMapRound env prog i j op finIc
  | .mapMultiple i rest op finIc currentIc => .ok (.mapMultipleRound c i rest op finIc currentIc)

/-! ## The mapping stack -/

/-- What `CCL_MapMultiple` keeps beyond an instruction: the mapping stack below its pointer, from
the top, and `stack_idx_of_map_multiple`. -/
structure MapState where
  mapping : List (CInt × CInt)
  stackIdxOfMapMultiple : ℕ
deriving DecidableEq, Repr

variable (maps : MapState)

/-- `PUSH_MAPPING_STACK`; the stack has `MAX_MAP_SET_LEVEL` places. -/
def MapState.push (rest orig : CInt) : Except Fault MapState :=
  if maps.mapping.length < 30 then .ok { maps with mapping := (rest, orig) :: maps.mapping }
  else .error .outside

/-- `POP_MAPPING_STACK`. -/
def MapState.pop : Except Fault (CInt × CInt × MapState) :=
  match maps.mapping with
  | (rest, orig) :: mapping => .ok (rest, orig, { maps with mapping })
  | [] => .error .outside

/-- `CCL_MapMultiple` up to its loops; `stackIdx` is `stack_idx`. -/
def mapMultiple (stackIdx : ℕ) : Except Fault (Effect × MapState) := do
  let currentIc := c.thisIc
  let rrr := rrr c.code
  let RRR := RRR c.code
  -- inhibit recursive call on MapMultiple
  if 0 < maps.stackIdxOfMapMultiple ∧ maps.stackIdxOfMapMultiple ≤ stackIdx then
    return (.invalidCmd c, ⟨[], 0⟩)
  let mapping := if 0 < maps.stackIdxOfMapMultiple then maps.mapping else []
  let maps : MapState := ⟨mapping, 0⟩
  let rest ← intAt prog c.ic
  let finIc := c.ic + 1 + rest.toInt
  let op := c.reg rrr
  let i := c.reg RRR
  if ¬ (i.slt rest ∧ 0 ≤ i.toInt) then
    let c := { c with
      reg := Function.update c.reg RRR (-1), ic := finIc, label := .cclRepeat }
    return (.next c, ⟨[], 0⟩)
  let ic := c.ic + 1 + i.toInt
  let rest := rest - i
  let loop (reg : Registers) (ic : ℤ) (i rest op : CInt) (maps : MapState) :
      Except Fault (Effect × MapState) :=
    return (.next { c with reg, ic, label := .mapMultiple i rest op finIc currentIc }, maps)
  if mapping.length ≤ 1 then
    -- set up initial state
    let maps ← MapState.push ⟨[], 0⟩ 0 op
    loop (Function.update c.reg RRR (-1)) ic i rest op maps
  else
    -- recover after calling other ccl program
    let (_, origOp, maps) ← maps.pop
    let (rest, value, maps) ← maps.pop
    let reg := Function.update c.reg rrr value
    if op = -1 then loop reg (ic + 1) (i + 1) (rest - 1) origOp maps
    else if op = -2 then loop reg (ic + 1) (i + 1) (rest - 1) (reg rrr) maps
    else if op = -3 then loop reg (ic + rest.toInt) (i + rest) 0 origOp maps
    else
      let (rest', value, maps) ← maps.pop
      loop (Function.update reg rrr value) (ic + rest.toInt) (i + rest) rest' op maps

/-- A round of the inner loop of `CCL_MapMultiple`, or of the outer one behind it. Where the source
leaves the inner loop by `break`, no places are left here. -/
def mapMultipleRound (stackIdx : ℕ) (i rest op : CInt) (finIc currentIc : ℤ) :
    Except Fault (Effect × MapState) := do
  let rrr := rrr c.code
  let RRR := RRR c.code
  let goOn (c : Core) (i rest op : CInt) (maps : MapState) : Except Fault (Effect × MapState) :=
    let c := { c with
      ic := c.ic + 1, label := .mapMultiple (i + 1) (rest - 1) op finIc currentIc }
    return (.next c, maps)
  -- the rest of the set is skipped, and the set around it goes on
  let leaveSet (c : Core) (op : CInt) : Except Fault (Effect × MapState) := do
    let (rest', value, maps) ← maps.pop
    goOn { c with reg := Function.update c.reg rrr value, ic := c.ic + (rest - 1).toInt }
      (i + (rest - 1)) (rest' + 1) op maps
  if (0 : CInt).slt rest then
    let point ← intAt prog c.ic
    if point.slt 0 then
      -- +1 is for including separator
      let point := -point + 1
      if 30 ≤ maps.mapping.length then return (.invalidCmd c, maps)
      let maps ← maps.push (rest - point) (c.reg rrr)
      goOn { c with reg := Function.update c.reg rrr op } i point op maps
    else
      match ← mapContent env.tables point op with
      | none | some .nil => goOn c i rest op maps
      | some content =>
        let c := { c with reg := Function.update c.reg RRR i }
        match content with
        | .int n => leaveSet c (BitVec.ofInt 32 n)
        | .cons (some _) (some value) =>
          leaveSet c (BitVec.ofNat 32 (← xuint env.tables (.int value)))
        | .cons _ _ => goOn c i rest op maps
        | .symbol .t => goOn c i rest (c.reg rrr) maps
        | .symbol .lambda =>
          let c := { c with
            ic := c.ic + rest.toInt, label := .mapMultiple (i + rest) 0 op finIc currentIc }
          return (.next c, maps)
        | .symbol s =>
          if 30 ≤ maps.mapping.length then return (.invalidCmd c, maps)
          let maps ← maps.push rest (c.reg rrr)
          let maps ← maps.push rest op
          return (← c.callForMapInstruction env s currentIc, ⟨maps.mapping, stackIdx + 1⟩)
        | _ => return (.invalidCmd c, maps)
  else if maps.mapping.length ≤ 1 then
    let c := { c with ic := finIc, reg := Function.update c.reg rrr op, label := .cclRepeat }
    return (.next c, maps)
  else
    let (rest, _, maps) ← maps.pop
    let (rest', value, maps) ← maps.pop
    let c := { c with
      reg := Function.update c.reg rrr value
      ic := c.ic + rest.toInt
      label := .mapMultiple (i + rest) rest' op finIc currentIc }
    return (.next c, maps)

/-! ## Runs -/

/-- `ccl_driver` with the bytes from `src` on; none stands for NULL. `stack` is what the call stack
has below `stack_idx`, from the top. -/
structure Machine where
  core : Core
  prog : Program
  stack : List Frame
  maps : MapState
  src : Option (List ℕ)

/-- The status at the end of a call. -/
inductive Status
  | success
  | suspendBySrc
  | invalidCmd
deriving DecidableEq, Repr

/-- A step goes on, or the call ends. -/
abbrev Result := Except Fault (Outcome Machine (Status × Machine))

/-- `CCL_HEADER_MAIN`. -/
abbrev cclHeaderMain : ℤ := 2

variable (m : Machine)

/-- The message of the error handler. -/
def errorMessage : List ℕ :=
  let hex (x : CInt) : List Char := Nat.toDigits 16 x.toNat
  ("\nCCL: Invalid command ".toList ++ hex (c.code &&& 0x1F) ++ " (ccl_code = ".toList ++
    hex c.code ++ ") at ".toList ++ (toString c.thisIc).toList ++ ".".toList).map Char.toNat

/-- `CCL_INVALID_CMD` and `ccl_error_handler`. -/
def Machine.invalidCmd : Result :=
  .ok (.done (.invalidCmd, { m with
    core := { c with destination := c.destination.map (· ++ errorMessage c) } }))

/-- A read that finds the input at its end: `CCL_SUSPEND`, or the end of the file. -/
def Machine.atEnd : Result :=
  if env.lastBlock then
    .ok (.next { m with core := { c with ic := env.eofIc, label := .cclRepeat } })
  else .ok (.done (.suspendBySrc, { m with core := { c with ic := c.ic - 1 } }))

def Machine.readChar (r : Fin 8) (jump : ℤ) (label : Label) : Result :=
  match m.src with
  | none => m.invalidCmd c
  | some (b :: src) =>
    let core := { c with
      reg := Function.update c.reg r (BitVec.ofNat 32 b), ic := c.ic + jump, label }
    .ok (.next { m with core, src := some src })
  | some [] => m.atEnd env c

/-- `CCL_ReadMultibyteChar2`. -/
def Machine.readMultibyteChar2 : Result :=
  match m.src with
  | none => m.invalidCmd c
  | some src =>
    match Ccl.readMultibyteChar2 (rrr c.code) (RRR c.code) c.reg src with
    | some (reg, src) =>
      .ok (.next { m with core := { c with reg, label := .cclRepeat }, src := some src })
    | none => m.atEnd env c

/-- The call of a program. -/
def Machine.call (prog : Option Program) (retIc : ℤ) : Result :=
  match (if 256 ≤ m.stack.length then none else prog) with
  | some prog =>
    .ok (.next { m with
      core := { c with ic := cclHeaderMain, label := .cclRepeat }
      prog
      stack := ⟨m.prog, retIc⟩ :: m.stack })
  | none =>
    match m.stack.getLast? with
    | none => m.invalidCmd c
    | some frame => Machine.invalidCmd { c with ic := frame.ic } { m with prog := frame.prog }

def Machine.cclEnd : Result :=
  match m.stack with
  | frame :: stack =>
    .ok (.next { m with
      core := { c with ic := frame.ic, label := .cclRepeat }, prog := frame.prog, stack })
  | [] =>
    .ok (.done (.success, { m with
      core := { c with ic := c.ic - 1 }, src := m.src.map fun _ => [] }))

/-- What an effect does that is not of the mapping stack. -/
def Machine.perform : Effect → Result
  | .next core => .ok (.next { m with core })
  | .read c r jump label => m.readChar env c r jump label
  | .readMultibyteChar2 c => m.readMultibyteChar2 env c
  | .call c prog retIc => m.call c prog retIc
  | .cclEnd c => m.cclEnd c
  | .invalidCmd c | .mapMultiple c | .mapMultipleRound c _ _ _ _ _ => m.invalidCmd c

def step : Result := do
  match ← m.core.execute env m.prog with
  | .mapMultiple c =>
    let (effect, maps) ← mapMultiple m.prog c m.maps m.stack.length
    { m with maps }.perform env effect
  | .mapMultipleRound c i rest op finIc currentIc =>
    let (effect, maps) ← mapMultipleRound env m.prog c m.maps m.stack.length i rest op finIc
      currentIc
    { m with maps }.perform env effect
  | effect => m.perform env effect

/-! ## Calls -/

/-- `struct ccl_program`. -/
structure CclProgram where
  prog : Program
  ic : ℤ
  eofIc : ℤ
  reg : Registers
  bufMagnification : CInt
  stackIdx : ℕ
  eolType : EolType

/-- The static variables, which all calls share: `ccl_prog_stack_struct` and
`stack_idx_of_map_multiple`. The mapping stack is emptied at the beginning of a call. -/
structure Statics where
  progStack : ℕ → Frame
  stackIdxOfMapMultiple : ℕ

/-- The call stack as `stack_idx` says. -/
def Statics.stack (statics : Statics) (stackIdx : ℕ) : List Frame :=
  ((List.range stackIdx).map statics.progStack).reverse

/-- The entry of `ccl_driver`. -/
def CclProgram.enter (ccl : CclProgram) (statics : Statics) (src : Option (List ℕ))
    (destination : Option (List ℕ)) : Machine where
  core :=
    { reg := ccl.reg
      ic := if ccl.eofIc ≤ ccl.ic then cclHeaderMain else ccl.ic
      code := -1
      thisIc := 0
      destination := if ccl.bufMagnification = 0 then none else destination
      label := .cclRepeat }
  prog := ccl.prog
  stack := statics.stack ccl.stackIdx
  maps := ⟨[], statics.stackIdxOfMapMultiple⟩
  src := src

def CclProgram.finish (ccl : CclProgram) (m : Machine) : CclProgram :=
  { ccl with ic := m.core.ic, stackIdx := m.stack.length, prog := m.prog, reg := m.core.reg }

/-- `setup_ccl_program` for compiled code. -/
def setupCclProgram (prog : Program) (eofIc : ℤ) (bufMagnification : CInt) : CclProgram where
  prog := prog
  ic := cclHeaderMain
  eofIc := eofIc
  reg := fun _ => 0
  bufMagnification := bufMagnification
  stackIdx := 0
  eolType := .lf

end XEmacs.Ccl

import XEmacs.Ccl.Driver

/-!
# The arithmetic of CCL

Six instructions evaluate an expression, two of them also behind a read.
-/

namespace XEmacs.Ccl

open XEmacs.Coding Machines

variable {env : Setting} {prog : Program} {c : Core}

/-! ## Expressions -/

/-- An expression with its operands: `reg[r] OP= y`, where `x` is `reg[r]`, or `reg[r] = x OP y`. -/
structure Expression where
  selfAssign : Bool
  r : Fin 8
  x : CInt
  y : CInt
  op : CInt

/-- The registers afterwards; none is `CCL_INVALID_CMD`. -/
def Expression.eval (e : Expression) (reg : Registers) : Except Fault (Option Registers) :=
  match Operator.ofCode e.op.toNat with
  | none => .ok none
  | some op => if e.selfAssign then cclExprSelf e.r e.y reg op else cclSetExpr e.r e.x e.y reg op

/-- The operands of the second code word, and maybe the third, of a conditional jump. -/
def Core.jumpExpression (prog : Program) (c : Core) (j : ℤ → Except Fault CInt) :
    Except Fault Expression := do
  let op ← intAt prog c.ic
  return ⟨false, r7, c.reg (rrr c.code), ← j (← word prog (c.ic + 1)), op⟩

/-- The register that is named by a code word. -/
def Core.register (c : Core) (n : ℤ) : Except Fault CInt :=
  if h : 0 ≤ n ∧ n < 8 then .ok (c.reg ⟨n.toNat, toNat_lt_eight h⟩) else .error .noRegister

/-- The expression of the instruction that has been fetched, if it has one. -/
def Core.codeExpression (prog : Program) (c : Core) : Option (Except Fault Expression) :=
  match (c.code &&& 0x1F).toNat with
  | 0x0F => some do return ⟨false, r7, c.reg (RRR c.code), ← intAt prog c.ic, opOf c.code⟩
  | 0x12 => some (.ok ⟨false, r7, c.reg (RRR c.code), c.reg (Rrr c.code), opOf c.code⟩)
  | 0x17 => some do
    return ⟨true, rrr c.code, c.reg (rrr c.code), ← intAt prog c.ic, opOf c.code⟩
  | 0x18 => some (.ok ⟨true, rrr c.code, c.reg (rrr c.code), c.reg (RRR c.code), opOf c.code⟩)
  | 0x19 => some do
    return ⟨false, rrr c.code, c.reg (RRR c.code), ← intAt prog c.ic, opOf c.code⟩
  | 0x1A =>
    some (.ok ⟨false, rrr c.code, c.reg (RRR c.code), c.reg (Rrr c.code), opOf c.code⟩)
  | 0x1B => some (c.jumpExpression prog fun w => .ok (BitVec.ofInt 32 w))
  | 0x1C => some (c.jumpExpression prog c.register)
  | _ => none

/-- The expression of the instruction a core is at, if that has one. -/
def Core.expression (prog : Program) (c : Core) : Option (Except Fault Expression) :=
  match c.label with
  | .cclRepeat =>
    match intAt prog c.ic with
    | .ok code => Core.codeExpression prog { c with code, thisIc := c.ic, ic := c.ic + 1 }
    | .error _ => none
  | .jumpCondExprConst => some (c.jumpExpression prog fun w => .ok (BitVec.ofInt 32 w))
  | .jumpCondExprReg => some (c.jumpExpression prog c.register)
  | _ => none

/-- What the instruction does once the expression is evaluated. -/
def Core.afterExpression (env : Setting) (c : Core) (jumpAddress : ℤ) (e : Expression) :
    Option Registers → Except Fault Effect
  | none => .ok (.invalidCmd c)
  | some reg =>
    if e.selfAssign then Core.break { c with reg }
    else
      let c : Core := { c with reg, code := c.code &&& 0x1F }
      if c.code = 0x0F ∨ c.code = 0x12 then
        c.writeChar env (reg e.r) fun c => Core.break { c with ic := jumpAddress }
      else if reg e.r = 0 then Core.break { c with ic := jumpAddress }
      else c.break

theorem exprSelf_eq (r : Fin 8) (i op : CInt) (jumpAddress : ℤ) :
    c.exprSelf r i op = (Expression.eval ⟨true, r, c.reg r, i, op⟩ c.reg).bind
      (c.afterExpression env jumpAddress ⟨true, r, c.reg r, i, op⟩) := by
  rw [Core.exprSelf, Expression.eval]
  cases Operator.ofCode op.toNat with
  | none => rfl
  | some op' =>
    simp only [if_true]
    cases cclExprSelf r i c.reg op' with
    | error f => rfl
    | ok res => cases res <;> rfl

theorem setExpr_eq (r : Fin 8) (i j op : CInt) (jumpAddress : ℤ) :
    c.setExpr env r i j op jumpAddress = (Expression.eval ⟨false, r, i, j, op⟩ c.reg).bind
      (c.afterExpression env jumpAddress ⟨false, r, i, j, op⟩) := by
  rw [Core.setExpr, Expression.eval]
  cases Operator.ofCode op.toNat with
  | none => rfl
  | some op' =>
    simp only [Bool.false_eq_true, if_false]
    cases cclSetExpr r i j c.reg op' with
    | error f => rfl
    | ok res => cases res <;> rfl

/-- An effect comes from the evaluation of the expression `e`: the instruction goes on with the
registers that result. -/
def Evaluates (env : Setting) (c : Core) (effect : Except Fault Effect)
    (e : Except Fault Expression) : Prop :=
  ∃ (c' : Core) (jumpAddress : ℤ), c'.reg = c.reg ∧ effect = e.bind fun e =>
    (e.eval c.reg).bind (c'.afterExpression env jumpAddress e)

theorem jumpCondExprConst_spec :
    Evaluates env c (c.jumpCondExprConst env prog)
      (c.jumpExpression prog fun w => .ok (BitVec.ofInt 32 w)) := by
  refine ⟨{ c with ic := c.ic + 2 }, c.ic + ADDR c.code, rfl, ?_⟩
  rw [Core.jumpCondExprConst, Core.jumpExpression, intAt, intAt]
  cases word prog c.ic with
  | error f => rfl
  | ok op =>
    cases word prog (c.ic + 1) with
    | error f => rfl
    | ok j => exact setExpr_eq ..

theorem jumpCondExprReg_spec :
    Evaluates env c (c.jumpCondExprReg env prog) (c.jumpExpression prog c.register) := by
  refine ⟨{ c with ic := c.ic + 2 }, c.ic + ADDR c.code, rfl, ?_⟩
  rw [Core.jumpCondExprReg, Core.jumpExpression, intAt]
  cases word prog c.ic with
  | error f => rfl
  | ok op =>
    cases word prog (c.ic + 1) with
    | error f => rfl
    | ok n =>
      by_cases hn : 0 ≤ n ∧ n < 8
      · have hregister : c.register n = .ok (c.reg ⟨n.toNat, toNat_lt_eight hn⟩) := dif_pos hn
        simp only [Except.map, bind, Except.bind, dif_pos hn, hregister]
        exact setExpr_eq ..
      · have hregister : c.register n = .error .noRegister := dif_neg hn
        simp only [Except.map, bind, Except.bind, dif_neg hn, hregister]

theorem dispatch_spec {e : Except Fault Expression} (h : c.codeExpression prog = some e) :
    Evaluates env c (c.dispatch env prog) e := by
  rw [Core.codeExpression] at h
  split at h <;> rename_i hn <;> cases h
  · refine ⟨c, c.ic + 1, rfl, ?_⟩
    simp only [Core.dispatch, hn]
    cases intAt prog c.ic with
    | error f => rfl
    | ok j => exact setExpr_eq ..
  · refine ⟨c, c.ic, rfl, ?_⟩
    simp only [Core.dispatch, hn]
    exact setExpr_eq ..
  · refine ⟨{ c with ic := c.ic + 1 }, 0, rfl, ?_⟩
    simp only [Core.dispatch, hn]
    cases intAt prog c.ic with
    | error f => rfl
    | ok i => exact exprSelf_eq ..
  · refine ⟨c, 0, rfl, ?_⟩
    simp only [Core.dispatch, hn]
    exact exprSelf_eq ..
  · refine ⟨{ c with ic := c.ic + 1 }, c.ic + 1, rfl, ?_⟩
    simp only [Core.dispatch, hn]
    cases intAt prog c.ic with
    | error f => rfl
    | ok j => exact setExpr_eq ..
  · refine ⟨c, c.ic, rfl, ?_⟩
    simp only [Core.dispatch, hn]
    exact setExpr_eq ..
  · have hdispatch : c.dispatch env prog = c.jumpCondExprConst env prog := by
      simp only [Core.dispatch, hn]
    rw [hdispatch]
    exact jumpCondExprConst_spec
  · have hdispatch : c.dispatch env prog = c.jumpCondExprReg env prog := by
      simp only [Core.dispatch, hn]
    rw [hdispatch]
    exact jumpCondExprReg_spec

variable (env) in
/-- **What an instruction with an expression does**: it evaluates the expression. -/
theorem execute_spec {e : Except Fault Expression} (h : c.expression prog = some e) :
    Evaluates env c (c.execute env prog) e := by
  rw [Core.expression] at h
  rw [Core.execute]
  cases hlabel : c.label with
  | cclRepeat =>
    simp only [hlabel] at h ⊢
    cases hcode : intAt prog c.ic with
    | error f =>
      simp only [hcode] at h
      cases h
    | ok code =>
      simp only [hcode] at h
      exact dispatch_spec h
  | jumpCondExprConst =>
    simp only [hlabel] at h
    cases h
    exact jumpCondExprConst_spec
  | jumpCondExprReg =>
    simp only [hlabel] at h
    cases h
    exact jumpCondExprReg_spec
  | readRegister | writeRegister | branch | iterateMultipleMap | mapMultiple =>
    simp only [hlabel] at h
    cases h

/-! ## Divisions -/

theorem quotient_of_not_traps {x y : CInt} (h : ¬ Traps x y) : quotient x y = .ok (x.sdiv y) :=
  if_neg h

theorem remainder_of_not_traps {x y : CInt} (h : ¬ Traps x y) : remainder x y = .ok (x.srem y) :=
  if_neg h

theorem not_traps_srem {x y : CInt} (h : ¬ Traps x y) : ¬ Traps (x.srem y) y := by
  rintro (rfl | ⟨hmin, rfl⟩)
  · exact h (.inl rfl)
  · have hint := congrArg BitVec.toInt hmin
    have hneg : (-1 : CInt).toInt = -1 := by decide
    have hmin : (BitVec.intMin 32).toInt = -2147483648 := by decide
    rw [BitVec.toInt_srem, hneg, hmin, Int.tmod_neg, Int.tmod_one] at hint
    cases hint

/-- The operators that divide. -/
def Operator.divides (op : Operator) : Bool := op = .div || op = .mod || op = .divmod

theorem cclExprSelf_isOk_iff (r : Fin 8) (i : CInt) (reg : Registers) (op : Operator) :
    (∃ res, cclExprSelf r i reg op = .ok res) ↔ (op.divides = true → ¬ Traps (reg r) i) := by
  have htraps : op.divides = true → Traps (reg r) i → ∀ res, cclExprSelf r i reg op ≠ .ok res := by
    intro hop ht res h
    have hquotient : quotient (reg r) i = .error .division := if_pos ht
    have hremainder : remainder (reg r) i = .error .division := if_pos ht
    cases op with
    | div =>
      rw [cclExprSelf, hquotient] at h
      cases h
    | mod | divmod =>
      rw [cclExprSelf, hremainder] at h
      cases h
    | _ => cases hop
  refine ⟨fun ⟨res, h⟩ hop ht => htraps hop ht res h, fun h => ?_⟩
  cases op with
  | div => exact ⟨_, by rw [cclExprSelf, quotient_of_not_traps (h rfl)]; rfl⟩
  | mod => exact ⟨_, by rw [cclExprSelf, remainder_of_not_traps (h rfl)]; rfl⟩
  | divmod =>
    have hagain : ¬ Traps (Function.update reg 7 ((reg r).srem i) r) i := by
      by_cases hr : r = 7
      · rw [hr, Function.update_self]
        exact not_traps_srem (hr ▸ h rfl)
      · rw [Function.update_of_ne hr]
        exact h rfl
    rw [cclExprSelf, remainder_of_not_traps (h rfl)]
    simp only [bind, Except.bind, quotient_of_not_traps hagain]
    exact ⟨_, rfl⟩
  | _ => exact ⟨_, rfl⟩

theorem cclSetExpr_isOk_iff (r : Fin 8) (i j : CInt) (reg : Registers) (op : Operator) :
    (∃ res, cclSetExpr r i j reg op = .ok res) ↔ (op.divides = true → ¬ Traps i j) := by
  have htraps : op.divides = true → Traps i j → ∀ res, cclSetExpr r i j reg op ≠ .ok res := by
    intro hop ht res h
    have hquotient : quotient i j = .error .division := if_pos ht
    have hremainder : remainder i j = .error .division := if_pos ht
    cases op with
    | div | divmod =>
      rw [cclSetExpr, hquotient] at h
      cases h
    | mod =>
      rw [cclSetExpr, hremainder] at h
      cases h
    | _ => cases hop
  refine ⟨fun ⟨res, h⟩ hop ht => htraps hop ht res h, fun h => ?_⟩
  cases op with
  | div => exact ⟨_, by rw [cclSetExpr, quotient_of_not_traps (h rfl)]; rfl⟩
  | mod => exact ⟨_, by rw [cclSetExpr, remainder_of_not_traps (h rfl)]; rfl⟩
  | divmod =>
    rw [cclSetExpr, quotient_of_not_traps (h rfl)]
    simp only [bind, Except.bind, remainder_of_not_traps (h rfl)]
    exact ⟨_, rfl⟩
  | _ => exact ⟨_, rfl⟩

/-! ## Instructions -/

variable (env prog) in
/-- The instruction at a core stores the result of its expression, or ends the run with
`CCL_STAT_INVALID_CMD`. -/
def Settles (c : Core) (e : Except Fault Expression) : Prop :=
  (∃ c', c.execute env prog = .ok (.invalidCmd c')) ∨
    ∃ e' reg' c' jumpAddress, e = .ok e' ∧ e'.eval c.reg = .ok (some reg') ∧
      c.execute env prog = Core.afterExpression env c' jumpAddress e' (some reg')

/-- The divisor of an expression is fine, and where it names a register by a code word, there is
such a register. -/
def ArithmeticOk (e : Except Fault Expression) : Prop :=
  e ≠ .error .noRegister ∧
    ∀ e', e = .ok e' → ∀ op, Operator.ofCode e'.op.toNat = some op → op.divides = true →
      ¬ Traps e'.x e'.y

theorem word_error {prog : Program} {ic : ℤ} {f : Fault} (h : word prog ic = .error f) :
    f = .outside := by
  rw [word] at h
  split_ifs at h
  · split at h
    · cases h
    · cases h
      rfl
  · cases h
    rfl

theorem intAt_error {prog : Program} {ic : ℤ} {f : Fault} (h : intAt prog ic = .error f) :
    f = .outside := by
  rw [intAt] at h
  cases hword : word prog ic with
  | ok w =>
    rw [hword] at h
    cases h
  | error f' =>
    rw [hword] at h
    cases h
    exact word_error hword

/-- What is known of the operands of an instruction. -/
structure Operands (c : Core) (e : Except Fault Expression) : Prop where
  self : ∀ e', e = .ok e' → e'.selfAssign = true → e'.x = c.reg e'.r
  error : ∀ f, e = .error f → f = .outside ∨ f = .noRegister

theorem operands_ok {e : Expression} (hself : e.selfAssign = true → e.x = c.reg e.r) :
    Operands c (.ok e) where
  self e' he' := by
    cases he'
    exact hself
  error f hf := by cases hf

theorem operands_error {f : Fault} (hf : f = .outside ∨ f = .noRegister) :
    Operands c (.error f) where
  self e' he' := by cases he'
  error f' hf' := by
    cases hf'
    exact hf

theorem operands_jump {j : ℤ → Except Fault CInt} (hj : ∀ w f, j w = .error f → f = .noRegister) :
    Operands c (c.jumpExpression prog j) := by
  rw [Core.jumpExpression]
  cases hop : intAt prog c.ic with
  | error f => exact operands_error (.inl (intAt_error hop))
  | ok op =>
    cases hword : word prog (c.ic + 1) with
    | error f => exact operands_error (.inl (word_error hword))
    | ok w =>
      simp only [bind, Except.bind]
      cases hw : j w with
      | error f => exact operands_error (.inr (hj w f hw))
      | ok j => exact operands_ok fun hself => by cases hself

theorem operands_const : Operands c (c.jumpExpression prog fun w => .ok (BitVec.ofInt 32 w)) :=
  operands_jump fun _ _ h => by cases h

theorem operands_register : Operands c (c.jumpExpression prog c.register) := by
  refine operands_jump fun w f h => ?_
  rw [Core.register] at h
  split_ifs at h
  cases h
  rfl

theorem operands_second {make : CInt → Expression}
    (hself : ∀ j, (make j).selfAssign = true → (make j).x = c.reg (make j).r) :
    Operands c ((intAt prog c.ic).bind fun j => .ok (make j)) := by
  cases hj : intAt prog c.ic with
  | error f => exact operands_error (.inl (intAt_error hj))
  | ok j => exact operands_ok (hself j)

theorem operands_code {e : Except Fault Expression} (h : c.codeExpression prog = some e) :
    Operands c e := by
  rw [Core.codeExpression] at h
  split at h <;> cases h
  · exact operands_second fun _ h => by cases h
  · exact operands_ok fun h => by cases h
  · exact operands_second fun _ _ => rfl
  · exact operands_ok fun _ => rfl
  · exact operands_second fun _ h => by cases h
  · exact operands_ok fun h => by cases h
  · exact operands_const
  · exact operands_register

theorem operands_spec {e : Except Fault Expression} (h : c.expression prog = some e) :
    Operands c e := by
  rw [Core.expression] at h
  split at h
  · split at h
    · have hcode := operands_code h
      exact ⟨hcode.self, hcode.error⟩
    · cases h
  · cases h
    exact operands_const
  · cases h
    exact operands_register
  · cases h

theorem eval_isOk_iff {e : Expression} (reg : Registers)
    (hself : e.selfAssign = true → e.x = reg e.r) :
    (∃ res, e.eval reg = .ok res) ↔
      ∀ op, Operator.ofCode e.op.toNat = some op → op.divides = true → ¬ Traps e.x e.y := by
  rw [Expression.eval]
  cases hop : Operator.ofCode e.op.toNat with
  | none => exact ⟨fun _ op h => (by cases h), fun _ => ⟨none, rfl⟩⟩
  | some op =>
    simp only [Option.some.injEq, forall_eq']
    split_ifs with hs
    · rw [cclExprSelf_isOk_iff, hself hs]
    · exact cclSetExpr_isOk_iff ..

theorem settles_iff {e : Except Fault Expression} (h : c.expression prog = some e)
    (hinside : e ≠ .error .outside) : Settles env prog c e ↔ ArithmeticOk e := by
  obtain ⟨c', jumpAddress, hreg, hexecute⟩ := execute_spec env h
  have hoperands := operands_spec h
  cases e with
  | error f =>
    have hregister : f = .noRegister := by
      refine (hoperands.error f rfl).resolve_left ?_
      rintro rfl
      exact hinside rfl
    subst hregister
    refine ⟨?_, fun hok => absurd rfl hok.1⟩
    rintro (⟨c', hinvalid⟩ | ⟨e', reg', c', jumpAddress, he', -⟩)
    · rw [hexecute] at hinvalid
      cases hinvalid
    · cases he'
  | ok e =>
    have hiff := eval_isOk_iff c.reg (hoperands.self e rfl)
    have hok : ArithmeticOk (.ok e) ↔ ∃ res, e.eval c.reg = .ok res := by
      rw [hiff]
      refine ⟨fun hok => hok.2 e rfl, fun hop => ⟨fun h => (by cases h), fun e' he' => ?_⟩⟩
      cases he'
      exact hop
    rw [hok]
    constructor
    · rintro (⟨c'', hinvalid⟩ | ⟨e', reg', c'', jumpAddress', he', heval, -⟩)
      · cases heval : e.eval c.reg with
        | ok res => exact ⟨res, rfl⟩
        | error f =>
          rw [hexecute] at hinvalid
          simp only [Except.bind, heval] at hinvalid
          cases hinvalid
      · cases he'
        exact ⟨some reg', heval⟩
    · rintro ⟨res, heval⟩
      have hexecute' : c.execute env prog = c'.afterExpression env jumpAddress e res := by
        rw [hexecute]
        simp only [Except.bind, heval]
      cases res with
      | none => exact .inl ⟨c', hexecute'⟩
      | some reg' => exact .inr ⟨e, reg', c', jumpAddress, rfl, heval, hexecute'⟩

/-- **Arithmetic does not trap**: in every run, from whatever registers and input, each arithmetic
instruction whose codes are in the vector stores a result or ends the run with
`CCL_STAT_INVALID_CMD`, exactly if none of them divides by zero, or the least `int` by -1, and none
names a register that does not exist. -/
theorem arithmetic_settles_iff (env : Setting) (m : Machine) :
    (∀ m' e, Reaches (step env) m m' → m'.core.expression m'.prog = some e → e ≠ .error .outside →
      Settles env m'.prog m'.core e) ↔
    ∀ m' e, Reaches (step env) m m' → m'.core.expression m'.prog = some e → e ≠ .error .outside →
      ArithmeticOk e := by
  constructor
  · intro h m' e hm' he hinside
    exact (settles_iff he hinside).mp (h m' e hm' he hinside)
  · intro h m' e hm' he hinside
    exact (settles_iff he hinside).mpr (h m' e hm' he hinside)

/-- A call for the last block, with no tables. -/
def lastCall : Setting where
  out := ⟨Charsets.initial, .decoding, .lf, fun _ => 0⟩
  tables := ⟨[], fun _ => none, [], 31⟩
  eofIc := 4
  lastBlock := true

/-- The program `((read r0) (r1 /= r0))`. -/
def divideByInput : Program := [1, 4, 0x0E, 0xC038, 0x16]

/-- Its run, with the rest of the input. -/
def dividing (reg : Registers) (ic : ℤ) (code : CInt) (thisIc : ℤ) (label : Label)
    (src : List ℕ) : Machine where
  core := ⟨reg, ic, code, thisIc, some [], label⟩
  prog := divideByInput
  stack := []
  maps := ⟨[], 0⟩
  src := some src

/-- The registers after the read of a zero byte. -/
def afterZero : Registers := Function.update (fun _ => 0) r0 0

/-- A zero byte in the input is divided by. -/
theorem zeroByte_traps :
    ∃ m' e, Reaches (step lastCall) (dividing (fun _ => 0) 2 (-1) 0 .cclRepeat [0]) m' ∧
      m'.core.expression m'.prog = some e ∧ e ≠ .error .outside ∧
      step lastCall m' = .error .division ∧ ¬ Settles lastCall m'.prog m'.core e := by
  have hread : Next (step lastCall) (dividing (fun _ => 0) 2 (-1) 0 .cclRepeat [0])
      (dividing afterZero 3 0x0E 2 .readRegister []) := by
    rfl
  have hbreak : Next (step lastCall) (dividing afterZero 3 0x0E 2 .readRegister [])
      (dividing afterZero 3 0x0E 2 .cclRepeat []) := by
    rfl
  have hexpression : (dividing afterZero 3 0x0E 2 .cclRepeat []).core.expression divideByInput =
      some (.ok ⟨true, 1, 0, 0, 3⟩) := by
    rfl
  have hinside : (.ok ⟨true, 1, 0, 0, 3⟩ : Except Fault Expression) ≠ .error .outside := by
    intro h
    cases h
  refine ⟨_, _, (Relation.ReflTransGen.single hread).tail hbreak, hexpression, hinside, by rfl, ?_⟩
  intro hsettles
  have hok := (settles_iff hexpression hinside).mp hsettles
  exact hok.2 _ rfl .div rfl rfl (.inl rfl)

end XEmacs.Ccl

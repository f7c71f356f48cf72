import XEmacs.Bytecode.Layout

/-!
# The first loop of the translator

Every turn reads one instruction of the source and writes one piece of the program (`Piece`). The
pieces account for everything the loop leaves behind.
-/

namespace XEmacs.Bytecode

open Fallible List

/-! ### Operands -/

/-- What `WRITE_NARGS` leaves of the instruction. -/
def nargsBytes (group : Nargs) (arg : Nat) : List Nat :=
  if arg ≤ 5 then [group.base + arg]
  else if arg ≤ ucharMax then [group.base + 6, arg]
  else [group.base + 7, byte arg, byte ((arg : Int) / 256)]

/-- What `WRITE_CONSTANT` leaves of the instruction. -/
def constantBytes (arg : Nat) : List Nat :=
  if arg ≤ ucharMax - Bconstant then [Bconstant + arg]
  else [Bconstant2, byte arg, byte ((arg : Int) / 256)]

/-- Bytes that are read as an instruction, wherever they are and whatever follows. -/
def ReadsAs (bytes : List Nat) (i : Instr) : Prop :=
  ∀ pos rest, readInstr programFormat pos (bytes ++ rest) = some (i, bytes.length)

theorem byte_of_le {c : Nat} (hc : c ≤ ucharMax) : byte c = c := by
  rw [ucharMax] at hc
  rw [byte]
  omega

theorem byte_add_byte {arg : Nat} (harg : arg < 65536) :
    byte arg + 256 * byte ((arg : Int) / 256) = arg := by
  rw [byte, byte]
  omega

theorem nargsBytes_readsAs (group : Nargs) {arg : Nat} (harg : arg < 65536) :
    ReadsAs (nargsBytes group arg) (.nargs group arg) := by
  intro pos rest
  rw [nargsBytes]
  split
  · rename_i hle
    simp only [cons_append, nil_append, readInstr, classify_base_add (by omega : arg < 8),
      Nat.add_sub_cancel_left, if_pos hle, length_singleton]
  · split
    · simp [readInstr, classify_base_add]
    · simp [readInstr, classify_base_add, byte_add_byte harg]

theorem classify_constant {k : Nat} (hk : k < 64) : classify (Bconstant + k) = .constant := by
  revert k
  decide

theorem constantBytes_readsAs {arg : Nat} (harg : arg < 65536) :
    ReadsAs (constantBytes arg) (.constant arg) := by
  intro pos rest
  rw [constantBytes]
  split
  · rename_i hle
    rw [ucharMax, Bconstant] at hle
    simp only [cons_append, nil_append, readInstr,
      classify_constant (by omega : arg < 64), Nat.add_sub_cancel_left, length_singleton]
  · have hclass : classify Bconstant2 = .constant2 := by decide
    simp [readInstr, hclass, byte_add_byte harg]

/-! ### Pieces -/

/-- An instruction of the source, its size there, and what it becomes. -/
structure Piece where
  instr : Instr
  size : Nat
  item : Item

/-- The entry of a jump in the table. -/
def Instr.entry (pos : Nat) : Instr → List (Nat × Int)
  | .jump _ target => [(pos + 1, target)]
  | _ => []

/-- What the translator makes of an instruction other than a jump. -/
inductive Rewrites (constants : List Constant) : Instr → Instr → Prop where
  | same (i : Instr) (hjump : i.entry 0 = [])
      (hkeyword : ∀ arg, i = .nargs .varset arg → constants[arg]? ≠ some .keyword) :
      Rewrites constants i i
  | ignored (arg : Nat) (hkeyword : constants[arg]? = some .keyword) :
      Rewrites constants (.nargs .varset arg) (.simple Bdiscard)

namespace Piece

/-- What a turn of the loop promises of its piece. -/
structure Good (constants : List Constant) (p : Piece) : Prop where
  pos : 1 ≤ p.size
  valid : p.item.Valid
  /-- A plain piece is the instruction, a jump has the condition of the instruction. -/
  item : match p.item with
    | .plain bytes => bytes.length ≤ p.size ∧
        ∃ i, ReadsAs bytes i ∧ i.entry 0 = [] ∧ Rewrites constants p.instr i
    | .short condition _ | .long condition _ _ =>
        2 ≤ p.size ∧ ∃ target, p.instr = .jump condition target

/-- The values of `icounts` for the characters of a piece at `base`. -/
def counts (base : Nat) (p : Piece) : List Nat :=
  base :: List.replicate (p.size - 1) (base + 1)

end Piece

namespace Translation

variable {s s' : Translation} {constants : List Constant} {n : Nat} {bytes : List Nat}

/-- The state in a turn of the loop, after `n` characters behind the opcode and with this much
of the instruction written. -/
def put (s : Translation) (n : Nat) (bytes : List Nat) : Translation :=
  { s with
    ptr := s.ptr.drop (n + 1)
    icounts := s.icounts ++ s.program.length :: List.replicate n (s.program.length + 1)
    program := s.program ++ bytes }

@[simp] theorem put_writeInt8 (value : Int) :
    (s.put n bytes).writeInt8 value = s.put n (bytes ++ [byte value]) := by
  simp [put, writeInt8]

@[simp] theorem put_writeInt16 (value : Int) :
    (s.put n bytes).writeInt16 value = s.put n (bytes ++ [byte value, byte (value / 256)]) := by
  simp [writeInt16]

@[simp] theorem put_rewriteOpcode (opcode new : Nat) :
    (s.put n [opcode]).rewriteOpcode new = s.put n [new] := by
  simp [put, rewriteOpcode]

theorem put_writeNargs (opcode : Nat) (group : Nargs) (arg : Nat) :
    (s.put n [opcode]).writeNargs group.base arg = s.put n (nargsBytes group arg) := by
  rw [writeNargs, nargsBytes]
  split
  · exact put_rewriteOpcode ..
  · split
    · rename_i hle
      rw [put_rewriteOpcode, put_writeInt8, byte_of_le hle]
      rfl
    · rw [put_rewriteOpcode, put_writeInt16]
      rfl

theorem exists_eq_cons {l : List Nat} {a : Nat} (ha : l[0]? = some a) :
    ∃ tail, l = a :: tail := by
  cases l with
  | nil => cases ha
  | cons b tail =>
    cases ha
    exact ⟨tail, rfl⟩

theorem exists_eq_cons_cons {l : List Nat} {a b : Nat} (ha : l[0]? = some a)
    (hb : l[1]? = some b) : ∃ tail, l = a :: b :: tail := by
  obtain ⟨l, rfl⟩ := exists_eq_cons ha
  obtain ⟨tail, rfl⟩ := exists_eq_cons (l := l) hb
  exact ⟨tail, rfl⟩

theorem readInstructionChar_eq {c : Nat} (h : s.readInstructionChar = .ok (c, s')) :
    s.ptr[0]? = some c ∧ c ≤ ucharMax ∧
      s' = { s with ptr := s.ptr.drop 1, icounts := s.icounts ++ [s.program.length] } := by
  rw [readInstructionChar] at h
  split at h
  · cases h
  · rename_i ptr hptr
    split at h
    · cases h
    · rename_i hle
      cases h
      rw [hptr]
      exact ⟨rfl, Nat.le_of_not_lt hle, rfl⟩

theorem put_readInstructionChar {opcode c : Nat}
    (h : (s.put n [opcode]).readInstructionChar = .ok (c, s')) :
    s.ptr[n + 1]? = some c ∧ c ≤ ucharMax ∧ s' = s.put (n + 1) [opcode] := by
  obtain ⟨hc, hle, rfl⟩ := readInstructionChar_eq h
  refine ⟨?_, hle, ?_⟩
  · simpa [put] using hc
  · simp [put, replicate_succ']

theorem put_readOperand2 {opcode arg : Nat} (h : (s.put 0 [opcode]).readOperand2 = .ok (arg, s')) :
    ∃ a b, s.ptr[1]? = some a ∧ s.ptr[2]? = some b ∧ a ≤ ucharMax ∧ b ≤ ucharMax ∧
      arg = a + 256 * b ∧ s' = s.put 2 [opcode] := by
  obtain ⟨⟨a, s₁⟩, h₁, h⟩ := bind_eq_ok.mp h
  obtain ⟨⟨b, s₂⟩, h₂, h⟩ := bind_eq_ok.mp h
  obtain ⟨ha, hale, rfl⟩ := put_readInstructionChar h₁
  obtain ⟨hb, hble, rfl⟩ := put_readInstructionChar h₂
  cases h
  exact ⟨a, b, ha, hb, hale, hble, by rw [Nat.mul_comm], rfl⟩

/-- What a turn of the loop does, in terms of its piece. -/
structure Turn (s s' : Translation) (p : Piece) : Prop where
  read : readInstr sourceFormat s.icounts.length s.ptr = some (p.instr, p.size)
  fits : p.size ≤ s.ptr.length
  ptr : s'.ptr = s.ptr.drop p.size
  icounts : s'.icounts = s.icounts ++ p.counts s.program.length
  program : s'.program = s.program ++ p.item.bytes
  jumps : s'.jumps = s.jumps ++ p.instr.entry s.icounts.length

theorem turn_plain {i : Instr} {v : Nat}
    (hread : readInstr sourceFormat s.icounts.length s.ptr = some (i, n + 1))
    (hfits : n + 1 ≤ s.ptr.length) (hentry : i.entry s.icounts.length = []) :
    Turn s { s.put n bytes with varbindCount := v } ⟨i, n + 1, .plain bytes⟩ where
  read := hread
  fits := hfits
  ptr := rfl
  icounts := rfl
  program := rfl
  jumps := by
    rw [hentry, append_nil]
    rfl

theorem readNargs_spec {group : Nargs} {opcode arg : Nat} {rest : List Nat} (pos : Nat)
    (hptr : s.ptr = opcode :: rest) (hclass : classify opcode = .nargs group)
    (h : (s.put 0 [opcode]).readNargs group opcode = .ok (arg, s')) :
    ∃ n, s' = s.put n [opcode] ∧ n + 1 ≤ s.ptr.length ∧ arg < 65536 ∧
      (nargsBytes group arg).length ≤ n + 1 ∧
        readInstr sourceFormat pos s.ptr = some (.nargs group arg, n + 1) := by
  have hbase := base_le_of_classify hclass
  rw [readNargs] at h
  split at h
  · rename_i hseven
    obtain ⟨a, b, ha, hb, hale, hble, rfl, rfl⟩ := put_readOperand2 h
    rw [hptr] at ha hb
    obtain ⟨tail, rfl⟩ : ∃ tail, rest = a :: b :: tail := by
      exact exists_eq_cons_cons ha hb
    rw [ucharMax] at hale hble
    refine ⟨2, rfl, by simp [hptr], by omega, ?_, by simp [hptr, readInstr, hclass, hseven]⟩
    rw [nargsBytes]
    split
    · exact Nat.succ_le_succ (Nat.zero_le _)
    · split
      · exact Nat.le_succ 2
      · exact Nat.le_refl 3
  · split at h
    · rename_i hsix
      obtain ⟨ha, hale, rfl⟩ := put_readInstructionChar h
      rw [hptr] at ha
      obtain ⟨tail, rfl⟩ : ∃ tail, rest = arg :: tail := by
        exact exists_eq_cons ha
      have hlt : arg < 65536 := Nat.lt_of_le_of_lt hale (by decide)
      refine ⟨1, rfl, by simp [hptr], hlt, ?_, by simp [hptr, readInstr, hclass, hsix]⟩
      rw [nargsBytes, if_pos hale]
      split
      · exact Nat.le_succ 1
      · exact Nat.le_refl 2
    · cases h
      have hle : opcode - group.base ≤ 5 := by omega
      refine ⟨0, rfl, by simp [hptr], by omega, ?_, by simp [hptr, readInstr, hclass, hle]⟩
      rw [nargsBytes, if_pos hle]
      exact Nat.le_refl 1

theorem checkConstantsIndex_eq {arg : Nat} {val : Constant}
    (h : checkConstantsIndex arg constants = .ok val) : constants[arg]? = some val := by
  rw [checkConstantsIndex] at h
  split at h
  · cases h
  · rename_i hget
    cases h
    exact hget

theorem discard_readsAs : ReadsAs [Bdiscard] (.simple Bdiscard) := fun _ _ => rfl

theorem doNargs_spec {group : Nargs} {opcode arg : Nat} (harg : arg < 65536)
    (h : (s.put n [opcode]).doNargs constants group arg = .ok s') :
    ∃ bytes i v, s' = { s.put n bytes with varbindCount := v } ∧ ReadsAs bytes i ∧
      i.entry 0 = [] ∧ Rewrites constants (.nargs group arg) i ∧
        (bytes = nargsBytes group arg ∨ bytes.length = 1) := by
  have hsame : ∀ v, (∀ a, Instr.nargs group arg = .nargs .varset a →
      constants[a]? ≠ some .keyword) →
      s' = { s.put n (nargsBytes group arg) with varbindCount := v } →
      ∃ bytes i v, s' = { s.put n bytes with varbindCount := v } ∧ ReadsAs bytes i ∧
        i.entry 0 = [] ∧ Rewrites constants (.nargs group arg) i ∧
          (bytes = nargsBytes group arg ∨ bytes.length = 1) :=
    fun v hkeyword hs => ⟨_, _, v, hs, nargsBytes_readsAs group harg, rfl,
      .same _ rfl hkeyword, .inl rfl⟩
  cases group with
  | varref =>
    obtain ⟨val, hval, h⟩ := bind_eq_ok.mp h
    cases val with
    | symbol =>
      cases h
      exact hsame s.varbindCount nofun (put_writeNargs ..)
    | nil | t | keyword | other => cases h
  | varset =>
    obtain ⟨val, hval, h⟩ := bind_eq_ok.mp h
    cases val with
    | symbol =>
      cases h
      refine hsame s.varbindCount ?_ (put_writeNargs ..)
      rintro _ ⟨⟩
      rw [checkConstantsIndex_eq hval]
      rintro ⟨⟩
    | keyword =>
      cases h
      exact ⟨[Bdiscard], .simple Bdiscard, s.varbindCount, put_rewriteOpcode .., discard_readsAs,
        rfl, .ignored arg (checkConstantsIndex_eq hval), .inr rfl⟩
    | nil | t | other => cases h
  | varbind =>
    obtain ⟨val, hval, h⟩ := bind_eq_ok.mp h
    cases val with
    | symbol =>
      cases h
      refine hsame (s.varbindCount + 1) nofun ?_
      exact put_writeNargs (s := { s with varbindCount := s.varbindCount + 1 }) ..
    | nil | t | keyword | other => cases h
  | call =>
    cases h
    exact hsame s.varbindCount nofun (put_writeNargs ..)
  | unbind =>
    cases h
    exact hsame s.varbindCount nofun (put_writeNargs ..)

theorem writeConstant_spec {opcode arg : Nat}
    (h : (s.put n [opcode]).writeConstant constants arg = .ok s') :
    s' = s.put n (constantBytes arg) := by
  obtain ⟨_, -, h⟩ := bind_eq_ok.mp h
  rw [constantBytes]
  split at h
  · rename_i hle
    cases h
    rw [put_rewriteOpcode, if_pos hle]
  · rename_i hle
    cases h
    rw [put_rewriteOpcode, put_writeInt16, if_neg hle]
    rfl

theorem turn_constant {arg : Nat} (harg : arg < 65536)
    (hread : readInstr sourceFormat s.icounts.length s.ptr = some (.constant arg, n + 1))
    (hfits : n + 1 ≤ s.ptr.length) (hsize : (constantBytes arg).length ≤ n + 1)
    (hs' : s' = s.put n (constantBytes arg)) :
    ∃ p : Piece, p.Good constants ∧ Turn s s' p := by
  have hgood : Piece.Good constants ⟨.constant arg, n + 1, .plain (constantBytes arg)⟩ :=
    ⟨Nat.succ_pos n, trivial, hsize, .constant arg, constantBytes_readsAs harg, rfl,
      .same _ rfl nofun⟩
  refine ⟨_, hgood, ?_⟩
  rw [hs']
  exact turn_plain (v := s.varbindCount) hread hfits rfl

/-- The opcode of a jump, with an operand of this size. -/
def jumpOpcode (condition argsize : Nat) : Nat :=
  if argsize = 1 then BRgoto + condition else Bgoto + condition

theorem doJump_spec {condition argsize : Nat} {arg : Int} (hsize : argsize = 1 ∨ argsize = 2)
    (h : (s.put argsize [jumpOpcode condition argsize]).doJump (BRgoto + condition)
      (Bgoto + condition) arg argsize = .ok s') :
    ∃ item : Item, ((∃ a, item = .short condition a) ∨ ∃ lo hi, item = .long condition lo hi) ∧
      s' = { s.put argsize item.bytes with
        jumps := s.jumps ++ [(s.icounts.length + 1, (s.icounts.length + 1 : Nat) + arg)] } := by
  have horigin : (s.put argsize [jumpOpcode condition argsize]).icounts.length - argsize
      = s.icounts.length + 1 := by
    simp only [put, length_append, length_cons, length_replicate]
    omega
  simp only [doJump, horigin] at h
  split at h
  · cases h
  · split at h
    · refine ⟨.long condition (byte arg) (byte (arg / 256)), .inr ⟨_, _, rfl⟩, ?_⟩
      obtain rfl | rfl := hsize
      · cases h
        rw [if_pos rfl]
        simp [put, rewriteOpcode, writeInt16, writeInt8, Item.bytes]
      · cases h
        rw [if_neg (by decide)]
        simp [put, writeInt16, writeInt8, Item.bytes, jumpOpcode]
    · refine ⟨.short condition (byte arg), .inl ⟨_, rfl⟩, ?_⟩
      obtain rfl | rfl := hsize
      · cases h
        rw [if_neg (by decide)]
        simp [put, writeInt8, Item.bytes, jumpOpcode]
      · cases h
        rw [if_pos rfl]
        simp [put, rewriteOpcode, writeInt8, Item.bytes]

theorem turn_jump {condition argsize : Nat} {arg t : Int} (hcond : condition < 5)
    (hsize : argsize = 1 ∨ argsize = 2)
    (hread : readInstr sourceFormat s.icounts.length s.ptr
      = some (.jump condition t, argsize + 1))
    (hfits : argsize + 1 ≤ s.ptr.length) (htarget : (s.icounts.length + 1 : Nat) + arg = t)
    (h : (s.put argsize [jumpOpcode condition argsize]).doJump (BRgoto + condition)
      (Bgoto + condition) arg argsize = .ok s') :
    ∃ p : Piece, p.Good constants ∧ Turn s s' p := by
  obtain ⟨item, hitem, rfl⟩ := doJump_spec hsize h
  refine ⟨⟨.jump condition t, argsize + 1, item⟩, ?_, hread, hfits, rfl, rfl, rfl, ?_⟩
  · have htwo : 2 ≤ argsize + 1 := by omega
    obtain ⟨a, rfl⟩ | ⟨lo, hi, rfl⟩ := hitem
    · exact ⟨Nat.succ_pos _, hcond, htwo, t, rfl⟩
    · exact ⟨Nat.succ_pos _, hcond, htwo, t, rfl⟩
  · rw [← htarget]
    rfl

/-- **A turn of the loop** makes a piece of an instruction. -/
theorem translateInstruction_spec (h : s.translateInstruction constants = .ok s') :
    ∃ p : Piece, p.Good constants ∧ Turn s s' p := by
  obtain ⟨⟨opcode, s₁⟩, h₁, h⟩ := bind_eq_ok.mp h
  obtain ⟨hopcode, hle, rfl⟩ := readInstructionChar_eq h₁
  obtain ⟨rest, hptr⟩ := exists_eq_cons hopcode
  have hput : (Translation.writeInt8 { s with
      ptr := s.ptr.drop 1, icounts := s.icounts ++ [s.program.length] } opcode)
      = s.put 0 [opcode] := by
    rw [writeInt8, byte_of_le hle]
    rfl
  simp only [hput] at h
  cases hclass : classify opcode with
  | nargs group =>
    rw [hclass] at h
    obtain ⟨⟨arg, s₂⟩, h₂, h⟩ := bind_eq_ok.mp h
    obtain ⟨n, rfl, hfits, harg, hsize, hread⟩ := readNargs_spec s.icounts.length hptr hclass h₂
    obtain ⟨bytes, i, v, rfl, hreads, hentry, hrewrites, hbytes⟩ := doNargs_spec harg h
    refine ⟨⟨.nargs group arg, n + 1, .plain bytes⟩, ⟨Nat.succ_pos n, trivial, ?_, i, hreads,
      hentry, hrewrites⟩, turn_plain hread hfits rfl⟩
    obtain rfl | hone := hbytes
    · exact hsize
    · exact Nat.le_trans (Nat.le_of_eq hone) (Nat.succ_le_succ (Nat.zero_le n))
  | goto condition =>
    rw [hclass] at h
    obtain ⟨⟨arg, s₂⟩, h₂, h⟩ := bind_eq_ok.mp h
    obtain ⟨a, b, ha, hb, -, -, rfl, rfl⟩ := put_readOperand2 h₂
    obtain ⟨hcond, rfl⟩ : condition < 5 ∧ opcode = Bgoto + condition :=
      (hclass ▸ classify_describes opcode :)
    rw [hptr] at ha hb
    obtain ⟨tail, rfl⟩ : ∃ tail, rest = a :: b :: tail := by
      exact exists_eq_cons_cons ha hb
    refine turn_jump hcond (.inr rfl) (t := (a + 256 * b : Nat)) ?_ (by simp [hptr]) ?_ h
    · simp [hptr, readInstr, hclass, sourceFormat]
    · simp only [put, length_append, length_cons, length_replicate]
      omega
  | rgoto condition =>
    rw [hclass] at h
    obtain ⟨⟨arg, s₂⟩, h₂, h⟩ := bind_eq_ok.mp h
    obtain ⟨ha, -, rfl⟩ := put_readInstructionChar h₂
    obtain ⟨hcond, rfl⟩ : condition < 5 ∧ opcode = BRgoto + condition :=
      (hclass ▸ classify_describes opcode :)
    rw [hptr] at ha
    obtain ⟨tail, rfl⟩ : ∃ tail, rest = arg :: tail := by
      exact exists_eq_cons ha
    refine turn_jump hcond (.inl rfl) (t := (s.icounts.length + 1 : Nat) + arg - 127) ?_
      (by simp [hptr]) (Int.add_sub_assoc ..).symm h
    simp [hptr, readInstr, hclass, sourceFormat]
  | constant2 =>
    rw [hclass] at h
    obtain ⟨⟨arg, s₂⟩, h₂, h⟩ := bind_eq_ok.mp h
    obtain ⟨a, b, ha, hb, hale, hble, rfl, rfl⟩ := put_readOperand2 h₂
    rw [hptr] at ha hb
    obtain ⟨tail, rfl⟩ : ∃ tail, rest = a :: b :: tail := by
      exact exists_eq_cons_cons ha hb
    rw [ucharMax] at hale hble
    refine turn_constant (n := 2) (by omega) (by simp [hptr, readInstr, hclass])
      (by simp [hptr]) ?_ (writeConstant_spec h)
    rw [constantBytes]
    split
    · exact Nat.succ_le_succ (Nat.zero_le 2)
    · exact Nat.le_refl 3
  | counted =>
    rw [hclass] at h
    obtain ⟨⟨arg, s₂⟩, h₂, h⟩ := bind_eq_ok.mp h
    obtain ⟨ha, hale, rfl⟩ := put_readInstructionChar h₂
    rw [hptr] at ha
    obtain ⟨tail, rfl⟩ : ∃ tail, rest = arg :: tail := by
      exact exists_eq_cons ha
    cases h
    have hreads : ReadsAs [opcode, arg] (.counted opcode arg) := by
      intro pos rest
      simp [readInstr, hclass]
    refine ⟨⟨.counted opcode arg, 2, .plain [opcode, arg]⟩, ⟨Nat.le_succ 1, trivial, Nat.le_refl 2,
      .counted opcode arg, hreads, rfl, .same _ rfl fun _ h => by cases h⟩, ?_⟩
    rw [put_writeInt8, byte_of_le hale]
    exact turn_plain (v := s.varbindCount) (by simp [hptr, readInstr, hclass]) (by simp [hptr]) rfl
  | constant =>
    rw [hclass] at h
    have hsmall : opcode - Bconstant ≤ ucharMax - Bconstant := Nat.sub_le_sub_right hle _
    refine turn_constant (n := 0) (Nat.lt_of_le_of_lt hsmall (by decide))
      (by simp [hptr, readInstr, hclass]) (by simp [hptr]) ?_ (writeConstant_spec h)
    rw [constantBytes, if_pos hsmall]
    exact Nat.le_refl 1
  | simple =>
    rw [hclass] at h
    obtain ⟨_, -, h⟩ := bind_eq_ok.mp h
    cases h
    have hreads : ReadsAs [opcode] (.simple opcode) := by
      intro pos rest
      simp [readInstr, hclass]
    refine ⟨⟨.simple opcode, 1, .plain [opcode]⟩, ⟨Nat.le_refl 1, trivial, Nat.le_refl 1,
      .simple opcode, hreads, rfl, .same _ rfl fun _ h => by cases h⟩, ?_⟩
    exact turn_plain (v := s.varbindCount) (by simp [hptr, readInstr, hclass]) (by simp [hptr]) rfl
  | invalid =>
    rw [hclass] at h
    obtain ⟨_, hcheck, h⟩ := bind_eq_ok.mp h
    have hinvalid : opcode < 0o010 ∨ opcode = 0o251 ∨ (opcode > Bassq ∧ opcode < Bconstant) :=
      (hclass ▸ classify_describes opcode :)
    rw [checkOpcode, if_pos hinvalid] at hcheck
    cases hcheck

end Translation

/-! ### The whole loop -/

/-- The instructions of the pieces, in the source from `pos` on. -/
def sourceOf : Nat → List Piece → List (Nat × Instr)
  | _, [] => []
  | pos, p :: ps => (pos, p.instr) :: sourceOf (pos + p.size) ps

/-- The values of `icounts` for the pieces, in the program from `base` on. -/
def countsOf : Nat → List Piece → List Nat
  | _, [] => []
  | base, p :: ps => p.counts base ++ countsOf (base + p.item.bytes.length) ps

/-- The entries of the table of jumps for the pieces, in the source from `pos` on. -/
def entriesOf : Nat → List Piece → List (Nat × Int)
  | _, [] => []
  | pos, p :: ps => p.instr.entry pos ++ entriesOf (pos + p.size) ps

def sizeOf (ps : List Piece) : Nat := (ps.map Piece.size).sum

theorem Piece.Good.length_counts {constants : List Constant} {p : Piece}
    (hp : p.Good constants) (base : Nat) : (p.counts base).length = p.size := by
  rw [counts, length_cons, length_replicate, Nat.sub_add_cancel hp.pos]

namespace Translation

variable {s s' : Translation} {constants : List Constant}

/-- **The first loop**: the source is read to its end, and the pieces account for what the
loop leaves behind. -/
theorem translate_spec {fuel : Nat} (h : translate constants fuel s = .ok s') :
    ∃ ps : List Piece, (∀ p ∈ ps, p.Good constants) ∧
      readAll sourceFormat 1 fuel s.icounts.length s.ptr = some (sourceOf s.icounts.length ps) ∧
      sizeOf ps ≤ s.ptr.length ∧
      s'.icounts = s.icounts ++ countsOf s.program.length ps ∧
      s'.program = s.program ++ bytesOf (ps.map Piece.item) ∧
      s'.jumps = s.jumps ++ entriesOf s.icounts.length ps := by
  induction fuel generalizing s with
  | zero => cases h
  | succ fuel ih =>
    rw [translate] at h
    rw [readAll]
    split at h
    · rename_i hend
      cases h
      exact ⟨[], nofun, if_pos hend, Nat.zero_le _, (append_nil _).symm,
        (append_nil _).symm, (append_nil _).symm⟩
    · rename_i hend
      obtain ⟨s₁, hs₁, h⟩ := bind_eq_ok.mp h
      obtain ⟨p, hp, hturn⟩ := translateInstruction_spec hs₁
      obtain ⟨ps, hps, hread, hsize, hicounts, hprogram, hjumps⟩ := ih h
      have hpos : s₁.icounts.length = s.icounts.length + p.size := by
        rw [hturn.icounts, length_append, hp.length_counts]
      have hbase : s₁.program.length = s.program.length + p.item.bytes.length := by
        rw [hturn.program, length_append]
      rw [hpos, hturn.ptr] at hread
      rw [hbase, hturn.icounts, append_assoc] at hicounts
      rw [hturn.program, append_assoc] at hprogram
      rw [hpos, hturn.jumps, append_assoc] at hjumps
      refine ⟨p :: ps, List.forall_mem_cons.mpr ⟨hp, hps⟩, ?_, ?_, hicounts, hprogram, hjumps⟩
      · rw [if_neg hend, hturn.read, Option.bind_some]
        exact congrArg (Option.map _) hread
      · rw [hturn.ptr, length_drop] at hsize
        rw [sizeOf, map_cons, sum_cons, ← sizeOf]
        have hfits := hturn.fits
        omega

/-! ### The first loop comes to an end -/

theorem readInstructionChar_ne_outOfFuel (s : Translation) :
    s.readInstructionChar ≠ .error .outOfFuel := by
  rw [readInstructionChar]
  split
  · rintro ⟨⟩
  · split <;> rintro ⟨⟩

theorem readOperand2_ne_outOfFuel (s : Translation) : s.readOperand2 ≠ .error .outOfFuel :=
  ne_outOfFuel_bind (readInstructionChar_ne_outOfFuel s) fun _ =>
    ne_outOfFuel_bind (readInstructionChar_ne_outOfFuel _) fun _ => nofun

theorem readNargs_ne_outOfFuel (s : Translation) (group : Nargs) (opcode : Nat) :
    s.readNargs group opcode ≠ .error .outOfFuel := by
  rw [readNargs]
  split
  · exact readOperand2_ne_outOfFuel s
  · split
    · exact readInstructionChar_ne_outOfFuel s
    · rintro ⟨⟩

theorem checkConstantsIndex_ne_outOfFuel (arg : Nat) (constants : List Constant) :
    checkConstantsIndex arg constants ≠ .error .outOfFuel := by
  rw [checkConstantsIndex]
  split <;> rintro ⟨⟩

theorem writeConstant_ne_outOfFuel (s : Translation) (constants : List Constant) (arg : Nat) :
    s.writeConstant constants arg ≠ .error .outOfFuel := by
  refine ne_outOfFuel_bind (checkConstantsIndex_ne_outOfFuel _ _) fun _ => ?_
  split <;> rintro ⟨⟩

theorem doNargs_ne_outOfFuel (s : Translation) (constants : List Constant) (group : Nargs)
    (arg : Nat) : s.doNargs constants group arg ≠ .error .outOfFuel := by
  cases group with
  | varref | varset | varbind =>
    refine ne_outOfFuel_bind (checkConstantsIndex_ne_outOfFuel _ _) fun val => ?_
    cases val <;> rintro ⟨⟩
  | call | unbind => rintro ⟨⟩

theorem doJump_ne_outOfFuel (s : Translation) (short long : Nat) (arg : Int) (argsize : Nat) :
    s.doJump short long arg argsize ≠ .error .outOfFuel := by
  simp only [doJump]
  split
  · rintro ⟨⟩
  · split <;> rintro ⟨⟩

theorem translateInstruction_ne_outOfFuel (s : Translation) (constants : List Constant) :
    s.translateInstruction constants ≠ .error .outOfFuel := by
  refine ne_outOfFuel_bind (readInstructionChar_ne_outOfFuel s) fun ⟨opcode, s⟩ => ?_
  simp only
  cases classify opcode with
  | nargs group =>
    exact ne_outOfFuel_bind (readNargs_ne_outOfFuel _ _ _) fun _ => doNargs_ne_outOfFuel _ _ _ _
  | goto condition =>
    exact ne_outOfFuel_bind (readOperand2_ne_outOfFuel _) fun _ => doJump_ne_outOfFuel _ _ _ _ _
  | rgoto condition =>
    exact ne_outOfFuel_bind (readInstructionChar_ne_outOfFuel _) fun _ => doJump_ne_outOfFuel _ _ _ _ _
  | constant2 =>
    exact ne_outOfFuel_bind (readOperand2_ne_outOfFuel _) fun _ => writeConstant_ne_outOfFuel _ _ _
  | counted => exact ne_outOfFuel_bind (readInstructionChar_ne_outOfFuel _) fun _ => nofun
  | constant => exact writeConstant_ne_outOfFuel _ _ _
  | simple | invalid => exact ne_outOfFuel_bind (checkOpcode_ne_outOfFuel _) fun _ => nofun

theorem translate_ne_outOfFuel {fuel : Nat} (hpos : 0 < fuel) (hfuel : s.ptr.length ≤ fuel) :
    translate constants fuel s ≠ .error .outOfFuel := by
  induction fuel generalizing s with
  | zero => exact absurd hpos (Nat.lt_irrefl 0)
  | succ fuel ih =>
    intro h
    rw [translate] at h
    split at h
    · cases h
    · rename_i hend
      obtain h | ⟨s₁, hs₁, h⟩ := bind_eq_error.mp h
      · exact translateInstruction_ne_outOfFuel s constants h
      · obtain ⟨p, hp, hturn⟩ := translateInstruction_spec hs₁
        have hsize := hp.pos
        have hptr : s₁.ptr.length = s.ptr.length - p.size := by
          rw [hturn.ptr, length_drop]
        exact ih (by omega) (by omega) h

end Translation

end XEmacs.Bytecode

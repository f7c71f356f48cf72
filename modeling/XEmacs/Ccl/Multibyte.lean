import XEmacs.Ccl.Driver

/-!
# Reading a character and writing it

`CCL_ReadMultibyteChar2` takes a character apart into the leading byte of its charset and its
position codes, `CCL_WriteMultibyteChar2` puts it together again.
-/

namespace XEmacs.Ccl

open XEmacs.Coding Machines List Function

variable {charsets : Charsets} {ch : Mchar} {env : Setting} {r rr : Fin 8} {reg : Registers}

/-! ## Fields of an `int` -/

theorem shiftLeft_or {a b k : ℕ} (hb : b < 2 ^ k) (h : a * 2 ^ k + b < 2 ^ 32) :
    (BitVec.ofNat 32 a <<< k) ||| BitVec.ofNat 32 b = BitVec.ofNat 32 (a * 2 ^ k + b) := by
  have ha : a < 2 ^ 32 := by
    have := Nat.le_mul_of_pos_right a (Nat.two_pow_pos k)
    omega
  have hb' : b < 2 ^ 32 := by omega
  have hshift : a <<< k < 2 ^ 32 := by
    rw [Nat.shiftLeft_eq]
    omega
  rw [← BitVec.toNat_inj, BitVec.toNat_or, BitVec.toNat_shiftLeft, BitVec.toNat_ofNat,
    BitVec.toNat_ofNat, BitVec.toNat_ofNat, Nat.mod_eq_of_lt ha, Nat.mod_eq_of_lt hb',
    Nat.mod_eq_of_lt hshift, Nat.mod_eq_of_lt h, ← Nat.shiftLeft_add_eq_or_of_lt hb,
    Nat.shiftLeft_eq]

theorem and_mask {b : ℕ} (k : ℕ) (hk : k < 32) :
    BitVec.ofNat 32 b &&& BitVec.ofNat 32 (2 ^ k - 1) = BitVec.ofNat 32 (b % 2 ^ k) := by
  have hpow : 2 ^ k < 2 ^ 32 := Nat.pow_lt_pow_right (by decide) hk
  have hmod : b % 2 ^ k < 2 ^ k := Nat.mod_lt _ (Nat.two_pow_pos k)
  rw [← BitVec.toNat_inj, BitVec.toNat_and, BitVec.toNat_ofNat, BitVec.toNat_ofNat,
    BitVec.toNat_ofNat, Nat.mod_eq_of_lt (a := 2 ^ k - 1) (by omega),
    Nat.and_two_pow_sub_one_eq_mod, Nat.mod_mod_of_dvd _ (Nat.pow_dvd_pow 2 hk.le),
    Nat.mod_eq_of_lt (hmod.trans hpow)]

theorem byte_and_0x7F {c : ℕ} (hc : c < 128) :
    BitVec.ofNat 32 (c + 0x80) &&& 0x7F = BitVec.ofNat 32 c := by
  have hmask := and_mask (b := c + 0x80) 7 (by decide)
  have hmod : (c + 0x80) % 2 ^ 7 = c := by omega
  rw [hmod] at hmask
  exact hmask

theorem ofNat_sub {a b : ℕ} (hle : b ≤ a) (ha : a < 2 ^ 32) :
    BitVec.ofNat 32 a - BitVec.ofNat 32 b = BitVec.ofNat 32 (a - b) :=
  BitVec.ofNat_sub_ofNat_of_le a b (by omega) hle

theorem ofNat_inj {a b : ℕ} (ha : a < 2 ^ 32) (hb : b < 2 ^ 32) :
    BitVec.ofNat 32 a = BitVec.ofNat 32 b ↔ a = b := by
  rw [← BitVec.toNat_inj, BitVec.toNat_ofNat, BitVec.toNat_ofNat, Nat.mod_eq_of_lt ha,
    Nat.mod_eq_of_lt hb]

/-! ## Reading -/

/-- The position codes as `CCL_ReadMultibyteChar2` puts them into a register. -/
def positionCode (ch : Mchar) : ℕ :=
  if ch.charset.dimension = 1 then ch.c1 else ch.c1 * 128 + ch.c2

/-- A character that is there as a whole is read into the two registers. -/
theorem readMultibyteChar2_bytes (reg : Registers) (hch : ch.Valid charsets) (hr : r ≠ rr)
    (rest : List ℕ) :
    ∃ reg', readMultibyteChar2 r rr reg (ch.bytes ++ rest) = some (reg', rest) ∧
      reg' rr = BitVec.ofNat 32 ch.charset.leadingByte ∧
      reg' r = BitVec.ofNat 32 (positionCode ch) := by
  have hset : ∀ lb code : CInt,
      Function.update (Function.update reg rr lb) r code rr = lb ∧
        Function.update (Function.update reg rr lb) r code r = code := by
    intro lb code
    rw [update_of_ne hr.symm, update_self, update_self]
    exact ⟨rfl, rfl⟩
  cases hch.shape with
  | ascii lb rep dim h1 h2 hbytes hemchar =>
    rw [hbytes, positionCode, if_pos dim, lb]
    simp only [cons_append, nil_append, readMultibyteChar2, if_pos h1]
    refine ⟨_, rfl, update_self .., ?_⟩
    rw [update_of_ne hr, update_self]
  | control1 lb rep dim h1 h2 hbytes hemchar =>
    rw [hbytes, positionCode, if_pos dim, lb]
    refine ⟨_, rfl, (hset _ _).1, (hset _ _).2.trans ?_⟩
    have hsub := ofNat_sub (a := ch.c1 + 0xA0) (b := 0xA0) (by omega) (by omega)
    rw [Nat.add_sub_cancel] at hsub
    exact hsub
  | official1 lo hi rep dim lo1 hi1 h2 hbytes hemchar =>
    have hascii : ¬ ch.charset.leadingByte < 0x80 := by omega
    have hcontrol : ch.charset.leadingByte ≠ 0x8F := by omega
    rw [hbytes, positionCode, if_pos dim]
    simp only [cons_append, nil_append, readMultibyteChar2, if_neg hascii,
      if_neg hcontrol, if_pos hi]
    exact ⟨_, rfl, (hset _ _).1, (hset _ _).2.trans (byte_and_0x7F (by omega))⟩
  | official2 lo hi rep dim lo1 hi1 lo2 hi2 hbytes hemchar =>
    have hascii : ¬ ch.charset.leadingByte < 0x80 := by omega
    have hcontrol : ch.charset.leadingByte ≠ 0x8F := by omega
    have hofficial1 : ¬ ch.charset.leadingByte ≤ 0x8C := by omega
    have hdim : ch.charset.dimension ≠ 1 := by omega
    rw [hbytes, positionCode, if_neg hdim]
    simp only [cons_append, nil_append, readMultibyteChar2, if_neg hascii,
      if_neg hcontrol, if_neg hofficial1, if_pos hi]
    refine ⟨_, rfl, (hset _ _).1, (hset _ _).2.trans ?_⟩
    rw [byte_and_0x7F (by omega), byte_and_0x7F (by omega)]
    exact shiftLeft_or (k := 7) (by omega) (by omega)
  | private1 lo hi rep dim lo1 hi1 h2 hbytes hemchar =>
    rw [hbytes, positionCode, if_pos dim]
    exact ⟨_, rfl, (hset _ _).1, (hset _ _).2.trans (byte_and_0x7F (by omega))⟩
  | private2 lo hi rep dim lo1 hi1 lo2 hi2 hbytes hemchar =>
    have hdim : ch.charset.dimension ≠ 1 := by omega
    rw [hbytes, positionCode, if_neg hdim]
    refine ⟨_, rfl, (hset _ _).1, (hset _ _).2.trans ?_⟩
    rw [byte_and_0x7F (by omega), byte_and_0x7F (by omega)]
    exact shiftLeft_or (k := 7) (by omega) (by omega)

theorem readMultibyteChar2_append {src left : List ℕ} {reg' : Registers}
    (h : readMultibyteChar2 r rr reg src = some (reg', left)) (rest : List ℕ) :
    readMultibyteChar2 r rr reg (src ++ rest) = some (reg', left ++ rest) := by
  cases src with
  | nil => cases h
  | cons i src =>
    simp only [cons_append, readMultibyteChar2] at h ⊢
    split_ifs at h ⊢
    · cases h
      rfl
    · cases src with
      | nil => cases h
      | cons b src =>
        cases h
        rfl
    · cases src with
      | nil => cases h
      | cons b src =>
        cases h
        rfl
    · cases src with
      | nil => cases h
      | cons b src =>
        cases src with
        | nil => cases h
        | cons b' src =>
          cases h
          rfl
    · cases src with
      | nil => cases h
      | cons b src =>
        cases src with
        | nil => cases h
        | cons b' src =>
          cases h
          rfl
    · cases src with
      | nil => cases h
      | cons b src =>
        cases src with
        | nil => cases h
        | cons b' src =>
          cases src with
          | nil => cases h
          | cons b'' src =>
            cases h
            rfl
    · cases h
      rfl

theorem readMultibyteChar2_cut (hch : ch.Valid charsets) (hr : r ≠ rr) {part : List ℕ}
    (hpart : part <+: ch.bytes) (hne : part ≠ ch.bytes) :
    readMultibyteChar2 r rr reg part = none := by
  obtain ⟨rest, hrest⟩ := hpart
  obtain ⟨reg₁, hwhole, -⟩ := readMultibyteChar2_bytes reg hch hr []
  cases hread : readMultibyteChar2 r rr reg part with
  | none => rfl
  | some result =>
    obtain ⟨reg₂, left⟩ := result
    have happend := readMultibyteChar2_append hread rest
    rw [append_nil, ← hrest, happend, Option.some.injEq, Prod.mk.injEq] at hwhole
    have hnil := (List.append_eq_nil_iff.mp hwhole.2).2
    rw [hnil, append_nil] at hrest
    exact absurd hrest hne

/-! ## Writing -/

theorem possibleLeadingByteP_iff {lb : ℕ} (hlb : lb < 256) :
    possibleLeadingByteP (BitVec.ofNat 32 lb) = true ↔ 0x80 < lb := by
  have h80 : (0x80 : CInt).toInt = 128 := by decide
  have hsub : (BitVec.ofNat 32 lb - 0x80).toInt = (lb : ℤ) - 128 := by
    rw [BitVec.toInt_sub, toInt_byte hlb, h80]
    exact Int.bmod_eq_of_le_mul_two (by omega) (by omega)
  rw [possibleLeadingByteP, Bool.and_eq_true, BitVec.slt_eq_decide, BitVec.slt_eq_decide,
    toInt_byte hlb, hsub, h80, decide_eq_true_eq, decide_eq_true_eq]
  omega

theorem byte_sle_0x98 {lb : ℕ} (hlb : lb < 256) :
    (BitVec.ofNat 32 lb).sle 0x98 = true ↔ lb ≤ 0x98 := by
  have h98 : (0x98 : CInt).toInt = 152 := by decide
  rw [BitVec.sle_eq_decide, toInt_byte hlb, h98, decide_eq_true_eq]
  omega

theorem multibyteChar_charset (hch : ch.Valid charsets) {lb : ℕ}
    (hlb : ch.charset.leadingByte = lb) (hlo : 0x80 < lb) (hhi : lb < 256) (hascii : lb ≠ 0x8E)
    (hcontrol : lb ≠ 0x8F) (x : CInt) :
    multibyteChar charsets (BitVec.ofNat 32 lb) x =
      if ch.charset.dimension = 1 then (BitVec.ofNat 32 (lb - 0x80) <<< 7) ||| (x &&& 0x7F)
      else if lb ≤ 0x98 then ((BitVec.ofNat 32 lb - 0x8F) <<< 14) ||| x
      else ((BitVec.ofNat 32 lb - 0xE1) <<< 14) ||| x := by
  have hascii' : BitVec.ofNat 32 lb ≠ 0x8E :=
    fun h => hascii ((ofNat_inj (by omega) (by omega)).mp h)
  have hcontrol' : BitVec.ofNat 32 lb ≠ 0x8F :=
    fun h => hcontrol ((ofNat_inj (by omega) (by omega)).mp h)
  have hlookup := Charsets.byLeadingByte_eq hch.defined
  rw [multibyteChar, if_neg hascii', if_neg hcontrol',
    if_pos ((possibleLeadingByteP_iff hhi).mpr hlo), toNat_byte hhi, ← hlb, hlookup]
  simp only [hlb, byte_sle_0x98 hhi]
  rw [← ofNat_sub hlo.le (by omega)]
  rfl

/-- The character that is written for a charset and position codes of it. -/
theorem multibyteChar_positionCode (hch : ch.Valid charsets)
    (hcontrol : ch.charset.leadingByte ≠ 0x8F) :
    multibyteChar charsets (BitVec.ofNat 32 ch.charset.leadingByte)
      (BitVec.ofNat 32 (positionCode ch)) = BitVec.ofNat 32 ch.emchar := by
  cases hch.shape with
  | ascii lb rep dim h1 h2 hbytes hemchar =>
    have hmask := and_mask (b := ch.c1) 8 (by decide)
    have hmod : ch.c1 % 2 ^ 8 = ch.c1 := by omega
    rw [hmod] at hmask
    rw [hemchar, positionCode, if_pos dim, lb]
    exact hmask
  | control1 lb rep dim h1 h2 hbytes hemchar => exact absurd lb hcontrol
  | official1 lo hi rep dim lo1 hi1 h2 hbytes hemchar =>
    have hmask := and_mask (b := ch.c1) 7 (by decide)
    have hmod : ch.c1 % 2 ^ 7 = ch.c1 := by omega
    rw [hmod] at hmask
    rw [multibyteChar_charset hch rfl (by omega) (by omega) (by omega) hcontrol, if_pos dim,
      positionCode, if_pos dim, hemchar]
    refine (congrArg _ hmask).trans ?_
    exact shiftLeft_or (k := 7) (by omega) (by omega)
  | official2 lo hi rep dim lo1 hi1 lo2 hi2 hbytes hemchar =>
    have hdim : ch.charset.dimension ≠ 1 := by omega
    have hsub : BitVec.ofNat 32 ch.charset.leadingByte - (0x8F : CInt) =
        BitVec.ofNat 32 (ch.charset.leadingByte - 0x8F) :=
      ofNat_sub (b := 0x8F) (by omega) (by omega)
    rw [multibyteChar_charset hch rfl (by omega) (by omega) (by omega) hcontrol, if_neg hdim,
      if_pos hi, positionCode, if_neg hdim, hemchar, Nat.add_assoc, hsub]
    exact shiftLeft_or (k := 14) (by omega) (by omega)
  | private1 lo hi rep dim lo1 hi1 h2 hbytes hemchar =>
    have hmask := and_mask (b := ch.c1) 7 (by decide)
    have hmod : ch.c1 % 2 ^ 7 = ch.c1 := by omega
    rw [hmod] at hmask
    rw [multibyteChar_charset hch rfl (by omega) (by omega) (by omega) hcontrol, if_pos dim,
      positionCode, if_pos dim, hemchar]
    refine (congrArg _ hmask).trans ?_
    exact shiftLeft_or (k := 7) (by omega) (by omega)
  | private2 lo hi rep dim lo1 hi1 lo2 hi2 hbytes hemchar =>
    have hdim : ch.charset.dimension ≠ 1 := by omega
    have hofficial : ¬ ch.charset.leadingByte ≤ 0x98 := by omega
    have hsub : BitVec.ofNat 32 ch.charset.leadingByte - (0xE1 : CInt) =
        BitVec.ofNat 32 (ch.charset.leadingByte - 0xE1) :=
      ofNat_sub (b := 0xE1) (by omega) (by omega)
    rw [multibyteChar_charset hch rfl (by omega) (by omega) (by omega) hcontrol, if_neg hdim,
      if_neg hofficial, positionCode, if_neg hdim, hemchar, Nat.add_assoc, hsub]
    exact shiftLeft_or (k := 14) (by omega) (by omega)

theorem multibyteChar_control1 (hch : ch.Valid charsets)
    (hcontrol : ch.charset.leadingByte = 0x8F) :
    multibyteChar charsets (BitVec.ofNat 32 ch.charset.leadingByte)
      (BitVec.ofNat 32 (positionCode ch)) ≠ BitVec.ofNat 32 ch.emchar := by
  cases hch.shape with
  | control1 lb rep dim h1 h2 hbytes hemchar =>
    have hmask : BitVec.ofNat 32 ch.c1 &&& 0xFF = BitVec.ofNat 32 (ch.c1 % 2 ^ 8) :=
      and_mask 8 (by decide)
    have hmod : ch.c1 % 2 ^ 8 = ch.c1 := by omega
    rw [hmod] at hmask
    rw [hemchar, positionCode, if_pos dim, lb]
    intro h
    have hwritten : (BitVec.ofNat 32 ch.c1 &&& 0xFF) - 0xA0 = BitVec.ofNat 32 (0x80 + ch.c1) := h
    rw [hmask, ← BitVec.toNat_inj, BitVec.toNat_sub, BitVec.toNat_ofNat, BitVec.toNat_ofNat] at hwritten
    have hnum : (0xA0 : CInt).toNat = 160 := by decide
    rw [hnum] at hwritten
    omega
  | ascii lb | official1 | official2 | private1 | private2 => omega

/-! ## A read and a write -/

/-- The codes of the two instructions with the same registers. -/
structure MultibyteCode (code : CInt) (excmd : CInt) (r rr : Fin 8) : Prop where
  command : code &&& 0x1F = 0x1F
  excmd : opOf code = excmd
  rrr : rrr code = r
  RRR : RRR code = rr

/-- What `CCL_WriteMultibyteChar2` hands to `CCL_WRITE_CHAR` for the registers `r` and `rr`. -/
def handed (charsets : Charsets) (c : Core) (r rr : Fin 8) : CInt :=
  multibyteChar charsets (c.reg rr) (c.reg r)

theorem execute_read {prog : Program} {c : Core} {code : CInt} (hlabel : c.label = .cclRepeat)
    (hcode : intAt prog c.ic = .ok code) (hread : MultibyteCode code 0 r rr) :
    c.execute env prog =
      .ok (.readMultibyteChar2 { c with code, thisIc := c.ic, ic := c.ic + 1 }) := by
  have hdispatch : Core.dispatch env prog { c with code, thisIc := c.ic, ic := c.ic + 1 } =
      .ok (.readMultibyteChar2 { c with code, thisIc := c.ic, ic := c.ic + 1 }) := by
    rw [Core.dispatch]
    simp only [hread.command, hread.excmd]
    rfl
  rw [← hdispatch, Core.execute]
  simp only [hlabel, hcode]
  rfl

theorem step_read {e : Setting} {m : Machine} {code : CInt} (hlabel : m.core.label = .cclRepeat)
    (hcode : intAt m.prog m.core.ic = .ok code) (hread : MultibyteCode code 0 r rr) :
    step e m = m.readMultibyteChar2 e
      { m.core with code, thisIc := m.core.ic, ic := m.core.ic + 1 } := by
  rw [step, execute_read hlabel hcode hread]
  rfl

variable (env) in
/-- What a read of the character `ch` is to do, whatever bytes there are: it is there for a write
from the same registers, and where the bytes end inside of it the program is suspended, without a
change of the registers and of the bytes. -/
structure ReadsBack (m : Machine) (r rr : Fin 8) (ch : Mchar) : Prop where
  whole : ∀ rest, ∃ m', step env { m with src := some (ch.bytes ++ rest) } = .ok (.next m') ∧
    m'.src = some rest ∧ handed env.out.charsets m'.core r rr = BitVec.ofNat 32 ch.emchar
  cut : ∀ part, part <+: ch.bytes → part ≠ ch.bytes →
    ∃ m', step env { m with src := some part } = .ok (.done (.suspendBySrc, m')) ∧
      m'.src = some part ∧ m'.core.reg = m.core.reg

/-- **CCL reads back the character it read**, for every character of a defined charset and in every
state that is about to read it into two registers, exactly if the character is not of Control-1,
and the block, where it is to end inside of the character, is not the last one. -/
theorem readsBack_iff (hch : ch.Valid env.out.charsets) (hr : r ≠ rr) {m : Machine} {code : CInt}
    (hlabel : m.core.label = .cclRepeat) (hcode : intAt m.prog m.core.ic = .ok code)
    (hread : MultibyteCode code 0 r rr) :
    ReadsBack env m r rr ch ↔
      ch.charset.leadingByte ≠ leadingByteControl1 ∧ env.lastBlock = false := by
  have hwhole : ∀ rest, ∃ m', step env { m with src := some (ch.bytes ++ rest) } =
      .ok (.next m') ∧ m'.src = some rest ∧ handed env.out.charsets m'.core r rr =
        multibyteChar env.out.charsets (BitVec.ofNat 32 ch.charset.leadingByte)
          (BitVec.ofNat 32 (positionCode ch)) := by
    intro rest
    obtain ⟨reg', hbytes, hrr', hr'⟩ := readMultibyteChar2_bytes m.core.reg hch hr rest
    have hstep := step_read (e := env) (m := { m with src := some (ch.bytes ++ rest) })
      hlabel hcode hread
    rw [Machine.readMultibyteChar2] at hstep
    simp only [hread.rrr, hread.RRR, hbytes] at hstep
    exact ⟨_, hstep, rfl, congrArg₂ _ hrr' hr'⟩
  have hcut : ∀ part, part <+: ch.bytes → part ≠ ch.bytes → ∃ c, c.reg = m.core.reg ∧
      step env { m with src := some part } = Machine.atEnd env c { m with src := some part } := by
    intro part hpart hne
    have hstep := step_read (e := env) (m := { m with src := some part }) hlabel hcode hread
    rw [Machine.readMultibyteChar2] at hstep
    simp only [hread.rrr, hread.RRR, readMultibyteChar2_cut hch hr hpart hne] at hstep
    exact ⟨{ m.core with code, thisIc := m.core.ic, ic := m.core.ic + 1 }, rfl, hstep⟩
  constructor
  · intro h
    constructor
    · intro hcontrol
      obtain ⟨m₁, hstep₁, -, hhanded₁⟩ := hwhole []
      obtain ⟨m₂, hstep₂, -, hhanded₂⟩ := h.whole []
      rw [hstep₁] at hstep₂
      cases hstep₂
      exact multibyteChar_control1 hch hcontrol (hhanded₁.symm.trans hhanded₂)
    · have hne : ([] : List ℕ) ≠ ch.bytes := (bytes_ne_nil hch).symm
      obtain ⟨c₁, -, hstep₁⟩ := hcut [] List.nil_prefix hne
      obtain ⟨m₂, hstep₂, -⟩ := h.cut [] List.nil_prefix hne
      rw [hstep₁, Machine.atEnd] at hstep₂
      split_ifs at hstep₂ with hlast
      · cases hstep₂
      · exact Bool.not_eq_true _ ▸ hlast
  · rintro ⟨hcontrol, hlast⟩
    constructor
    · intro rest
      obtain ⟨m', hstep, hsrc, hhanded⟩ := hwhole rest
      exact ⟨m', hstep, hsrc, hhanded.trans (multibyteChar_positionCode hch hcontrol)⟩
    · intro part hpart hne
      obtain ⟨c, hreg, hstep⟩ := hcut part hpart hne
      have hend : Machine.atEnd env c { m with src := some part } =
          .ok (.done (.suspendBySrc,
            { m with core := { c with ic := c.ic - 1 }, src := some part })) := by
        rw [Machine.atEnd, hlast]
        rfl
      exact ⟨_, hstep.trans hend, rfl, hreg⟩

/-- The setting of a block that is not the last one. -/
def moreToCome : Setting where
  out := ⟨Charsets.initial, .decoding, .lf, fun _ => 0⟩
  tables := ⟨[], fun _ => none, [], 31⟩
  eofIc := 10
  lastBlock := false

/-- A program that is about to read a character into the registers 1 and 2. -/
def aboutToRead : Machine where
  core := ⟨fun _ => 0, 2, -1, 0, some [], .cclRepeat⟩
  prog := [1, 10, 0x23F]
  stack := []
  maps := ⟨[], 0⟩
  src := none

/-- The character 0xE9 of Latin-1. -/
def eAcute : Mchar := ⟨⟨0x81, 2, .type96, 1, 0x41, .leftToRight, none⟩, 0x69, 0⟩

/-- The first character of Control-1. -/
def firstControl1 : Mchar := ⟨⟨0x8F, 2, .type94, 1, 0, .leftToRight, none⟩, 0, 0⟩

theorem eAcute_readsBack : ReadsBack moreToCome aboutToRead 1 2 eAcute := by
  have hvalid : eAcute.Valid moreToCome.out.charsets := by
    refine ⟨by decide, ?_⟩
    rw [Mchar.Positions]
    decide
  have hcode : intAt aboutToRead.prog aboutToRead.core.ic = .ok 0x23F := rfl
  exact (readsBack_iff hvalid (by decide) rfl hcode ⟨rfl, rfl, rfl, rfl⟩).mpr ⟨by decide, rfl⟩

/-- The first character of Control-1, 0x80, comes back as -0xA0. -/
theorem control1_changed :
    firstControl1.Valid moreToCome.out.charsets ∧ firstControl1.emchar = 0x80 ∧
      (∃ m', step moreToCome { aboutToRead with src := some firstControl1.bytes } =
          .ok (.next m') ∧
        handed moreToCome.out.charsets m'.core 1 2 = -0xA0) ∧
      ¬ ReadsBack moreToCome aboutToRead 1 2 firstControl1 := by
  have hread : step moreToCome { aboutToRead with src := some [0x8F, 0xA0] } =
      .ok (.next { aboutToRead with
        core := ⟨Function.update (Function.update (fun _ => 0) 2 0x8F) 1 0, 3, 0x23F, 2,
          some [], .cclRepeat⟩
        src := some [] }) := by
    rfl
  refine ⟨⟨by decide, ?_⟩, rfl, ⟨_, hread, by decide⟩, fun h => ?_⟩
  · rw [Mchar.Positions]
    decide
  · obtain ⟨m', hstep, -, hhanded⟩ := h.whole []
    have hstep' : step moreToCome { aboutToRead with src := some [0x8F, 0xA0] } =
        .ok (.next m') := hstep
    rw [hread] at hstep'
    cases hstep'
    exact absurd hhanded (by decide)

end XEmacs.Ccl

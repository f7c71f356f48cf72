import XEmacs.Coding.ShiftJis

/-!
# Big5

Big5 has 94 rows of 157 characters.
-/

namespace XEmacs.Coding

open Transducer

abbrev leadingByteChineseBig5_1 : Nat := 0x97
abbrev leadingByteChineseBig5_2 : Nat := 0x98

/-- `BYTE_BIG5_TWO_BYTE_1_P` and `BYTE_BIG5_TWO_BYTE_2_P`. -/
def byteBig5TwoByte1P (c : Nat) : Bool := 0xA1 ≤ c ∧ c ≤ 0xFE

def byteBig5TwoByte2P (c : Nat) : Bool := (0x40 ≤ c ∧ c ≤ 0x7E) ∨ (0xA1 ≤ c ∧ c ≤ 0xFE)

def big5SameRow : Nat := 0xFF - 0xA1 + 0x7F - 0x40

/-- `I` in `DECODE_BIG5`. -/
def big5Number (b1 b2 : Nat) : Nat :=
  (b1 - 0xA1) * big5SameRow + b2 - if b2 < 0x7F then 0x40 else 0x62

/-- `DECODE_BIG5`: the leading byte and two position codes. -/
def decodeBig5 (b1 b2 : Nat) : List Nat :=
  if b1 < 0xC9 then
    let i := big5Number b1 b2
    [leadingByteChineseBig5_1, i / (0xFF - 0xA1) + 0xA1, i % (0xFF - 0xA1) + 0xA1]
  else
    let i := big5Number b1 b2 - big5SameRow * (0xC9 - 0xA1)
    [leadingByteChineseBig5_2, i / (0xFF - 0xA1) + 0xA1, i % (0xFF - 0xA1) + 0xA1]

/-- `ENCODE_BIG5`, for position codes from `0xA1` on. Two bytes are written. -/
def encodeBig5 (lb c1 c2 : Nat) : List Nat :=
  let i := (c1 - 0xA1) * (0xFF - 0xA1) + (c2 - 0xA1) +
    if lb = leadingByteChineseBig5_2 then big5SameRow * (0xC9 - 0xA1) else 0
  let b2 := i % big5SameRow
  [(i / big5SameRow + 0xA1) % 256, b2 + if b2 < 0x3F then 0x40 else 0x62]

/-- The loop body of `decode_coding_big5`. -/
def decodeBig5Step : EolType → DecodingStream → Nat → DecodingStream × List Nat :=
  decodeTwoByteStep byteBig5TwoByte1P decodeAddBinaryChar fun ch c =>
    if byteBig5TwoByte2P c then decodeBig5 ch c
    else decodeAddBinaryChar ch ++ decodeAddBinaryChar c

/-- The loop body of `encode_coding_big5`. -/
def encodeBig5Step (eol : EolType) (ch c : Nat) : Option (Nat × List Nat) :=
  if c = LF then some (0, encodeNewline eol)
  else if byteAsciiP c then some (0, [c])
  else if bufbyteLeadingByteP c then
    if c = leadingByteChineseBig5_1 ∨ c = leadingByteChineseBig5_2 then some (c, [])
    else some (0, [])
  else if ch = leadingByteChineseBig5_1 ∨ ch = leadingByteChineseBig5_2 then
    some (ch * 256 + c, [])
  else if ch ≠ 0 then some (0, encodeBig5 (ch / 256) (ch % 256) c)
  else some (0, [])

/-- `decode_coding_big5` and `encode_coding_big5`, called for each part. -/
def decodeCodingBig5 (eol : EolType) : List (List Nat) → List Nat :=
  decodeStream (decodeBig5Step eol)

def encodeCodingBig5 (eol : EolType) : List (List Nat) → Option (List Nat) :=
  encodeStream (encodeBig5Step eol)

/-- The characters of ASCII and those the decoder makes of two bytes. -/
def Mchar.Big5 (ch : Mchar) : Prop :=
  ch.charset.leadingByte = leadingByteAscii ∨
    ∃ b1 b2, byteBig5TwoByte1P b1 = true ∧ byteBig5TwoByte2P b2 = true ∧
      ch.bytes = decodeBig5 b1 b2

/-- The well-formed codes. -/
inductive Big5Code : List Nat → Prop where
  | ascii {c : Nat} : c < 0x80 → Big5Code [c]
  | twoByte {b1 b2 : Nat} : byteBig5TwoByte1P b1 = true → byteBig5TwoByte2P b2 = true →
    Big5Code [b1, b2]

/-! ### Two bytes and a character -/

theorem decodeBig5_spec {b1 b2 : Nat} (h1 : byteBig5TwoByte1P b1 = true)
    (h2 : byteBig5TwoByte2P b2 = true) :
    ∃ lb c1 c2, decodeBig5 b1 b2 = [lb, c1, c2] ∧ (lb = 0x97 ∨ lb = 0x98) ∧
      (0xA1 ≤ c1 ∧ c1 ≤ 0xFE) ∧ (0xA1 ≤ c2 ∧ c2 ≤ 0xFE) ∧ encodeBig5 lb c1 c2 = [b1, b2] := by
  simp only [byteBig5TwoByte1P, byteBig5TwoByte2P, decide_eq_true_eq] at h1 h2
  have hrow : big5SameRow = 157 := rfl
  -- the column of the character
  obtain ⟨column, hnumber, hlt, hb2⟩ : ∃ column,
      big5Number b1 b2 = (b1 - 0xA1) * 157 + column ∧ column < 157 ∧
        b2 = column + if column < 0x3F then 0x40 else 0x62 := by
    rw [big5Number, hrow]
    split_ifs with hlow
    · exact ⟨b2 - 0x40, by omega, by omega, by split_ifs <;> omega⟩
    · exact ⟨b2 - 0x62, by omega, by omega, by split_ifs <;> omega⟩
  have hencode : ∀ lb base i : Nat,
      base = (if lb = leadingByteChineseBig5_2 then 157 * (0xC9 - 0xA1) else 0) →
        base + i = (b1 - 0xA1) * 157 + column →
          encodeBig5 lb (i / (0xFF - 0xA1) + 0xA1) (i % (0xFF - 0xA1) + 0xA1) = [b1, b2] := by
    intro lb base i hbase hi
    have hsum : (i / (0xFF - 0xA1) + 0xA1 - 0xA1) * (0xFF - 0xA1) +
        (i % (0xFF - 0xA1) + 0xA1 - 0xA1) + base = (b1 - 0xA1) * 157 + column := by omega
    have hdiv : ((b1 - 0xA1) * 157 + column) / 157 = b1 - 0xA1 := by omega
    have hmod : ((b1 - 0xA1) * 157 + column) % 157 = column := by omega
    have hbyte : (b1 - 0xA1 + 0xA1) % 256 = b1 := by omega
    rw [encodeBig5, hrow, ← hbase, hsum, hdiv, hmod, hbyte, ← hb2]
  rw [decodeBig5, hnumber, hrow]
  split_ifs with hlevel
  · exact ⟨_, _, _, rfl, .inl rfl, by omega, by omega, hencode 0x97 0 _ rfl (Nat.zero_add _)⟩
  · exact ⟨_, _, _, rfl, .inr rfl, by omega, by omega,
      hencode 0x98 (157 * (0xC9 - 0xA1)) _ rfl (by omega)⟩

/-! ### Codes -/

section Codes

variable {eol : EolType} {charsets : Charsets}

theorem decodeBig5_handlesEol : HandlesEol (decodeBig5Step eol) eol := decodeTwoByte_handlesEol

theorem encodeBig5_ascii {c : Nat} (hc : c < 0x80) (hlf : c ≠ LF) :
    encodeBig5Step eol 0 c = some (0, [c]) := by
  have hascii : byteAsciiP c = true := by simpa [byteAsciiP] using hc
  rw [encodeBig5Step, if_neg hlf, if_pos hascii]

theorem encodeBig5_twoByte {lb c1 c2 : Nat} (hlb : lb = 0x97 ∨ lb = 0x98)
    (hc1 : 0xA1 ≤ c1 ∧ c1 ≤ 0xFE) (hc2 : 0xA1 ≤ c2 ∧ c2 ≤ 0xFE) :
    run (encodeBig5Step eol) 0 [lb, c1, c2] = some (0, encodeBig5 lb c1 c2) := by
  have hposition : ∀ {ch c : Nat}, 0xA1 ≤ c → encodeBig5Step eol ch c =
      if ch = leadingByteChineseBig5_1 ∨ ch = leadingByteChineseBig5_2 then
        some (ch * 256 + c, [])
      else if ch ≠ 0 then some (0, encodeBig5 (ch / 256) (ch % 256) c) else some (0, []) := by
    intro ch c hc
    have hlf : c ≠ LF := by
      rw [LF]
      omega
    have hascii : ¬ byteAsciiP c = true := by
      simp only [byteAsciiP, decide_eq_true_eq]
      omega
    have hleading : ¬ bufbyteLeadingByteP c = true := by
      simp only [bufbyteLeadingByteP, decide_eq_true_eq]
      omega
    rw [encodeBig5Step, if_neg hlf, if_neg hascii, if_neg hleading]
  have hlead : encodeBig5Step eol 0 lb = some (lb, []) := by
    obtain rfl | rfl := hlb <;> rfl
  have hboth : ¬ (lb * 256 + c1 = 0x97 ∨ lb * 256 + c1 = 0x98) ∧ lb * 256 + c1 ≠ 0 ∧
      (lb * 256 + c1) / 256 = lb ∧ (lb * 256 + c1) % 256 = c1 := by omega
  obtain ⟨hneither, hne, hdiv, hmod⟩ := hboth
  rw [run_cons, hlead, Option.bind_some, run_cons, hposition hc1.1, if_pos hlb, Option.bind_some,
    run_cons, hposition hc2.1, if_neg hneither, if_pos hne, hdiv, hmod]
  simp

theorem coded_big5Ascii {c : Nat} (hc : c < 0x80) (heol : c = CR → eol ≠ .cr) :
    Coded (decodeBig5Step eol) (encodeBig5Step eol) eol [c]
      (if c = LF then encodeNewline eol else [c]) := by
  have hfirst : byteBig5TwoByte1P c = false := by
    simp only [byteBig5TwoByte1P, decide_eq_false_iff_not]
    omega
  have hsingle : decodeAddBinaryChar c = [c] := by rw [decodeAddBinaryChar, if_pos hc]
  split_ifs with hlf
  · subst hlf
    refine decodeBig5_handlesEol.coded_newline (fun s hs hcr => ?_) (if_pos rfl)
    exact decodeTwoByte_single hs hcr (by decide) hfirst
  · by_cases hcr : c = CR
    · rw [hcr]
      exact decodeBig5_handlesEol.coded_cr (heol hcr) (encodeBig5_ascii (by decide) (by decide))
    · refine decodeBig5_handlesEol.coded hcr hlf (fun s hs hflag => ?_) ?_
      · rw [scan, decodeBig5Step, decodeTwoByte_single hs hflag hcr hfirst, hsingle]
        rfl
      · rw [run_cons, encodeBig5_ascii hc hlf]
        rfl

theorem coded_big5TwoByte {b1 b2 : Nat} (h1 : byteBig5TwoByte1P b1 = true)
    (h2 : byteBig5TwoByte2P b2 = true) :
    Coded (decodeBig5Step eol) (encodeBig5Step eol) eol (decodeBig5 b1 b2) [b1, b2] := by
  have hrange : 0xA1 ≤ b1 ∧ b1 ≤ 0xFE := by simpa [byteBig5TwoByte1P] using h1
  have hcr : b1 ≠ CR := by
    rw [CR]
    omega
  obtain ⟨lb, c1, c2, hdecode, hlb, hc1, hc2, hencode⟩ := decodeBig5_spec h1 h2
  refine decodeBig5_handlesEol.coded hcr (by rw [LF]; omega) (fun s hs hflag => ?_) ?_
  · rw [decodeBig5Step, scan_decodeTwoByte hs hflag hcr (by omega) h1, if_pos h2]
  · rw [hdecode, encodeBig5_twoByte hlb hc1 hc2, hencode]

theorem Big5Code.coded {code : List Nat} (hcode : Big5Code code) :
    ∃ text, Coded (decodeBig5Step .lf) (encodeBig5Step .lf) .lf text code := by
  cases hcode with
  | @ascii c hc =>
    have hcoded : Coded (decodeBig5Step .lf) (encodeBig5Step .lf) .lf [c] _ :=
      coded_big5Ascii hc fun _ => by decide
    by_cases hlf : c = LF
    · rw [if_pos hlf] at hcoded
      rw [hlf] at hcoded ⊢
      exact ⟨_, hcoded⟩
    · rw [if_neg hlf] at hcoded
      exact ⟨_, hcoded⟩
  | twoByte h1 h2 => exact ⟨_, coded_big5TwoByte h1 h2⟩

theorem Mchar.Big5.coded {ch : Mchar} (hbig5 : ch.Big5) (hch : ch.Valid charsets)
    (heol : eol ≠ .cr) :
    ∃ code, Coded (decodeBig5Step eol) (encodeBig5Step eol) eol ch.bytes code := by
  obtain hascii | ⟨b1, b2, h1, h2, hbytes⟩ := hbig5
  · obtain ⟨hc1, hbytes⟩ := hch.ascii hascii
    rw [hbytes]
    exact ⟨_, coded_big5Ascii hc1 fun _ => heol⟩
  · rw [hbytes]
    exact ⟨_, coded_big5TwoByte h1 h2⟩

theorem big5_exactOn : ExactOn decodeCodingBig5 encodeCodingBig5 Mchar.Big5 Big5Code :=
  exactOn_of_coded (fun _ => decodeTwoByte_keepsEnd)
    (fun _ _ _ hch hbig5 heol => hbig5.coded hch heol) fun _ => Big5Code.coded

end Codes

/-- **Shift-JIS and Big5** are exact on their repertoires. -/
theorem sjis_big5_exactOn :
    ExactOn decodeCodingSjis encodeCodingSjis Mchar.Sjis SjisCode ∧
      ExactOn decodeCodingBig5 encodeCodingBig5 Mchar.Big5 Big5Code :=
  ⟨sjis_exactOn, big5_exactOn⟩

/-- The codes `82 A0` and `A4 40`, in two parts each. -/
theorem sjis_big5_exactOn_codes :
    encodeCodingSjis .lf [[0x92, 0xA4], [0xA2]] = some [0x82, 0xA0] ∧
      encodeCodingBig5 .lf [[0x97, 0xA6], [0xA2]] = some [0xA4, 0x40] :=
  ⟨sjis_big5_exactOn.1.encode_decode [[0x82, 0xA0]]
      (List.forall_mem_singleton.mpr (.twoByte (by decide) (by decide))) [[0x82], [0xA0]] _
      (by decide) (by decide),
    sjis_big5_exactOn.2.encode_decode [[0xA4, 0x40]]
      (List.forall_mem_singleton.mpr (.twoByte (by decide) (by decide))) [[0xA4], [0x40]] _
      (by decide) (by decide)⟩

/-- The Katakana charset has the position `0x60`, but its character comes back as one of
Latin-1. -/
theorem sjis_katakana_not_exactOn :
    ¬ ExactOn decodeCodingSjis encodeCodingSjis
      (fun ch => ch.charset.leadingByte = leadingByteAscii ∨
        ch.charset.leadingByte = leadingByteKatakanaJisx0201 ∨
        ch.charset.leadingByte = leadingByteJisx0208) SjisCode := by
  intro hexact
  have hkana : Mchar.Valid .initial
      ⟨⟨0x89, 2, .type94, 1, 0x49, .leftToRight, none⟩, 0x60, 0⟩ :=
    ⟨by decide, by simp [Mchar.Positions, Mchar.InRange, Charset.dimension, Charset.chars,
      CharsetType.dimension, CharsetType.chars, leadingByteAscii, leadingByteControl1]⟩
  obtain ⟨bytes, hbytes, hdecode⟩ := hexact.decode_encode (.inl rfl) [_]
    (List.forall_mem_singleton.mpr ⟨hkana, .inr (.inl rfl)⟩) [[0x89, 0xE0]] (by decide)
  have hknown : bytes = [0xE0] := Option.some.inj (hbytes.symm.trans (by decide))
  have hback := hdecode [[0xE0]] (by rw [hknown]; rfl)
  exact absurd hback (by decide)

end XEmacs.Coding

import XEmacs.Coding.Codecs

/-!
# Shift-JIS

A character of JIS X 0208 has two bytes, into which its position codes are divided and shifted;
the bytes `0xA1` to `0xDF` stand for the characters of JIS X 0201 Katakana.
-/

namespace XEmacs.Coding

open Transducer

abbrev leadingByteKatakanaJisx0201 : Nat := 0x89
abbrev leadingByteJisx0208_1978 : Nat := 0x90

/-- `BYTE_SJIS_TWO_BYTE_1_P`, `BYTE_SJIS_TWO_BYTE_2_P` and `BYTE_SJIS_KATAKANA_P`. -/
def byteSjisTwoByte1P (c : Nat) : Bool := (0x81 ≤ c ∧ c ≤ 0x9F) ∨ (0xE0 ≤ c ∧ c ≤ 0xEF)

def byteSjisTwoByte2P (c : Nat) : Bool := (0x40 ≤ c ∧ c ≤ 0x7E) ∨ (0x80 ≤ c ∧ c ≤ 0xFC)

def byteSjisKatakanaP (c : Nat) : Bool := 0xA1 ≤ c ∧ c ≤ 0xDF

def decodeSjis (sj1 sj2 : Nat) : List Nat :=
  if sj2 ≥ 0x9F then [sj1 * 2 - (if sj1 ≥ 0xE0 then 0xE0 else 0x60), sj2 + 2]
  else
    [sj1 * 2 - (if sj1 ≥ 0xE0 then 0xE1 else 0x61), sj2 + if sj2 ≥ 0x7F then 0x60 else 0x61]

/-- `ENCODE_SJIS`, for bytes that are not ASCII. -/
def encodeSjis (c1 c2 : Nat) : List Nat :=
  if c1 % 2 = 1 then
    [c1 / 2 + (if c1 < 0xDF then 0x31 else 0x71), c2 - if c2 ≥ 0xE0 then 0x60 else 0x61]
  else [c1 / 2 + (if c1 < 0xDF then 0x30 else 0x70), c2 - 2]

/-- The loop body of `decode_coding_sjis`. -/
def decodeSjisStep : EolType → DecodingStream → Nat → DecodingStream × List Nat :=
  decodeTwoByteStep byteSjisTwoByte1P
    (fun c =>
      if byteSjisKatakanaP c then [leadingByteKatakanaJisx0201, c] else decodeAddBinaryChar c)
    fun ch c =>
      if byteSjisTwoByte2P c then leadingByteJisx0208 :: decodeSjis ch c
      else decodeAddBinaryChar ch ++ decodeAddBinaryChar c

/-- The loop body of `encode_coding_sjis`. -/
def encodeSjisStep (eol : EolType) (ch c : Nat) : Option (Nat × List Nat) :=
  if c = LF then some (0, encodeNewline eol)
  else if byteAsciiP c then some (0, [c])
  else if bufbyteLeadingByteP c then
    some (if c = leadingByteKatakanaJisx0201 ∨ c = leadingByteJisx0208_1978 ∨
      c = leadingByteJisx0208 then c else 0, [])
  else if ch ≠ 0 then
    if ch = leadingByteKatakanaJisx0201 then some (0, [c])
    else if ch = leadingByteJisx0208_1978 ∨ ch = leadingByteJisx0208 then some (c, [])
    else some (0, encodeSjis ch c)
  else some (ch, [])

/-- `decode_coding_sjis` and `encode_coding_sjis`, called for each part. -/
def decodeCodingSjis (eol : EolType) : List (List Nat) → List Nat :=
  decodeStream (decodeSjisStep eol)

def encodeCodingSjis (eol : EolType) : List (List Nat) → Option (List Nat) :=
  encodeStream (encodeSjisStep eol)

/-- The characters of ASCII, of JIS X 0208, and of JIS X 0201 Katakana up to the position
`0x5F`. -/
def Mchar.Sjis (ch : Mchar) : Prop :=
  ch.charset.leadingByte = leadingByteAscii ∨
    (ch.charset.leadingByte = leadingByteKatakanaJisx0201 ∧ ch.c1 ≤ 0x5F) ∨
    ch.charset.leadingByte = leadingByteJisx0208

/-- The well-formed codes. -/
inductive SjisCode : List Nat → Prop where
  | ascii {c : Nat} : c < 0x80 → SjisCode [c]
  | katakana {c : Nat} : byteSjisKatakanaP c = true → SjisCode [c]
  | twoByte {b1 b2 : Nat} : byteSjisTwoByte1P b1 = true → byteSjisTwoByte2P b2 = true →
    SjisCode [b1, b2]

/-! ### Two bytes and two position codes -/

/-- The position codes of JIS X 0208 in a string. -/
def Jisx0208Positions (c1 c2 : Nat) : Prop := 0xA1 ≤ c1 ∧ c1 ≤ 0xFE ∧ 0xA1 ≤ c2 ∧ c2 ≤ 0xFE

theorem decodeSjis_spec {b1 b2 : Nat} (h1 : byteSjisTwoByte1P b1 = true)
    (h2 : byteSjisTwoByte2P b2 = true) :
    ∃ c1 c2, decodeSjis b1 b2 = [c1, c2] ∧ Jisx0208Positions c1 c2 ∧
      encodeSjis c1 c2 = [b1, b2] := by
  simp only [byteSjisTwoByte1P, byteSjisTwoByte2P, decide_eq_true_eq] at h1 h2
  rw [decodeSjis]
  split_ifs
  all_goals
    refine ⟨_, _, rfl, ?_, ?_⟩
    · rw [Jisx0208Positions]
      omega
    · rw [encodeSjis]
      split_ifs <;> simp only [List.cons.injEq, and_true] <;> omega

theorem encodeSjis_spec {c1 c2 : Nat} (h : Jisx0208Positions c1 c2) :
    ∃ b1 b2, encodeSjis c1 c2 = [b1, b2] ∧ byteSjisTwoByte1P b1 = true ∧
      byteSjisTwoByte2P b2 = true ∧ decodeSjis b1 b2 = [c1, c2] := by
  rw [Jisx0208Positions] at h
  rw [encodeSjis]
  split_ifs
  all_goals
    refine ⟨_, _, rfl, ?_, ?_, ?_⟩
    · simp only [byteSjisTwoByte1P, decide_eq_true_eq]
      omega
    · simp only [byteSjisTwoByte2P, decide_eq_true_eq]
      omega
    · rw [decodeSjis]
      split_ifs <;> simp only [List.cons.injEq, and_true] <;> omega

/-! ### Codes -/

section Codes

variable {eol : EolType}

theorem decodeSjis_keepsEnd : KeepsEnd (decodeSjisStep eol) := decodeTwoByte_keepsEnd

theorem decodeSjis_handlesEol : HandlesEol (decodeSjisStep eol) eol := decodeTwoByte_handlesEol

theorem encodeSjis_ascii {c : Nat} (hc : c < 0x80) (hlf : c ≠ LF) :
    encodeSjisStep eol 0 c = some (0, [c]) := by
  have hascii : byteAsciiP c = true := by simpa [byteAsciiP] using hc
  rw [encodeSjisStep, if_neg hlf, if_pos hascii]

theorem encodeSjis_leading {ch c : Nat} (hlo : 0x80 ≤ c) (hhi : c < 0xA0) :
    encodeSjisStep eol ch c = some (if c = leadingByteKatakanaJisx0201 ∨
      c = leadingByteJisx0208_1978 ∨ c = leadingByteJisx0208 then c else 0, []) := by
  have hlf : c ≠ LF := by
    rw [LF]
    omega
  have hascii : ¬ byteAsciiP c = true := by simpa [byteAsciiP] using hlo
  have hleading : bufbyteLeadingByteP c = true := by simp [bufbyteLeadingByteP, hlo, hhi]
  rw [encodeSjisStep, if_neg hlf, if_neg hascii, if_pos hleading]

theorem encodeSjis_position {ch c : Nat} (hch : ch ≠ 0) (hc : 0xA0 ≤ c) :
    encodeSjisStep eol ch c =
      if ch = leadingByteKatakanaJisx0201 then some (0, [c])
      else if ch = leadingByteJisx0208_1978 ∨ ch = leadingByteJisx0208 then some (c, [])
      else some (0, encodeSjis ch c) := by
  have hlf : c ≠ LF := by
    rw [LF]
    omega
  have hascii : ¬ byteAsciiP c = true := by
    simp only [byteAsciiP, decide_eq_true_eq]
    omega
  have hleading : ¬ bufbyteLeadingByteP c = true := by
    simp only [bufbyteLeadingByteP, decide_eq_true_eq]
    omega
  rw [encodeSjisStep, if_neg hlf, if_neg hascii, if_neg hleading, if_pos hch]

theorem encodeSjis_katakana {c : Nat} (hc : 0xA0 ≤ c) :
    run (encodeSjisStep eol) 0 [leadingByteKatakanaJisx0201, c] = some (0, [c]) := by
  rw [run_cons, encodeSjis_leading (by decide) (by decide), if_pos (.inl rfl), Option.bind_some,
    run_cons, encodeSjis_position (by decide) hc, if_pos rfl]
  rfl

theorem encodeSjis_jisx0208 {c1 c2 : Nat} (h : Jisx0208Positions c1 c2) :
    run (encodeSjisStep eol) 0 [leadingByteJisx0208, c1, c2] = some (0, encodeSjis c1 c2) := by
  rw [Jisx0208Positions] at h
  have hlead : ¬ (c1 = 0x89) ∧ ¬ (c1 = 0x90 ∨ c1 = 0x92) := by omega
  rw [run_cons, encodeSjis_leading (by decide) (by decide), if_pos (.inr (.inr rfl)),
    Option.bind_some, run_cons, encodeSjis_position (by decide) (by omega), if_neg (by decide),
    if_pos (.inr rfl), Option.bind_some, run_cons, encodeSjis_position (by omega) (by omega),
    if_neg hlead.1, if_neg hlead.2]
  simp

theorem coded_sjisAscii {c : Nat} (hc : c < 0x80) (heol : c = CR → eol ≠ .cr) :
    Coded (decodeSjisStep eol) (encodeSjisStep eol) eol [c]
      (if c = LF then encodeNewline eol else [c]) := by
  have hfirst : byteSjisTwoByte1P c = false := by
    simp only [byteSjisTwoByte1P, decide_eq_false_iff_not]
    omega
  have hsingle : (if byteSjisKatakanaP c then [leadingByteKatakanaJisx0201, c]
      else decodeAddBinaryChar c) = [c] := by
    rw [if_neg, decodeAddBinaryChar, if_pos hc]
    simp only [byteSjisKatakanaP, decide_eq_true_eq]
    omega
  split_ifs with hlf
  · subst hlf
    refine decodeSjis_handlesEol.coded_newline (fun s hs hcr => ?_) (if_pos rfl)
    exact decodeTwoByte_single hs hcr (by decide) hfirst
  · by_cases hcr : c = CR
    · rw [hcr]
      exact decodeSjis_handlesEol.coded_cr (heol hcr) (encodeSjis_ascii (by decide) (by decide))
    · refine decodeSjis_handlesEol.coded hcr hlf (fun s hs hflag => ?_) ?_
      · rw [scan, decodeSjisStep, decodeTwoByte_single hs hflag hcr hfirst, hsingle]
        rfl
      · rw [run_cons, encodeSjis_ascii hc hlf]
        rfl

theorem coded_sjisKatakana {c : Nat} (hc : byteSjisKatakanaP c = true) :
    Coded (decodeSjisStep eol) (encodeSjisStep eol) eol [leadingByteKatakanaJisx0201, c] [c] := by
  have hrange : 0xA1 ≤ c ∧ c ≤ 0xDF := by simpa [byteSjisKatakanaP] using hc
  have hcr : c ≠ CR := by
    rw [CR]
    omega
  have hfirst : byteSjisTwoByte1P c = false := by
    simp only [byteSjisTwoByte1P, decide_eq_false_iff_not]
    omega
  refine decodeSjis_handlesEol.coded hcr (by rw [LF]; omega) (fun s hs hflag => ?_)
    (encodeSjis_katakana (by omega))
  rw [scan, decodeSjisStep, decodeTwoByte_single hs hflag hcr hfirst, if_pos hc]
  rfl

theorem coded_sjisTwoByte {b1 b2 : Nat} (h1 : byteSjisTwoByte1P b1 = true)
    (h2 : byteSjisTwoByte2P b2 = true) :
    Coded (decodeSjisStep eol) (encodeSjisStep eol) eol (leadingByteJisx0208 :: decodeSjis b1 b2)
      [b1, b2] := by
  have hrange : (0x81 ≤ b1 ∧ b1 ≤ 0x9F) ∨ (0xE0 ≤ b1 ∧ b1 ≤ 0xEF) := by
    simpa [byteSjisTwoByte1P] using h1
  have hcr : b1 ≠ CR := by
    rw [CR]
    omega
  obtain ⟨c1, c2, hdecode, hpositions, hencode⟩ := decodeSjis_spec h1 h2
  refine decodeSjis_handlesEol.coded hcr (by rw [LF]; omega) (fun s hs hflag => ?_) ?_
  · rw [decodeSjisStep, scan_decodeTwoByte hs hflag hcr (by omega) h1, if_pos h2]
  · rw [hdecode, encodeSjis_jisx0208 hpositions, hencode]

theorem SjisCode.coded {code : List Nat} (hcode : SjisCode code) :
    ∃ text, Coded (decodeSjisStep .lf) (encodeSjisStep .lf) .lf text code := by
  cases hcode with
  | @ascii c hc =>
    have hcoded : Coded (decodeSjisStep .lf) (encodeSjisStep .lf) .lf [c] _ :=
      coded_sjisAscii hc fun _ => by decide
    by_cases hlf : c = LF
    · rw [if_pos hlf] at hcoded
      rw [hlf] at hcoded ⊢
      exact ⟨_, hcoded⟩
    · rw [if_neg hlf] at hcoded
      exact ⟨_, hcoded⟩
  | katakana hc => exact ⟨_, coded_sjisKatakana hc⟩
  | twoByte h1 h2 => exact ⟨_, coded_sjisTwoByte h1 h2⟩

variable {charsets : Charsets}

theorem Mchar.Sjis.coded {ch : Mchar} (hsjis : ch.Sjis) (hch : ch.Valid charsets)
    (heol : eol ≠ .cr) :
    ∃ code, Coded (decodeSjisStep eol) (encodeSjisStep eol) eol ch.bytes code := by
  obtain hascii | ⟨hkana, hc1⟩ | hkanji := hsjis
  · obtain ⟨hc1, hbytes⟩ := hch.ascii hascii
    rw [hbytes]
    exact ⟨_, coded_sjisAscii hc1 fun _ => heol⟩
  · obtain ⟨hrange, hbytes⟩ := hch.of_type94 hkana (by decide) (by decide)
    have hkatakana : byteSjisKatakanaP (ch.c1 + 0x80) = true := by
      simp only [byteSjisKatakanaP, decide_eq_true_eq]
      omega
    rw [hbytes]
    exact ⟨_, coded_sjisKatakana hkatakana⟩
  · obtain ⟨hrange1, hrange2, hbytes⟩ := hch.of_type94x94 hkanji (by decide) (by decide)
    have hpositions : Jisx0208Positions (ch.c1 + 0x80) (ch.c2 + 0x80) := by
      rw [Jisx0208Positions]
      omega
    obtain ⟨b1, b2, -, h1, h2, hdecode⟩ := encodeSjis_spec hpositions
    rw [hbytes, ← hdecode]
    exact ⟨_, coded_sjisTwoByte h1 h2⟩

theorem sjis_exactOn : ExactOn decodeCodingSjis encodeCodingSjis Mchar.Sjis SjisCode :=
  exactOn_of_coded (fun _ => decodeSjis_keepsEnd) (fun _ _ _ hch hsjis heol => hsjis.coded hch heol)
    fun _ => SjisCode.coded

end Codes

end XEmacs.Coding

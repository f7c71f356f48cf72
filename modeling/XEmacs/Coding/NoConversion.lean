import XEmacs.Coding.Codecs

/-!
# Binary data

Without a conversion every byte stands for a character: of ASCII, of Control-1 or of Latin-1. All
other characters become `~`.
-/

namespace XEmacs.Coding

open Transducer Option

/-- The loop body of `decode_coding_no_conversion`. -/
def decodeNoConversionStep (eol : EolType) (s : DecodingStream) (c : Nat) :
    DecodingStream × List Nat :=
  let (flags, out, continueLoop) := decodeHandleEolType eol c s.flags
  if continueLoop then ({ s with flags := flags }, out)
  else ({ s with flags := flags }, out ++ decodeAddBinaryChar c)

/-- The loop body of `encode_coding_no_conversion`. -/
def encodeNoConversionStep (eol : EolType) (ch c : Nat) : Option (Nat × List Nat) :=
  if c = LF then some (0, encodeNewline eol)
  else if byteAsciiP c then
    if ch = 0 then some (ch, [c]) else none
  else if bufbyteLeadingByteP c then
    if ch = 0 then
      if c = leadingByteLatin1 ∨ c = leadingByteControl1 then some (c, [])
      else some (ch, [0x7E]) -- untranslatable character
    else none
  else if ch = leadingByteLatin1 then some (0, [c])
  else if ch = leadingByteControl1 then
    if c < 0xC0 then some (0, [c - 0x20]) else none
  else some (0, [])

/-- `decode_coding_no_conversion` and `encode_coding_no_conversion`, called for each part. -/
def decodeCodingNoConversion (eol : EolType) : List (List Nat) → List Nat :=
  decodeStream (decodeNoConversionStep eol)

def encodeCodingNoConversion (eol : EolType) : List (List Nat) → Option (List Nat) :=
  encodeStream (encodeNoConversionStep eol)

/-- What becomes of a character. -/
def binaryCode (eol : EolType) (ch : Mchar) : List Nat :=
  if ch.charset.leadingByte = leadingByteAscii then
    if ch.c1 = LF then encodeNewline eol else [ch.c1]
  else if ch.charset.leadingByte = leadingByteControl1 ∨
      ch.charset.leadingByte = leadingByteLatin1 then [ch.c1 + 0x80]
  else [0x7E]

/-- The characters of ASCII, Control-1 and Latin-1. -/
def Mchar.Binary (ch : Mchar) : Prop :=
  ch.charset.leadingByte = leadingByteAscii ∨ ch.charset.leadingByte = leadingByteControl1 ∨
    ch.charset.leadingByte = leadingByteLatin1

/-! ### The encoder -/

section Encoder

variable {eol : EolType} {charsets : Charsets}

theorem encodeNoConversion_ascii {c : Nat} (hc : c < 0x80) (hlf : c ≠ LF) :
    encodeNoConversionStep eol 0 c = some (0, [c]) := by
  have hascii : byteAsciiP c = true := by simpa [byteAsciiP] using hc
  rw [encodeNoConversionStep, if_neg hlf, if_pos hascii, if_pos rfl]

theorem encodeNoConversion_leading {c : Nat} (hlo : 0x80 ≤ c) (hhi : c < 0xA0) :
    encodeNoConversionStep eol 0 c =
      if c = leadingByteLatin1 ∨ c = leadingByteControl1 then some (c, [])
      else some (0, [0x7E]) := by
  have hlf : c ≠ LF := by
    rw [LF]
    omega
  have hascii : ¬ byteAsciiP c = true := by simpa [byteAsciiP] using hlo
  have hleading : bufbyteLeadingByteP c = true := by simp [bufbyteLeadingByteP, hlo, hhi]
  rw [encodeNoConversionStep, if_neg hlf, if_neg hascii, if_pos hleading, if_pos rfl]

theorem encodeNoConversion_position {ch c : Nat} (hc : 0xA0 ≤ c) :
    encodeNoConversionStep eol ch c =
      if ch = leadingByteLatin1 then some (0, [c])
      else if ch = leadingByteControl1 then if c < 0xC0 then some (0, [c - 0x20]) else none
      else some (0, []) := by
  have hlf : c ≠ LF := by
    rw [LF]
    omega
  have hascii : ¬ byteAsciiP c = true := by
    simp only [byteAsciiP, decide_eq_true_eq]
    omega
  have hleading : ¬ bufbyteLeadingByteP c = true := by
    simp only [bufbyteLeadingByteP, decide_eq_true_eq]
    omega
  rw [encodeNoConversionStep, if_neg hlf, if_neg hascii, if_neg hleading]

theorem encodeNoConversion_other {lead : Nat} {rest : List Nat} (hlo : 0x80 ≤ lead)
    (hhi : lead < 0xA0) (hlatin : lead ≠ 0x81) (hcontrol : lead ≠ 0x8F)
    (hrest : ∀ b ∈ rest, 0xA0 ≤ b) :
    run (encodeNoConversionStep eol) 0 (lead :: rest) = some (0, [0x7E]) := by
  have hignored : run (encodeNoConversionStep eol) 0 rest = some (0, []) := by
    induction rest with
    | nil => rfl
    | cons b rest ih =>
      rw [List.forall_mem_cons] at hrest
      rw [run_cons, encodeNoConversion_position hrest.1, if_neg (by decide), if_neg (by decide),
        bind_some, ih hrest.2]
      rfl
  rw [run_cons, encodeNoConversion_leading hlo hhi, if_neg (by simp [hlatin, hcontrol]),
    bind_some, hignored]
  rfl

theorem encodeNoConversion_latin1 {c : Nat} (hc : 0xA0 ≤ c) :
    run (encodeNoConversionStep eol) 0 [leadingByteLatin1, c] = some (0, [c]) := by
  rw [run_cons, encodeNoConversion_leading (by decide) (by decide), if_pos (.inl rfl),
    bind_some, run_cons, encodeNoConversion_position hc, if_pos rfl]
  rfl

theorem encodeNoConversion_control1 {c : Nat} (hlo : 0xA0 ≤ c) (hhi : c < 0xC0) :
    run (encodeNoConversionStep eol) 0 [leadingByteControl1, c] = some (0, [c - 0x20]) := by
  rw [run_cons, encodeNoConversion_leading (by decide) (by decide), if_pos (.inr rfl),
    bind_some, run_cons, encodeNoConversion_position hlo, if_neg (by decide), if_pos rfl,
    if_pos hhi]
  rfl

theorem binaryCode_other {ch : Mchar} (hascii : ch.charset.leadingByte ≠ 0x8E)
    (hcontrol : ch.charset.leadingByte ≠ 0x8F) (hlatin : ch.charset.leadingByte ≠ 0x81) :
    binaryCode eol ch = [0x7E] := by
  rw [binaryCode, if_neg hascii, if_neg]
  rintro (heq | heq)
  · exact hcontrol heq
  · exact hlatin heq

theorem encodeNoConversion_char {ch : Mchar} (hch : ch.Valid charsets) :
    run (encodeNoConversionStep eol) 0 ch.bytes = some (0, binaryCode eol ch) := by
  cases hch.shape with
  | ascii lb rep dim h1 h2 hbytes hemchar =>
    rw [hbytes, binaryCode, if_pos lb, run_cons]
    split_ifs with hlf
    · rw [encodeNoConversionStep, if_pos hlf]
      simp
    · rw [encodeNoConversion_ascii h1 hlf]
      rfl
  | control1 lb rep dim h1 h2 hbytes hemchar =>
    rw [hbytes, binaryCode, if_neg (by rw [lb]; decide), if_pos (.inl lb),
      encodeNoConversion_control1 (by omega) (by omega)]
    rfl
  | official1 lo hi rep dim lo1 hi1 h2 hbytes hemchar =>
    rw [hbytes]
    by_cases hlatin : ch.charset.leadingByte = 0x81
    · rw [binaryCode, if_neg (by rw [hlatin]; decide), if_pos (.inr hlatin), hlatin,
        encodeNoConversion_latin1 (by omega)]
    · rw [binaryCode_other (by omega) (by omega) hlatin,
        encodeNoConversion_other (by omega) (by omega) hlatin (by omega)]
      exact List.forall_mem_singleton.mpr (by omega)
  | official2 lo hi rep dim lo1 hi1 lo2 hi2 hbytes hemchar =>
    rw [hbytes, binaryCode_other (by omega) (by omega) (by omega),
      encodeNoConversion_other (by omega) (by omega) (by omega) (by omega)]
    exact List.forall_mem_cons.mpr ⟨by omega, List.forall_mem_singleton.mpr (by omega)⟩
  | private1 lo hi rep dim lo1 hi1 h2 hbytes hemchar =>
    rw [hbytes, binaryCode_other (by omega) (by omega) (by omega),
      encodeNoConversion_other (by decide) (by decide) (by decide) (by decide)]
    exact List.forall_mem_cons.mpr ⟨lo, List.forall_mem_singleton.mpr (by omega)⟩
  | private2 lo hi rep dim lo1 hi1 lo2 hi2 hbytes hemchar =>
    rw [hbytes, binaryCode_other (by omega) (by omega) (by omega),
      encodeNoConversion_other (by decide) (by decide) (by decide) (by decide)]
    exact List.forall_mem_cons.mpr ⟨by omega,
      List.forall_mem_cons.mpr ⟨by omega, List.forall_mem_singleton.mpr (by omega)⟩⟩

theorem encodeNoConversion_text {text : List Mchar} (htext : ∀ ch ∈ text, ch.Valid charsets) :
    run (encodeNoConversionStep eol) 0 (stringOf text)
      = some (0, text.flatMap (binaryCode eol)) := by
  induction text with
  | nil => rfl
  | cons ch text ih =>
    rw [List.forall_mem_cons] at htext
    rw [stringOf, List.flatMap_cons, run_append, encodeNoConversion_char htext.1,
      bind_some, ← stringOf, ih htext.2]
    rfl

end Encoder

/-! ### The decoder -/

section Decoder

variable {eol : EolType}

theorem decodeNoConversion_keepsEnd : KeepsEnd (decodeNoConversionStep eol) := by
  intro s c
  have hflags := decodeHandleEolType_atEnd eol c s.flags
  simp only [decodeNoConversionStep]
  split_ifs <;> exact hflags

theorem decodeNoConversion_handlesEol : HandlesEol (decodeNoConversionStep eol) eol where
  cr {s} _ := by
    simp only [decodeNoConversionStep]
    rw [if_pos (decodeHandleEolType_cr s.flags)]
  other {s c} _ hc := by
    rw [decodeNoConversionStep, decodeNoConversionStep, decodeHandleEolType_of_ne hc,
      decodeHandleEolType_of_ne hc]
    simp [DecodingStream.clearCr]

theorem decodeNoConversion_of_ne {s : DecodingStream} {c : Nat} (hc : c ≠ CR)
    (hcr : s.flags.cr = false) : decodeNoConversionStep eol s c = (s, decodeAddBinaryChar c) := by
  rw [decodeNoConversionStep, decodeHandleEolType, if_neg hc, if_neg (by rw [hcr]; decide)]
  rfl

end Decoder

/-! ### Round trips -/

section RoundTrips

variable {eol : EolType} {charsets : Charsets}

theorem coded_binaryChar {c : Nat} (hc : c < 256) (hcr : c ≠ CR) (hlf : c ≠ LF) :
    Coded (decodeNoConversionStep eol) (encodeNoConversionStep eol) eol (decodeAddBinaryChar c)
      [c] := by
  have hencode : run (encodeNoConversionStep eol) 0 (decodeAddBinaryChar c) = some (0, [c]) := by
    rw [decodeAddBinaryChar]
    split_ifs with hascii hcontrol
    · rw [run_cons, encodeNoConversion_ascii hascii hlf]
      rfl
    · rw [encodeNoConversion_control1 (by omega) (by omega), Nat.add_sub_cancel]
    · rw [Nat.mod_eq_of_lt hc, encodeNoConversion_latin1 (by omega)]
  refine decodeNoConversion_handlesEol.coded hcr hlf (fun s _ hflag => ?_) hencode
  rw [scan, decodeNoConversion_of_ne hcr hflag]
  exact Prod.ext rfl (List.append_nil _)

theorem coded_binaryNewline :
    Coded (decodeNoConversionStep eol) (encodeNoConversionStep eol) eol [LF]
      (encodeNewline eol) :=
  decodeNoConversion_handlesEol.coded_newline
    (fun _ _ hflag => decodeNoConversion_of_ne (by decide) hflag) (if_pos rfl)

theorem coded_binaryCr (heol : eol ≠ .cr) :
    Coded (decodeNoConversionStep eol) (encodeNoConversionStep eol) eol [CR] [CR] :=
  decodeNoConversion_handlesEol.coded_cr heol (encodeNoConversion_ascii (by decide) (by decide))

theorem coded_byte {c : Nat} (hc : c < 256) :
    Coded (decodeNoConversionStep .lf) (encodeNoConversionStep .lf) .lf (decodeAddBinaryChar c)
      [c] := by
  by_cases hcr : c = CR
  · rw [hcr]
    exact coded_binaryCr (by decide)
  by_cases hlf : c = LF
  · rw [hlf]
    exact coded_binaryNewline
  exact coded_binaryChar hc hcr hlf

theorem Mchar.Binary.coded {ch : Mchar} (hbinary : ch.Binary) (hch : ch.Valid charsets)
    (heol : eol ≠ .cr) :
    Coded (decodeNoConversionStep eol) (encodeNoConversionStep eol) eol ch.bytes
      (binaryCode eol ch) := by
  have hone : ∀ {c : Nat}, c < 256 → c ≠ CR → c ≠ LF → ch.bytes = decodeAddBinaryChar c →
      binaryCode eol ch = [c] → Coded (decodeNoConversionStep eol) (encodeNoConversionStep eol) eol
        ch.bytes (binaryCode eol ch) := by
    intro c hc hcr hlf hbytes hcode
    rw [hbytes, hcode]
    exact coded_binaryChar hc hcr hlf
  cases hch.shape with
  | ascii lb rep dim h1 h2 hbytes hemchar =>
    by_cases hlf : ch.c1 = LF
    · rw [binaryCode, if_pos lb, if_pos hlf, hbytes, hlf]
      exact coded_binaryNewline
    have hcode : binaryCode eol ch = [ch.c1] := by rw [binaryCode, if_pos lb, if_neg hlf]
    by_cases hcr : ch.c1 = CR
    · rw [hcode, hbytes, hcr]
      exact coded_binaryCr heol
    · refine hone (by omega) hcr hlf ?_ hcode
      rw [hbytes, decodeAddBinaryChar, if_pos h1]
  | control1 lb rep dim h1 h2 hbytes hemchar =>
    have hcode : binaryCode eol ch = [ch.c1 + 0x80] := by
      rw [binaryCode, if_neg (by rw [lb]; decide), if_pos (.inl lb)]
    refine hone (by omega) (by rw [CR]; omega) (by rw [LF]; omega) ?_ hcode
    rw [hbytes, decodeAddBinaryChar, if_neg (by omega), if_pos (by omega)]
  | official1 lo hi rep dim lo1 hi1 h2 hbytes hemchar =>
    have hlatin : ch.charset.leadingByte = 0x81 := by
      have hlead : ch.charset.leadingByte = 0x8E ∨ ch.charset.leadingByte = 0x8F ∨
        ch.charset.leadingByte = 0x81 := hbinary
      omega
    have hcode : binaryCode eol ch = [ch.c1 + 0x80] := by
      rw [binaryCode, if_neg (by rw [hlatin]; decide), if_pos (.inr hlatin)]
    refine hone (by omega) (by rw [CR]; omega) (by rw [LF]; omega) ?_ hcode
    rw [hbytes, hlatin, decodeAddBinaryChar, if_neg (by omega), if_neg (by omega),
      Nat.mod_eq_of_lt (by omega)]
  | official2 lo hi | private1 lo hi | private2 lo hi =>
    have hlead : ch.charset.leadingByte = 0x8E ∨ ch.charset.leadingByte = 0x8F ∨
      ch.charset.leadingByte = 0x81 := hbinary
    omega

/-- **Binary data** goes through unchanged. -/
theorem noConversion_roundTrips :
    (∀ parts parts' : List (List Nat), (∀ b ∈ parts.flatten, b < 256) →
      parts'.flatten = decodeCodingNoConversion .lf parts →
        encodeCodingNoConversion .lf parts' = some parts.flatten) ∧
    (∀ (charsets : Charsets) (eol : EolType), eol = .lf ∨ eol = .crlf →
      ∀ (text : List Mchar) (parts : List (List Nat)),
        (∀ ch ∈ text, ch.Valid charsets ∧ ch.Binary) → parts.flatten = stringOf text →
          ∃ bytes, encodeCodingNoConversion eol parts = some bytes ∧
            ∀ parts' : List (List Nat), parts'.flatten = bytes →
              decodeCodingNoConversion eol parts' = stringOf text) ∧
    ∀ (charsets : Charsets) (eol : EolType) (text : List Mchar) (parts : List (List Nat)),
      (∀ ch ∈ text, ch.Valid charsets) → parts.flatten = stringOf text →
        encodeCodingNoConversion eol parts = some (text.flatMap (binaryCode eol)) := by
  refine ⟨fun parts parts' hbytes hparts' => ?_, ?_, ?_⟩
  · have hcoded : Coded (decodeNoConversionStep .lf) (encodeNoConversionStep .lf) .lf
        (parts.flatten.flatMap decodeAddBinaryChar) (parts.flatten.flatMap fun c => [c]) :=
      .flatMap fun c hc => coded_byte (hbytes c hc)
    rw [List.flatMap_singleton'] at hcoded
    have hdecoded := hcoded.decodeStream decodeNoConversion_keepsEnd rfl
    exact hcoded.encodeStream (hparts'.trans hdecoded)
  · intro charsets eol heol text parts htext hparts
    have hne : eol ≠ .cr := by
      rintro rfl
      obtain h | h := heol <;> cases h
    have hcoded : Coded (decodeNoConversionStep eol) (encodeNoConversionStep eol) eol
        (stringOf text) (text.flatMap (binaryCode eol)) :=
      .flatMap fun ch hch => (htext ch hch).2.coded (htext ch hch).1 hne
    exact ⟨_, hcoded.encodeStream hparts,
      fun parts' hparts' => hcoded.decodeStream decodeNoConversion_keepsEnd hparts'⟩
  · intro charsets eol text parts htext hparts
    rw [encodeCodingNoConversion, encodeStream_eq, hparts, encodeNoConversion_text htext]
    rfl

/-- Bytes; the characters CR and LF, where CRLF ends a line; and a character of
JIS X 0208. -/
theorem noConversion_roundTrips_crlf :
    encodeCodingNoConversion .lf [[0x0D], [0x81, 0xE9]] = some [0x0D, 0xE9] ∧
    decodeCodingNoConversion .crlf [[0x0D], [0x0D, 0x0A]] = [0x0D, 0x0A] ∧
    encodeCodingNoConversion .crlf [[0x92, 0xA1], [0xA1]] = some [0x7E] := by
  let ascii : Charset := ⟨0x8E, 1, .type94, 0, 0x42, .leftToRight, none⟩
  let jisx0208 : Charset := ⟨0x92, 3, .type94x94, 0, 0x42, .leftToRight, none⟩
  have hcr : Mchar.Valid .initial ⟨ascii, CR, 0⟩ :=
    ⟨by decide, by simp [Mchar.Positions, ascii, CR]⟩
  have hlf : Mchar.Valid .initial ⟨ascii, LF, 0⟩ :=
    ⟨by decide, by simp [Mchar.Positions, ascii, LF]⟩
  have hkanji : Mchar.Valid .initial ⟨jisx0208, 33, 33⟩ :=
    ⟨by decide, by simp [Mchar.Positions, Mchar.InRange, jisx0208, Charset.dimension,
      Charset.chars, CharsetType.dimension, CharsetType.chars, leadingByteAscii,
      leadingByteControl1]⟩
  refine ⟨?_, ?_, ?_⟩
  · exact noConversion_roundTrips.1 [[0x0D, 0xE9]] [[0x0D], [0x81, 0xE9]] (by decide) (by decide)
  · have htext : ∀ ch ∈ [(⟨ascii, CR, 0⟩ : Mchar), ⟨ascii, LF, 0⟩],
        ch.Valid .initial ∧ ch.Binary :=
      List.forall_mem_cons.mpr ⟨⟨hcr, .inl rfl⟩, List.forall_mem_singleton.mpr ⟨hlf, .inl rfl⟩⟩
    obtain ⟨bytes, hbytes, hdecode⟩ :=
      noConversion_roundTrips.2.1 .initial .crlf (.inr rfl) _ [[0x0D, 0x0A]] htext (by decide)
    have hknown : bytes = [0x0D, 0x0D, 0x0A] := Option.some.inj (hbytes.symm.trans (by decide))
    exact hdecode _ (hknown ▸ rfl)
  · exact noConversion_roundTrips.2.2 .initial .crlf [⟨jisx0208, 33, 33⟩] [[0x92, 0xA1], [0xA1]]
      (List.forall_mem_singleton.mpr hkanji) (by decide)

end RoundTrips

end XEmacs.Coding

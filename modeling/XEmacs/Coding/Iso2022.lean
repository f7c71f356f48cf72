import XEmacs.Coding.Streams
import XEmacs.Lib.ByteMemory

/-!
# The ISO 2022 encoder and its escape sequences (file-coding.c)

A coding system of type ISO 2022 has four registers for charsets.
-/

namespace XEmacs.Coding

open ByteMemory List

/-! ## Coding systems -/

/-- `struct charset_conversion_spec`. -/
structure ConversionSpec where
  fromCharset : Charset
  toCharset : Charset
deriving DecidableEq

/-- What is in a register: a charset, or an initial nil or t. -/
inductive Register where
  | nil
  | t
  | charset (cs : Charset)
deriving DecidableEq

/-- A coding system of type ISO 2022. -/
structure Iso2022System where
  initialCharset : Nat → Register
  forceCharsetOnOutput : Nat → Bool
  inputConv : List ConversionSpec
  outputConv : List ConversionSpec
  eolType : EolType
  short : Bool
  noAsciiEol : Bool
  noAsciiCntl : Bool
  seven : Bool
  lockShift : Bool
  noIso6429 : Bool
  escapeQuoted : Bool

/-- The loop over the conversions of a coding system. -/
def convertCharset (conv : List ConversionSpec) (cs : Charset) : Charset :=
  conv.foldl (fun cs spec => if cs = spec.fromCharset then spec.toCharset else cs) cs

/-- `Vcharset_ascii`, which there always is. -/
def Charsets.ascii (charsets : Charsets) : Charset :=
  (charsets.byLeadingByte leadingByteAscii).getD
    ⟨leadingByteAscii, 1, .type94, 0, 0x42, .leftToRight, none⟩

abbrev isoCodeSO : Nat := 0x0E
abbrev isoCodeSI : Nat := 0x0F
abbrev isoCodeESC : Nat := 0x1B
abbrev isoCodeDEL : Nat := 0x7F
abbrev isoCodeSS2 : Nat := 0x8E
abbrev isoCodeSS3 : Nat := 0x8F
abbrev isoCodeCSI : Nat := 0x9B

def fitToBeEscapeQuoted (c : Nat) : Bool :=
  c = isoCodeESC || c = isoCodeCSI || c = isoCodeSS2 || c = isoCodeSS3 || c = isoCodeSO ||
    c = isoCodeSI

/-! ## The encoder -/

/-- A designation sequence that was written: what for, into which register, while the text goes
from right to left or not, and the bytes. -/
structure Designation where
  charset : Charset
  reg : Nat
  r2l : Bool
  bytes : List Nat
deriving DecidableEq

/-- `struct encoding_stream`, with the output and the record of designations. -/
structure Iso2022Encoder where
  charset : Nat → Register
  forceCharsetOnOutput : Nat → Bool
  registerLeft : Nat
  currentCharset : Option Charset
  currentHalf : Nat
  currentCharBoundary : Bool
  r2l : Bool
  ch : Nat
  dst : List Nat
  designations : List Designation

namespace Iso2022Encoder

/-- `reset_encoding_stream`. -/
def reset (sys : Iso2022System) : Iso2022Encoder where
  charset := sys.initialCharset
  forceCharsetOnOutput := sys.forceCharsetOnOutput
  registerLeft := 0
  currentCharset := none
  currentHalf := 0
  currentCharBoundary := true
  r2l := false
  ch := 0
  dst := []
  designations := []

def add (s : Iso2022Encoder) (bytes : List Nat) : Iso2022Encoder :=
  { s with dst := s.dst ++ bytes }

/-- The escape sequence that announces a type and a final byte for a register, with `inter94`
and `inter96` as they follow each other. -/
def designationBytes (short : Bool) (reg : Nat) (type : CharsetType) (final : Nat) : List Nat :=
  isoCodeESC ::
    match type with
    | .type94 => [0x28 + reg, final]
    | .type96 => [0x2C + reg, final]
    | .type94x94 =>
      0x24 :: if reg ≠ 0 ∨ ¬short ∨ final < 0x40 ∨ 0x42 < final then [0x28 + reg, final]
        else [final]
    | .type96x96 => [0x24, 0x2C + reg, final]

/-- The register holds a charset with this type and final byte. -/
def announced (r : Register) (type : CharsetType) (final : Nat) : Bool :=
  match r with
  | .charset cs => cs.type = type && cs.final = final
  | _ => false

def iso2022Designate (sys : Iso2022System) (cs : Register) (reg : Nat) (s : Iso2022Encoder) :
    Iso2022Encoder :=
  let oldCharset := s.charset reg
  let s := { s with charset := store s.charset reg cs }
  match cs with
  | .charset c =>
    let type := c.type
    let final := c.final
    if !s.forceCharsetOnOutput reg && announced oldCharset type final then s
    else
      let s := { s with forceCharsetOnOutput := store s.forceCharsetOnOutput reg false }
      -- `charset` becomes `convertCharset sys.outputConv c`, and is not looked at again
      let bytes := designationBytes sys.short reg type final
      { s.add bytes with designations := s.designations ++ [⟨c, reg, s.r2l, bytes⟩] }
  | _ => s

/-- The initial charsets are designated again. -/
def restoreInitial (sys : Iso2022System) (s : Iso2022Encoder) : Iso2022Encoder :=
  [0, 1, 2, 3].foldl (fun s i => iso2022Designate sys (sys.initialCharset i) i s) s

def restoreLeftToRightDirection (sys : Iso2022System) (s : Iso2022Encoder) : Iso2022Encoder :=
  if s.r2l then
    { s.add ((if sys.seven then [isoCodeESC, 0x5B] else [isoCodeCSI]) ++ [0x30, 0x5D]) with
      r2l := false }
  else s

def ensureCorrectDirection (sys : Iso2022System) (direction : Direction) (s : Iso2022Encoder) :
    Iso2022Encoder :=
  if s.r2l && direction = .leftToRight then s.restoreLeftToRightDirection sys
  else if !sys.noIso6429 && !s.r2l && direction = .rightToLeft then
    { s.add ((if sys.seven then [isoCodeESC, 0x5B] else [isoCodeCSI]) ++ [0x32, 0x5D]) with
      r2l := true }
  else s

def ensureNormalShift (s : Iso2022Encoder) : Iso2022Encoder :=
  if s.registerLeft ≠ 0 then { s.add [isoCodeSI] with registerLeft := 0 } else s

def ensureShiftOut (s : Iso2022Encoder) : Iso2022Encoder :=
  if s.registerLeft ≠ 1 then { s.add [isoCodeSO] with registerLeft := 1 } else s

/-- G0 is made to contain ASCII. -/
def ensureAscii (charsets : Charsets) (sys : Iso2022System) (c : Nat) (s : Iso2022Encoder) :
    Iso2022Encoder :=
  if 0x20 < c ∧ c < isoCodeDEL ∨ ¬sys.noAsciiCntl then
    iso2022Designate sys (.charset charsets.ascii) 0 s.ensureNormalShift
  else s

/-- The default state is restored at the end of a line. -/
def restoreAtEol (sys : Iso2022System) (c : Nat) (s : Iso2022Encoder) : Iso2022Encoder :=
  if c = LF ∧ ¬sys.noAsciiEol then
    ((s.restoreLeftToRightDirection sys).ensureNormalShift).restoreInitial sys
  else s

/-- The bytes for a byte of ASCII. -/
def asciiBytes (sys : Iso2022System) (c : Nat) : List Nat :=
  if c = LF then
    (if sys.eolType ≠ .lf ∧ sys.eolType ≠ .autodetect then [CR] else []) ++
      if sys.eolType ≠ .cr then [c] else []
  else (if sys.escapeQuoted && fitToBeEscapeQuoted c then [isoCodeESC] else []) ++ [c]

/-- What the encoder does with a byte of ASCII. -/
def encodeAscii (charsets : Charsets) (sys : Iso2022System) (c : Nat) (s : Iso2022Encoder) :
    Iso2022Encoder :=
  let s := { s with ch := 0 }.restoreLeftToRightDirection sys
  let s := (s.ensureAscii charsets sys c).restoreAtEol sys c
  { s.add (asciiBytes sys c) with currentCharBoundary := true }

/-- The register that is used for a charset. -/
def registerFor (sys : Iso2022System) (cs : Charset) (s : Iso2022Encoder) : Nat :=
  match [0, 1, 2, 3].find? fun i =>
      .charset cs = s.charset i || .charset cs = sys.initialCharset i with
  | some i => i
  | none =>
    if cs.graphic ≠ 0 then
      if s.charset 1 ≠ .nil ∧ (¬sys.seven ∨ sys.lockShift) then 1
      else if s.charset 2 ≠ .nil then 2
      else if s.charset 3 ≠ .nil then 3
      else 0
    else 0

/-- The register is invoked. -/
def invoke (sys : Iso2022System) (reg : Nat) (s : Iso2022Encoder) : Iso2022Encoder :=
  match reg with
  | 0 => { s.ensureNormalShift with currentHalf := 0 }
  | 1 =>
    if sys.seven then { s.ensureShiftOut with currentHalf := 0 } else { s with currentHalf := 1 }
  | 2 =>
    if sys.seven then { s.add [isoCodeESC, 0x4E] with currentHalf := 0 }
    else { s.add [isoCodeSS2] with currentHalf := 1 }
  | _ =>
    if sys.seven then { s.add [isoCodeESC, 0x4F] with currentHalf := 0 }
    else { s.add [isoCodeSS3] with currentHalf := 1 }

/-- The charset of the next character is designated and invoked. -/
def encodeCharset (sys : Iso2022System) (cs : Charset) (s : Iso2022Encoder) : Iso2022Encoder :=
  let s := s.ensureCorrectDirection sys cs.direction
  let reg := s.registerFor sys cs
  (iso2022Designate sys (.charset cs) reg s).invoke sys reg

/-- What it does with a leading byte; `none` is a charset that there is not. -/
def encodeLeading (charsets : Charsets) (sys : Iso2022System) (c : Nat) (s : Iso2022Encoder) :
    Option Iso2022Encoder :=
  let s := { s with ch := 0, currentCharset := charsets.byLeadingByte c }
  if c = 0x9E ∨ c = 0x9F then some { s with ch := c, currentCharBoundary := false }
  else if c = leadingByteControl1 then some { s with currentCharBoundary := false }
  else
    s.currentCharset.map fun cs => { s.encodeCharset sys cs with currentCharBoundary := false }

/-- What it does with a position code; `none` is the call of `ABORT`, or nil for a charset. -/
def encodePosition (sys : Iso2022System) (c : Nat) (s : Iso2022Encoder) :
    Option Iso2022Encoder := do
  let mask (c : Nat) : Nat := if s.currentHalf = 0 then c % 0x80 else c
  let s := { s with currentCharBoundary := true }
  let cs ← s.currentCharset
  if cs.leadingByte = leadingByteControl1 then
    return s.add ((if sys.escapeQuoted && fitToBeEscapeQuoted (c - 0x20) then [isoCodeESC]
      else []) ++ [c - 0x20])
  else if cs.repBytes = 2 then return s.add [mask c]
  else if cs.repBytes = 3 ∧ cs.isPrivate then return { s.add [mask c] with ch := 0 }
  else if cs.repBytes = 3 ∨ cs.repBytes = 4 then
    if s.ch ≠ 0 then return { s.add [mask s.ch, mask c] with ch := 0 }
    else return { s with ch := c, currentCharBoundary := false }
  else none

/-- The body of the loop of `encode_coding_iso2022`. -/
def encodeByte (charsets : Charsets) (sys : Iso2022System) (s : Iso2022Encoder) (c : Nat) :
    Option Iso2022Encoder :=
  if c < 0x80 then some (s.encodeAscii charsets sys c)
  else if c < 0xA0 ∨ (0x80 ≤ s.ch ∧ s.ch < 0xA0) then s.encodeLeading charsets sys c
  else s.encodePosition sys c

/-- `encode_coding_iso2022`, for a chunk and whether it is the last one. -/
def encodeCodingIso2022 (charsets : Charsets) (sys : Iso2022System) (s : Iso2022Encoder)
    (chunk : List Nat × Bool) : Option Iso2022Encoder := do
  let s ← chunk.1.foldlM (encodeByte charsets sys) s
  if s.currentCharBoundary && chunk.2 then
    return ((s.restoreLeftToRightDirection sys).ensureNormalShift).restoreInitial sys
  else return s

/-- A text is encoded, chunk by chunk. -/
def encode (charsets : Charsets) (sys : Iso2022System) (chunks : List (List Nat × Bool)) :
    Option Iso2022Encoder :=
  chunks.foldlM (encodeCodingIso2022 charsets sys) (reset sys)

/-! ## What is recorded -/

/-- Each recorded sequence announces the type and the final byte of the charset itself. -/
def Recorded (sys : Iso2022System) (s : Iso2022Encoder) : Prop :=
  ∀ d ∈ s.designations, d.reg < 4 ∧
    d.bytes = designationBytes sys.short d.reg d.charset.type d.charset.final

variable {charsets : Charsets} {sys : Iso2022System} {s : Iso2022Encoder}

theorem Recorded.of_eq {s' : Iso2022Encoder} (h : s.Recorded sys)
    (heq : s'.designations = s.designations) : s'.Recorded sys := by
  rw [Recorded, heq]
  exact h

theorem designate_charset (c : Charset) (reg : Nat) :
    iso2022Designate sys (.charset c) reg s =
      if !s.forceCharsetOnOutput reg && announced (s.charset reg) c.type c.final then
        { s with charset := store s.charset reg (.charset c) }
      else
        { s with
          charset := store s.charset reg (.charset c)
          forceCharsetOnOutput := store s.forceCharsetOnOutput reg false
          dst := s.dst ++ designationBytes sys.short reg c.type c.final
          designations := s.designations ++
            [⟨c, reg, s.r2l, designationBytes sys.short reg c.type c.final⟩] } :=
  rfl

theorem recorded_designate (h : s.Recorded sys) (cs : Register) {reg : Nat} (hreg : reg < 4) :
    (iso2022Designate sys cs reg s).Recorded sys := by
  cases cs with
  | nil => exact h.of_eq rfl
  | t => exact h.of_eq rfl
  | charset c =>
    rw [designate_charset]
    split_ifs
    · exact h.of_eq rfl
    · intro d hd
      obtain hd | hd := List.mem_append.mp hd
      · exact h d hd
      · obtain rfl := List.mem_singleton.mp hd
        exact ⟨hreg, rfl⟩

theorem recorded_restoreInitial (h : s.Recorded sys) : (s.restoreInitial sys).Recorded sys := by
  rw [restoreInitial]
  simp only [foldl_cons, foldl_nil]
  exact recorded_designate (recorded_designate (recorded_designate (recorded_designate h _
    (by omega)) _ (by omega)) _ (by omega)) _ (by omega)

theorem designations_restoreLeftToRight :
    (s.restoreLeftToRightDirection sys).designations = s.designations := by
  rw [restoreLeftToRightDirection]
  split_ifs <;> rfl

theorem designations_ensureCorrectDirection (direction : Direction) :
    (s.ensureCorrectDirection sys direction).designations = s.designations := by
  rw [ensureCorrectDirection]
  split_ifs
  · exact designations_restoreLeftToRight
  all_goals rfl

theorem designations_ensureNormalShift : s.ensureNormalShift.designations = s.designations := by
  rw [ensureNormalShift]
  split_ifs <;> rfl

theorem designations_ensureShiftOut : s.ensureShiftOut.designations = s.designations := by
  rw [ensureShiftOut]
  split_ifs <;> rfl

theorem designations_invoke (reg : Nat) : (s.invoke sys reg).designations = s.designations := by
  unfold invoke
  split
  · exact designations_ensureNormalShift
  · split_ifs
    · exact designations_ensureShiftOut
    · rfl
  all_goals split_ifs <;> rfl

theorem registerFor_lt (cs : Charset) : s.registerFor sys cs < 4 := by
  rw [registerFor]
  split
  case _ i hi =>
    have := mem_of_find?_eq_some hi
    simp only [mem_cons, not_mem_nil, or_false] at this
    omega
  case _ => split_ifs <;> omega

theorem recorded_restored (h : s.Recorded sys) :
    (((s.restoreLeftToRightDirection sys).ensureNormalShift).restoreInitial sys).Recorded sys :=
  recorded_restoreInitial (h.of_eq
    (designations_ensureNormalShift.trans designations_restoreLeftToRight))

theorem recorded_ensureAscii (h : s.Recorded sys) (c : Nat) :
    (s.ensureAscii charsets sys c).Recorded sys := by
  rw [ensureAscii]
  split_ifs
  · exact recorded_designate (h.of_eq designations_ensureNormalShift) _ (by omega)
  · exact h

theorem recorded_restoreAtEol (h : s.Recorded sys) (c : Nat) :
    (s.restoreAtEol sys c).Recorded sys := by
  rw [restoreAtEol]
  split_ifs
  · exact recorded_restored h
  · exact h

theorem recorded_encodeAscii (h : s.Recorded sys) (c : Nat) :
    (s.encodeAscii charsets sys c).Recorded sys := by
  have hdirection : ({ s with ch := 0 }.restoreLeftToRightDirection sys).Recorded sys :=
    h.of_eq designations_restoreLeftToRight
  exact (recorded_restoreAtEol (recorded_ensureAscii hdirection c) c).of_eq rfl

theorem recorded_encodeCharset (h : s.Recorded sys) (cs : Charset) :
    (s.encodeCharset sys cs).Recorded sys :=
  (recorded_designate (h.of_eq (designations_ensureCorrectDirection cs.direction)) (.charset cs)
    (registerFor_lt cs)).of_eq (designations_invoke _)

theorem recorded_encodeLeading (h : s.Recorded sys) {c : Nat} {s' : Iso2022Encoder}
    (hs : s.encodeLeading charsets sys c = some s') : s'.Recorded sys := by
  unfold encodeLeading at hs
  split_ifs at hs
  · cases hs
    exact h.of_eq rfl
  · cases hs
    exact h.of_eq rfl
  · obtain ⟨cs, -, rfl⟩ := Option.map_eq_some_iff.mp hs
    have hch : Recorded sys { s with ch := 0, currentCharset := charsets.byLeadingByte c } :=
      h.of_eq rfl
    exact (recorded_encodeCharset hch cs).of_eq rfl

theorem recorded_encodePosition (h : s.Recorded sys) {c : Nat} {s' : Iso2022Encoder}
    (hs : s.encodePosition sys c = some s') : s'.Recorded sys := by
  rw [encodePosition] at hs
  obtain ⟨cs, -, hs⟩ := Option.bind_eq_some_iff.mp hs
  dsimp only at hs
  split_ifs at hs
  all_goals
    cases hs
    exact h.of_eq rfl

theorem recorded_encodeByte (h : s.Recorded sys) {c : Nat} {s' : Iso2022Encoder}
    (hs : s.encodeByte charsets sys c = some s') : s'.Recorded sys := by
  rw [encodeByte] at hs
  split_ifs at hs
  · cases hs
    exact recorded_encodeAscii h c
  · exact recorded_encodeLeading h hs
  · exact recorded_encodePosition h hs

theorem recorded_foldlM {bytes : List Nat} (h : s.Recorded sys) {s' : Iso2022Encoder}
    (hs : bytes.foldlM (encodeByte charsets sys) s = some s') : s'.Recorded sys := by
  induction bytes generalizing s with
  | nil =>
    cases hs
    exact h
  | cons c bytes ih =>
    rw [foldlM_cons] at hs
    obtain ⟨s₁, h₁, hs⟩ := Option.bind_eq_some_iff.mp hs
    exact ih (recorded_encodeByte h h₁) hs

theorem recorded_encodeCoding (h : s.Recorded sys) {chunk : List Nat × Bool}
    {s' : Iso2022Encoder} (hs : s.encodeCodingIso2022 charsets sys chunk = some s') :
    s'.Recorded sys := by
  rw [encodeCodingIso2022] at hs
  obtain ⟨s₁, h₁, hs⟩ := Option.bind_eq_some_iff.mp hs
  have := recorded_foldlM h h₁
  split_ifs at hs
  · cases hs
    exact recorded_restored this
  · cases hs
    exact this

theorem encode_records {chunks : List (List Nat × Bool)}
    (hs : encode charsets sys chunks = some s) : s.Recorded sys := by
  have hrun : ∀ {s₀ : Iso2022Encoder}, s₀.Recorded sys →
      chunks.foldlM (encodeCodingIso2022 charsets sys) s₀ = some s → s.Recorded sys := by
    clear hs
    induction chunks with
    | nil =>
      intro s₀ h₀ hs
      cases hs
      exact h₀
    | cons chunk chunks ih =>
      intro s₀ h₀ hs
      rw [foldlM_cons] at hs
      obtain ⟨s₁, h₁, hs⟩ := Option.bind_eq_some_iff.mp hs
      exact ih (recorded_encodeCoding h₀ h₁) hs
  exact hrun (fun d hd => absurd hd not_mem_nil) hs

end Iso2022Encoder

end XEmacs.Coding

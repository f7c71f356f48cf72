import XEmacs.Coding.Streams
import XEmacs.Lib.Transducers

/-!
# Decoders and encoders that keep a partial character

The decoders of Shift-JIS, of Big5 and for binary data keep flags and a partial character between
calls, the encoders a partial character only.
-/

namespace XEmacs.Coding

open Transducer List

/-- `flags` and `ch` of a decoding stream. -/
structure DecodingStream where
  flags : Flags
  ch : Nat
deriving DecidableEq, Repr

namespace DecodingStream

/-- `reset_decoding_stream`. -/
def start : DecodingStream := ⟨.zero, 0⟩

/-- `flags |= CODING_STATE_END`. -/
def setEnd (s : DecodingStream) : DecodingStream := { s with flags := { s.flags with atEnd := true } }

/-- `DECODE_HANDLE_END_OF_CONVERSION`. -/
def handleEndOfConversion (s : DecodingStream) : DecodingStream × List Nat :=
  if s.flags.atEnd then
    ({ s with ch := 0 }, decodeOutputPartialChar s.ch ++ if s.flags.cr then [CR] else [])
  else (s, [])

end DecodingStream

/-- A decoder called for each part of a text, and then once more when the text is over. -/
def decodeStream (step : DecodingStream → Nat → DecodingStream × List Nat)
    (parts : List (List Nat)) : List Nat :=
  let r := scan (scanCall step DecodingStream.handleEndOfConversion) .start parts
  r.2 ++ (scanCall step DecodingStream.handleEndOfConversion r.1.setEnd []).2

/-- An encoder called for each part of a text; its state is `ch` of the encoding stream. -/
def encodeStream (step : Nat → Nat → Option (Nat × List Nat)) (parts : List (List Nat)) :
    Option (List Nat) :=
  (calls step (fun ch => (ch, [])) 0 parts).map Prod.snd

/-- What encoders write for `\\n`. -/
def encodeNewline (eol : EolType) : List Nat :=
  (if eol ≠ .lf ∧ eol ≠ .autodetect then [CR] else []) ++ if eol ≠ .cr then [LF] else []

/-- `BYTE_ASCII_P` and `BUFBYTE_LEADING_BYTE_P`. -/
def byteAsciiP (c : Nat) : Bool := c < 0x80

def bufbyteLeadingByteP (c : Nat) : Bool := 0x80 ≤ c ∧ c < 0xA0

/-- The loop body of a decoder of two-byte codes: what begins one, what another byte stands
for, and what two bytes stand for. -/
def decodeTwoByteStep (firstP : Nat → Bool) (single : Nat → List Nat) (pair : Nat → Nat → List Nat)
    (eol : EolType) (s : DecodingStream) (c : Nat) : DecodingStream × List Nat :=
  if s.ch ≠ 0 then ({ s with ch := 0 }, pair s.ch c)
  else
    let (flags, out, continueLoop) := decodeHandleEolType eol c s.flags
    if continueLoop then ({ s with flags := flags }, out)
    else if firstP c then (⟨flags, c⟩, out)
    else ({ s with flags := flags }, out ++ single c)

/-! ### Where calls end -/

section Chunks

variable {decode : DecodingStream → Nat → DecodingStream × List Nat}
  {encode : Nat → Nat → Option (Nat × List Nat)}

/-- A decoder that leaves `CODING_STATE_END` alone. -/
def KeepsEnd (decode : DecodingStream → Nat → DecodingStream × List Nat) : Prop :=
  ∀ s c, (decode s c).1.flags.atEnd = s.flags.atEnd

theorem decodeStream_eq (hend : KeepsEnd decode) (parts : List (List Nat)) :
    decodeStream decode parts =
      (scan decode .start parts.flatten).2 ++
        (decodeOutputPartialChar (scan decode .start parts.flatten).1.ch ++
          if (scan decode .start parts.flatten).1.flags.cr then [CR] else []) := by
  have hcalls : scan (scanCall decode DecodingStream.handleEndOfConversion) .start parts
      = scan decode .start parts.flatten := by
    refine scan_scanCall (P := fun s => s.flags.atEnd = false) (fun s hs => ?_)
      (fun s c hs => (hend s c).trans hs) rfl parts
    rw [DecodingStream.handleEndOfConversion, if_neg (by rw [hs]; decide)]
  rw [decodeStream, hcalls]
  rfl

theorem encodeStream_eq (parts : List (List Nat)) :
    encodeStream encode parts = (run encode 0 parts.flatten).map Prod.snd := by
  rw [encodeStream, calls_eq_run (P := fun _ => True) (fun _ _ => rfl) (fun _ _ _ _ _ => trivial)
    trivial]

end Chunks

/-! ### Codes -/

/-- The CR that a decoder keeps back. -/
def DecodingStream.held (s : DecodingStream) : List Nat := if s.flags.cr then [CR] else []

/-- A decoder between two characters. A CR is kept back only where CRLF ends a line. -/
structure DecodingStream.Ready (eol : EolType) (s : DecodingStream) : Prop where
  ch : s.ch = 0
  cr : eol ≠ .crlf → s.flags.cr = false

/-- The bytes stand for the text, in both directions. -/
structure Coded (decode : DecodingStream → Nat → DecodingStream × List Nat)
    (encode : Nat → Nat → Option (Nat × List Nat)) (eol : EolType) (text bytes : List Nat) :
    Prop where
  ready {s : DecodingStream} : s.Ready eol → (scan decode s bytes).1.Ready eol
  decodes {s : DecodingStream} : s.Ready eol →
    (scan decode s bytes).2 ++ (scan decode s bytes).1.held = s.held ++ text
  encodes : run encode 0 text = some (0, bytes)

section Codes

variable {decode : DecodingStream → Nat → DecodingStream × List Nat}
  {encode : Nat → Nat → Option (Nat × List Nat)} {eol : EolType}

theorem Coded.nil : Coded decode encode eol [] [] :=
  ⟨fun hs => hs, fun _ => (append_nil _).symm, rfl⟩

theorem Coded.append {text text' bytes bytes' : List Nat} (h : Coded decode encode eol text bytes)
    (h' : Coded decode encode eol text' bytes') :
    Coded decode encode eol (text ++ text') (bytes ++ bytes') where
  ready hs := by
    rw [scan_append]
    exact h'.ready (h.ready hs)
  decodes {s} hs := by
    rw [scan_append]
    calc ((scan decode s bytes).2 ++ (scan decode (scan decode s bytes).1 bytes').2) ++
          (scan decode (scan decode s bytes).1 bytes').1.held
        = (scan decode s bytes).2 ++ ((scan decode s bytes).1.held ++ text') := by
          rw [append_assoc, h'.decodes (h.ready hs)]
      _ = s.held ++ (text ++ text') := by
          rw [← append_assoc, h.decodes hs, append_assoc]
  encodes := by
    rw [run_append, h.encodes, Option.bind_some, h'.encodes]
    rfl

theorem Coded.flatMap {α : Type} {text bytes : α → List Nat} {l : List α}
    (h : ∀ a ∈ l, Coded decode encode eol (text a) (bytes a)) :
    Coded decode encode eol (l.flatMap text) (l.flatMap bytes) := by
  induction l with
  | nil => exact .nil
  | cons a l ih =>
    rw [forall_mem_cons] at h
    exact h.1.append (ih h.2)

theorem Coded.decodeStream {text bytes : List Nat} (h : Coded decode encode eol text bytes)
    (hend : KeepsEnd decode) {parts : List (List Nat)} (hparts : parts.flatten = bytes) :
    decodeStream decode parts = text := by
  have hready : DecodingStream.start.Ready eol := ⟨rfl, fun _ => rfl⟩
  have hdecodes := h.decodes hready
  rw [decodeStream_eq hend, hparts, (h.ready hready).ch]
  exact hdecodes

theorem Coded.encodeStream {text bytes : List Nat} (h : Coded decode encode eol text bytes)
    {parts : List (List Nat)} (hparts : parts.flatten = text) :
    encodeStream encode parts = some bytes := by
  rw [encodeStream_eq, hparts, h.encodes]
  rfl

end Codes

/-! ### Exactness -/

/-- Decoder and encoder are inverse to each other, however the text and the bytes are cut: on
the texts of a repertoire, with LF or CRLF for the end of a line, and on the sequences of
certain codes, with LF. -/
structure ExactOn (decode : EolType → List (List Nat) → List Nat)
    (encode : EolType → List (List Nat) → Option (List Nat)) (repertoire : Mchar → Prop)
    (code : List Nat → Prop) : Prop where
  decode_encode {charsets : Charsets} {eol : EolType} : eol = .lf ∨ eol = .crlf →
    ∀ text : List Mchar, (∀ ch ∈ text, ch.Valid charsets ∧ repertoire ch) →
      ∀ parts : List (List Nat), parts.flatten = stringOf text →
        ∃ bytes, encode eol parts = some bytes ∧
          ∀ parts' : List (List Nat), parts'.flatten = bytes → decode eol parts' = stringOf text
  encode_decode : ∀ codes : List (List Nat), (∀ c ∈ codes, code c) →
    ∀ parts parts' : List (List Nat), parts.flatten = codes.flatten →
      parts'.flatten = decode .lf parts → encode .lf parts' = some codes.flatten

theorem exactOn_of_coded {decode : EolType → DecodingStream → Nat → DecodingStream × List Nat}
    {encode : EolType → Nat → Nat → Option (Nat × List Nat)} {repertoire : Mchar → Prop}
    {code : List Nat → Prop} (hend : ∀ eol, KeepsEnd (decode eol))
    (htext : ∀ (charsets : Charsets) (eol : EolType) (ch : Mchar), ch.Valid charsets →
      repertoire ch → eol ≠ .cr → ∃ bytes, Coded (decode eol) (encode eol) eol ch.bytes bytes)
    (hcode : ∀ c, code c → ∃ text, Coded (decode .lf) (encode .lf) .lf text c) :
    ExactOn (fun eol => decodeStream (decode eol)) (fun eol => encodeStream (encode eol))
      repertoire code where
  decode_encode {charsets eol} heol text hch parts hparts := by
    have hne : eol ≠ .cr := by
      rintro rfl
      obtain h | h := heol <;> cases h
    obtain ⟨bytes, hcoded⟩ : ∃ bytes, Coded (decode eol) (encode eol) eol (stringOf text) bytes := by
      clear hparts
      induction text with
      | nil => exact ⟨[], .nil⟩
      | cons ch text ih =>
        rw [forall_mem_cons] at hch
        obtain ⟨bytes, hbytes⟩ := htext charsets eol ch hch.1.1 hch.1.2 hne
        obtain ⟨rest, hrest⟩ := ih hch.2
        exact ⟨bytes ++ rest, hbytes.append hrest⟩
    exact ⟨bytes, hcoded.encodeStream hparts,
      fun parts' hparts' => hcoded.decodeStream (hend eol) hparts'⟩
  encode_decode codes hcodes parts parts' hparts hparts' := by
    obtain ⟨text, hcoded⟩ : ∃ text, Coded (decode .lf) (encode .lf) .lf text codes.flatten := by
      clear hparts
      induction codes with
      | nil => exact ⟨[], .nil⟩
      | cons c codes ih =>
        rw [forall_mem_cons] at hcodes
        obtain ⟨text, htext'⟩ := hcode c hcodes.1
        obtain ⟨rest, hrest⟩ := ih hcodes.2
        exact ⟨text ++ rest, htext'.append hrest⟩
    exact hcoded.encodeStream (hparts'.trans (hcoded.decodeStream (hend .lf) hparts))

/-! ### The end of a line -/

theorem decodeHandleEolType_of_ne {eol : EolType} {flags : Flags} {c : Nat} (hc : c ≠ CR) :
    decodeHandleEolType eol c flags =
      ({ flags with cr := false }, if flags.cr ∧ c ≠ LF then [CR] else [], false) := by
  rw [decodeHandleEolType, if_neg hc]
  cases hcr : flags.cr with
  | true => simp
  | false =>
    have hsame : { flags with cr := false } = flags := by rw [← hcr]
    simp [hsame]

/-- The flag for a CR is off. -/
def DecodingStream.clearCr (s : DecodingStream) : DecodingStream :=
  { s with flags := { s.flags with cr := false } }

/-- A decoder that begins with `DECODE_HANDLE_EOL_TYPE` between two characters. -/
structure HandlesEol (decode : DecodingStream → Nat → DecodingStream × List Nat)
    (eol : EolType) : Prop where
  cr {s : DecodingStream} : s.ch = 0 → decode s CR =
    ({ s with flags := (decodeHandleEolType eol CR s.flags).1 },
      (decodeHandleEolType eol CR s.flags).2.1)
  other {s : DecodingStream} {c : Nat} : s.ch = 0 → c ≠ CR → decode s c =
    ((decode s.clearCr c).1, (if s.flags.cr ∧ c ≠ LF then [CR] else []) ++ (decode s.clearCr c).2)

section Lines

variable {decode : DecodingStream → Nat → DecodingStream × List Nat}
  {encode : Nat → Nat → Option (Nat × List Nat)} {eol : EolType}

theorem HandlesEol.coded (heol : HandlesEol decode eol) {text : List Nat} {c : Nat}
    {rest : List Nat} (hcr : c ≠ CR) (hlf : c ≠ LF)
    (hdecode : ∀ s : DecodingStream, s.ch = 0 → s.flags.cr = false →
      scan decode s (c :: rest) = (s, text))
    (hencode : run encode 0 text = some (0, c :: rest)) :
    Coded decode encode eol text (c :: rest) := by
  have hscan : ∀ s : DecodingStream, s.ch = 0 →
      scan decode s (c :: rest) = (s.clearCr, s.held ++ text) := by
    intro s hs
    have hclear := hdecode s.clearCr hs rfl
    rw [scan] at hclear ⊢
    rw [heol.other hs hcr]
    have hheld : (if s.flags.cr ∧ c ≠ LF then [CR] else []) = s.held := by
      simp [DecodingStream.held, hlf]
    obtain ⟨hstate, hout⟩ := Prod.ext_iff.mp hclear
    simp only at hstate hout ⊢
    rw [hheld, append_assoc, hstate, hout]
  refine ⟨fun {s} hs => ?_, fun {s} hs => ?_, hencode⟩
  · rw [hscan s hs.ch]
    exact ⟨hs.ch, fun _ => rfl⟩
  · rw [hscan s hs.ch]
    exact append_nil _

theorem HandlesEol.coded_cr (heol : HandlesEol decode eol) (hne : eol ≠ .cr)
    (hencode : encode 0 CR = some (0, [CR])) : Coded decode encode eol [CR] [CR] := by
  have hscan : ∀ s : DecodingStream, s.Ready eol → ∃ s', scan decode s [CR]
      = (s', if s'.flags.cr ∧ s.flags.cr = false then [] else [CR]) ∧ s'.Ready eol ∧
        (s.flags.cr = true → s'.flags.cr = true) := by
    intro s hs
    refine ⟨{ s with flags := (decodeHandleEolType eol CR s.flags).1 }, ?_, ?_, ?_⟩
    · rw [scan, heol.cr hs.ch]
      by_cases hcrlf : eol = .crlf
      · cases hcr : s.flags.cr <;> simp [decodeHandleEolType, hcr, hcrlf, scan]
      · have hcr := hs.cr hcrlf
        simp [decodeHandleEolType, hcr, hcrlf, hne, scan]
    · refine ⟨hs.ch, fun hcrlf => ?_⟩
      have hcr := hs.cr hcrlf
      simp [decodeHandleEolType, hcr, hcrlf, hne]
    · intro hcr
      by_cases hcrlf : eol = .crlf
      · simp [decodeHandleEolType, hcr, hcrlf]
      · rw [hs.cr hcrlf] at hcr
        cases hcr
  refine ⟨fun {s} hs => ?_, fun {s} hs => ?_, by rw [run_cons, hencode]; rfl⟩
  · obtain ⟨s', hs', hready, -⟩ := hscan s hs
    rw [hs']
    exact hready
  · obtain ⟨s', hs', -, hkeeps⟩ := hscan s hs
    rw [hs']
    simp only [DecodingStream.held]
    cases hcr : s.flags.cr with
    | true => simp [hkeeps hcr]
    | false => cases hcr' : s'.flags.cr <;> simp

theorem HandlesEol.coded_newline (heol : HandlesEol decode eol)
    (hdecode : ∀ s : DecodingStream, s.ch = 0 → s.flags.cr = false → decode s LF = (s, [LF]))
    (hencode : encode 0 LF = some (0, encodeNewline eol)) :
    Coded decode encode eol [LF] (encodeNewline eol) := by
  have hlf : ∀ s : DecodingStream, s.ch = 0 → decode s LF = (s.clearCr, [LF]) := by
    intro s hs
    rw [heol.other hs (by decide), hdecode s.clearCr hs rfl]
    simp
  have hscan : ∀ s : DecodingStream, s.Ready eol →
      scan decode s (encodeNewline eol) = (s.clearCr, s.held ++ [LF]) := by
    intro s hs
    have hch := hs.ch
    cases eol with
    | lf | autodetect =>
      have hcr := hs.cr (by decide)
      simp [encodeNewline, scan, hlf s hs.ch, DecodingStream.held, hcr]
    | cr =>
      have hcr := hs.cr (by decide)
      have hclear : s.clearCr = s := by rw [DecodingStream.clearCr, ← hcr]
      simp [encodeNewline, scan, heol.cr hs.ch, decodeHandleEolType, DecodingStream.held, hcr,
        hclear]
    | crlf =>
      have hfirst : decode s CR = ({ s with flags := { s.flags with cr := true } }, s.held) := by
        rw [heol.cr hs.ch]
        cases hcr : s.flags.cr with
        | true =>
          have hsame : { s.flags with cr := true } = s.flags := by rw [← hcr]
          simp [decodeHandleEolType, hcr, DecodingStream.held, hsame]
        | false => simp [decodeHandleEolType, hcr, DecodingStream.held]
      have hboth : encodeNewline .crlf = [CR, LF] := rfl
      have hsecond := hlf { s with flags := { s.flags with cr := true } } hs.ch
      simp only [hboth, scan, hfirst, hsecond, append_nil]
      rfl
  refine ⟨fun {s} hs => ?_, fun {s} hs => ?_, by rw [run_cons, hencode]; simp⟩
  · rw [hscan s hs]
    exact ⟨hs.ch, fun _ => rfl⟩
  · rw [hscan s hs]
    exact append_nil _

end Lines

section TwoBytes

variable {firstP : Nat → Bool} {single : Nat → List Nat} {pair : Nat → Nat → List Nat}
  {eol : EolType}

theorem decodeHandleEolType_atEnd (eol : EolType) (c : Nat) (flags : Flags) :
    (decodeHandleEolType eol c flags).1.atEnd = flags.atEnd := by
  rw [decodeHandleEolType]
  split_ifs <;> rfl

theorem decodeTwoByte_keepsEnd : KeepsEnd (decodeTwoByteStep firstP single pair eol) := by
  intro s c
  have hflags := decodeHandleEolType_atEnd eol c s.flags
  simp only [decodeTwoByteStep]
  split_ifs
  · rfl
  · exact hflags
  · exact hflags
  · exact hflags

theorem decodeHandleEolType_cr (flags : Flags) :
    (decodeHandleEolType eol CR flags).2.2 = true := by
  rw [decodeHandleEolType, if_pos rfl]
  split_ifs <;> rfl

theorem decodeTwoByte_handlesEol : HandlesEol (decodeTwoByteStep firstP single pair eol) eol where
  cr {s} hs := by
    simp only [decodeTwoByteStep, hs, ne_eq, not_true, if_false]
    rw [if_pos (decodeHandleEolType_cr s.flags)]
  other {s c} hs hc := by
    simp only [decodeTwoByteStep, DecodingStream.clearCr, hs, ne_eq, not_true, if_false,
      decodeHandleEolType_of_ne hc, Bool.false_eq_true, false_and]
    cases firstP c <;> simp

theorem decodeTwoByte_single {s : DecodingStream} {c : Nat} (hs : s.ch = 0)
    (hcr : s.flags.cr = false) (hc : c ≠ CR) (hfirst : firstP c = false) :
    decodeTwoByteStep firstP single pair eol s c = (s, single c) := by
  rw [decodeTwoByteStep, if_neg (by simpa using hs), decodeHandleEolType, if_neg hc,
    if_neg (by rw [hcr]; decide)]
  simp [hfirst]

theorem scan_decodeTwoByte {s : DecodingStream} {c c' : Nat} (hs : s.ch = 0)
    (hcr : s.flags.cr = false) (hc : c ≠ CR) (hc0 : c ≠ 0) (hfirst : firstP c = true) :
    scan (decodeTwoByteStep firstP single pair eol) s [c, c'] = (s, pair c c') := by
  have hstep : decodeTwoByteStep firstP single pair eol s c = ({ s with ch := c }, []) := by
    rw [decodeTwoByteStep, if_neg (by simpa using hs), decodeHandleEolType, if_neg hc,
      if_neg (by rw [hcr]; decide)]
    simp [hfirst]
  have hsecond : decodeTwoByteStep firstP single pair eol { s with ch := c } c'
      = (s, pair c c') := by
    rw [decodeTwoByteStep, if_pos hc0, ← hs]
  simp only [scan, hstep, hsecond, nil_append, append_nil]

end TwoBytes

end XEmacs.Coding

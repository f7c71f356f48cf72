import XEmacs.Coding.Streams
import XEmacs.Lib.Transducers

/-!
# UTF-8 and UCS-4

Codes and characters are related by two tables that Lisp programs fill: `ucs_to_mule_table`, with
a place for each code below 65536, and `mule_to_ucs_table`.
-/

namespace XEmacs.Coding

/-- `ucs_to_mule_table` and `mule_to_ucs_table`, with characters as numbers; `none` is nil. -/
structure UcsTables where
  ucsToMule : Nat → Option Nat
  muleToUcs : Nat → Option Nat

/-- What the decoders and encoders read besides the text. -/
structure UcsEnv where
  charsets : Charsets
  tables : UcsTables
  /-- `set-ucs-char` checks that it gets a character. -/
  ucsToMule_valid : ∀ code c, tables.ucsToMule code = some c →
    ∃ ch : Mchar, ch.Valid charsets ∧ ch.emchar = c

/-- `countof (fcd->ucs_to_mule_table)`. -/
def ucsTableSize : Nat := 65536

/-- The first code of the private block, and the last one that the decoder takes for one. -/
def privateBlock : Nat := 0xe00000

def privateBlockEnd : Nat := 0xe00000 + 94 * 94 * 14

/-- <GETA MARK> (U+3013) of JIS X 0208. -/
def getaMark : List Nat := [leadingByteJisx0208, 34 + 128, 46 + 128]

namespace UcsEnv

variable (env : UcsEnv)

/-- `CHARSET_BY_ATTRIBUTES` for a code of the private block. -/
def privateCharset (code : Nat) : Option Charset :=
  env.charsets.byAttributes .type94x94 ((code - privateBlock) / (94 * 94) + 0x40) .leftToRight

/-- `ucs_to_char`: nil or a character. -/
def ucsToChar (code : Nat) : Option (Option Nat) :=
  if code < ucsTableSize then some (env.tables.ucsToMule code)
  else if privateBlock ≤ code ∧ code ≤ privateBlockEnd then
    let c := (code - privateBlock) % (94 * 94)
    (env.privateCharset code).map fun charset =>
      some (makeChar charset (c / 94 + 33) (c % 94 + 33))
  else some none

def decodeUcs4 (code : Nat) : Option (List Nat) :=
  (env.ucsToChar code).bind fun
    | some c => setCharptrEmchar env.charsets c
    | none => some getaMark

end UcsEnv

/-! ### Decoders -/

/-- The variables of `decode_coding_ucs4` and `decode_coding_utf8` that live between calls. -/
structure UnicodeDecoder where
  flags : Flags
  ch : Nat
  counter : Nat
deriving DecidableEq, Repr

namespace UnicodeDecoder

def start : UnicodeDecoder := ⟨.zero, 0, 0⟩

/-- The loop body of `decode_coding_ucs4`. -/
def ucs4Step (env : UcsEnv) (s : UnicodeDecoder) (c : Nat) :
    Option (UnicodeDecoder × List Nat) :=
  match s.counter with
  | 0 => some ({ s with ch := c, counter := 3 }, [])
  | 1 => (env.decodeUcs4 (s.ch * 256 + c)).map fun out => ({ s with ch := 0, counter := 0 }, out)
  | n + 2 => some ({ s with ch := s.ch * 256 + c, counter := n + 1 }, [])

/-- The end of `decode_coding_ucs4`: the test is `counter & CODING_STATE_END`. -/
def ucs4Finish (s : UnicodeDecoder) : UnicodeDecoder × List Nat :=
  if s.counter % 2 = 1 then ({ s with ch := 0 }, decodeOutputPartialChar s.ch) else (s, [])

/-- The loop body of `decode_coding_utf8`. -/
def utf8Step (env : UcsEnv) (eol : EolType) (s : UnicodeDecoder) (c : Nat) :
    Option (UnicodeDecoder × List Nat) :=
  match s.counter with
  | 0 =>
    if c ≥ 0xfc then some ({ s with ch := c % 2, counter := 5 }, [])
    else if c ≥ 0xf8 then some ({ s with ch := c % 4, counter := 4 }, [])
    else if c ≥ 0xf0 then some ({ s with ch := c % 8, counter := 3 }, [])
    else if c ≥ 0xe0 then some ({ s with ch := c % 16, counter := 2 }, [])
    else if c ≥ 0xc0 then some ({ s with ch := c % 32, counter := 1 }, [])
    else
      let (flags, out, continueLoop) := decodeHandleEolType eol c s.flags
      if continueLoop then some ({ s with flags := flags }, out)
      else (env.decodeUcs4 c).map fun out' => ({ s with flags := flags }, out ++ out')
  | 1 =>
    (env.decodeUcs4 (s.ch * 64 + c % 64)).map fun out => ({ s with ch := 0, counter := 0 }, out)
  | n + 2 => some ({ s with ch := s.ch * 64 + c % 64, counter := n + 1 }, [])

/-- The end of `decode_coding_utf8`. -/
def utf8Finish (s : UnicodeDecoder) : UnicodeDecoder × List Nat :=
  if s.flags.atEnd then ({ s with ch := 0 }, decodeOutputPartialChar s.ch) else (s, [])

end UnicodeDecoder

/-- A text that comes in parts, and the last call with `CODING_STATE_END`. -/
def decodeUnicode (step : UnicodeDecoder → Nat → Option (UnicodeDecoder × List Nat))
    (finish : UnicodeDecoder → UnicodeDecoder × List Nat) (parts : List (List Nat)) :
    Option (List Nat) :=
  (Transducer.calls step finish .start parts).bind fun r =>
    (Transducer.call step finish { r.1 with flags := { r.1.flags with atEnd := true } } []).map
      fun r' => r.2 ++ r'.2

def decodeCodingUcs4 (env : UcsEnv) : List (List Nat) → Option (List Nat) :=
  decodeUnicode (UnicodeDecoder.ucs4Step env) UnicodeDecoder.ucs4Finish

def decodeCodingUtf8 (env : UcsEnv) (eol : EolType) : List (List Nat) → Option (List Nat) :=
  decodeUnicode (UnicodeDecoder.utf8Step env eol) UnicodeDecoder.utf8Finish

end XEmacs.Coding

/-!
## What the Unicode decoders find

Both decoders put codes together from bytes, whatever these are, and hand them to `decode_ucs4`;
besides, they write line ends and what is left of a character.
-/

namespace XEmacs.Coding

open Transducer Option

inductive Event where
  | code (code : Nat)
  | lineEnd (c : Nat)
  | partialChar (ch : Nat)
deriving DecidableEq, Repr

namespace Event

/-- What is written for an event. -/
def write (env : UcsEnv) : Event → Option (List Nat)
  | code n => env.decodeUcs4 n
  | lineEnd c => some [c]
  | partialChar ch => some (decodeOutputPartialChar ch)

/-- What is written is a well-formed string: a code of the private block has a charset, and a
partial character is ASCII or Control-1, or its low byte can be taken for one of Latin-1. -/
def Ok (env : UcsEnv) : Event → Prop
  | code n => privateBlock ≤ n → n ≤ privateBlockEnd → (env.privateCharset n).isSome
  | lineEnd _ => True
  | partialChar ch => ch < 0xA0 ∨ 0xA0 ≤ ch % 256

end Event

namespace UnicodeDecoder

/-- `ucs4Step`, without the tables. -/
def ucs4Scan (s : UnicodeDecoder) (c : Nat) : UnicodeDecoder × List Event :=
  match s.counter with
  | 0 => ({ s with ch := c, counter := 3 }, [])
  | 1 => ({ s with ch := 0, counter := 0 }, [.code (s.ch * 256 + c)])
  | n + 2 => ({ s with ch := s.ch * 256 + c, counter := n + 1 }, [])

def ucs4FinishEvents (s : UnicodeDecoder) : UnicodeDecoder × List Event :=
  if s.counter % 2 = 1 then ({ s with ch := 0 }, [.partialChar s.ch]) else (s, [])

/-- `utf8Step`, without the tables. -/
def utf8Scan (eol : EolType) (s : UnicodeDecoder) (c : Nat) : UnicodeDecoder × List Event :=
  match s.counter with
  | 0 =>
    if c ≥ 0xfc then ({ s with ch := c % 2, counter := 5 }, [])
    else if c ≥ 0xf8 then ({ s with ch := c % 4, counter := 4 }, [])
    else if c ≥ 0xf0 then ({ s with ch := c % 8, counter := 3 }, [])
    else if c ≥ 0xe0 then ({ s with ch := c % 16, counter := 2 }, [])
    else if c ≥ 0xc0 then ({ s with ch := c % 32, counter := 1 }, [])
    else
      let (flags, out, continueLoop) := decodeHandleEolType eol c s.flags
      ({ s with flags := flags },
        out.map .lineEnd ++ if continueLoop then [] else [.code c])
  | 1 => ({ s with ch := 0, counter := 0 }, [.code (s.ch * 64 + c % 64)])
  | n + 2 => ({ s with ch := s.ch * 64 + c % 64, counter := n + 1 }, [])

def utf8FinishEvents (s : UnicodeDecoder) : UnicodeDecoder × List Event :=
  if s.flags.atEnd then ({ s with ch := 0 }, [.partialChar s.ch]) else (s, [])

theorem utf8Scan_lead (eol : EolType) (flags : Flags) (ch : Nat) {c : Nat} (hc : 0xc0 ≤ c) :
    ∃ ch' n, utf8Scan eol ⟨flags, ch, 0⟩ c = (⟨flags, ch', n + 1⟩, []) := by
  simp only [utf8Scan]
  split_ifs with h₁ h₂ h₃ h₄
  · exact ⟨_, 4, rfl⟩
  · exact ⟨_, 3, rfl⟩
  · exact ⟨_, 2, rfl⟩
  · exact ⟨_, 1, rfl⟩
  · exact ⟨_, 0, rfl⟩

theorem utf8Scan_single (eol : EolType) (flags : Flags) (ch : Nat) {c : Nat} (hc : c < 0xc0) :
    utf8Scan eol ⟨flags, ch, 0⟩ c
      = (⟨(decodeHandleEolType eol c flags).1, ch, 0⟩,
        (decodeHandleEolType eol c flags).2.1.map .lineEnd ++
          if (decodeHandleEolType eol c flags).2.2 then [] else [.code c]) := by
  simp only [utf8Scan]
  rw [if_neg (by omega), if_neg (by omega), if_neg (by omega), if_neg (by omega),
    if_neg (by omega)]

end UnicodeDecoder

/-- The events of a text that comes in parts. -/
def unicodeEvents (next : UnicodeDecoder → Nat → UnicodeDecoder × List Event)
    (finish : UnicodeDecoder → UnicodeDecoder × List Event) (parts : List (List Nat)) :
    List Event :=
  let r := scan (scanCall next finish) .start parts
  r.2 ++ (finish { r.1 with flags := { r.1.flags with atEnd := true } }).2

def ucs4Events : List (List Nat) → List Event :=
  unicodeEvents UnicodeDecoder.ucs4Scan UnicodeDecoder.ucs4FinishEvents

def utf8Events (eol : EolType) : List (List Nat) → List Event :=
  unicodeEvents (UnicodeDecoder.utf8Scan eol) UnicodeDecoder.utf8FinishEvents

/-! ### Decoding is writing the events out -/

section Decoding

variable {env : UcsEnv} {eol : EolType}

theorem render_one (e : Event) : render (Event.write env) [e] = e.write env := by
  rw [render_cons, render_nil]
  cases e.write env with
  | none => rfl
  | some out => simp

theorem render_lineEnds (out : List Nat) :
    render (Event.write env) (out.map .lineEnd) = some out := by
  induction out with
  | nil => rfl
  | cons c out ih =>
    rw [List.map_cons, render_cons, ih]
    rfl

theorem ucs4Step_eq (s : UnicodeDecoder) (c : Nat) :
    UnicodeDecoder.ucs4Step env s c
      = (render (Event.write env) (UnicodeDecoder.ucs4Scan s c).2).map
          fun out => ((UnicodeDecoder.ucs4Scan s c).1, out) := by
  obtain ⟨flags, ch, counter⟩ := s
  match counter with
  | 0 => rfl
  | 1 => exact congrArg (Option.map _) (render_one (.code _)).symm
  | n + 2 => rfl

theorem utf8Step_eq (s : UnicodeDecoder) (c : Nat) :
    UnicodeDecoder.utf8Step env eol s c
      = (render (Event.write env) (UnicodeDecoder.utf8Scan eol s c).2).map
          fun out => ((UnicodeDecoder.utf8Scan eol s c).1, out) := by
  obtain ⟨flags, ch, counter⟩ := s
  match counter with
  | 0 =>
    simp only [UnicodeDecoder.utf8Step, UnicodeDecoder.utf8Scan]
    split_ifs with h₁ h₂ h₃ h₄ h₅ hcontinue
    · rfl
    · rfl
    · rfl
    · rfl
    · rfl
    · rw [List.append_nil, render_lineEnds]
      rfl
    · rw [render_append, render_lineEnds, render_one, bind_some, map_map]
      rfl
  | 1 => exact congrArg (Option.map _) (render_one (.code _)).symm
  | n + 2 => rfl

theorem ucs4Finish_eq (s : UnicodeDecoder) :
    (UnicodeDecoder.ucs4FinishEvents s).1 = (UnicodeDecoder.ucs4Finish s).1 ∧
      render (Event.write env) (UnicodeDecoder.ucs4FinishEvents s).2
        = some (UnicodeDecoder.ucs4Finish s).2 := by
  rw [UnicodeDecoder.ucs4FinishEvents, UnicodeDecoder.ucs4Finish]
  split
  · exact ⟨rfl, render_one _⟩
  · exact ⟨rfl, rfl⟩

theorem utf8Finish_eq (s : UnicodeDecoder) :
    (UnicodeDecoder.utf8FinishEvents s).1 = (UnicodeDecoder.utf8Finish s).1 ∧
      render (Event.write env) (UnicodeDecoder.utf8FinishEvents s).2
        = some (UnicodeDecoder.utf8Finish s).2 := by
  rw [UnicodeDecoder.utf8FinishEvents, UnicodeDecoder.utf8Finish]
  split
  · exact ⟨rfl, render_one _⟩
  · exact ⟨rfl, rfl⟩

theorem decodeUnicode_eq {step : UnicodeDecoder → Nat → Option (UnicodeDecoder × List Nat)}
    {finish : UnicodeDecoder → UnicodeDecoder × List Nat}
    {next : UnicodeDecoder → Nat → UnicodeDecoder × List Event}
    {finishEvents : UnicodeDecoder → UnicodeDecoder × List Event}
    (hstep : ∀ s c, step s c
      = (render (Event.write env) (next s c).2).map fun out => ((next s c).1, out))
    (hfinish : ∀ s, (finishEvents s).1 = (finish s).1 ∧
      render (Event.write env) (finishEvents s).2 = some (finish s).2)
    (parts : List (List Nat)) :
    decodeUnicode step finish parts
      = render (Event.write env) (unicodeEvents next finishEvents parts) := by
  have hcall := call_eq_render hstep hfinish
  simp only [decodeUnicode, unicodeEvents, calls]
  rw [run_eq_render hcall, render_append]
  cases render (Event.write env) (scan (scanCall next finishEvents) .start parts).2 with
  | none => rfl
  | some out =>
    rw [map_some, bind_some, bind_some, hcall]
    simp only [scanCall, scan, List.nil_append, map_map]
    rfl

/-- **UTF-8 and UCS-4 decoding** is writing the events out. -/
theorem decodeCodingUcs4_eq (parts : List (List Nat)) :
    decodeCodingUcs4 env parts = render (Event.write env) (ucs4Events parts) :=
  decodeUnicode_eq ucs4Step_eq ucs4Finish_eq parts

theorem decodeCodingUtf8_eq (parts : List (List Nat)) :
    decodeCodingUtf8 env eol parts = render (Event.write env) (utf8Events eol parts) :=
  decodeUnicode_eq utf8Step_eq utf8Finish_eq parts

end Decoding

end XEmacs.Coding

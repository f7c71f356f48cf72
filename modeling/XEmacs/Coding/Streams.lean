import XEmacs.Coding.Charsets
import Mathlib.Tactic.SplitIfs

/-!
# What decoders share

A decoder keeps a word of flags and a partial character between calls (file-coding.c). The macros
that all decoders use are here.
-/

namespace XEmacs.Coding

/-- The bits of `CODING_STATE_*` that decoders use. -/
structure Flags where
  atEnd : Bool
  cr : Bool
  r2l : Bool
  escape : Bool
  ss2 : Bool
  ss3 : Bool
deriving DecidableEq, Repr

namespace Flags

def zero : Flags := ⟨false, false, false, false, false, false⟩

end Flags

/-- `eol_type_t`. -/
inductive EolType where
  | autodetect
  | lf
  | crlf
  | cr
deriving DecidableEq, Repr

def CR : Nat := 0x0D
def LF : Nat := 0x0A

/-- `DECODE_HANDLE_EOL_TYPE`: the flags, what is written, and whether the macro jumps to the
end of the loop. -/
def decodeHandleEolType (eol : EolType) (c : Nat) (flags : Flags) : Flags × List Nat × Bool :=
  if c = CR then
    if eol = .cr then (flags, [LF], true)
    else if eol ≠ .crlf ∨ flags.cr then (flags, [c], true)
    else ({ flags with cr := true }, [], true)
  else if flags.cr then ({ flags with cr := false }, if c ≠ LF then [CR] else [], false)
  else (flags, [], false)

/-- `DECODE_ADD_BINARY_CHAR`. What is written are bytes. -/
def decodeAddBinaryChar (c : Nat) : List Nat :=
  if c < 0x80 then [c]
  else if c < 0xA0 then [leadingByteControl1, c + 0x20]
  else [leadingByteLatin1, c % 256]

/-- `DECODE_OUTPUT_PARTIAL_CHAR`, which also sets the partial character to zero. -/
def decodeOutputPartialChar (ch : Nat) : List Nat :=
  if ch = 0 then [] else decodeAddBinaryChar ch

/-! ### What they write -/

theorem decodeHandleEolType_lt {eol : EolType} {c : Nat} {flags : Flags} :
    ∀ b ∈ (decodeHandleEolType eol c flags).2.1, b < 128 := by
  rw [decodeHandleEolType]
  split_ifs with hcr hcr' hflags hflags' hlf
  · exact List.forall_mem_singleton.mpr (by decide)
  · exact List.forall_mem_singleton.mpr (by rw [hcr]; decide)
  · exact nofun
  · exact List.forall_mem_singleton.mpr (by decide)
  · exact nofun
  · exact nofun

theorem decodeAddBinaryChar_valid (charsets : Charsets) {c : Nat}
    (hc : c < 0xA0 ∨ 0xA0 ≤ c % 256) :
    ∃ ch : Mchar, ch.Valid charsets ∧ ch.bytes = decodeAddBinaryChar c := by
  rw [decodeAddBinaryChar]
  split_ifs with hascii hcontrol
  · obtain ⟨ch, hch, hbytes, -⟩ := exists_ascii charsets hascii
    exact ⟨ch, hch, hbytes⟩
  · obtain ⟨ch, hch, hbytes, -⟩ := exists_control1 charsets (Nat.not_lt.mp hascii) hcontrol
    exact ⟨ch, hch, hbytes⟩
  · have hlow : 0xA0 ≤ c % 256 := hc.resolve_left hcontrol
    obtain ⟨ch, hch, hbytes, -⟩ := exists_latin1 charsets hlow (Nat.mod_lt c (by decide))
    exact ⟨ch, hch, hbytes⟩

end XEmacs.Coding

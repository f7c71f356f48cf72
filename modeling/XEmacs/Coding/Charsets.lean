import Mathlib.Data.List.Basic
import Mathlib.Data.List.Nodup

/-!
# Charsets and characters

A character belongs to a charset and has one or two position codes in it.
-/

namespace XEmacs.Coding

open List Option

inductive CharsetType where
  | type94
  | type96
  | type94x94
  | type96x96
deriving DecidableEq, Repr

def CharsetType.dimension : CharsetType → Nat
  | type94 | type96 => 1
  | type94x94 | type96x96 => 2

def CharsetType.chars : CharsetType → Nat
  | type94 | type94x94 => 94
  | type96 | type96x96 => 96

inductive Direction where
  | leftToRight
  | rightToLeft
deriving DecidableEq, Repr

def Direction.reverse : Direction → Direction
  | leftToRight => rightToLeft
  | rightToLeft => leftToRight

/-- `struct Lisp_Charset`. A charset is known by its leading byte, and so is the one that goes
in the other direction. -/
structure Charset where
  leadingByte : Nat
  repBytes : Nat
  type : CharsetType
  graphic : Nat
  final : Nat
  direction : Direction
  reverseDirectionCharset : Option Nat
deriving DecidableEq, Repr

namespace Charset

/-- `XCHARSET_DIMENSION`, `XCHARSET_CHARS` and `XCHARSET_PRIVATE_P`. -/
def dimension (cs : Charset) : Nat := cs.type.dimension

def chars (cs : Charset) : Nat := cs.type.chars

def isPrivate (cs : Charset) : Bool := 0xA0 ≤ cs.leadingByte

end Charset

abbrev leadingByteAscii : Nat := 0x8E
abbrev leadingByteControl1 : Nat := 0x8F
abbrev leadingByteLatin1 : Nat := 0x81
abbrev leadingByteJisx0208 : Nat := 0x92

/-- The charsets of `complex_vars_of_mule_charset`. -/
def standardCharsets : List Charset :=
  [⟨0x8E, 1, .type94, 0, 0x42, .leftToRight, none⟩,
   ⟨0x8F, 2, .type94, 1, 0, .leftToRight, none⟩,
   ⟨0x81, 2, .type96, 1, 0x41, .leftToRight, none⟩,
   ⟨0x82, 2, .type96, 1, 0x42, .leftToRight, none⟩,
   ⟨0x83, 2, .type96, 1, 0x43, .leftToRight, none⟩,
   ⟨0x84, 2, .type96, 1, 0x44, .leftToRight, none⟩,
   ⟨0x85, 2, .type96, 1, 0x54, .leftToRight, none⟩,
   ⟨0x86, 2, .type96, 1, 0x46, .leftToRight, none⟩,
   ⟨0x87, 2, .type96, 1, 0x47, .rightToLeft, none⟩,
   ⟨0x88, 2, .type96, 1, 0x48, .rightToLeft, none⟩,
   ⟨0x89, 2, .type94, 1, 0x49, .leftToRight, none⟩,
   ⟨0x8A, 2, .type94, 0, 0x4A, .leftToRight, none⟩,
   ⟨0x8B, 2, .type96, 1, 0x4C, .leftToRight, none⟩,
   ⟨0x8C, 2, .type96, 1, 0x4D, .leftToRight, none⟩,
   ⟨0x90, 3, .type94x94, 0, 0x40, .leftToRight, none⟩,
   ⟨0x91, 3, .type94x94, 0, 0x41, .leftToRight, none⟩,
   ⟨0x92, 3, .type94x94, 0, 0x42, .leftToRight, none⟩,
   ⟨0x93, 3, .type94x94, 0, 0x43, .leftToRight, none⟩,
   ⟨0x94, 3, .type94x94, 0, 0x44, .leftToRight, none⟩,
   ⟨0x95, 3, .type94x94, 0, 0x47, .leftToRight, none⟩,
   ⟨0x96, 3, .type94x94, 0, 0x48, .leftToRight, none⟩,
   ⟨0x97, 3, .type94x94, 0, 0x30, .leftToRight, none⟩,
   ⟨0x98, 3, .type94x94, 0, 0x31, .leftToRight, none⟩]

namespace Charset

/-- A charset as it was when it was made. -/
def made (cs : Charset) : Charset := { cs with reverseDirectionCharset := none }

/-- What `make-charset` and `make-reverse-direction-charset` make: a private leading byte for
the dimension, and a final byte as `make-charset` wants it, or that of the charset to be
reversed. -/
structure UserDefined (cs : Charset) : Prop where
  repBytes : cs.repBytes = cs.dimension + 2
  leadingByte : (cs.dimension = 1 ∧ 0xA0 ≤ cs.leadingByte ∧ cs.leadingByte ≤ 0xEF) ∨
    (cs.dimension = 2 ∧ 0xF0 ≤ cs.leadingByte ∧ cs.leadingByte ≤ 0xFF)
  final : cs.final = 0 ∨ (0x30 ≤ cs.final ∧ cs.final ≤ 0x7E)
  graphic : cs.graphic ≤ 1

/-- Two charsets with the same place in `charset_by_attributes` but for the direction. -/
def SameAttributes (cs cs' : Charset) : Prop :=
  cs.type = cs'.type ∧ cs.final = cs'.final

instance (cs cs' : Charset) : Decidable (cs.SameAttributes cs') :=
  inferInstanceAs (Decidable (_ ∧ _))

end Charset

/-- The defined charsets. `make_charset` asserts that the leading byte and the attributes are
free; `make-charset` refuses attributes that are in use in either direction, so that only
`make-reverse-direction-charset` makes a second charset with them. -/
structure Charsets where
  list : List Charset
  leadingByte_inj : ∀ cs ∈ list, ∀ cs' ∈ list, cs.leadingByte = cs'.leadingByte → cs = cs'
  attributes_inj : ∀ cs ∈ list, ∀ cs' ∈ list, cs.final ≠ 0 → cs.SameAttributes cs' →
    cs.direction = cs'.direction → cs = cs'
  standard : ∀ cs ∈ standardCharsets, ∃ cs' ∈ list, cs'.made = cs
  known : ∀ cs ∈ list, cs.made ∈ standardCharsets ∨ cs.UserDefined
  reverse : ∀ cs ∈ list, ∀ lb, cs.reverseDirectionCharset = some lb →
    ∃ cs' ∈ list, cs'.leadingByte = lb ∧ cs.SameAttributes cs' ∧
      cs'.direction = cs.direction.reverse
  reverse_complete : ∀ cs ∈ list, ∀ cs' ∈ list, cs.final ≠ 0 → cs.SameAttributes cs' →
    cs'.direction = cs.direction.reverse → cs.reverseDirectionCharset = some cs'.leadingByte

namespace Charsets

variable (cs : Charsets)

/-- `CHARSET_BY_LEADING_BYTE`, with `none` for nil. -/
def byLeadingByte (lb : Nat) : Option Charset := cs.list.find? (·.leadingByte = lb)

/-- `CHARSET_BY_ATTRIBUTES`; a final byte of zero is not in the table. -/
def byAttributes (type : CharsetType) (final : Nat) (direction : Direction) : Option Charset :=
  cs.list.find? fun c =>
    c.final ≠ 0 ∧ c.type = type ∧ c.final = final ∧ c.direction = direction

/-- The charsets before any Lisp program has made one. -/
def initial : Charsets where
  list := standardCharsets
  leadingByte_inj := by decide
  attributes_inj := by decide
  standard cs h := ⟨cs, h, by revert cs; decide⟩
  known cs h := .inl (by revert cs; decide)
  reverse cs h := by
    intro lb hlb
    have hnone : ∀ cs ∈ standardCharsets, cs.reverseDirectionCharset = none := by decide
    rw [hnone cs h] at hlb
    cases hlb
  reverse_complete := by decide

end Charsets

/-! ### Characters as numbers and in strings -/

/-- A character: its charset and its position codes. The second one is 0 where the charset has
one dimension. -/
structure Mchar where
  charset : Charset
  c1 : Nat
  c2 : Nat
deriving DecidableEq, Repr

/-- `MAKE_CHAR`. Position codes are below 128, so that the fields do not overlap. -/
def makeChar (charset : Charset) (c1 c2 : Nat) : Nat :=
  if charset.leadingByte = leadingByteAscii then c1
  else if charset.leadingByte = leadingByteControl1 then 0x80 + c1
  else if charset.dimension = 1 then (charset.leadingByte - 0x80) * 128 + c1
  else if ¬ charset.isPrivate then (charset.leadingByte - 0x8F) * 16384 + c1 * 128 + c2
  else (charset.leadingByte - 0xE1) * 16384 + c1 * 128 + c2

def Mchar.emchar (ch : Mchar) : Nat := makeChar ch.charset ch.c1 ch.c2

/-- `CHAR_LEADING_BYTE`, or `none` where it calls `ABORT`. -/
def charLeadingByte (c : Nat) : Option Nat :=
  if c < 0x80 then some leadingByteAscii
  else if c < 0xA0 then some leadingByteControl1
  else if c < 1 * 16384 then some (c / 128 % 128 + 0x80)
  else if c < 0x0F * 16384 then some (c / 16384 % 32 + 0x8F)
  else if c < 0x1F * 16384 then some (c / 16384 % 32 + 0xE1)
  else none

/-- `PRIVATE_LEADING_BYTE_PREFIX`, where there is one. -/
def leadingBytePrefix (lb : Nat) : List Nat :=
  if lb < 0xA0 then [] else if lb < 0xF0 then [0x9E] else [0x9F]

/-- `set_charptr_emchar`, or `none` where it takes nil for a charset. -/
def setCharptrEmchar (charsets : Charsets) (c : Nat) : Option (List Nat) :=
  if c < 0x80 then some [c]
  else do
    let lb ← charLeadingByte c
    let charset ← charsets.byLeadingByte lb
    let (c1, c2) := if charset.dimension = 1 then (c % 128, 0) else (c / 128 % 128, c % 128)
    let c1 := if charset.leadingByte = leadingByteControl1 then c1 + 0x20 else c1
    return leadingBytePrefix lb ++ lb :: (c1 + 0x80) :: if c2 = 0 then [] else [c2 + 0x80]

namespace Mchar

/-- The range of the position codes of a charset. -/
def InRange (charset : Charset) (c : Nat) : Prop :=
  if charset.chars = 94 then 33 ≤ c ∧ c ≤ 126 else 32 ≤ c ∧ c ≤ 127

instance (charset : Charset) (c : Nat) : Decidable (InRange charset c) :=
  inferInstanceAs
    (Decidable (if charset.chars = 94 then 33 ≤ c ∧ c ≤ 126 else 32 ≤ c ∧ c ≤ 127))

/-- The position codes are codes of the charset. -/
def Positions (ch : Mchar) : Prop :=
  if ch.charset.leadingByte = leadingByteAscii then ch.c1 < 128 ∧ ch.c2 = 0
  else if ch.charset.leadingByte = leadingByteControl1 then ch.c1 < 32 ∧ ch.c2 = 0
  else if ch.charset.dimension = 1 then InRange ch.charset ch.c1 ∧ ch.c2 = 0
  else InRange ch.charset ch.c1 ∧ InRange ch.charset ch.c2

/-- A character of a defined charset. -/
structure Valid (charsets : Charsets) (ch : Mchar) : Prop where
  defined : ch.charset ∈ charsets.list
  positions : ch.Positions

/-- The character in a string. -/
def bytes (ch : Mchar) : List Nat :=
  if ch.charset.leadingByte = leadingByteAscii then [ch.c1]
  else if ch.charset.leadingByte = leadingByteControl1 then [leadingByteControl1, ch.c1 + 0xA0]
  else leadingBytePrefix ch.charset.leadingByte ++ ch.charset.leadingByte :: (ch.c1 + 0x80) ::
    if ch.charset.dimension = 1 then [] else [ch.c2 + 0x80]

end Mchar

/-- A text in a string. -/
def stringOf (text : List Mchar) : List Nat := text.flatMap Mchar.bytes

/-- A string made of characters. -/
def WellFormed (charsets : Charsets) (s : List Nat) : Prop :=
  ∃ text, (∀ ch ∈ text, ch.Valid charsets) ∧ s = stringOf text

/-! ### What is known of a charset -/

/-- The kinds of charsets, by their leading bytes. -/
inductive Charset.Kind (c : Charset) : Prop where
  | ascii (lb : c.leadingByte = 0x8E) (rep : c.repBytes = 1) (type : c.type = .type94)
  | control1 (lb : c.leadingByte = 0x8F) (rep : c.repBytes = 2) (type : c.type = .type94)
  | official1 (lo : 0x81 ≤ c.leadingByte) (hi : c.leadingByte ≤ 0x8C) (rep : c.repBytes = 2)
    (dim : c.dimension = 1)
  | official2 (lo : 0x90 ≤ c.leadingByte) (hi : c.leadingByte ≤ 0x98) (rep : c.repBytes = 3)
    (dim : c.dimension = 2)
  | private1 (lo : 0xA0 ≤ c.leadingByte) (hi : c.leadingByte ≤ 0xEF) (rep : c.repBytes = 3)
    (dim : c.dimension = 1)
  | private2 (lo : 0xF0 ≤ c.leadingByte) (hi : c.leadingByte ≤ 0xFF) (rep : c.repBytes = 4)
    (dim : c.dimension = 2)

theorem standardCharsets_kind : ∀ c ∈ standardCharsets,
    (c.leadingByte = 0x8E ∧ c.repBytes = 1 ∧ c.type = .type94) ∨
    (c.leadingByte = 0x8F ∧ c.repBytes = 2 ∧ c.type = .type94) ∨
    (0x81 ≤ c.leadingByte ∧ c.leadingByte ≤ 0x8C ∧ c.repBytes = 2 ∧ c.dimension = 1) ∨
    (0x90 ≤ c.leadingByte ∧ c.leadingByte ≤ 0x98 ∧ c.repBytes = 3 ∧ c.dimension = 2) := by
  decide

namespace Charsets

variable {charsets : Charsets} {c c' : Charset}

theorem kind (hc : c ∈ charsets.list) : c.Kind := by
  obtain hstandard | huser := charsets.known c hc
  · obtain ⟨lb, rep, type⟩ | ⟨lb, rep, type⟩ | ⟨lo, hi, rep, dim⟩ | ⟨lo, hi, rep, dim⟩ :=
      standardCharsets_kind _ hstandard
    · exact .ascii lb rep type
    · exact .control1 lb rep type
    · exact .official1 lo hi rep dim
    · exact .official2 lo hi rep dim
  · have hrep := huser.repBytes
    obtain ⟨dim, lo, hi⟩ | ⟨dim, lo, hi⟩ := huser.leadingByte
    · exact .private1 lo hi (by rw [hrep, dim]) dim
    · exact .private2 lo hi (by rw [hrep, dim]) dim

theorem byLeadingByte_eq (hc : c ∈ charsets.list) :
    charsets.byLeadingByte c.leadingByte = some c := by
  rw [byLeadingByte]
  cases hfind : charsets.list.find? (·.leadingByte = c.leadingByte) with
  | none => simpa using List.find?_eq_none.mp hfind c hc
  | some c' =>
    have hsame : c'.leadingByte = c.leadingByte := by simpa using find?_some hfind
    rw [charsets.leadingByte_inj c' (mem_of_find?_eq_some hfind) c hc hsame]

theorem byLeadingByte_spec {lb : Nat} (h : charsets.byLeadingByte lb = some c) :
    c ∈ charsets.list ∧ c.leadingByte = lb :=
  ⟨mem_of_find?_eq_some h, by simpa using find?_some h⟩

theorem byAttributes_spec {type : CharsetType} {final : Nat} {direction : Direction}
    (h : charsets.byAttributes type final direction = some c) :
    c ∈ charsets.list ∧ c.type = type ∧ c.final = final ∧ c.direction = direction := by
  have hfound := find?_some h
  exact ⟨mem_of_find?_eq_some h, (of_decide_eq_true hfound).2⟩

theorem byAttributes_final {type : CharsetType} {final : Nat} {direction : Direction}
    (h : charsets.byAttributes type final direction = some c) : c.final ≠ 0 := by
  have hfound := find?_some h
  exact (of_decide_eq_true hfound).1

end Charsets

/-! ### The shapes of characters -/

section Shapes

variable {charsets : Charsets} {ch ch' : Mchar}

/-- What a valid character looks like, in a string and as a number. -/
inductive Mchar.Shape (ch : Mchar) : Prop where
  | ascii (lb : ch.charset.leadingByte = 0x8E) (rep : ch.charset.repBytes = 1)
    (dim : ch.charset.dimension = 1) (h1 : ch.c1 < 128) (h2 : ch.c2 = 0)
    (bytes : ch.bytes = [ch.c1]) (emchar : ch.emchar = ch.c1)
  | control1 (lb : ch.charset.leadingByte = 0x8F) (rep : ch.charset.repBytes = 2)
    (dim : ch.charset.dimension = 1) (h1 : ch.c1 < 32) (h2 : ch.c2 = 0)
    (bytes : ch.bytes = [0x8F, ch.c1 + 0xA0]) (emchar : ch.emchar = 0x80 + ch.c1)
  | official1 (lo : 0x81 ≤ ch.charset.leadingByte) (hi : ch.charset.leadingByte ≤ 0x8C)
    (rep : ch.charset.repBytes = 2) (dim : ch.charset.dimension = 1)
    (lo1 : 32 ≤ ch.c1) (hi1 : ch.c1 ≤ 127) (h2 : ch.c2 = 0)
    (bytes : ch.bytes = [ch.charset.leadingByte, ch.c1 + 0x80])
    (emchar : ch.emchar = (ch.charset.leadingByte - 0x80) * 128 + ch.c1)
  | official2 (lo : 0x90 ≤ ch.charset.leadingByte) (hi : ch.charset.leadingByte ≤ 0x98)
    (rep : ch.charset.repBytes = 3) (dim : ch.charset.dimension = 2)
    (lo1 : 32 ≤ ch.c1) (hi1 : ch.c1 ≤ 127) (lo2 : 32 ≤ ch.c2) (hi2 : ch.c2 ≤ 127)
    (bytes : ch.bytes = [ch.charset.leadingByte, ch.c1 + 0x80, ch.c2 + 0x80])
    (emchar : ch.emchar = (ch.charset.leadingByte - 0x8F) * 16384 + ch.c1 * 128 + ch.c2)
  | private1 (lo : 0xA0 ≤ ch.charset.leadingByte) (hi : ch.charset.leadingByte ≤ 0xEF)
    (rep : ch.charset.repBytes = 3) (dim : ch.charset.dimension = 1)
    (lo1 : 32 ≤ ch.c1) (hi1 : ch.c1 ≤ 127) (h2 : ch.c2 = 0)
    (bytes : ch.bytes = [0x9E, ch.charset.leadingByte, ch.c1 + 0x80])
    (emchar : ch.emchar = (ch.charset.leadingByte - 0x80) * 128 + ch.c1)
  | private2 (lo : 0xF0 ≤ ch.charset.leadingByte) (hi : ch.charset.leadingByte ≤ 0xFF)
    (rep : ch.charset.repBytes = 4) (dim : ch.charset.dimension = 2)
    (lo1 : 32 ≤ ch.c1) (hi1 : ch.c1 ≤ 127) (lo2 : 32 ≤ ch.c2) (hi2 : ch.c2 ≤ 127)
    (bytes : ch.bytes = [0x9F, ch.charset.leadingByte, ch.c1 + 0x80, ch.c2 + 0x80])
    (emchar : ch.emchar = (ch.charset.leadingByte - 0xE1) * 16384 + ch.c1 * 128 + ch.c2)

theorem Mchar.InRange.bounds {charset : Charset} {c : Nat} (h : InRange charset c) :
    32 ≤ c ∧ c ≤ 127 := by
  rw [InRange] at h
  split at h <;> omega

theorem Mchar.Valid.shape (hch : ch.Valid charsets) : ch.Shape := by
  have hpositions := hch.positions
  rw [Mchar.Positions] at hpositions
  have hneg : ∀ {n : Nat}, ch.charset.leadingByte ≠ 0x8E → ch.charset.leadingByte ≠ 0x8F →
      ch.charset.dimension = n → ch.bytes = leadingBytePrefix ch.charset.leadingByte ++
        ch.charset.leadingByte :: (ch.c1 + 0x80) :: (if n = 1 then [] else [ch.c2 + 0x80]) ∧
      (if n = 1 then InRange ch.charset ch.c1 ∧ ch.c2 = 0
        else InRange ch.charset ch.c1 ∧ InRange ch.charset ch.c2) ∧
      ch.emchar = if n = 1 then (ch.charset.leadingByte - 0x80) * 128 + ch.c1
        else if ch.charset.leadingByte < 0xA0 then
          (ch.charset.leadingByte - 0x8F) * 16384 + ch.c1 * 128 + ch.c2
        else (ch.charset.leadingByte - 0xE1) * 16384 + ch.c1 * 128 + ch.c2 := by
    rintro n hascii hcontrol rfl
    rw [if_neg hascii, if_neg hcontrol] at hpositions
    refine ⟨?_, hpositions, ?_⟩
    · rw [Mchar.bytes, if_neg hascii, if_neg hcontrol]
    · simp only [Mchar.emchar, makeChar, if_neg hascii, if_neg hcontrol, Charset.isPrivate,
        decide_eq_true_eq, Nat.not_le, leadingByteAscii, leadingByteControl1]
  cases Charsets.kind hch.defined with
  | ascii lb rep type =>
    rw [if_pos lb] at hpositions
    have hdim : ch.charset.dimension = 1 := by rw [Charset.dimension, type]; rfl
    exact .ascii lb rep hdim hpositions.1 hpositions.2 (if_pos lb) (if_pos lb)
  | control1 lb rep type =>
    have hascii : ch.charset.leadingByte ≠ leadingByteAscii := by rw [lb]; decide
    rw [if_neg hascii, if_pos lb] at hpositions
    have hdim : ch.charset.dimension = 1 := by rw [Charset.dimension, type]; rfl
    exact .control1 lb rep hdim hpositions.1 hpositions.2 ((if_neg hascii).trans (if_pos lb))
      ((if_neg hascii).trans (if_pos lb))
  | official1 lo hi rep dim =>
    obtain ⟨hbytes, ⟨hc1, hc2⟩, hemchar⟩ := hneg (by omega) (by omega) dim
    rw [leadingBytePrefix, if_pos (by omega)] at hbytes
    exact .official1 lo hi rep dim hc1.bounds.1 hc1.bounds.2 hc2 hbytes hemchar
  | private1 lo hi rep dim =>
    obtain ⟨hbytes, ⟨hc1, hc2⟩, hemchar⟩ := hneg (by omega) (by omega) dim
    rw [leadingBytePrefix, if_neg (by omega), if_pos (by omega)] at hbytes
    exact .private1 lo hi rep dim hc1.bounds.1 hc1.bounds.2 hc2 hbytes hemchar
  | official2 lo hi rep dim =>
    obtain ⟨hbytes, ⟨hc1, hc2⟩, hemchar⟩ := hneg (by omega) (by omega) dim
    rw [leadingBytePrefix, if_pos (by omega)] at hbytes
    rw [if_neg (by decide), if_pos (by omega)] at hemchar
    exact .official2 lo hi rep dim hc1.bounds.1 hc1.bounds.2 hc2.bounds.1 hc2.bounds.2 hbytes
      hemchar
  | private2 lo hi rep dim =>
    obtain ⟨hbytes, ⟨hc1, hc2⟩, hemchar⟩ := hneg (by omega) (by omega) dim
    rw [leadingBytePrefix, if_neg (by omega), if_neg (by omega)] at hbytes
    rw [if_neg (by decide), if_neg (by omega)] at hemchar
    exact .private2 lo hi rep dim hc1.bounds.1 hc1.bounds.2 hc2.bounds.1 hc2.bounds.2 hbytes
      hemchar

theorem Charsets.type_of_standard {c : Charset} (hc : c ∈ charsets.list) {type : CharsetType}
    (hlb : c.leadingByte < 0xA0)
    (htype : ∀ c' ∈ standardCharsets, c'.leadingByte = c.leadingByte → c'.type = type) :
    c.type = type := by
  obtain hstandard | huser := charsets.known c hc
  · exact htype c.made hstandard rfl
  · have hlead := huser.leadingByte
    omega

theorem Mchar.Valid.ascii (hch : ch.Valid charsets)
    (hlb : ch.charset.leadingByte = leadingByteAscii) : ch.c1 < 128 ∧ ch.bytes = [ch.c1] := by
  have hpositions := hch.positions
  rw [Mchar.Positions, if_pos hlb] at hpositions
  exact ⟨hpositions.1, if_pos hlb⟩

theorem Mchar.Valid.of_type94 (hch : ch.Valid charsets) {lb : Nat}
    (hlb : ch.charset.leadingByte = lb) (hlead : lb < 0xA0 ∧ lb ≠ 0x8E ∧ lb ≠ 0x8F)
    (htype : ∀ c ∈ standardCharsets, c.leadingByte = lb → c.type = .type94) :
    (33 ≤ ch.c1 ∧ ch.c1 ≤ 126) ∧ ch.bytes = [lb, ch.c1 + 0x80] := by
  subst hlb
  obtain ⟨hstandard, hascii, hcontrol⟩ := hlead
  have htype' := Charsets.type_of_standard hch.defined hstandard htype
  have hdim : ch.charset.dimension = 1 := by rw [Charset.dimension, htype']; rfl
  have hchars : ch.charset.chars = 94 := by rw [Charset.chars, htype']; rfl
  have hpositions := hch.positions
  rw [Mchar.Positions, if_neg hascii, if_neg hcontrol, if_pos hdim, Mchar.InRange,
    if_pos hchars] at hpositions
  refine ⟨hpositions.1, ?_⟩
  rw [Mchar.bytes, if_neg hascii, if_neg hcontrol, if_pos hdim, leadingBytePrefix,
    if_pos hstandard]
  rfl

theorem Mchar.Valid.of_type94x94 (hch : ch.Valid charsets) {lb : Nat}
    (hlb : ch.charset.leadingByte = lb) (hlead : lb < 0xA0 ∧ lb ≠ 0x8E ∧ lb ≠ 0x8F)
    (htype : ∀ c ∈ standardCharsets, c.leadingByte = lb → c.type = .type94x94) :
    (33 ≤ ch.c1 ∧ ch.c1 ≤ 126) ∧ (33 ≤ ch.c2 ∧ ch.c2 ≤ 126) ∧
      ch.bytes = [lb, ch.c1 + 0x80, ch.c2 + 0x80] := by
  subst hlb
  obtain ⟨hstandard, hascii, hcontrol⟩ := hlead
  have htype' := Charsets.type_of_standard hch.defined hstandard htype
  have hdim : ¬ ch.charset.dimension = 1 := by rw [Charset.dimension, htype']; decide
  have hchars : ch.charset.chars = 94 := by rw [Charset.chars, htype']; rfl
  have hpositions := hch.positions
  rw [Mchar.Positions, if_neg hascii, if_neg hcontrol, if_neg hdim, Mchar.InRange, Mchar.InRange,
    if_pos hchars, if_pos hchars] at hpositions
  refine ⟨hpositions.1, hpositions.2, ?_⟩
  rw [Mchar.bytes, if_neg hascii, if_neg hcontrol, if_neg hdim, leadingBytePrefix,
    if_pos hstandard]
  rfl

theorem setCharptrEmchar_eq {c lb p q : Nat} {charset : Charset} (hc : 0x80 ≤ c)
    (hlb : charLeadingByte c = some lb) (hcharset : charsets.byLeadingByte lb = some charset)
    (hfields : (if charset.dimension = 1 then (c % 128, 0) else (c / 128 % 128, c % 128))
      = (p, q)) (hcontrol : charset.leadingByte ≠ 0x8F) :
    setCharptrEmchar charsets c
      = some (leadingBytePrefix lb ++ lb :: (p + 0x80) :: if q = 0 then [] else [q + 0x80]) := by
  rw [setCharptrEmchar, if_neg (Nat.not_lt.mpr hc), hlb, bind_eq_bind, bind_some,
    hcharset, bind_eq_bind, bind_some, hfields]
  simp only [if_neg hcontrol]
  rfl

/-- A character is the same in a string, whether it is made from its charset and position
codes or from its number. -/
theorem setCharptrEmchar_emchar (hch : ch.Valid charsets) :
    setCharptrEmchar charsets ch.emchar = some ch.bytes := by
  have hlookup := Charsets.byLeadingByte_eq hch.defined
  cases hch.shape with
  | ascii lb rep dim h1 h2 hbytes hemchar =>
    rw [setCharptrEmchar, hemchar, if_pos h1, hbytes]
  | control1 lb rep dim h1 h2 hbytes hemchar =>
    rw [lb] at hlookup
    have hlb : charLeadingByte ch.emchar = some 0x8F := by
      rw [charLeadingByte, hemchar, if_neg (by omega), if_pos (by omega)]
    have hc : (0x80 + ch.c1) % 128 = ch.c1 := by omega
    rw [setCharptrEmchar, if_neg (by omega), hlb, hbytes]
    simp [hlookup, dim, lb, leadingBytePrefix, hemchar, hc]
  | official1 lo hi rep dim lo1 hi1 h2 hbytes hemchar =>
    have hlb : charLeadingByte ch.emchar = some ch.charset.leadingByte := by
      rw [charLeadingByte, hemchar, if_neg (by omega), if_neg (by omega), if_pos (by omega)]
      exact congrArg some (by omega)
    rw [setCharptrEmchar_eq (p := ch.c1) (q := 0) (by omega) hlb hlookup _ (by omega), hbytes,
      leadingBytePrefix, if_pos (by omega)]
    · rfl
    · rw [if_pos dim, hemchar, Nat.mul_comm, Nat.mul_add_mod, Nat.mod_eq_of_lt (by omega)]
  | private1 lo hi rep dim lo1 hi1 h2 hbytes hemchar =>
    have hlb : charLeadingByte ch.emchar = some ch.charset.leadingByte := by
      rw [charLeadingByte, hemchar, if_neg (by omega), if_neg (by omega), if_pos (by omega)]
      exact congrArg some (by omega)
    rw [setCharptrEmchar_eq (p := ch.c1) (q := 0) (by omega) hlb hlookup _ (by omega), hbytes,
      leadingBytePrefix, if_neg (by omega), if_pos (by omega)]
    · rfl
    · rw [if_pos dim, hemchar, Nat.mul_comm, Nat.mul_add_mod, Nat.mod_eq_of_lt (by omega)]
  | official2 lo hi rep dim lo1 hi1 lo2 hi2 hbytes hemchar =>
    have hlb : charLeadingByte ch.emchar = some ch.charset.leadingByte := by
      rw [charLeadingByte, hemchar, if_neg (by omega), if_neg (by omega), if_neg (by omega),
        if_pos (by omega)]
      exact congrArg some (by omega)
    rw [setCharptrEmchar_eq (p := ch.c1) (q := ch.c2) (by omega) hlb hlookup _ (by omega),
      hbytes, leadingBytePrefix, if_pos (by omega), if_neg (by omega)]
    · rfl
    · rw [if_neg (by omega), hemchar]
      exact Prod.ext (by simp only; omega) (by simp only; omega)
  | private2 lo hi rep dim lo1 hi1 lo2 hi2 hbytes hemchar =>
    have hlb : charLeadingByte ch.emchar = some ch.charset.leadingByte := by
      rw [charLeadingByte, hemchar, if_neg (by omega), if_neg (by omega), if_neg (by omega),
        if_neg (by omega), if_pos (by omega)]
      exact congrArg some (by omega)
    rw [setCharptrEmchar_eq (p := ch.c1) (q := ch.c2) (by omega) hlb hlookup _ (by omega),
      hbytes, leadingBytePrefix, if_neg (by omega), if_neg (by omega), if_neg (by omega)]
    · rfl
    · rw [if_neg (by omega), hemchar]
      exact Prod.ext (by simp only; omega) (by simp only; omega)

/-! ### Strings can be read back -/

/-- The leading byte at the front of a string, behind its prefix. -/
def readLeadingByte : List Nat → Option (Nat × List Nat)
  | [] => none
  | b :: rest =>
    if b = 0x9E ∨ b = 0x9F then
      match rest with
      | [] => none
      | lb :: rest => some (lb, rest)
    else some (b, rest)

/-- The position codes behind a leading byte. -/
def readPositions (charset : Charset) : List Nat → Option (Mchar × List Nat)
  | [] => none
  | b1 :: rest =>
    if charset.leadingByte = leadingByteControl1 then some (⟨charset, b1 - 0xA0, 0⟩, rest)
    else if charset.dimension = 1 then some (⟨charset, b1 - 0x80, 0⟩, rest)
    else
      match rest with
      | [] => none
      | b2 :: rest => some (⟨charset, b1 - 0x80, b2 - 0x80⟩, rest)

/-- The character at the front of a string. -/
def readChar (charsets : Charsets) : List Nat → Option (Mchar × List Nat)
  | [] => none
  | b :: rest =>
    if b < 0x80 then (charsets.byLeadingByte leadingByteAscii).map fun c => (⟨c, b, 0⟩, rest)
    else
      (readLeadingByte (b :: rest)).bind fun (lb, rest) =>
        (charsets.byLeadingByte lb).bind fun c => readPositions c rest

theorem readChar_bytes (hch : ch.Valid charsets) (rest : List Nat) :
    readChar charsets (ch.bytes ++ rest) = some (ch, rest) := by
  have hlookup := Charsets.byLeadingByte_eq hch.defined
  have hshape := hch.shape
  obtain ⟨charset, c1, c2⟩ := ch
  simp only at hlookup
  cases hshape with
  | ascii lb rep dim h1 h2 hbytes hemchar =>
    simp only at lb h1 h2 hbytes
    subst h2
    rw [lb] at hlookup
    simp [hbytes, readChar, h1, hlookup]
  | control1 lb rep dim h1 h2 hbytes hemchar =>
    simp only at lb h1 h2 hbytes
    subst h2
    rw [lb] at hlookup
    simp [hbytes, readChar, readLeadingByte, readPositions, lb, hlookup]
  | official1 lo hi rep dim lo1 hi1 h2 hbytes hemchar =>
    simp only at lo hi dim h2 hbytes
    subst h2
    have h80 : ¬ charset.leadingByte < 0x80 := by omega
    have hprefix : ¬ (charset.leadingByte = 0x9E ∨ charset.leadingByte = 0x9F) := by omega
    have hcontrol : charset.leadingByte ≠ 0x8F := by omega
    simp only [hbytes, cons_append, nil_append, readChar, if_neg h80, readLeadingByte,
      if_neg hprefix, bind_some, hlookup, readPositions, if_neg hcontrol, if_pos dim,
      Nat.add_sub_cancel]
  | private1 lo hi rep dim lo1 hi1 h2 hbytes hemchar =>
    simp only at lo hi dim h2 hbytes
    subst h2
    have hcontrol : charset.leadingByte ≠ 0x8F := by omega
    have h80 : ¬ 0x9E < 0x80 := by decide
    simp only [hbytes, cons_append, nil_append, readChar, if_neg h80, readLeadingByte,
      true_or, if_true, bind_some, hlookup, readPositions, if_neg hcontrol, if_pos dim,
      Nat.add_sub_cancel]
  | official2 lo hi rep dim lo1 hi1 lo2 hi2 hbytes hemchar =>
    simp only at lo hi dim hbytes
    have h80 : ¬ charset.leadingByte < 0x80 := by omega
    have hprefix : ¬ (charset.leadingByte = 0x9E ∨ charset.leadingByte = 0x9F) := by omega
    have hcontrol : charset.leadingByte ≠ 0x8F := by omega
    have hdim : ¬ charset.dimension = 1 := by omega
    simp only [hbytes, cons_append, nil_append, readChar, if_neg h80, readLeadingByte,
      if_neg hprefix, bind_some, hlookup, readPositions, if_neg hcontrol, if_neg hdim,
      Nat.add_sub_cancel]
  | private2 lo hi rep dim lo1 hi1 lo2 hi2 hbytes hemchar =>
    simp only at lo hi dim hbytes
    have hcontrol : charset.leadingByte ≠ 0x8F := by omega
    have h80 : ¬ 0x9F < 0x80 := by decide
    have hdim : ¬ charset.dimension = 1 := by omega
    simp only [hbytes, cons_append, nil_append, readChar, if_neg h80, readLeadingByte,
      or_true, if_true, bind_some, hlookup, readPositions, if_neg hcontrol, if_neg hdim,
      Nat.add_sub_cancel]

theorem bytes_ne_nil (hch : ch.Valid charsets) : ch.bytes ≠ [] := by
  intro hnil
  have hread := readChar_bytes hch []
  rw [hnil] at hread
  cases hread

theorem bytes_inj (hch : ch.Valid charsets) (hch' : ch'.Valid charsets) {rest rest' : List Nat}
    (h : ch.bytes ++ rest = ch'.bytes ++ rest') : ch = ch' ∧ rest = rest' := by
  have hread := readChar_bytes hch rest
  rw [h, readChar_bytes hch' rest'] at hread
  cases hread
  exact ⟨rfl, rfl⟩

theorem emchar_inj (hch : ch.Valid charsets) (hch' : ch'.Valid charsets)
    (h : ch.emchar = ch'.emchar) : ch = ch' := by
  have hbytes := setCharptrEmchar_emchar hch
  rw [h, setCharptrEmchar_emchar hch'] at hbytes
  exact (bytes_inj hch hch' (congrArg (· ++ []) (Option.some.inj hbytes).symm)).1

/-! ### Well-formed strings -/

theorem wellFormed_bytes (hch : ch.Valid charsets) : WellFormed charsets ch.bytes :=
  ⟨[ch], List.forall_mem_singleton.mpr hch, (append_nil _).symm⟩

theorem WellFormed.append_iff {s s' : List Nat} (hs : WellFormed charsets s) :
    WellFormed charsets (s ++ s') ↔ WellFormed charsets s' := by
  obtain ⟨text, htext, rfl⟩ := hs
  constructor
  · rintro ⟨whole, hwhole, h⟩
    induction text generalizing whole with
    | nil => exact ⟨whole, hwhole, h⟩
    | cons ch text ih =>
      rw [forall_mem_cons] at htext
      rw [stringOf, flatMap_cons, append_assoc] at h
      cases whole with
      | nil => exact absurd (List.append_eq_nil_iff.mp h).1 (bytes_ne_nil htext.1)
      | cons ch' whole =>
        rw [forall_mem_cons] at hwhole
        obtain ⟨-, hrest⟩ := bytes_inj htext.1 hwhole.1 h
        exact ih htext.2 whole hwhole.2 hrest
  · rintro ⟨text', htext', rfl⟩
    exact ⟨text ++ text', List.forall_mem_append.mpr ⟨htext, htext'⟩, List.flatMap_append.symm⟩

theorem not_wellFormed_latin1 {b : Nat} (hb : b < 0xA0) (rest : List Nat) :
    ¬ WellFormed charsets (0x81 :: b :: rest) := by
  rintro ⟨text, htext, h⟩
  cases text with
  | nil => cases h
  | cons ch text =>
    rw [stringOf, flatMap_cons] at h
    have hch := htext ch mem_cons_self
    cases hch.shape with
    | ascii lb rep dim h1 h2 hbytes hemchar =>
      rw [hbytes] at h
      injection h with h₁ h₂
      omega
    | control1 lb rep dim h1 h2 hbytes hemchar =>
      rw [hbytes] at h
      injection h with h₁ h₂
      cases h₁
    | official1 lo hi rep dim lo1 hi1 h2 hbytes hemchar =>
      rw [hbytes] at h
      injection h with h₁ h₂
      injection h₂ with h₂ h₃
      omega
    | official2 lo hi rep dim lo1 hi1 lo2 hi2 hbytes hemchar =>
      rw [hbytes] at h
      injection h with h₁ h₂
      omega
    | private1 lo hi rep dim lo1 hi1 h2 hbytes hemchar =>
      rw [hbytes] at h
      injection h with h₁ h₂
      cases h₁
    | private2 lo hi rep dim lo1 hi1 lo2 hi2 hbytes hemchar =>
      rw [hbytes] at h
      injection h with h₁ h₂
      cases h₁

end Shapes

/-! ### Characters that are always there -/

section Standard

variable (charsets : Charsets)

theorem exists_standard {c : Charset} (hc : c ∈ standardCharsets) :
    ∃ c' ∈ charsets.list, c'.leadingByte = c.leadingByte ∧ c'.type = c.type ∧
      c'.final = c.final ∧ c'.direction = c.direction ∧ c'.graphic = c.graphic := by
  obtain ⟨c', hc', rfl⟩ := charsets.standard c hc
  exact ⟨c', hc', rfl, rfl, rfl, rfl, rfl⟩

theorem exists_ascii {c : Nat} (hc : c < 128) :
    ∃ ch : Mchar, ch.Valid charsets ∧ ch.bytes = [c] ∧ ch.emchar = c ∧
      ch.charset.leadingByte = leadingByteAscii := by
  obtain ⟨cs, hcs, hlb, -⟩ :=
    exists_standard charsets (c := ⟨0x8E, 1, .type94, 0, 0x42, .leftToRight, none⟩) (by decide)
  refine ⟨⟨cs, c, 0⟩, ⟨hcs, (if_pos hlb).mpr ⟨hc, rfl⟩⟩, if_pos hlb, if_pos hlb, hlb⟩

theorem exists_control1 {c : Nat} (hlo : 0x80 ≤ c) (hhi : c < 0xA0) :
    ∃ ch : Mchar, ch.Valid charsets ∧ ch.bytes = [0x8F, c + 0x20] ∧ ch.emchar = c := by
  obtain ⟨cs, hcs, hlb, -⟩ :=
    exists_standard charsets (c := ⟨0x8F, 2, .type94, 1, 0, .leftToRight, none⟩) (by decide)
  have hascii : cs.leadingByte ≠ leadingByteAscii := by rw [hlb]; decide
  refine ⟨⟨cs, c - 0x80, 0⟩, ⟨hcs, ?_⟩, ?_, ?_⟩
  · rw [Mchar.Positions, if_neg hascii, if_pos hlb]
    exact ⟨by simp only; omega, rfl⟩
  · rw [Mchar.bytes, if_neg hascii, if_pos hlb]
    simp only
    rw [show c - 0x80 + 0xA0 = c + 0x20 by omega]
  · rw [Mchar.emchar, makeChar, if_neg hascii, if_pos hlb]
    simp only
    omega

theorem exists_latin1 {c : Nat} (hlo : 0xA0 ≤ c) (hhi : c < 0x100) :
    ∃ ch : Mchar, ch.Valid charsets ∧ ch.bytes = [0x81, c] ∧ ch.emchar = c := by
  obtain ⟨cs, hcs, hlb, htype, -⟩ :=
    exists_standard charsets (c := ⟨0x81, 2, .type96, 1, 0x41, .leftToRight, none⟩) (by decide)
  simp only at hlb htype
  have hascii : cs.leadingByte ≠ leadingByteAscii := by rw [hlb]; decide
  have hcontrol : cs.leadingByte ≠ leadingByteControl1 := by rw [hlb]; decide
  have hdim : cs.dimension = 1 := by rw [Charset.dimension, htype]; rfl
  have hchars : ¬ cs.chars = 94 := by rw [Charset.chars, htype]; decide
  refine ⟨⟨cs, c - 0x80, 0⟩, ⟨hcs, ?_⟩, ?_, ?_⟩
  · rw [Mchar.Positions, if_neg hascii, if_neg hcontrol, if_pos hdim, Mchar.InRange,
      if_neg hchars]
    exact ⟨⟨by simp only; omega, by simp only; omega⟩, rfl⟩
  · rw [Mchar.bytes, if_neg hascii, if_neg hcontrol, hlb, leadingBytePrefix, if_pos (by decide),
      if_pos hdim]
    simp only [nil_append]
    rw [Nat.sub_add_cancel (by omega)]
  · rw [Mchar.emchar, makeChar, if_neg hascii, if_neg hcontrol, if_pos hdim, hlb]
    simp only
    omega

end Standard

end XEmacs.Coding

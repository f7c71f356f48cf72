import XEmacs.Coding.CharsetLookup
import XEmacs.Buffer.Text

/-!
# Valid characters

`non_ascii_valid_char_p` takes a character number apart and looks up the charset only where it
has to: with official charsets, for the position codes that 94 characters leave out, and always
with private ones.
-/

namespace XEmacs.Coding

def charField1 (c : Nat) : Nat := c / 16384 % 32

def charField2 (c : Nat) : Nat := c / 128 % 128

def charField3 (c : Nat) : Nat := c % 128

abbrev field2ToOfficialLeadingByte : Nat := 0x80
abbrev field1ToOfficialLeadingByte : Nat := 0x8F
abbrev field1ToPrivateLeadingByte : Nat := 0xE1

abbrev minCharField2Official : Nat := 0x81 - field2ToOfficialLeadingByte
abbrev maxCharField2Official : Nat := 0x8C - field2ToOfficialLeadingByte
abbrev minCharField1Official : Nat := 0x90 - field1ToOfficialLeadingByte
abbrev maxCharField1Official : Nat := 0x98 - field1ToOfficialLeadingByte
abbrev minCharField2Private : Nat := 0xA0 - field2ToOfficialLeadingByte
abbrev maxCharField2Private : Nat := 0xEF - field2ToOfficialLeadingByte
abbrev minCharField1Private : Nat := 0xF0 - field1ToPrivateLeadingByte
abbrev maxCharField1Private : Nat := 0xFF - field1ToPrivateLeadingByte

/-- The last test: `XCHARSET_CHARS (charset) == 96`, and nil has none. -/
def has96Chars : Option Charset → Bool
  | none => false
  | some charset => charset.chars = 96

def nonAsciiValidCharP (charsets : Charsets) (ch : Int) : Bool :=
  if ch < 0 ∨ 0x7FFFF < ch then false
  else
    let f1 := charField1 ch.toNat
    let f2 := charField2 ch.toNat
    let f3 := charField3 ch.toNat
    if f1 = 0 then
      if f2 < minCharField2Official ∨
          (maxCharField2Official < f2 ∧ f2 < minCharField2Private) ∨
          maxCharField2Private < f2 then false
      else if f3 < 0x20 then false
      else if f3 ≠ 0x20 ∧ f3 ≠ 0x7F ∧
          ¬ (minCharField2Private ≤ f2 ∧ f2 ≤ maxCharField2Private) then true
      else has96Chars (charsets.byLeadingByte (f2 + field2ToOfficialLeadingByte))
    else
      if f1 < minCharField1Official ∨
          (maxCharField1Official < f1 ∧ f1 < minCharField1Private) ∨
          maxCharField1Private < f1 then false
      else if f2 < 0x20 ∨ f3 < 0x20 then false
      else if f2 ≠ 0x20 ∧ f2 ≠ 0x7F ∧ f3 ≠ 0x20 ∧ f3 ≠ 0x7F ∧
          ¬ (minCharField1Private ≤ f1 ∧ f1 ≤ maxCharField1Private) then true
      else if f1 ≤ maxCharField1Official then
        has96Chars (charsets.byLeadingByte (f1 + field1ToOfficialLeadingByte))
      else has96Chars (charsets.byLeadingByte (f1 + field1ToPrivateLeadingByte))

def leadingBytePrefixP (lb : Nat) : Bool := lb = 0x9E ∨ lb = 0x9F

/-- The part of `non_ascii_charptr_emchar` behind the prefix: a leading byte and position codes. -/
def charptrPositions (charsets : Charsets) : List Nat → Option Nat
  | i0 :: i1 :: str =>
    (charsets.byLeadingByte i0).bind fun charset =>
      if charset.dimension = 2 then str.head?.map fun i2 => makeChar charset (i1 % 128) (i2 % 128)
      else some (makeChar charset (i1 % 128) 0)
  | _ => none

/-- `non_ascii_charptr_emchar`, or `none` where it reads behind the string or takes nil for a
charset. -/
def nonAsciiCharptrEmchar (charsets : Charsets) : List Nat → Option Nat
  | [] => none
  | i0 :: str =>
    if i0 = leadingByteControl1 then str.head?.map (· - 0x20)
    else if leadingBytePrefixP i0 then charptrPositions charsets str
    else charptrPositions charsets (i0 :: str)

def charptrEmchar (charsets : Charsets) (str : List Nat) : Option Nat :=
  match str with
  | [] => none
  | b :: _ => if b < 0x80 then some b else nonAsciiCharptrEmchar charsets str

/-- `MAKE_CHAR` of a charset and position codes in the range of its type. -/
def Charset.HasChar (charset : Charset) (c : Int) : Prop :=
  ∃ c1 c2 : Nat, Mchar.InRange charset c1 ∧ (charset.dimension = 2 → Mchar.InRange charset c2) ∧
    c = makeChar charset c1 c2

/-- A character of a defined charset. -/
def Charsets.HasChar (charsets : Charsets) (c : Int) : Prop :=
  ∃ charset ∈ charsets.list, charset.HasChar c

/-- The number of bytes that a string needs by its first one. -/
def repBytesOf (str : List Nat) : Nat :=
  Buffer.repBytesByFirstByte (UInt8.ofNat (str.headD 0))

/-- What `set_charptr_emchar` writes reads as the character, and is as long as its first byte
says. -/
def RoundTrips (charsets : Charsets) (c : Int) : Prop :=
  ∃ str, setCharptrEmchar charsets c.toNat = some str ∧
    charptrEmchar charsets str = some c.toNat ∧ str.length = repBytesOf str

/-- The valid characters are those of the charsets, and they can be stored. -/
def ValidCharsExist (charsets : Charsets) (c : Int) : Prop :=
  (nonAsciiValidCharP charsets c = true ↔ charsets.HasChar c) ∧
    (charsets.HasChar c → RoundTrips charsets c)

section ValidChars

variable {charsets : Charsets} {charset : Charset} {ch : Mchar} {c : Int} {lb : Nat}

/-! ### Storing a character -/

theorem repBytesOf_cons {b : Nat} (hb : b < 256) (str : List Nat) :
    repBytesOf (b :: str) =
      if b < 0x80 then 1 else if b < 0x90 then 2 else if b < 0x9F then 3 else 4 := by
  have hlt : ∀ n : UInt8, UInt8.ofNat b < n ↔ b < n.toNat := by
    intro n
    rw [UInt8.lt_iff_toNat_lt, UInt8.toNat_ofNat_of_lt' hb]
  simp only [repBytesOf, List.headD_cons, Buffer.repBytesByFirstByte, hlt]
  rfl

theorem charptrPositions_one {lb i1 : Nat} {str : List Nat}
    (hlookup : charsets.byLeadingByte lb = some charset) (hdim : charset.dimension = 1) :
    charptrPositions charsets (lb :: i1 :: str) = some (makeChar charset (i1 % 128) 0) := by
  rw [charptrPositions, hlookup, Option.bind_some, if_neg (by rw [hdim]; decide)]

theorem charptrPositions_two {lb i1 i2 : Nat} {str : List Nat}
    (hlookup : charsets.byLeadingByte lb = some charset) (hdim : charset.dimension = 2) :
    charptrPositions charsets (lb :: i1 :: i2 :: str) =
      some (makeChar charset (i1 % 128) (i2 % 128)) := by
  rw [charptrPositions, hlookup, Option.bind_some, if_pos hdim]
  rfl

theorem nonAsciiCharptrEmchar_prefix {i0 : Nat} {str : List Nat} (h : i0 = 0x9E ∨ i0 = 0x9F) :
    charptrEmchar charsets (i0 :: str) = charptrPositions charsets str := by
  have hprefix : leadingBytePrefixP i0 = true := decide_eq_true h
  rw [charptrEmchar, if_neg (by omega), nonAsciiCharptrEmchar,
    if_neg (show i0 ≠ 0x8F by omega), if_pos hprefix]

theorem nonAsciiCharptrEmchar_official {i0 : Nat} {str : List Nat} (hlo : 0x80 ≤ i0)
    (hhi : i0 < 0x9E) (hcontrol : i0 ≠ 0x8F) :
    charptrEmchar charsets (i0 :: str) = charptrPositions charsets (i0 :: str) := by
  have hprefix : ¬ leadingBytePrefixP i0 = true := by
    rw [leadingBytePrefixP, decide_eq_true_eq]
    omega
  rw [charptrEmchar, if_neg (by omega), nonAsciiCharptrEmchar, if_neg hcontrol, if_neg hprefix]

theorem Mchar.Valid.charptrEmchar (hch : ch.Valid charsets) :
    charptrEmchar charsets ch.bytes = some ch.emchar ∧ ch.bytes.length = repBytesOf ch.bytes := by
  have hlookup := Charsets.byLeadingByte_eq hch.defined
  have hmod : ∀ {n : Nat}, n < 128 → (n + 0x80) % 128 = n := by omega
  cases hch.shape with
  | ascii lb rep dim h1 h2 hbytes hemchar =>
    rw [hbytes, hemchar, Coding.charptrEmchar, if_pos h1, repBytesOf_cons (by omega), if_pos h1]
    exact ⟨rfl, rfl⟩
  | control1 lb rep dim h1 h2 hbytes hemchar =>
    rw [hbytes, hemchar, Coding.charptrEmchar, if_neg (by decide), nonAsciiCharptrEmchar,
      if_pos rfl, repBytesOf_cons (by decide)]
    have hback : ch.c1 + 0xA0 - 0x20 = 0x80 + ch.c1 := by omega
    exact ⟨congrArg some hback, rfl⟩
  | official1 lo hi rep dim lo1 hi1 h2 hbytes hemchar =>
    rw [hbytes, nonAsciiCharptrEmchar_official (by omega) (by omega) (by omega),
      charptrPositions_one hlookup dim, hmod (by omega), repBytesOf_cons (by omega),
      if_neg (by omega), if_pos (by omega), Mchar.emchar, h2]
    exact ⟨rfl, rfl⟩
  | official2 lo hi rep dim lo1 hi1 lo2 hi2 hbytes hemchar =>
    rw [hbytes, nonAsciiCharptrEmchar_official (by omega) (by omega) (by omega),
      charptrPositions_two hlookup dim, hmod (by omega), hmod (by omega),
      repBytesOf_cons (by omega), if_neg (by omega), if_neg (by omega), if_pos (by omega)]
    exact ⟨rfl, rfl⟩
  | private1 lo hi rep dim lo1 hi1 h2 hbytes hemchar =>
    rw [hbytes, nonAsciiCharptrEmchar_prefix (.inl rfl), charptrPositions_one hlookup dim,
      hmod (by omega), repBytesOf_cons (by decide), Mchar.emchar, h2]
    exact ⟨rfl, rfl⟩
  | private2 lo hi rep dim lo1 hi1 lo2 hi2 hbytes hemchar =>
    rw [hbytes, nonAsciiCharptrEmchar_prefix (.inr rfl), charptrPositions_two hlookup dim,
      hmod (by omega), hmod (by omega), repBytesOf_cons (by decide)]
    exact ⟨rfl, rfl⟩

theorem Mchar.Valid.roundTrips (hch : ch.Valid charsets) : RoundTrips charsets ch.emchar :=
  ⟨ch.bytes, setCharptrEmchar_emchar hch, hch.charptrEmchar⟩

/-! ### The characters that there are -/

theorem Charset.dimension_eq (charset : Charset) :
    charset.dimension = 1 ∨ charset.dimension = 2 := by
  rw [Charset.dimension]
  cases charset.type <;> decide

theorem Charset.chars_eq (charset : Charset) : charset.chars = 94 ∨ charset.chars = 96 := by
  rw [Charset.chars]
  cases charset.type <;> decide

theorem Charset.HasChar.exists_valid (h : charset.HasChar c) (hcharset : charset ∈ charsets.list)
    (hascii : charset.leadingByte ≠ 0x8E) (hcontrol : charset.leadingByte ≠ 0x8F) :
    ∃ ch : Mchar, ch.Valid charsets ∧ c = ch.emchar ∧ ch.charset = charset := by
  obtain ⟨c1, c2, h1, h2, rfl⟩ := h
  obtain hdim | hdim := charset.dimension_eq
  · refine ⟨⟨charset, c1, 0⟩, ⟨hcharset, ?_⟩, ?_, rfl⟩
    · rw [Mchar.Positions, if_neg hascii, if_neg hcontrol, if_pos hdim]
      exact ⟨h1, rfl⟩
    · simp only [Mchar.emchar, makeChar, if_neg hascii, if_neg hcontrol, if_pos hdim]
  · refine ⟨⟨charset, c1, c2⟩, ⟨hcharset, ?_⟩, rfl, rfl⟩
    rw [Mchar.Positions, if_neg hascii, if_neg hcontrol, if_neg (by rw [hdim]; decide)]
    exact ⟨h1, h2 hdim⟩

theorem Charsets.HasChar.exists_valid (h : charsets.HasChar c) (hc : ¬ (0 ≤ c ∧ c < 0x80)) :
    ∃ ch : Mchar, ch.Valid charsets ∧ c = ch.emchar ∧ ch.charset.leadingByte ≠ 0x8E ∧
      ch.charset.leadingByte ≠ 0x8F := by
  obtain ⟨charset, hcharset, hhas⟩ := h
  by_cases hascii : charset.leadingByte = 0x8E
  · obtain ⟨c1, c2, h1, h2, rfl⟩ := hhas
    have hc1 := h1.bounds
    rw [makeChar, if_pos hascii] at hc
    omega
  by_cases hcontrol : charset.leadingByte = 0x8F
  · -- the numbers are those of Latin-1
    obtain ⟨c1, c2, h1, h2, rfl⟩ := hhas
    have hc1 := h1.bounds
    obtain ⟨ch, hch, hbytes, hemchar⟩ :=
      exists_latin1 charsets (c := 0x80 + c1) (by omega) (by omega)
    refine ⟨ch, hch, ?_, fun hlb => ?_, fun hlb => ?_⟩
    · rw [makeChar, if_neg hascii, if_pos hcontrol, hemchar]
    · rw [Mchar.bytes, if_pos hlb] at hbytes
      exact absurd (congrArg List.length hbytes) (by simp)
    · rw [Mchar.bytes, if_neg (by rw [hlb]; decide), if_pos hlb] at hbytes
      exact absurd (List.cons.inj hbytes).1 (by decide)
  obtain ⟨ch, hch, hemchar, rfl⟩ := hhas.exists_valid hcharset hascii hcontrol
  exact ⟨ch, hch, hemchar, hascii, hcontrol⟩

theorem Mchar.Valid.hasChar (hch : ch.Valid charsets) (hascii : ch.charset.leadingByte ≠ 0x8E)
    (hcontrol : ch.charset.leadingByte ≠ 0x8F) : ch.charset.HasChar ch.emchar := by
  have hpositions := hch.positions
  rw [Mchar.Positions, if_neg hascii, if_neg hcontrol] at hpositions
  refine ⟨ch.c1, ch.c2, ?_, fun hdim => ?_, rfl⟩
  · split at hpositions
    · exact hpositions.1
    · exact hpositions.1
  · rw [if_neg (by omega)] at hpositions
    exact hpositions.2

/-! ### The characters that are accepted -/

theorem nonAsciiValidCharP_one {f2 f3 : Nat} (h2 : f2 < 128) (h3 : f3 < 128) :
    nonAsciiValidCharP charsets (f2 * 128 + f3 : Nat) =
      if f2 < 1 ∨ (0x0C < f2 ∧ f2 < 0x20) ∨ 0x6F < f2 then false
      else if f3 < 0x20 then false
      else if f3 ≠ 0x20 ∧ f3 ≠ 0x7F ∧ ¬ (0x20 ≤ f2 ∧ f2 ≤ 0x6F) then true
      else has96Chars (charsets.byLeadingByte (f2 + 0x80)) := by
  have hf1 : charField1 (f2 * 128 + f3) = 0 := by rw [charField1]; omega
  have hf2 : charField2 (f2 * 128 + f3) = f2 := by rw [charField2]; omega
  have hf3 : charField3 (f2 * 128 + f3) = f3 := by rw [charField3]; omega
  rw [nonAsciiValidCharP, if_neg (by omega), Int.toNat_natCast, hf1, hf2, hf3]
  rfl

theorem nonAsciiValidCharP_two {f1 f2 f3 : Nat} (h1 : 0 < f1) (h1' : f1 < 32) (h2 : f2 < 128)
    (h3 : f3 < 128) :
    nonAsciiValidCharP charsets (f1 * 16384 + f2 * 128 + f3 : Nat) =
      if f1 < 1 ∨ (9 < f1 ∧ f1 < 0x0F) ∨ 0x1E < f1 then false
      else if f2 < 0x20 ∨ f3 < 0x20 then false
      else if f2 ≠ 0x20 ∧ f2 ≠ 0x7F ∧ f3 ≠ 0x20 ∧ f3 ≠ 0x7F ∧
          ¬ (0x0F ≤ f1 ∧ f1 ≤ 0x1E) then true
      else if f1 ≤ 9 then
        has96Chars (charsets.byLeadingByte (f1 + 0x8F))
      else has96Chars (charsets.byLeadingByte (f1 + 0xE1)) := by
  have hf1 : charField1 (f1 * 16384 + f2 * 128 + f3) = f1 := by rw [charField1]; omega
  have hf2 : charField2 (f1 * 16384 + f2 * 128 + f3) = f2 := by rw [charField2]; omega
  have hf3 : charField3 (f1 * 16384 + f2 * 128 + f3) = f3 := by rw [charField3]; omega
  rw [nonAsciiValidCharP, if_neg (by omega), Int.toNat_natCast, hf1, hf2, hf3]
  exact if_neg (Nat.ne_of_gt h1)

theorem has96Chars_eq (hlookup : charsets.byLeadingByte lb = some charset) :
    has96Chars (charsets.byLeadingByte lb) = true ↔ charset.chars = 96 := by
  rw [hlookup]
  exact decide_eq_true_iff

theorem Charsets.exists_official (charsets : Charsets) (lb : Nat)
    (h : (0x81 ≤ lb ∧ lb ≤ 0x8C) ∨ (0x90 ≤ lb ∧ lb ≤ 0x98)) :
    ∃ charset, charsets.byLeadingByte lb = some charset := by
  have hstandard : ∀ n < 0x99, (0x81 ≤ n ∧ n ≤ 0x8C) ∨ (0x90 ≤ n ∧ n ≤ 0x98) →
      ∃ c ∈ standardCharsets, c.leadingByte = n := by decide
  obtain ⟨c, hc, rfl⟩ := hstandard lb (by omega) h
  obtain ⟨c', hc', hlb, -⟩ := exists_standard charsets hc
  exact ⟨c', hlb ▸ Charsets.byLeadingByte_eq hc'⟩

theorem Mchar.InRange.of_both {c : Nat} (hlo : 33 ≤ c) (hhi : c ≤ 126) : InRange charset c := by
  rw [InRange]
  split <;> omega

theorem Mchar.InRange.of_96 {c : Nat} (hchars : charset.chars = 96) (hlo : 32 ≤ c)
    (hhi : c < 128) : InRange charset c := by
  rw [InRange, if_neg (by rw [hchars]; decide)]
  omega

theorem Mchar.InRange.chars_eq {c : Nat} (h : InRange charset c) (hc : c = 0x20 ∨ c = 0x7F) :
    charset.chars = 96 := by
  obtain hchars | hchars := charset.chars_eq
  · rw [InRange, if_pos hchars] at h
    omega
  · exact hchars

theorem Mchar.Valid.validCharP_iff (hch : ch.Valid charsets)
    (hascii : ch.charset.leadingByte ≠ 0x8E) (hcontrol : ch.charset.leadingByte ≠ 0x8F) :
    nonAsciiValidCharP charsets ch.emchar = true ↔
      (0xA0 ≤ ch.charset.leadingByte → ch.charset.chars = 96) := by
  have hlookup := Charsets.byLeadingByte_eq hch.defined
  have hpositions := hch.positions
  rw [Positions, if_neg hascii, if_neg hcontrol] at hpositions
  cases hch.shape with
  | ascii lb rep dim h1 h2 hbytes hemchar => exact absurd lb hascii
  | control1 lb rep dim h1 h2 hbytes hemchar => exact absurd lb hcontrol
  | official1 lo hi rep dim lo1 hi1 h2 hbytes hemchar =>
    have hback : ch.charset.leadingByte - 0x80 + 0x80 = ch.charset.leadingByte := by omega
    rw [if_pos dim] at hpositions
    rw [hemchar, nonAsciiValidCharP_one (by omega) (by omega), if_neg (by omega),
      if_neg (by omega)]
    refine iff_of_true ?_ (fun hprivate => by omega)
    split
    · rfl
    · rw [hback, has96Chars_eq hlookup]
      exact hpositions.1.chars_eq (by omega)
  | private1 lo hi rep dim lo1 hi1 h2 hbytes hemchar =>
    have hback : ch.charset.leadingByte - 0x80 + 0x80 = ch.charset.leadingByte := by omega
    rw [hemchar, nonAsciiValidCharP_one (by omega) (by omega), if_neg (by omega),
      if_neg (by omega), if_neg (by omega), hback, has96Chars_eq hlookup]
    exact ⟨fun h _ => h, fun h => h lo⟩
  | official2 lo hi rep dim lo1 hi1 lo2 hi2 hbytes hemchar =>
    have hback : ch.charset.leadingByte - 0x8F + 0x8F = ch.charset.leadingByte := by omega
    rw [if_neg (by omega)] at hpositions
    rw [hemchar, nonAsciiValidCharP_two (by omega) (by omega) (by omega) (by omega),
      if_neg (by omega), if_neg (by omega)]
    refine iff_of_true ?_ (fun hprivate => by omega)
    split
    · rfl
    · rename_i hshort
      rw [if_pos (by omega), hback, has96Chars_eq hlookup]
      by_cases h1 : ch.c1 = 0x20 ∨ ch.c1 = 0x7F
      · exact hpositions.1.chars_eq h1
      · exact hpositions.2.chars_eq (by omega)
  | private2 lo hi rep dim lo1 hi1 lo2 hi2 hbytes hemchar =>
    have hback : ch.charset.leadingByte - 0xE1 + 0xE1 = ch.charset.leadingByte := by omega
    rw [hemchar, nonAsciiValidCharP_two (by omega) (by omega) (by omega) (by omega),
      if_neg (by omega), if_neg (by omega), if_neg (by omega), if_neg (by omega), hback,
      has96Chars_eq hlookup]
    exact ⟨fun h _ => h, fun h => h (by omega)⟩

theorem hasChar_one {f2 f3 : Nat} (h2 : f2 < 128) (h3 : f3 < 128)
    (h : nonAsciiValidCharP charsets (f2 * 128 + f3 : Nat) = true) :
    charsets.HasChar (f2 * 128 + f3 : Nat) := by
  rw [nonAsciiValidCharP_one h2 h3] at h
  split at h
  · cases h
  rename_i hfield
  split at h
  · cases h
  -- the charset of the leading byte, and the range of the position code
  obtain ⟨charset, hlookup, hrange⟩ : ∃ charset,
      charsets.byLeadingByte (f2 + 0x80) = some charset ∧ Mchar.InRange charset f3 := by
    split at h
    · obtain ⟨charset, hlookup⟩ := charsets.exists_official (f2 + 0x80) (by omega)
      exact ⟨charset, hlookup, .of_both (by omega) (by omega)⟩
    · cases hlookup : charsets.byLeadingByte (f2 + 0x80) with
      | none =>
        rw [hlookup] at h
        cases h
      | some charset =>
        rw [has96Chars_eq hlookup] at h
        exact ⟨charset, rfl, .of_96 h (by omega) h3⟩
  obtain ⟨hdefined, hlb⟩ := Charsets.byLeadingByte_spec hlookup
  have hdim : charset.dimension = 1 := by
    cases Charsets.kind hdefined with
    | ascii lb rep type | control1 lb rep type => omega
    | official1 lo hi rep dim | private1 lo hi rep dim => exact dim
    | official2 lo hi rep dim | private2 lo hi rep dim => omega
  refine ⟨charset, hdefined, f3, 0, hrange, fun h => ?_, ?_⟩
  · rw [hdim] at h
    cases h
  · rw [makeChar, if_neg (show charset.leadingByte ≠ 0x8E by omega),
      if_neg (show charset.leadingByte ≠ 0x8F by omega), if_pos hdim, hlb, Nat.add_sub_cancel]

theorem hasChar_two {f1 f2 f3 : Nat} (h1 : 0 < f1) (h1' : f1 < 32) (h2 : f2 < 128) (h3 : f3 < 128)
    (h : nonAsciiValidCharP charsets (f1 * 16384 + f2 * 128 + f3 : Nat) = true) :
    charsets.HasChar (f1 * 16384 + f2 * 128 + f3 : Nat) := by
  rw [nonAsciiValidCharP_two h1 h1' h2 h3] at h
  split at h
  · cases h
  rename_i hfield
  split at h
  · cases h
  have hlead : ∀ base, (∃ charset, charsets.byLeadingByte (f1 + base) = some charset ∧
        Mchar.InRange charset f2 ∧ Mchar.InRange charset f3) →
      (base = 0x8F ∧ f1 ≤ 9 ∨ base = 0xE1 ∧ ¬ f1 ≤ 9) →
      charsets.HasChar (f1 * 16384 + f2 * 128 + f3 : Nat) := by
    rintro base ⟨charset, hlookup, hrange2, hrange3⟩ hbase
    obtain ⟨hdefined, hlb⟩ := Charsets.byLeadingByte_spec hlookup
    have hdim : charset.dimension ≠ 1 := by
      cases Charsets.kind hdefined with
      | ascii lb rep type | control1 lb rep type => omega
      | official1 lo hi rep dim | private1 lo hi rep dim => omega
      | official2 lo hi rep dim | private2 lo hi rep dim => omega
    refine ⟨charset, hdefined, f2, f3, hrange2, fun _ => hrange3, ?_⟩
    rw [makeChar, if_neg (show charset.leadingByte ≠ 0x8E by omega),
      if_neg (show charset.leadingByte ≠ 0x8F by omega), if_neg hdim, Charset.isPrivate]
    obtain ⟨rfl, hofficial⟩ | ⟨rfl, hprivate⟩ := hbase
    · rw [if_pos (by rw [decide_eq_true_eq]; omega), hlb, Nat.add_sub_cancel]
    · rw [if_neg (by rw [decide_eq_true_eq]; omega), hlb, Nat.add_sub_cancel]
  have hnarrow : ∀ lb, has96Chars (charsets.byLeadingByte lb) = true → ∃ charset,
      charsets.byLeadingByte lb = some charset ∧ Mchar.InRange charset f2 ∧
        Mchar.InRange charset f3 := by
    intro lb h
    cases hlookup : charsets.byLeadingByte lb with
    | none =>
      rw [hlookup] at h
      cases h
    | some charset =>
      rw [has96Chars_eq hlookup] at h
      exact ⟨charset, rfl, .of_96 h (by omega) h2, .of_96 h (by omega) h3⟩
  split at h
  · obtain ⟨charset, hlookup⟩ := charsets.exists_official (f1 + 0x8F) (by omega)
    exact hlead 0x8F ⟨charset, hlookup, .of_both (by omega) (by omega),
      .of_both (by omega) (by omega)⟩ (.inl ⟨rfl, by omega⟩)
  · split at h
    · exact hlead _ (hnarrow _ h) (.inl ⟨rfl, by assumption⟩)
    · exact hlead _ (hnarrow _ h) (.inr ⟨rfl, by assumption⟩)

theorem hasChar_of_nonAsciiValidCharP (h : nonAsciiValidCharP charsets c = true) :
    charsets.HasChar c := by
  obtain hout | hin := Decidable.em (c < 0 ∨ 0x7FFFF < c)
  · rw [nonAsciiValidCharP, if_pos hout] at h
    cases h
  obtain ⟨n, rfl⟩ : ∃ n : Nat, c = n := ⟨c.toNat, by omega⟩
  have hn : n = charField1 n * 16384 + charField2 n * 128 + charField3 n := by
    rw [charField1, charField2, charField3]
    omega
  have h2 : charField2 n < 128 := Nat.mod_lt _ (by decide)
  have h3 : charField3 n < 128 := Nat.mod_lt _ (by decide)
  have h1 : charField1 n < 32 := Nat.mod_lt _ (by decide)
  rw [hn] at h ⊢
  obtain hzero | hpos := Nat.eq_zero_or_pos (charField1 n)
  · rw [hzero, Nat.zero_mul, Nat.zero_add] at h ⊢
    exact hasChar_one h2 h3 h
  · exact hasChar_two hpos h1 h2 h3 h

end ValidChars

/-! ### What is valid -/

namespace CharsetLookup

variable {l : CharsetLookup} {c : Int}

/-- **Valid characters are the existing ones**, in every state that programs reach, but for those
of private charsets with 94 characters in a dimension. -/
theorem nonAsciiValidCharP_iff (hl : l.Reachable) (hc : ¬ (0 ≤ c ∧ c < 0x80)) :
    ValidCharsExist hl.charsets c ↔
      ¬ ∃ charset ∈ l.list, charset.isPrivate = true ∧ charset.chars = 94 ∧ charset.HasChar c := by
  constructor
  · rintro ⟨hiff, -⟩ ⟨charset, hcharset, hprivate, hchars, hhas⟩
    have hlist : charset ∈ hl.charsets.list := hcharset
    have hhas' : hl.charsets.HasChar c := ⟨charset, hlist, hhas⟩
    have hlb : 0xA0 ≤ charset.leadingByte := of_decide_eq_true hprivate
    obtain ⟨ch, hch, rfl, rfl⟩ := hhas.exists_valid hlist (by omega) (by omega)
    have h96 := (hch.validCharP_iff (by omega) (by omega)).mp (hiff.mpr hhas') hlb
    rw [hchars] at h96
    cases h96
  · intro hno
    refine ⟨⟨hasChar_of_nonAsciiValidCharP, fun hhas => ?_⟩, fun hhas => ?_⟩
    · obtain ⟨ch, hch, rfl, hascii, hcontrol⟩ := hhas.exists_valid hc
      refine (hch.validCharP_iff hascii hcontrol).mpr fun hlb => ?_
      obtain hchars | hchars := ch.charset.chars_eq
      · exact absurd ⟨ch.charset, hch.defined, decide_eq_true hlb, hchars,
          hch.hasChar hascii hcontrol⟩ hno
      · exact hchars
    · obtain ⟨ch, hch, rfl, -⟩ := hhas.exists_valid hc
      exact hch.roundTrips

/-- A program defines a charset with 94 characters. -/
def oneCharset : CharsetLookup where
  list := ⟨0xA0, 3, .type94, 0, 0x30, .leftToRight, none⟩ :: standardCharsets
  names := "user" :: initial.names
  nextAllocated1ByteLeadingByte := 0xA1
  nextAllocated2ByteLeadingByte := 0xF0

theorem oneCharset_reachable : oneCharset.Reachable := by
  have hmake : initial.fmakeCharset "user" [.final 0x30] = .ok oneCharset := by decide
  exact .makeCharset .initial hmake

/-- Its first character is not valid, though there is one with this number. -/
theorem nonAsciiValidCharP_oneCharset :
    ¬ ∀ (l : CharsetLookup) (hl : l.Reachable) (c : Int), ¬ (0 ≤ c ∧ c < 0x80) →
      ValidCharsExist hl.charsets c := by
  intro h
  have hvalid := (h oneCharset oneCharset_reachable (0x20 * 128 + 33) (by decide)).1.mpr
    ⟨⟨0xA0, 3, .type94, 0, 0x30, .leftToRight, none⟩, List.mem_cons_self, 33, 0, by decide,
      nofun, by decide⟩
  exact absurd hvalid (by decide)

/-- The characters of Latin-1 are not concerned. -/
theorem nonAsciiValidCharP_latin1 : ValidCharsExist oneCharset_reachable.charsets 0xE9 := by
  refine (nonAsciiValidCharP_iff oneCharset_reachable (by decide)).mpr ?_
  rintro ⟨charset, hcharset, hprivate, -, c1, c2, -, -, heq⟩
  obtain rfl | hstandard := List.mem_cons.mp hcharset
  · change (0xE9 : Int) = ((0xA0 - 0x80) * 128 + c1 : Nat) at heq
    omega
  · exact absurd (of_decide_eq_true hprivate)
      (Nat.not_le.mpr (standardCharsets_made charset hstandard).1)

end CharsetLookup

end XEmacs.Coding

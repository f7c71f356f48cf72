import XEmacs.Chartab.CharTables

/-!
# What a char table looks like

A view is the tree of a char table without addresses. A value assigned to a range is seen for the
characters of the range and no others (`TableView.value_put`).
-/

namespace XEmacs.Chartab

open Coding Function

/-- A row of a charset: one value, or a value for each character. -/
inductive RowView (V : Type) where
  | whole (val : V)
  | chars (f : Fin 96 → V)

/-- A charset: one value, or a row for each first position code. -/
inductive CharsetView (V : Type) where
  | whole (val : V)
  | rows (f : Fin 96 → RowView V)

structure TableView (V : Type) where
  ascii : Fin 160 → V
  level1 : Fin 128 → CharsetView V

variable {V : Type}

/-! ### Indices -/

/-- Where a character of ASCII or Control-1 has its value. -/
def asciiIndex (c : Nat) : Fin 160 := ⟨c % 160, Nat.mod_lt c (by decide)⟩

/-- The place of a charset in `level1`. -/
def charsetIndex (lb : Nat) : Fin 128 := ⟨(lb - 0x80) % 128, Nat.mod_lt _ (by decide)⟩

/-- The place of a position code in `level2`. -/
def codeIndex (byte : Nat) : Fin 96 := ⟨(byte - 32) % 96, Nat.mod_lt _ (by decide)⟩

theorem indexFrom_ascii {c : Nat} (h : c < 160) : indexFrom 0 160 c = some (asciiIndex c) := by
  rw [indexFrom, dif_pos ⟨Nat.zero_le c, h⟩]
  exact congrArg some (Fin.ext (Nat.mod_eq_of_lt h).symm)

theorem indexFrom_charset {lb : Nat} (hlo : 0x80 ≤ lb) (hhi : lb ≤ 0xFF) :
    indexFrom 0x80 128 lb = some (charsetIndex lb) := by
  rw [indexFrom, dif_pos ⟨hlo, by omega⟩]
  exact congrArg some (Fin.ext (Nat.mod_eq_of_lt (by omega)).symm)

theorem indexFrom_code {byte : Nat} (hlo : 32 ≤ byte) (hhi : byte ≤ 127) :
    indexFrom 32 96 byte = some (codeIndex byte) := by
  rw [indexFrom, dif_pos ⟨hlo, by omega⟩]
  exact congrArg some (Fin.ext (Nat.mod_eq_of_lt (by omega)).symm)

theorem val_asciiIndex {c : Nat} (h : c < 160) : (asciiIndex c).val = c := Nat.mod_eq_of_lt h

theorem asciiIndex_inj {c c' : Nat} (h : c < 160) (h' : c' < 160)
    (heq : asciiIndex c = asciiIndex c') : c = c' := by
  rw [← val_asciiIndex h, heq, val_asciiIndex h']

theorem charsetIndex_inj {lb lb' : Nat} (h : 0x80 ≤ lb ∧ lb ≤ 0xFF) (h' : 0x80 ≤ lb' ∧ lb' ≤ 0xFF)
    (heq : charsetIndex lb = charsetIndex lb') : lb = lb' := by
  have hval := Fin.mk.inj heq
  omega

theorem codeIndex_inj {byte byte' : Nat} (h : 32 ≤ byte ∧ byte ≤ 127)
    (h' : 32 ≤ byte' ∧ byte' ≤ 127) (heq : codeIndex byte = codeIndex byte') : byte = byte' := by
  have hval := Fin.mk.inj heq
  omega

/-! ### Characters and ranges -/

/-- The characters of a range. -/
def ChartabRange.Has : ChartabRange → Mchar → Prop
  | .all, _ => True
  | .charset cs, ch => ch.charset.leadingByte = cs.leadingByte
  | .row cs byte1, ch => ch.charset.leadingByte = cs.leadingByte ∧ ch.c1 = byte1
  | .char c, ch => ch.emchar = c

instance (range : ChartabRange) (ch : Mchar) : Decidable (range.Has ch) := by
  cases range <;> unfold ChartabRange.Has <;> infer_instance

/-- The ranges that `decode_char_table_range` lets pass. -/
def ChartabRange.Valid (charsets : Charsets) : ChartabRange → Prop
  | .all => True
  | .charset cs => cs ∈ charsets.list
  | .row cs byte1 => cs ∈ charsets.list ∧ cs.dimension = 2 ∧ Mchar.InRange cs byte1
  | .char c => ∃ ch : Mchar, ch.Valid charsets ∧ ch.emchar = c

section characters

variable {charsets : Charsets} {ch ch' : Mchar} {c : Charset}

theorem leadingByte_bounds (hc : c ∈ charsets.list) :
    0x80 ≤ c.leadingByte ∧ c.leadingByte ≤ 0xFF := by
  cases Charsets.kind hc with
  | ascii lb => omega
  | control1 lb => omega
  | official1 lo hi => omega
  | official2 lo hi => omega
  | private1 lo hi => omega
  | private2 lo hi => omega

theorem not_ascii_of_two (hc : c ∈ charsets.list) (hdim : c.dimension = 2) :
    c.leadingByte ≠ leadingByteAscii ∧ c.leadingByte ≠ leadingByteControl1 := by
  unfold leadingByteAscii leadingByteControl1
  cases Charsets.kind hc with
  | ascii lb rep type => rw [Charset.dimension, type] at hdim; cases hdim
  | control1 lb rep type => rw [Charset.dimension, type] at hdim; cases hdim
  | official1 lo hi rep dim => omega
  | official2 lo hi rep dim => omega
  | private1 lo hi rep dim => omega
  | private2 lo hi rep dim => omega

/-- What a valid character is, for a char table. -/
inductive Character (ch : Mchar) : Prop where
  | ascii (lb : ch.charset.leadingByte = leadingByteAscii) (dim : ch.charset.dimension = 1)
    (code : ch.c1 < 128) (emchar : ch.emchar = ch.c1)
  | control1 (lb : ch.charset.leadingByte = leadingByteControl1) (dim : ch.charset.dimension = 1)
    (code : ch.c1 < 32) (emchar : ch.emchar = ch.c1 + 128)
  | other (notAscii : ch.charset.leadingByte ≠ leadingByteAscii)
    (notControl1 : ch.charset.leadingByte ≠ leadingByteControl1)
    (code : 32 ≤ ch.c1 ∧ ch.c1 ≤ 127)
    (second : ch.charset.dimension = 1 ∧ ch.c2 = 0 ∨
      ch.charset.dimension = 2 ∧ 32 ≤ ch.c2 ∧ ch.c2 ≤ 127)
    (emchar : 160 ≤ ch.emchar)

theorem character (hch : ch.Valid charsets) : Character ch := by
  cases hch.shape with
  | ascii lb rep dim h1 h2 hbytes hemchar => exact .ascii lb dim h1 hemchar
  | control1 lb rep dim h1 h2 hbytes hemchar => exact .control1 lb dim h1 (by omega)
  | official1 lo hi rep dim lo1 hi1 h2 hbytes hemchar =>
    exact .other (by unfold leadingByteAscii; omega) (by unfold leadingByteControl1; omega)
      ⟨lo1, hi1⟩ (.inl ⟨dim, h2⟩) (by omega)
  | private1 lo hi rep dim lo1 hi1 h2 hbytes hemchar =>
    exact .other (by unfold leadingByteAscii; omega) (by unfold leadingByteControl1; omega)
      ⟨lo1, hi1⟩ (.inl ⟨dim, h2⟩) (by omega)
  | official2 lo hi rep dim lo1 hi1 lo2 hi2 hbytes hemchar =>
    exact .other (by unfold leadingByteAscii; omega) (by unfold leadingByteControl1; omega)
      ⟨lo1, hi1⟩ (.inr ⟨dim, lo2, hi2⟩) (by omega)
  | private2 lo hi rep dim lo1 hi1 lo2 hi2 hbytes hemchar =>
    exact .other (by unfold leadingByteAscii; omega) (by unfold leadingByteControl1; omega)
      ⟨lo1, hi1⟩ (.inr ⟨dim, lo2, hi2⟩) (by omega)

theorem character_other (hch : ch.Valid charsets)
    (hascii : ch.charset.leadingByte ≠ leadingByteAscii)
    (hcontrol : ch.charset.leadingByte ≠ leadingByteControl1) :
    (32 ≤ ch.c1 ∧ ch.c1 ≤ 127) ∧ (ch.charset.dimension = 1 ∧ ch.c2 = 0 ∨
      ch.charset.dimension = 2 ∧ 32 ≤ ch.c2 ∧ ch.c2 ≤ 127) ∧ 160 ≤ ch.emchar := by
  cases character hch with
  | ascii lb => exact absurd lb hascii
  | control1 lb => exact absurd lb hcontrol
  | other notAscii notControl1 code second emchar => exact ⟨code, second, emchar⟩

theorem charLeadingByte_emchar (hch : ch.Valid charsets) :
    charLeadingByte ch.emchar = some ch.charset.leadingByte := by
  rw [charLeadingByte]
  cases hch.shape with
  | ascii lb rep dim h1 h2 hbytes hemchar => rw [hemchar, if_pos h1, lb]
  | control1 lb rep dim h1 h2 hbytes hemchar =>
    rw [hemchar, if_neg (by omega), if_pos (by omega), lb]
  | official1 lo hi rep dim lo1 hi1 h2 hbytes hemchar =>
    rw [hemchar, if_neg (by omega), if_neg (by omega), if_pos (by omega)]
    exact congrArg some (by omega)
  | private1 lo hi rep dim lo1 hi1 h2 hbytes hemchar =>
    rw [hemchar, if_neg (by omega), if_neg (by omega), if_pos (by omega)]
    exact congrArg some (by omega)
  | official2 lo hi rep dim lo1 hi1 lo2 hi2 hbytes hemchar =>
    rw [hemchar, if_neg (by omega), if_neg (by omega), if_neg (by omega), if_pos (by omega)]
    exact congrArg some (by omega)
  | private2 lo hi rep dim lo1 hi1 lo2 hi2 hbytes hemchar =>
    rw [hemchar, if_neg (by omega), if_neg (by omega), if_neg (by omega), if_neg (by omega),
      if_pos (by omega)]
    exact congrArg some (by omega)

theorem breakupChar_emchar (hch : ch.Valid charsets) :
    breakupChar charsets ch.emchar = some (ch.charset, ch.c1, ch.c2) := by
  rw [breakupChar, charLeadingByte_emchar hch]
  simp only [Option.bind_eq_bind, Option.bind_some, Charsets.byLeadingByte_eq hch.defined]
  have hone : ∀ {p : Nat}, ch.charset.dimension = 1 → ch.c2 = 0 → ch.emchar % 128 = p →
      p = ch.c1 → (if ch.charset.dimension = 1 then some (ch.charset, ch.emchar % 128, 0)
        else some (ch.charset, ch.emchar / 128 % 128, ch.emchar % 128))
        = some (ch.charset, ch.c1, ch.c2) := by
    intro p hdim hc2 hp hc1
    rw [if_pos hdim, hp, hc1, hc2]
  have htwo : ch.charset.dimension = 2 → ch.emchar / 128 % 128 = ch.c1 → ch.emchar % 128 = ch.c2 →
      (if ch.charset.dimension = 1 then some (ch.charset, ch.emchar % 128, 0)
        else some (ch.charset, ch.emchar / 128 % 128, ch.emchar % 128))
        = some (ch.charset, ch.c1, ch.c2) := by
    intro hdim hc1 hc2
    rw [if_neg (by omega), hc1, hc2]
  cases hch.shape with
  | ascii lb rep dim h1 h2 hbytes hemchar => exact hone dim h2 rfl (by omega)
  | control1 lb rep dim h1 h2 hbytes hemchar => exact hone dim h2 rfl (by omega)
  | official1 lo hi rep dim lo1 hi1 h2 hbytes hemchar => exact hone dim h2 rfl (by omega)
  | private1 lo hi rep dim lo1 hi1 h2 hbytes hemchar => exact hone dim h2 rfl (by omega)
  | official2 lo hi rep dim lo1 hi1 lo2 hi2 hbytes hemchar =>
    exact htwo dim (by omega) (by omega)
  | private2 lo hi rep dim lo1 hi1 lo2 hi2 hbytes hemchar =>
    exact htwo dim (by omega) (by omega)

end characters

/-! ### Values -/

namespace RowView

/-- The value for a second position code. -/
def value : RowView V → Nat → V
  | whole val, _ => val
  | chars f, byte2 => f (codeIndex byte2)

/-- A value for each character. -/
def separate : RowView V → Fin 96 → V
  | whole val => fun _ => val
  | chars f => f

end RowView

namespace CharsetView

/-- The value for position codes. -/
def value : CharsetView V → Nat → Nat → V
  | whole val, _, _ => val
  | rows f, byte1, byte2 => (f (codeIndex byte1)).value byte2

/-- A row for each first position code. -/
def separate : CharsetView V → Fin 96 → RowView V
  | whole val => fun _ => .whole val
  | rows f => f

end CharsetView

namespace TableView

/-- The value of a character. -/
def value (w : TableView V) (ch : Mchar) : V :=
  if ch.charset.leadingByte = leadingByteAscii then w.ascii (asciiIndex ch.c1)
  else if ch.charset.leadingByte = leadingByteControl1 then w.ascii (asciiIndex (ch.c1 + 128))
  else (w.level1 (charsetIndex ch.charset.leadingByte)).value ch.c1 ch.c2

/-- A charset gets another view. -/
def setCharset (w : TableView V) (lb : Nat) (l : CharsetView V) : TableView V :=
  { w with level1 := Function.update w.level1 (charsetIndex lb) l }

/-- A value assigned to a range. -/
def put (charsets : Charsets) (w : TableView V) (range : ChartabRange) (val : V) : TableView V :=
  match range with
  | .all => ⟨fun _ => val, fun _ => .whole val⟩
  | .charset charset =>
    if charset.leadingByte = leadingByteAscii then
      { w with ascii := fun i => if 0 ≤ i.val ∧ i.val < 128 then val else w.ascii i }
    else if charset.leadingByte = leadingByteControl1 then
      { w with ascii := fun i => if 128 ≤ i.val ∧ i.val < 160 then val else w.ascii i }
    else w.setCharset charset.leadingByte (.whole val)
  | .row charset row =>
    let rows := (w.level1 (charsetIndex charset.leadingByte)).separate
    w.setCharset charset.leadingByte (.rows (Function.update rows (codeIndex row) (.whole val)))
  | .char ch =>
    match breakupChar charsets ch with
    | none => w
    | some (charset, byte1, byte2) =>
      if charset.leadingByte = leadingByteAscii then
        { w with ascii := Function.update w.ascii (asciiIndex byte1) val }
      else if charset.leadingByte = leadingByteControl1 then
        { w with ascii := Function.update w.ascii (asciiIndex (byte1 + 128)) val }
      else
        let rows := (w.level1 (charsetIndex charset.leadingByte)).separate
        let row : RowView V :=
          if charset.dimension = 1 then .whole val
          else .chars
            (Function.update (rows (codeIndex byte1)).separate (codeIndex byte2) val)
        w.setCharset charset.leadingByte (.rows (Function.update rows (codeIndex byte1) row))

end TableView

section put

variable {charsets : Charsets} {ch : Mchar} {w : TableView V} {range : ChartabRange} {val : V}

theorem RowView.separate_value (r : RowView V) (byte2 : Nat) :
    r.separate (codeIndex byte2) = r.value byte2 := by
  cases r with
  | whole val => rfl
  | chars f => rfl

theorem CharsetView.separate_value (l : CharsetView V) (byte1 byte2 : Nat) :
    (l.separate (codeIndex byte1)).value byte2 = l.value byte1 byte2 := by
  cases l with
  | whole val => rfl
  | rows f => rfl

theorem RowView.separate_update (r : RowView V) {b byte2 : Nat} (hb : 32 ≤ b ∧ b ≤ 127)
    (hbyte2 : 32 ≤ byte2 ∧ byte2 ≤ 127) :
    (chars (Function.update r.separate (codeIndex b) val)).value byte2
      = if byte2 = b then val else r.value byte2 := by
  rw [value]
  by_cases hsame : byte2 = b
  · rw [if_pos hsame, hsame, update_self]
  · rw [if_neg hsame, update_of_ne fun heq => hsame (codeIndex_inj hbyte2 hb heq),
      separate_value]

theorem CharsetView.separate_update (l : CharsetView V) {b byte1 : Nat} (hb : 32 ≤ b ∧ b ≤ 127)
    (hbyte1 : 32 ≤ byte1 ∧ byte1 ≤ 127) (r : RowView V) (byte2 : Nat) :
    (rows (Function.update l.separate (codeIndex b) r)).value byte1 byte2
      = if byte1 = b then r.value byte2 else l.value byte1 byte2 := by
  rw [value]
  by_cases hsame : byte1 = b
  · rw [if_pos hsame, hsame, update_self]
  · rw [if_neg hsame, update_of_ne fun heq => hsame (codeIndex_inj hbyte1 hb heq),
      separate_value]

namespace TableView

theorem value_of_lt (hch : ch.Valid charsets) (h : ch.emchar < 160) :
    w.value ch = w.ascii (asciiIndex ch.emchar) := by
  cases character hch with
  | ascii lb dim code emchar => rw [value, if_pos lb, emchar]
  | control1 lb dim code emchar =>
    rw [value, if_neg (by rw [lb]; decide), if_pos lb, emchar]
  | other notAscii notControl1 code second emchar => exact absurd h (Nat.not_lt.mpr emchar)

theorem value_of_ge (hch : ch.Valid charsets) (h : 160 ≤ ch.emchar) :
    w.value ch = (w.level1 (charsetIndex ch.charset.leadingByte)).value ch.c1 ch.c2 := by
  cases character hch with
  | ascii lb dim code emchar => omega
  | control1 lb dim code emchar => omega
  | other notAscii notControl1 code second emchar => rw [value, if_neg notAscii, if_neg notControl1]

theorem value_setCharset (hch : ch.Valid charsets) {c : Charset}
    (hc : c ∈ charsets.list) (hascii : c.leadingByte ≠ leadingByteAscii)
    (hcontrol : c.leadingByte ≠ leadingByteControl1) (l : CharsetView V) :
    (w.setCharset c.leadingByte l).value ch
      = if ch.charset.leadingByte = c.leadingByte then l.value ch.c1 ch.c2 else w.value ch := by
  by_cases hsame : ch.charset.leadingByte = c.leadingByte
  · rw [if_pos hsame, value, if_neg (by rwa [hsame]), if_neg (by rwa [hsame]), hsame, setCharset]
    simp only [update_self]
  · have hne : charsetIndex ch.charset.leadingByte ≠ charsetIndex c.leadingByte := fun heq =>
      hsame (charsetIndex_inj (leadingByte_bounds hch.defined) (leadingByte_bounds hc) heq)
    rw [if_neg hsame, value, value, setCharset]
    simp only [update_of_ne hne]

theorem value_setAscii (hch : ch.Valid charsets) (f : Fin 160 → V) :
    (TableView.mk f w.level1).value ch
      = if ch.emchar < 160 then f (asciiIndex ch.emchar) else w.value ch := by
  by_cases h : ch.emchar < 160
  · rw [if_pos h, value_of_lt hch h]
  · rw [if_neg h, value_of_ge hch (Nat.le_of_not_lt h), value_of_ge hch (Nat.le_of_not_lt h)]

theorem value_put_charset {c : Charset} (hc : c ∈ charsets.list) (hch : ch.Valid charsets) :
    (w.put charsets (.charset c) val).value ch
      = if ch.charset.leadingByte = c.leadingByte then val else w.value ch := by
  rw [put]
  split
  · rename_i hascii
    rw [value_setAscii hch, hascii]
    cases character hch with
    | ascii lb dim code emchar =>
      rw [if_pos (by omega), if_pos lb, if_pos (by rw [val_asciiIndex (by omega)]; omega)]
    | control1 lb dim code emchar =>
      rw [if_pos (by omega), if_neg (by rw [val_asciiIndex (by omega)]; omega),
        if_neg (by rw [lb]; decide), value_of_lt hch (by omega)]
    | other notAscii notControl1 code second emchar => rw [if_neg (by omega), if_neg notAscii]
  · split
    · rename_i hcontrol
      rw [value_setAscii hch, hcontrol]
      cases character hch with
      | ascii lb dim code emchar =>
        rw [if_pos (by omega), if_neg (by rw [val_asciiIndex (by omega)]; omega),
          if_neg (by rw [lb]; decide), value_of_lt hch (by omega)]
      | control1 lb dim code emchar =>
        rw [if_pos (by omega), if_pos lb, if_pos (by rw [val_asciiIndex (by omega)]; omega)]
      | other notAscii notControl1 code second emchar => rw [if_neg (by omega), if_neg notControl1]
    · rename_i hascii hcontrol
      rw [value_setCharset hch hc hascii hcontrol]
      rfl

theorem value_put_row {c : Charset} (hc : c ∈ charsets.list) (hdim : c.dimension = 2)
    {byte1 : Nat} (hbyte1 : Mchar.InRange c byte1) (hch : ch.Valid charsets) :
    (w.put charsets (.row c byte1) val).value ch
      = if ch.charset.leadingByte = c.leadingByte ∧ ch.c1 = byte1 then val else w.value ch := by
  obtain ⟨hascii, hcontrol⟩ := not_ascii_of_two hc hdim
  rw [put, value_setCharset hch hc hascii hcontrol]
  by_cases hsame : ch.charset.leadingByte = c.leadingByte
  · obtain ⟨hcode, -, hge⟩ := character_other hch (hsame ▸ hascii) (hsame ▸ hcontrol)
    rw [if_pos hsame, CharsetView.separate_update _ hbyte1.bounds hcode, value_of_ge hch hge, hsame]
    exact if_congr (and_iff_right rfl).symm rfl rfl
  · rw [if_neg hsame, if_neg fun h => hsame h.1]

theorem value_put_char {ch₀ : Mchar} (hch₀ : ch₀.Valid charsets) (hch : ch.Valid charsets) :
    (w.put charsets (.char ch₀.emchar) val).value ch
      = if ch.emchar = ch₀.emchar then val else w.value ch := by
  rw [put, breakupChar_emchar hch₀]
  have hcell : ∀ index : Nat, index = ch₀.emchar → ch₀.emchar < 160 →
      (TableView.mk (Function.update w.ascii (asciiIndex index) val) w.level1).value ch
        = if ch.emchar = ch₀.emchar then val else w.value ch := by
    rintro index rfl hlt
    rw [value_setAscii hch]
    by_cases hsame : ch.emchar = ch₀.emchar
    · rw [if_pos hsame, hsame, if_pos hlt, update_self]
    · rw [if_neg hsame]
      split
      · rename_i h
        rw [update_of_ne fun heq => hsame (asciiIndex_inj h hlt heq), value_of_lt hch h]
      · rfl
  cases character hch₀ with
  | ascii lb dim code emchar =>
    simp only [if_pos lb]
    exact hcell _ emchar.symm (by omega)
  | control1 lb dim code emchar =>
    have hascii : ch₀.charset.leadingByte ≠ leadingByteAscii := by
      rw [lb]
      decide
    simp only [if_neg hascii, if_pos lb]
    exact hcell _ emchar.symm (by omega)
  | other notAscii notControl1 code second emchar =>
    simp only [if_neg notAscii, if_neg notControl1]
    rw [value_setCharset hch hch₀.defined notAscii notControl1]
    have hsame_iff : ch.emchar = ch₀.emchar ↔ ch.charset.leadingByte = ch₀.charset.leadingByte ∧
        ch.c1 = ch₀.c1 ∧ ch.c2 = ch₀.c2 := by
      constructor
      · intro heq
        rw [emchar_inj hch hch₀ heq]
        exact ⟨rfl, rfl, rfl⟩
      · rintro ⟨hlb, hc1, hc2⟩
        rw [Mchar.emchar, Mchar.emchar, hc1, hc2,
          charsets.leadingByte_inj _ hch.defined _ hch₀.defined hlb]
    by_cases hlb : ch.charset.leadingByte = ch₀.charset.leadingByte
    · have hcharset := charsets.leadingByte_inj _ hch.defined _ hch₀.defined hlb
      obtain ⟨hcode, hsecond, hge⟩ := character_other hch (hlb ▸ notAscii) (hlb ▸ notControl1)
      rw [hcharset] at hsecond
      rw [if_pos hlb, CharsetView.separate_update _ code hcode]
      by_cases hc1 : ch.c1 = ch₀.c1
      · rw [if_pos hc1]
        rcases second with ⟨hdim, hc2₀⟩ | ⟨hdim, hc2₀⟩
        · have hc2 : ch.c2 = 0 := hsecond.elim And.right fun h => by omega
          rw [if_pos hdim, if_pos (hsame_iff.mpr ⟨hlb, hc1, hc2.trans hc2₀.symm⟩)]
          rfl
        · have hc2 : 32 ≤ ch.c2 ∧ ch.c2 ≤ 127 := hsecond.elim (fun h => by omega) And.right
          rw [if_neg (by omega), RowView.separate_update _ hc2₀ hc2, CharsetView.separate_value]
          by_cases hsame : ch.c2 = ch₀.c2
          · rw [if_pos hsame, if_pos (hsame_iff.mpr ⟨hlb, hc1, hsame⟩)]
          · rw [if_neg hsame, if_neg fun heq => hsame (hsame_iff.mp heq).2.2, value_of_ge hch hge,
              hlb, hc1]
      · rw [if_neg hc1, if_neg fun heq => hc1 (hsame_iff.mp heq).2.1, value_of_ge hch hge, hlb]
    · rw [if_neg hlb, if_neg fun heq => hlb (hsame_iff.mp heq).1]

/-- **The assignment law**: a value assigned to a range is seen for the characters of the range and
no others. -/
theorem value_put (hrange : range.Valid charsets) (hch : ch.Valid charsets) :
    (w.put charsets range val).value ch = if range.Has ch then val else w.value ch := by
  cases range with
  | all =>
    refine (if_pos (show ChartabRange.all.Has ch from trivial)).symm ▸ ?_
    rw [put, value]
    split
    · rfl
    · split
      · rfl
      · rfl
  | charset c => exact value_put_charset hrange hch
  | row c byte1 => exact value_put_row hrange.1 hrange.2.1 hrange.2.2 hch
  | char c =>
    obtain ⟨ch₀, hch₀, rfl⟩ := hrange
    exact value_put_char hch₀ hch

end TableView

end put

end XEmacs.Chartab

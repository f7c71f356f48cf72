import XEmacs.Chartab.Views
import XEmacs.Lib.Blocks

/-!
# The ranges that are mapped over

`TableView.subranges` is what `map_char_table` passes to its function if this always returns 0.
-/

namespace XEmacs.Chartab

open Coding Blocks List

variable {V : Type}

/-- The position codes of a charset. -/
def codes (charset : Charset) : List Nat :=
  List.range' (startCode charset) (codeCount charset)

/-- The ranges in a row. -/
def RowView.subranges (charset : Charset) (byte1 : Nat) : RowView V → List (ChartabRange × V)
  | whole val => [(.row charset byte1, val)]
  | chars f => (codes charset).map fun i => (.char (makeChar charset byte1 i), f (codeIndex i))

/-- The ranges in a charset. -/
def CharsetView.subranges (charset : Charset) : CharsetView V → List (ChartabRange × V)
  | whole val => [(.charset charset, val)]
  | rows f =>
    if charset.dimension = 1 then
      (codes charset).map fun i => (.char (makeChar charset i 0), (f (codeIndex i)).value 0)
    else (codes charset).flatMap fun i => (f (codeIndex i)).subranges charset i

namespace TableView

/-- Ranges of ASCII or Control-1 characters. -/
def asciiSubranges (w : TableView V) (start n : Nat) : List (ChartabRange × V) :=
  (List.range' start n).map fun i => (.char i, w.ascii (asciiIndex i))

/-- The ranges of another charset. -/
def otherSubranges (charsets : Charsets) (w : TableView V) (lb : Nat) : List (ChartabRange × V) :=
  match charsets.byLeadingByte lb with
  | none => []
  | some charset =>
    if lb = leadingByteAscii ∨ lb = leadingByteControl1 then []
    else (w.level1 (charsetIndex lb)).subranges charset

/-- The ranges that are passed, with their values. -/
def subranges (charsets : Charsets) (w : TableView V) (range : ChartabRange) :
    List (ChartabRange × V) :=
  match range with
  | .all =>
    w.asciiSubranges 0 128 ++ w.asciiSubranges 128 32 ++
      (List.range' 0x80 128).flatMap (w.otherSubranges charsets)
  | .charset charset => w.otherSubranges charsets charset.leadingByte
  | .row charset byte1 =>
    match w.level1 (charsetIndex charset.leadingByte) with
    | .whole val => [(.row charset byte1, val)]
    | .rows f => (f (codeIndex byte1)).subranges charset byte1
  | .char ch =>
    match breakupChar charsets ch with
    | none => []
    | some (charset, byte1, byte2) => [(.char ch, w.value ⟨charset, byte1, byte2⟩)]

/-- Only charsets of two dimensions have rows with a value for each character. -/
def Fits (charsets : Charsets) (w : TableView V) : Prop :=
  ∀ lb f i g, w.level1 lb = .rows f → f i = .chars g →
    ∃ c ∈ charsets.list, charsetIndex c.leadingByte = lb ∧ c.dimension = 2

end TableView

/-- The valid characters of a range that is passed. -/
def blockOf (charsets : Charsets) (p : ChartabRange × V) : Set Mchar :=
  {ch | ch.Valid charsets ∧ p.1.Has ch}

section blocks

variable {charsets : Charsets} {c : Charset} {w : TableView V} {ch : Mchar} {byte1 : Nat}

theorem mem_codes {i : Nat} : i ∈ codes c ↔ Mchar.InRange c i := by
  rw [codes, mem_range'_1, startCode, codeCount, Mchar.InRange]
  split
  · omega
  · omega

theorem valid_of_one (hc : c ∈ charsets.list) (hascii : c.leadingByte ≠ leadingByteAscii)
    (hcontrol : c.leadingByte ≠ leadingByteControl1) (hdim : c.dimension = 1) {i : Nat}
    (hi : Mchar.InRange c i) : (⟨c, i, 0⟩ : Mchar).Valid charsets := by
  refine ⟨hc, ?_⟩
  rw [Mchar.Positions, if_neg hascii, if_neg hcontrol, if_pos hdim]
  exact ⟨hi, rfl⟩

theorem valid_of_two (hc : c ∈ charsets.list) (hdim : c.dimension = 2) {i j : Nat}
    (hi : Mchar.InRange c i) (hj : Mchar.InRange c j) : (⟨c, i, j⟩ : Mchar).Valid charsets := by
  obtain ⟨hascii, hcontrol⟩ := not_ascii_of_two hc hdim
  refine ⟨hc, ?_⟩
  rw [Mchar.Positions, if_neg hascii, if_neg hcontrol, if_neg (by simp only; omega)]
  exact ⟨hi, hj⟩

theorem inRange_of_two (hch : ch.Valid charsets) (hdim : ch.charset.dimension = 2) :
    Mchar.InRange ch.charset ch.c1 ∧ Mchar.InRange ch.charset ch.c2 := by
  obtain ⟨hascii, hcontrol⟩ := not_ascii_of_two hch.defined hdim
  have hpositions := hch.positions
  rwa [Mchar.Positions, if_neg hascii, if_neg hcontrol, if_neg (by omega)] at hpositions

theorem partitions_chars {is : List Nat} (num : Nat → Nat)
    (hdistinct : is.Pairwise fun i j => num i ≠ num j)
    (hvalid : ∀ i ∈ is, ∃ ch : Mchar, ch.Valid charsets ∧ ch.emchar = num i) (val : Nat → V) :
    Partitions (blockOf charsets) {ch | ∃ i ∈ is, ch ∈ {ch | ch.Valid charsets ∧ ch.emchar = num i}}
      (is.map fun i => (.char (num i), val i)) := by
  refine Partitions.map (fun i hi => hvalid i hi) (fun i _ => rfl) (hdistinct.imp fun hne => ?_)
  exact Set.disjoint_left.mpr fun ch h h' => hne (h.2.symm.trans h'.2)

theorem partitions_ascii (charsets : Charsets) (w : TableView V) (start n : Nat)
    (hin : ∀ i, start ≤ i → i < start + n → ∃ ch : Mchar, ch.Valid charsets ∧ ch.emchar = i) :
    Partitions (blockOf charsets)
      {ch | ch.Valid charsets ∧ start ≤ ch.emchar ∧ ch.emchar < start + n}
      (w.asciiSubranges start n) := by
  have hchars := partitions_chars id
    (nodup_range' (s := start) (n := n)) (fun i hi => by
      rw [mem_range'_1] at hi
      exact hin i hi.1 hi.2) fun i => w.ascii (asciiIndex i)
  refine hchars.congr fun ch => ⟨?_, fun ⟨hch, hlo, hhi⟩ => ?_⟩
  · rintro ⟨i, hi, hch, rfl⟩
    rw [mem_range'_1] at hi
    exact ⟨hch, hi⟩
  · exact ⟨ch.emchar, mem_range'_1.mpr ⟨hlo, hhi⟩, hch, rfl⟩

theorem codes_nodup : (codes c).Nodup := nodup_range'

theorem pairwise_makeChar (make : Nat → Mchar) (hinj : ∀ i j, make i = make j → i = j)
    (hvalid : ∀ i ∈ codes c, (make i).Valid charsets) :
    (codes c).Pairwise fun i j => (make i).emchar ≠ (make j).emchar :=
  codes_nodup.imp_of_mem fun hi hj hne heq =>
    hne (hinj _ _ (emchar_inj (hvalid _ hi) (hvalid _ hj) heq))

theorem partitions_row (hc : c ∈ charsets.list) (hdim : c.dimension = 2)
    (hbyte1 : Mchar.InRange c byte1) (r : RowView V) :
    Partitions (blockOf charsets)
      {ch | ch.Valid charsets ∧ ch.charset.leadingByte = c.leadingByte ∧ ch.c1 = byte1}
      (r.subranges c byte1) := by
  have hvalid : ∀ j, Mchar.InRange c j → (⟨c, byte1, j⟩ : Mchar).Valid charsets := fun j hj =>
    valid_of_two hc hdim hbyte1 hj
  cases r with
  | whole val => exact .singleton ⟨_, hvalid byte1 hbyte1, rfl, rfl⟩ rfl
  | chars f =>
    have hvalid' : ∀ i ∈ codes c, (⟨c, byte1, i⟩ : Mchar).Valid charsets := fun i hi =>
      hvalid i (mem_codes.mp hi)
    have hchars := partitions_chars (makeChar c byte1)
      (pairwise_makeChar (fun i => ⟨c, byte1, i⟩) (fun i j h => by injection h) hvalid')
      (fun i hi => ⟨_, hvalid' i hi, rfl⟩) fun i => f (codeIndex i)
    refine hchars.congr fun ch => ⟨?_, fun ⟨hch, hlb, hc1⟩ => ?_⟩
    · rintro ⟨i, hi, hch, hemchar⟩
      rw [emchar_inj hch (hvalid' i hi) hemchar]
      exact ⟨hvalid' i hi, rfl, rfl⟩
    · have hcharset := charsets.leadingByte_inj _ hch.defined _ hc hlb
      have hc2 := (inRange_of_two hch (hcharset ▸ hdim)).2
      refine ⟨ch.c2, mem_codes.mpr (hcharset ▸ hc2), hch, ?_⟩
      rw [Mchar.emchar, hcharset, hc1]

theorem inRange_first (c : Charset) : Mchar.InRange c 33 := by
  rw [Mchar.InRange]
  split
  · omega
  · omega

theorem dimension_cases (c : Charset) : c.dimension = 1 ∨ c.dimension = 2 := by
  rw [Charset.dimension]
  cases c.type with
  | type94 => exact .inl rfl
  | type96 => exact .inl rfl
  | type94x94 => exact .inr rfl
  | type96x96 => exact .inr rfl

theorem partitions_charset (hc : c ∈ charsets.list) (hascii : c.leadingByte ≠ leadingByteAscii)
    (hcontrol : c.leadingByte ≠ leadingByteControl1) (l : CharsetView V) :
    Partitions (blockOf charsets)
      {ch | ch.Valid charsets ∧ ch.charset.leadingByte = c.leadingByte} (l.subranges c) := by
  have hone : c.dimension = 1 → ∀ i ∈ codes c, (⟨c, i, 0⟩ : Mchar).Valid charsets :=
    fun hdim i hi => valid_of_one hc hascii hcontrol hdim (mem_codes.mp hi)
  cases l with
  | whole val =>
    refine .singleton ?_ rfl
    rcases dimension_cases c with hdim | hdim
    · exact ⟨_, hone hdim 33 (mem_codes.mpr (inRange_first c)), rfl⟩
    · exact ⟨_, valid_of_two hc hdim (inRange_first c) (inRange_first c), rfl⟩
  | rows f =>
    rw [CharsetView.subranges]
    split
    · rename_i hdim
      have hchars := partitions_chars (fun i => makeChar c i 0)
        (pairwise_makeChar (fun i => ⟨c, i, 0⟩) (fun i j h => by injection h) (hone hdim))
        (fun i hi => ⟨_, hone hdim i hi, rfl⟩) fun i => (f (codeIndex i)).value 0
      refine hchars.congr fun ch => ⟨?_, fun ⟨hch, hlb⟩ => ?_⟩
      · rintro ⟨i, hi, hch, hemchar⟩
        rw [emchar_inj hch (hone hdim i hi) hemchar]
        exact ⟨hone hdim i hi, rfl⟩
      · obtain ⟨charset, c1, c2⟩ := ch
        obtain rfl : charset = c := charsets.leadingByte_inj _ hch.defined _ hc hlb
        have hpositions := hch.positions
        rw [Mchar.Positions, if_neg hascii, if_neg hcontrol, if_pos hdim] at hpositions
        obtain ⟨hc1, rfl⟩ := hpositions
        exact ⟨c1, mem_codes.mpr hc1, hch, rfl⟩
    · have hdim : c.dimension = 2 := (dimension_cases c).resolve_left ‹_›
      refine (Partitions.flatMap (fun i hi => partitions_row hc hdim (mem_codes.mp hi) _)
        (codes_nodup.imp fun hne => ?_)).congr fun ch => ⟨?_, fun ⟨hch, hlb⟩ => ?_⟩
      · exact Set.disjoint_left.mpr fun ch h h' => hne (h.2.2.symm.trans h'.2.2)
      · rintro ⟨i, -, hch, hlb, -⟩
        exact ⟨hch, hlb⟩
      · have hcharset := charsets.leadingByte_inj _ hch.defined _ hc hlb
        have hc1 := (inRange_of_two hch (hcharset ▸ hdim)).1
        exact ⟨ch.c1, mem_codes.mpr (hcharset ▸ hc1), hch, hlb, rfl⟩

theorem partitions_other (charsets : Charsets) (w : TableView V) (lb : Nat) :
    Partitions (blockOf charsets)
      {ch | ch.Valid charsets ∧ ch.charset.leadingByte = lb ∧ lb ≠ leadingByteAscii ∧
        lb ≠ leadingByteControl1} (w.otherSubranges charsets lb) := by
  rw [TableView.otherSubranges]
  cases hlb : charsets.byLeadingByte lb with
  | none =>
    refine .nil (Set.eq_empty_of_forall_notMem ?_)
    rintro ch ⟨hch, rfl, -⟩
    rw [Charsets.byLeadingByte_eq hch.defined] at hlb
    cases hlb
  | some c =>
    obtain ⟨hc, rfl⟩ := Charsets.byLeadingByte_spec hlb
    simp only
    split
    · rename_i hspecial
      exact .nil (Set.eq_empty_of_forall_notMem fun ch h => hspecial.elim h.2.2.1 h.2.2.2)
    · rename_i hspecial
      rw [not_or] at hspecial
      refine (partitions_charset hc hspecial.1 hspecial.2 _).congr fun ch => ?_
      exact ⟨fun h => ⟨h.1, h.2, hspecial⟩, fun h => ⟨h.1, h.2.1⟩⟩

theorem partitions_all (w : TableView V) :
    Partitions (blockOf charsets) {ch | ch.Valid charsets} (w.subranges charsets .all) := by
  have hascii := partitions_ascii charsets w 0 128 fun i _ hi =>
    let ⟨ch, hch, _, hemchar, _⟩ := exists_ascii charsets (by omega)
    ⟨ch, hch, hemchar⟩
  have hcontrol := partitions_ascii charsets w 128 32
    fun i hlo hhi =>
      let ⟨ch, hch, _, hemchar⟩ := exists_control1 charsets hlo (by omega)
      ⟨ch, hch, hemchar⟩
  have hothers := Partitions.flatMap
    (fun lb (_ : lb ∈ List.range' 0x80 128) => partitions_other charsets w lb)
    (List.Pairwise.imp (fun hne => Set.disjoint_left.mpr fun ch h h' =>
      hne (h.2.1.symm.trans h'.2.1)) nodup_range')
  have hfirst := hascii.append hcontrol (Set.disjoint_left.mpr fun ch h h' => by
    have hhi := h.2.2
    have hlo := h'.2.1
    omega)
  refine (hfirst.append hothers ?_).congr fun ch => ⟨?_, fun hch => ?_⟩
  · refine Set.disjoint_left.mpr fun ch h h' => ?_
    obtain ⟨lb, -, hch, rfl, hne⟩ := h'
    have hge := (character_other hch hne.1 hne.2).2.2
    rcases h with h | h
    · have hhi := h.2.2
      omega
    · have hhi := h.2.2
      omega
  · rintro ((h | h) | ⟨lb, -, h⟩)
    · exact h.1
    · exact h.1
    · exact h.1
  · have hch : ch.Valid charsets := hch
    cases character hch with
    | ascii lb dim code emchar => exact .inl (.inl ⟨hch, by omega, by omega⟩)
    | control1 lb dim code emchar => exact .inl (.inr ⟨hch, by omega, by omega⟩)
    | other notAscii notControl1 code second emchar =>
      have hbounds := leadingByte_bounds hch.defined
      exact .inr ⟨ch.charset.leadingByte, mem_range'_1.mpr (by omega), hch, rfl, notAscii,
        notControl1⟩

/-- The charsets that are not mapped over. -/
def ChartabRange.Skipped (range : ChartabRange) : Prop :=
  ∃ c, range = .charset c ∧
    (c.leadingByte = leadingByteAscii ∨ c.leadingByte = leadingByteControl1)

theorem subranges_skipped {range : ChartabRange} (h : range.Skipped) (w : TableView V) :
    w.subranges charsets range = [] := by
  obtain ⟨c, rfl, hc⟩ := h
  rw [TableView.subranges, TableView.otherSubranges]
  split
  · rfl
  · exact if_pos hc

theorem partitions_subranges {range : ChartabRange} (hrange : range.Valid charsets)
    (hskipped : ¬ range.Skipped) (w : TableView V) :
    Partitions (blockOf charsets) {ch | ch.Valid charsets ∧ range.Has ch}
      (w.subranges charsets range) := by
  cases range with
  | all => exact (partitions_all w).congr fun ch => (and_iff_left trivial).symm
  | charset c =>
    have hspecial := not_or.mp fun h => hskipped ⟨c, rfl, h⟩
    refine (partitions_other charsets w c.leadingByte).congr fun ch => ?_
    exact ⟨fun h => ⟨h.1, h.2.1⟩, fun h => ⟨h.1, h.2, hspecial⟩⟩
  | row c byte1 =>
    obtain ⟨hc, hdim, hbyte1⟩ := hrange
    rw [TableView.subranges]
    cases w.level1 (charsetIndex c.leadingByte) with
    | whole val => exact partitions_row hc hdim hbyte1 (.whole val)
    | rows f => exact partitions_row hc hdim hbyte1 _
  | char num =>
    obtain ⟨ch, hch, rfl⟩ := hrange
    rw [TableView.subranges, breakupChar_emchar hch]
    exact .singleton ⟨ch, hch, rfl⟩ rfl

end blocks

/-! ### The values -/

/-- The range is one that may be put, and the value is that of each of its characters. -/
structure Subrange (charsets : Charsets) (w : TableView V) (p : ChartabRange × V) : Prop where
  valid : p.1.Valid charsets
  value : ∀ ch : Mchar, ch.Valid charsets → p.1.Has ch → w.value ch = p.2

section values

variable {charsets : Charsets} {c : Charset} {w : TableView V}

theorem Subrange.char {ch : Mchar} (hch : ch.Valid charsets) :
    Subrange charsets w (.char ch.emchar, w.value ch) :=
  ⟨⟨ch, hch, rfl⟩, fun ch' hch' h => by rw [emchar_inj hch' hch h]⟩

theorem subrange_row (hc : c ∈ charsets.list) (hdim : c.dimension = 2) {byte1 : Nat}
    (hbyte1 : Mchar.InRange c byte1) {r : RowView V}
    (hr : ∀ byte2, (w.level1 (charsetIndex c.leadingByte)).value byte1 byte2 = r.value byte2) :
    ∀ p ∈ r.subranges c byte1, Subrange charsets w p := by
  obtain ⟨hascii, hcontrol⟩ := not_ascii_of_two hc hdim
  cases r with
  | whole val =>
    rw [RowView.subranges, forall_mem_singleton]
    refine ⟨⟨hc, hdim, hbyte1⟩, fun ch hch ⟨hlb, hc1⟩ => ?_⟩
    rw [TableView.value, hlb, if_neg hascii, if_neg hcontrol, hc1, hr]
    rfl
  | chars f =>
    rw [RowView.subranges, forall_mem_map]
    intro i hi
    have hchar := Subrange.char (w := w) (valid_of_two hc hdim hbyte1 (mem_codes.mp hi))
    rw [TableView.value, if_neg hascii, if_neg hcontrol, hr] at hchar
    exact hchar

theorem subrange_charset (hc : c ∈ charsets.list) (hascii : c.leadingByte ≠ leadingByteAscii)
    (hcontrol : c.leadingByte ≠ leadingByteControl1) :
    ∀ p ∈ (w.level1 (charsetIndex c.leadingByte)).subranges c, Subrange charsets w p := by
  cases hl : w.level1 (charsetIndex c.leadingByte) with
  | whole val =>
    rw [CharsetView.subranges, forall_mem_singleton]
    refine ⟨hc, fun ch hch hlb => ?_⟩
    have hlb : ch.charset.leadingByte = c.leadingByte := hlb
    rw [TableView.value, hlb, if_neg hascii, if_neg hcontrol, hl]
    rfl
  | rows f =>
    rw [CharsetView.subranges]
    split
    · rw [forall_mem_map]
      intro i hi
      have hchar := Subrange.char (w := w)
        (valid_of_one hc hascii hcontrol ‹_› (mem_codes.mp hi))
      rw [TableView.value, if_neg hascii, if_neg hcontrol, hl] at hchar
      exact hchar
    · rw [forall_mem_flatMap]
      intro i hi
      refine subrange_row hc ((dimension_cases c).resolve_left ‹_›) (mem_codes.mp hi)
        fun byte2 => ?_
      rw [hl]
      rfl

theorem subrange_other (lb : Nat) : ∀ p ∈ w.otherSubranges charsets lb, Subrange charsets w p := by
  rw [TableView.otherSubranges]
  cases hlb : charsets.byLeadingByte lb with
  | none => exact nofun
  | some c =>
    obtain ⟨hc, rfl⟩ := Charsets.byLeadingByte_spec hlb
    simp only
    split
    · exact nofun
    · rename_i hspecial
      rw [not_or] at hspecial
      exact subrange_charset hc hspecial.1 hspecial.2

theorem subrange_ascii {start n : Nat} (hstop : start + n ≤ 160) :
    ∀ p ∈ w.asciiSubranges start n, Subrange charsets w p := by
  rw [TableView.asciiSubranges, forall_mem_map]
  intro i hi
  rw [mem_range'_1] at hi
  obtain ⟨ch, hch, rfl⟩ : ∃ ch : Mchar, ch.Valid charsets ∧ ch.emchar = i := by
    by_cases hlt : i < 128
    · obtain ⟨ch, hch, -, hemchar, -⟩ := exists_ascii charsets hlt
      exact ⟨ch, hch, hemchar⟩
    · obtain ⟨ch, hch, -, hemchar⟩ := exists_control1 charsets (Nat.le_of_not_lt hlt) (by omega)
      exact ⟨ch, hch, hemchar⟩
  rw [← TableView.value_of_lt hch (by omega)]
  exact .char hch

/-- **The values** that are passed are those of the characters. -/
theorem subranges_subrange {range : ChartabRange} (hrange : range.Valid charsets) :
    ∀ p ∈ w.subranges charsets range, Subrange charsets w p := by
  cases range with
  | all =>
    rw [TableView.subranges, forall_mem_append, forall_mem_append,
      forall_mem_flatMap]
    exact ⟨⟨subrange_ascii (by decide), subrange_ascii (by decide)⟩, fun lb _ => subrange_other lb⟩
  | charset c => exact subrange_other c.leadingByte
  | row c byte1 =>
    obtain ⟨hc, hdim, hbyte1⟩ := hrange
    rw [TableView.subranges]
    cases hl : w.level1 (charsetIndex c.leadingByte) with
    | whole val =>
      refine subrange_row hc hdim hbyte1 (r := .whole val) fun byte2 => ?_
      rw [hl]
      rfl
    | rows f =>
      refine subrange_row hc hdim hbyte1 fun byte2 => ?_
      rw [hl]
      rfl
  | char num =>
    obtain ⟨ch, hch, rfl⟩ := hrange
    rw [TableView.subranges, breakupChar_emchar hch, forall_mem_singleton]
    exact .char hch

end values

/-! ### Which ranges are passed -/

/-- A range that is smaller than the table and is mapped over. -/
def ChartabRange.Proper (range : ChartabRange) : Prop := range ≠ .all ∧ ¬ range.Skipped

section proper

variable {charsets : Charsets} {w : TableView V}

theorem proper_char (ch : Nat) : (ChartabRange.char ch).Proper :=
  ⟨nofun, fun ⟨_, hc, _⟩ => nomatch hc⟩

theorem proper_row (c : Charset) (byte1 : Nat) : (ChartabRange.row c byte1).Proper :=
  ⟨nofun, fun ⟨_, hc, _⟩ => nomatch hc⟩

theorem proper_subranges_row (c : Charset) (byte1 : Nat) (r : RowView V) :
    ∀ p ∈ r.subranges c byte1, p.1.Proper := by
  cases r with
  | whole val => exact List.forall_mem_singleton.mpr (proper_row c byte1)
  | chars f =>
    rw [RowView.subranges, forall_mem_map]
    exact fun i _ => proper_char _

theorem proper_other (lb : Nat) : ∀ p ∈ w.otherSubranges charsets lb, p.1.Proper := by
  rw [TableView.otherSubranges]
  cases hlb : charsets.byLeadingByte lb with
  | none => exact nofun
  | some c =>
    obtain ⟨-, rfl⟩ := Charsets.byLeadingByte_spec hlb
    simp only
    split
    · exact nofun
    rename_i hspecial
    cases w.level1 (charsetIndex c.leadingByte) with
    | whole val =>
      rw [CharsetView.subranges, forall_mem_singleton]
      refine ⟨nofun, fun ⟨c', hc, hskipped⟩ => hspecial ?_⟩
      cases hc
      exact hskipped
    | rows f =>
      rw [CharsetView.subranges]
      split
      · rw [forall_mem_map]
        exact fun i _ => proper_char _
      · rw [forall_mem_flatMap]
        exact fun i _ => proper_subranges_row c i _

theorem proper_subranges (range : ChartabRange) :
    ∀ p ∈ w.subranges charsets range, p.1.Proper := by
  cases range with
  | all =>
    rw [TableView.subranges, forall_mem_append, forall_mem_append,
      forall_mem_flatMap]
    refine ⟨⟨?_, ?_⟩, fun lb _ => proper_other lb⟩
    · rw [TableView.asciiSubranges, forall_mem_map]
      exact fun i _ => proper_char i
    · rw [TableView.asciiSubranges, forall_mem_map]
      exact fun i _ => proper_char i
  | charset c => exact proper_other c.leadingByte
  | row c byte1 =>
    rw [TableView.subranges]
    cases w.level1 (charsetIndex c.leadingByte) with
    | whole val => exact List.forall_mem_singleton.mpr (proper_row c byte1)
    | rows f => exact proper_subranges_row c byte1 _
  | char num =>
    rw [TableView.subranges]
    cases breakupChar charsets num with
    | none => exact nofun
    | some q => exact List.forall_mem_singleton.mpr (proper_char num)

end proper

end XEmacs.Chartab

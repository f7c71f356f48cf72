import XEmacs.Chartab.Places
import XEmacs.Chartab.Subranges

/-!
# Looking up and mapping

The value of a character is that in the view (`getCharTable_eq`).
-/

namespace XEmacs.Chartab

open Coding List Option

variable {V σ : Type}

/-! ### Calls in order -/

/-- The function is called for each range until it returns something other than 0. -/
def callAll (fn : MapFn V σ) : List (ChartabRange × V) → σ → Option (Int × σ)
  | [], st => some (0, st)
  | (range, val) :: l, st => do
    let (retval, st) ← fn range val st
    if retval = 0 then callAll fn l st else some (retval, st)

/-- The function keeps an invariant when it is called for a range. -/
def Kept (I : σ → Prop) (fn : MapFn V σ) (p : ChartabRange × V) : Prop :=
  ∀ st retval st', I st → fn p.1 p.2 st = some (retval, st') → I st'

/-- What maps calls the function for these ranges, if the function keeps the invariant. -/
def Calls (I : σ → Prop) (fn : MapFn V σ) (l : List (ChartabRange × V))
    (map : σ → Option (Int × σ)) : Prop :=
  (∀ p ∈ l, Kept I fn p) → ∀ st, I st → map st = callAll fn l st

section calls

variable {I : σ → Prop} {fn : MapFn V σ} {l m : List (ChartabRange × V)}
  {map map' : σ → Option (Int × σ)}

theorem callAll_one (range : ChartabRange) (val : V) (st : σ) :
    callAll fn [(range, val)] st = fn range val st := by
  rw [callAll]
  cases fn range val st with
  | none => rfl
  | some p =>
    obtain ⟨retval, st'⟩ := p
    simp only [bind_eq_bind, bind_some]
    split
    · rename_i hzero
      rw [hzero]
      rfl
    · rfl

theorem callAll_append (l m : List (ChartabRange × V)) (st : σ) :
    callAll fn (l ++ m) st = (do
      let (retval, st) ← callAll fn l st
      if retval = 0 then callAll fn m st else some (retval, st)) := by
  induction l generalizing st with
  | nil => rfl
  | cons p l ih =>
    obtain ⟨range, val⟩ := p
    rw [cons_append, callAll, callAll]
    cases fn range val st with
    | none => rfl
    | some q =>
      obtain ⟨retval, st'⟩ := q
      simp only [bind_eq_bind, bind_some]
      by_cases hzero : retval = 0
      · rw [if_pos hzero, if_pos hzero, ih]
        rfl
      · rw [if_neg hzero, if_neg hzero, bind_some, if_neg hzero]

theorem callAll_keeps (hfn : ∀ p ∈ l, Kept I fn p) {st st' : σ} {retval : Int} (hst : I st)
    (h : callAll fn l st = some (retval, st')) : I st' := by
  induction l generalizing st with
  | nil =>
    cases h
    exact hst
  | cons p l ih =>
    obtain ⟨range, val⟩ := p
    rw [forall_mem_cons] at hfn
    rw [callAll] at h
    cases hcall : fn range val st with
    | none =>
      rw [hcall] at h
      cases h
    | some q =>
      obtain ⟨first, st₁⟩ := q
      have hst₁ := hfn.1 st first st₁ hst hcall
      rw [hcall] at h
      simp only [bind_eq_bind, bind_some] at h
      split at h
      · exact ih hfn.2 hst₁ h
      · cases h
        exact hst₁

theorem Calls.nil (h : ∀ st, I st → map st = some (0, st)) : Calls I fn [] map :=
  fun _ st hst => h st hst

theorem Calls.one {range : ChartabRange} {val : V} (h : ∀ st, I st → map st = fn range val st) :
    Calls I fn [(range, val)] map := fun _ st hst => (h st hst).trans (callAll_one ..).symm

theorem Calls.congr (h : Calls I fn l map') (heq : ∀ st, I st → map st = map' st) :
    Calls I fn l map := fun hfn st hst => (heq st hst).trans (h hfn st hst)

theorem Calls.append (h : Calls I fn l map) (h' : Calls I fn m map') :
    Calls I fn (l ++ m) (fun st => do
      let (retval, st) ← map st
      if retval = 0 then map' st else some (retval, st)) := by
  intro hfn st hst
  rw [forall_mem_append] at hfn
  rw [callAll_append]
  simp only [h hfn.1 st hst]
  cases hcalls : callAll fn l st with
  | none => rfl
  | some p =>
    obtain ⟨retval, st'⟩ := p
    simp only [bind_eq_bind, bind_some]
    rw [h' hfn.2 st' (callAll_keeps hfn.1 hst hcalls)]

theorem Calls.loop {body : Nat → σ → Option (Int × σ)} {f : Nat → List (ChartabRange × V)}
    {n start : Nat} (h : ∀ i ∈ List.range' start n, Calls I fn (f i) (body i)) :
    Calls I fn ((List.range' start n).flatMap f) (mapWhileZero body n start) := by
  induction n generalizing start with
  | zero => exact .nil fun st _ => rfl
  | succ n ih =>
    rw [range'_succ, forall_mem_cons] at h
    rw [range'_succ, flatMap_cons]
    exact (h.1.append (ih h.2)).congr fun st _ => rfl

theorem Calls.loop_one {body : Nat → σ → Option (Int × σ)} {f : Nat → ChartabRange × V}
    {n start : Nat}
    (h : ∀ i ∈ List.range' start n, ∀ st, I st → body i st = fn (f i).1 (f i).2 st) :
    Calls I fn ((List.range' start n).map f) (mapWhileZero body n start) := by
  rw [map_eq_flatMap]
  exact .loop fun i hi => .one (h i hi)

/-- The function returns 0 and keeps the invariant when it is called for a range. -/
def Runs (I : σ → Prop) (fn : MapFn V σ) (p : ChartabRange × V) : Prop :=
  ∀ st, I st → ∃ st', fn p.1 p.2 st = some (0, st') ∧ I st'

theorem Runs.kept {p : ChartabRange × V} (h : Runs I fn p) : Kept I fn p := by
  intro st retval st' hst hcall
  obtain ⟨st₁, hst₁, hI⟩ := h st hst
  rw [hcall] at hst₁
  cases hst₁
  exact hI

theorem callAll_grows {α : Type} {J : Set α → σ → Prop} {part : ChartabRange × V → Set α}
    (hfn : ∀ p ∈ l, ∀ A st, J A st →
      ∃ st', fn p.1 p.2 st = some (0, st') ∧ J (A ∪ part p) st')
    {A : Set α} {st : σ} (hst : J A st) :
    ∃ st', callAll fn l st = some (0, st') ∧ J (A ∪ {a | ∃ p ∈ l, a ∈ part p}) st' := by
  induction l generalizing A st with
  | nil =>
    have hnone : A ∪ {a | ∃ p ∈ ([] : List (ChartabRange × V)), a ∈ part p} = A := by
      ext a
      simp
    exact ⟨st, rfl, hnone.symm ▸ hst⟩
  | cons p l ih =>
    obtain ⟨range, val⟩ := p
    rw [forall_mem_cons] at hfn
    obtain ⟨st₁, hcall, hst₁⟩ := hfn.1 A st hst
    obtain ⟨st', hcalls, hst'⟩ := ih hfn.2 hst₁
    refine ⟨st', ?_, ?_⟩
    · rw [callAll, hcall]
      exact hcalls
    · rw [Set.union_assoc] at hst'
      have hparts : part (range, val) ∪ {a | ∃ p ∈ l, a ∈ part p}
          = {a | ∃ p ∈ (range, val) :: l, a ∈ part p} := by
        ext a
        simp
      exact hparts ▸ hst'

theorem callAll_returns (f : ChartabRange → V → σ → σ) (st : σ) :
    callAll (fun range val st => some (0, f range val st)) l st
      = some (0, l.foldl (fun st p => f p.1 p.2 st) st) := by
  induction l generalizing st with
  | nil => rfl
  | cons p l ih =>
    obtain ⟨range, val⟩ := p
    exact ih (f range val st)

end calls

/-! ### A table that stays as it is -/

/-- A table of `s₀` is still the same, with all its entries. -/
structure Keeps (s₀ : CharTables V) (place : Nat → Place) (t : Nat) (s : CharTables V) :
    Prop where
  charsets : s.charsets = s₀.charsets
  table : s.tables[t]? = s₀.tables[t]?
  entries : ∀ cte level2, (place cte).under.1 = t → s₀.entries[cte]? = some level2 →
    s.entries[cte]? = some level2

theorem Keeps.refl (s : CharTables V) (place : Nat → Place) (t : Nat) : Keeps s place t s :=
  ⟨rfl, rfl, fun _ _ _ h => h⟩

/-- A table with its view, in which rows are separate only where they may be. -/
structure Viewed (s : CharTables V) (place : Nat → Place) (t : Nat) (ct : CharTable V)
    (w : TableView V) : Prop where
  table : s.tables[t]? = some ct
  shows : ShowsTable s.entries place t ct w
  fits : w.Fits s.charsets

section viewed

variable {s₀ s : CharTables V} {place : Nat → Place} {t : Nat} {ct : CharTable V} {w : TableView V}
  {c : Charset} {ch : Mchar}

theorem Viewed.whole (h : Viewed s₀ place t ct w) (hc : c ∈ s₀.charsets.list)
    (hdim : c.dimension = 1) {f : Fin 96 → RowView V}
    (hf : w.level1 (charsetIndex c.leadingByte) = .rows f) (i : Fin 96) :
    ∃ val, f i = .whole val := by
  cases hfi : f i with
  | whole val => exact ⟨val, rfl⟩
  | chars g =>
    obtain ⟨c', hc', hindex, hdim'⟩ := h.fits _ f i g hf hfi
    have hlb := charsetIndex_inj (leadingByte_bounds hc') (leadingByte_bounds hc) hindex
    rw [s₀.charsets.leadingByte_inj c' hc' c hc hlb, hdim] at hdim'
    cases hdim'

theorem Viewed.level1Value_eq (h : Viewed s₀ place t ct w) (hkeeps : Keeps s₀ place t s)
    (hch : ch.Valid s₀.charsets) (hascii : ch.charset.leadingByte ≠ leadingByteAscii)
    (hcontrol : ch.charset.leadingByte ≠ leadingByteControl1) :
    s.level1Value (ct.level1 (charsetIndex ch.charset.leadingByte)) ch.c1 ch.c2
      = some (w.value ch) := by
  obtain ⟨hcode, hsecond, -⟩ := character_other hch hascii hcontrol
  have hcharset := h.shows.level1 (charsetIndex ch.charset.leadingByte)
  rw [TableView.value, if_neg hascii, if_neg hcontrol]
  cases hslot : ct.level1 (charsetIndex ch.charset.leadingByte) with
  | value val =>
    rw [hslot] at hcharset
    rw [show w.level1 (charsetIndex ch.charset.leadingByte) = .whole val from hcharset]
    rfl
  | entry cte =>
    rw [hslot] at hcharset
    obtain ⟨hplace, f, level2, hf, hentry, hrows⟩ := hcharset
    have hentry := hkeeps.entries cte level2 (congrArg (·.under.1) hplace) hentry
    have hrow := hrows (codeIndex ch.c1)
    rw [CharTables.level1Value, hentry, hf]
    simp only [bind_eq_bind, bind_some, indexFrom_code hcode.1 hcode.2]
    cases hslot₁ : level2 (codeIndex ch.c1) with
    | value val =>
      rw [hslot₁] at hrow
      rw [CharsetView.value, show f (codeIndex ch.c1) = .whole val from hrow]
      rfl
    | entry cte' =>
      rw [hslot₁] at hrow
      obtain ⟨hplace', g, hg, hentry'⟩ := hrow
      have hentry' := hkeeps.entries cte' _ (congrArg (·.under.1) hplace') hentry'
      rcases hsecond with ⟨hdim, -⟩ | ⟨-, hcode₂⟩
      · obtain ⟨val, hval⟩ := h.whole hch.defined hdim hf (codeIndex ch.c1)
        rw [hval] at hg
        cases hg
      · simp only [hentry', bind_some, indexFrom_code hcode₂.1 hcode₂.2]
        rw [CharsetView.value, hg]
        rfl

/-- **Looking up** finds the value in the view. -/
theorem Viewed.getCharTable_eq (h : Viewed s₀ place t ct w) (hkeeps : Keeps s₀ place t s)
    (hch : ch.Valid s₀.charsets) : s.getCharTable ch.emchar t = some (w.value ch) := by
  rw [CharTables.getCharTable, hkeeps.table, h.table, hkeeps.charsets]
  simp only [bind_eq_bind, bind_some, breakupChar_emchar hch]
  cases character hch with
  | ascii lb dim code emchar =>
    rw [if_pos lb, indexFrom_ascii (by omega), TableView.value, if_pos lb, h.shows.ascii]
    rfl
  | control1 lb dim code emchar =>
    have hascii : ch.charset.leadingByte ≠ leadingByteAscii := by
      rw [lb]
      decide
    rw [if_neg hascii, if_pos lb, indexFrom_ascii (by omega), TableView.value, if_neg hascii,
      if_pos lb, h.shows.ascii]
    rfl
  | other notAscii notControl1 code second emchar =>
    obtain ⟨hlo, hhi⟩ := leadingByte_bounds hch.defined
    rw [if_neg notAscii, if_neg notControl1, indexFrom_charset hlo hhi]
    exact h.level1Value_eq hkeeps hch notAscii notControl1

theorem Viewed.valueUnsafe_eq (h : Viewed s₀ place t ct w) (hkeeps : Keeps s₀ place t s)
    (hch : ch.Valid s₀.charsets) : s.valueUnsafe ct ch.emchar = some (w.value ch) := by
  rw [CharTables.valueUnsafe]
  split
  · rename_i hlt
    rw [indexFrom_ascii hlt, TableView.value_of_lt hch hlt, h.shows.ascii]
    rfl
  · rename_i hge
    cases character hch with
    | ascii lb dim code emchar => omega
    | control1 lb dim code emchar => omega
    | other notAscii notControl1 code second emchar =>
      obtain ⟨hlo, hhi⟩ := leadingByte_bounds hch.defined
      have hvalue := h.level1Value_eq hkeeps hch notAscii notControl1
      rw [CharTables.nonAsciiValueUnsafe, charLeadingByte_emchar hch]
      simp only [bind_eq_bind, bind_some, indexFrom_charset hlo hhi]
      cases hslot : ct.level1 (charsetIndex ch.charset.leadingByte) with
      | value val =>
        rw [hslot] at hvalue
        exact hvalue
      | entry cte =>
        -- the same positions are computed from the number again
        have hbreakup := breakupChar_emchar hch
        rw [breakupChar, charLeadingByte_emchar hch] at hbreakup
        simp only [bind_eq_bind, bind_some,
          Charsets.byLeadingByte_eq hch.defined] at hbreakup
        simp only
        rw [CharTables.getNonAsciiCharTableValue, hkeeps.charsets,
          Charsets.byLeadingByte_eq hch.defined]
        simp only [bind_eq_bind, bind_some, indexFrom_charset hlo hhi]
        split
        · rename_i hdim
          rw [if_pos hdim] at hbreakup
          simp only [Option.some.injEq, Prod.mk.injEq, true_and] at hbreakup
          rw [hbreakup.1, hbreakup.2]
          exact hvalue
        · rename_i hdim
          rw [if_neg hdim] at hbreakup
          simp only [Option.some.injEq, Prod.mk.injEq, true_and] at hbreakup
          rw [hbreakup.1, hbreakup.2]
          exact hvalue

/-! ### What is passed -/

section map

variable {tables : σ → CharTables V} {I : σ → Prop} {fn : MapFn V σ}

theorem Viewed.calls_ascii (h : Viewed s₀ place t ct w)
    (hI : ∀ st, I st → Keeps s₀ place t (tables st)) (fn : MapFn V σ) (start n : Nat)
    (hstop : start + n ≤ 160) :
    Calls I fn (w.asciiSubranges start n) (mapWhileZero (callAscii tables fn t) n start) := by
  refine .loop_one fun i hi st hst => ?_
  rw [mem_range'_1] at hi
  rw [callAscii, (hI st hst).table, h.table]
  simp only [bind_eq_bind, bind_some, indexFrom_ascii (show i < 160 by omega)]
  rw [h.shows.ascii]

theorem code_bounds {i : Nat} (hi : i ∈ codes c) : 32 ≤ i ∧ i ≤ 127 := (mem_codes.mp hi).bounds

theorem calls_row (hI : ∀ st, I st → Keeps s₀ place t (tables st)) {lb : Fin 128} {cte : Nat}
    {level2 : CharTableEntry V} {f : Fin 96 → RowView V} (hplace : place cte = .charset t lb)
    (hentry : s₀.entries[cte]? = some level2)
    (hrows : ∀ i, ShowsRow s₀.entries place t lb i (level2 i) (f i)) {byte1 : Nat}
    (hbyte1 : 32 ≤ byte1 ∧ byte1 ≤ 127) :
    Calls I fn ((f (codeIndex byte1)).subranges c byte1)
      (mapOverCharsetRow tables fn cte c byte1) := by
  have hrow := hrows (codeIndex byte1)
  have hread : ∀ st, I st → (tables st).entries[cte]? = some level2 := fun st hst =>
    (hI st hst).entries cte level2 (congrArg (·.under.1) hplace) hentry
  cases hslot : level2 (codeIndex byte1) with
  | value val =>
    rw [hslot] at hrow
    rw [show f (codeIndex byte1) = .whole val from hrow]
    refine .one fun st hst => ?_
    rw [mapOverCharsetRow, hread st hst]
    simp only [bind_eq_bind, bind_some, indexFrom_code hbyte1.1 hbyte1.2, hslot]
  | entry cte' =>
    rw [hslot] at hrow
    obtain ⟨hplace', g, hg, hentry'⟩ := hrow
    rw [hg]
    have hloop : Calls I fn ((RowView.chars g).subranges c byte1)
        (mapWhileZero (fun i => callSlot tables fn cte' i (makeChar c byte1 i)) (codeCount c)
          (startCode c)) := by
      refine .loop_one fun i hi st hst => ?_
      have hcode := code_bounds hi
      rw [callSlot, (hI st hst).entries cte' _ (congrArg (·.under.1) hplace') hentry']
      simp only [bind_eq_bind, bind_some, indexFrom_code hcode.1 hcode.2]
    refine hloop.congr fun st hst => ?_
    rw [mapOverCharsetRow, hread st hst]
    simp only [bind_eq_bind, bind_some, indexFrom_code hbyte1.1 hbyte1.2, hslot]

/-- The calls for a charset. -/
theorem Viewed.calls_other (h : Viewed s₀ place t ct w)
    (hI : ∀ st, I st → Keeps s₀ place t (tables st)) {lb : Nat} (hlo : 0x80 ≤ lb)
    (hhi : lb ≤ 0xFF) :
    Calls I fn (w.otherSubranges s₀.charsets lb) (mapOverOtherCharset tables fn t lb) := by
  have htable : ∀ st, I st → (tables st).tables[t]? = some ct := fun st hst => by
    rw [(hI st hst).table, h.table]
  rw [TableView.otherSubranges]
  cases hlb : s₀.charsets.byLeadingByte lb with
  | none =>
    refine .nil fun st hst => ?_
    rw [mapOverOtherCharset, htable st hst, (hI st hst).charsets, hlb]
    simp only [bind_eq_bind, bind_some, indexFrom_charset hlo hhi]
  | some c =>
    obtain ⟨hc, rfl⟩ := Charsets.byLeadingByte_spec hlb
    simp only
    split
    · rename_i hspecial
      refine .nil fun st hst => ?_
      rw [mapOverOtherCharset, htable st hst, (hI st hst).charsets, hlb]
      simp only [bind_eq_bind, bind_some, indexFrom_charset hlo hhi,
        if_pos hspecial]
    rename_i hspecial
    have hcharset := h.shows.level1 (charsetIndex c.leadingByte)
    cases hslot : ct.level1 (charsetIndex c.leadingByte) with
    | value val =>
      rw [hslot] at hcharset
      rw [show w.level1 (charsetIndex c.leadingByte) = .whole val from hcharset]
      refine .one fun st hst => ?_
      rw [mapOverOtherCharset, htable st hst, (hI st hst).charsets, hlb]
      simp only [bind_eq_bind, bind_some, indexFrom_charset hlo hhi,
        if_neg hspecial, hslot]
    | entry cte =>
      rw [hslot] at hcharset
      obtain ⟨hplace, f, level2, hf, hentry, hrows⟩ := hcharset
      rw [hf, CharsetView.subranges]
      split
      · rename_i hdim
        have hloop : Calls I fn
            ((codes c).map fun i => (.char (makeChar c i 0), (f (codeIndex i)).value 0))
            (mapWhileZero (fun i => callSlot tables fn cte i (makeChar c i 0)) (codeCount c)
              (startCode c)) := by
          refine .loop_one fun i hi st hst => ?_
          have hcode := code_bounds hi
          obtain ⟨val, hval⟩ := h.whole hc hdim hf (codeIndex i)
          have hrow := hrows (codeIndex i)
          rw [callSlot, (hI st hst).entries cte level2 (congrArg (·.under.1) hplace) hentry]
          simp only [bind_eq_bind, bind_some, indexFrom_code hcode.1 hcode.2, hval,
            RowView.value]
          rw [hval] at hrow
          cases hslot' : level2 (codeIndex i) with
          | value val' =>
            rw [hslot'] at hrow
            cases hrow
            rfl
          | entry cte' =>
            rw [hslot'] at hrow
            obtain ⟨-, g, hg, -⟩ := hrow
            cases hg
        refine hloop.congr fun st hst => ?_
        rw [mapOverOtherCharset, htable st hst, (hI st hst).charsets, hlb]
        simp only [bind_eq_bind, bind_some, indexFrom_charset hlo hhi,
          if_neg hspecial, hslot, if_pos hdim]
      · rename_i hdim
        have hloop : Calls I fn ((codes c).flatMap fun i => (f (codeIndex i)).subranges c i)
            (mapWhileZero (fun i => mapOverCharsetRow tables fn cte c i) (codeCount c)
              (startCode c)) :=
          .loop fun i hi => calls_row hI hplace hentry hrows (code_bounds hi)
        refine hloop.congr fun st hst => ?_
        rw [mapOverOtherCharset, htable st hst, (hI st hst).charsets, hlb]
        simp only [bind_eq_bind, bind_some, indexFrom_charset hlo hhi,
          if_neg hspecial, hslot, if_neg hdim]

/-- **The map** calls its function for the ranges of the view. -/
theorem Viewed.mapCharTable_calls (h : Viewed s₀ place t ct w)
    (hI : ∀ st, I st → Keeps s₀ place t (tables st)) {range : ChartabRange}
    (hrange : range.Valid s₀.charsets) :
    Calls I fn (w.subranges s₀.charsets range) (mapCharTable tables fn t range) := by
  cases range with
  | all =>
    have hascii := h.calls_ascii hI fn 0 128 (by decide)
    have hcontrol := h.calls_ascii hI fn 128 32 (by decide)
    have hothers : Calls I fn ((List.range' 0x80 128).flatMap (w.otherSubranges s₀.charsets))
        (mapWhileZero (mapOverOtherCharset tables fn t) 128 0x80) := by
      refine .loop fun lb hlb => ?_
      obtain ⟨hlo, hhi⟩ := mem_range'_1.mp hlb
      exact h.calls_other hI hlo (by omega)
    rw [TableView.subranges, append_assoc]
    refine (hascii.append (hcontrol.append hothers)).congr fun st _ => ?_
    rw [mapCharTable, mapOverCharsetAscii, mapOverCharsetControl1]
    simp only [ne_eq, ite_not]
  | charset c =>
    obtain ⟨hlo, hhi⟩ := leadingByte_bounds (c := c) hrange
    exact h.calls_other hI hlo hhi
  | row c byte1 =>
    obtain ⟨hc, hdim, hbyte1⟩ := hrange
    obtain ⟨hlo, hhi⟩ := leadingByte_bounds hc
    have hcharset := h.shows.level1 (charsetIndex c.leadingByte)
    rw [TableView.subranges]
    cases hslot : ct.level1 (charsetIndex c.leadingByte) with
    | value val =>
      rw [hslot] at hcharset
      rw [show w.level1 (charsetIndex c.leadingByte) = .whole val from hcharset]
      refine .one fun st hst => ?_
      rw [mapCharTable, (hI st hst).table, h.table]
      simp only [bind_eq_bind, bind_some, indexFrom_charset hlo hhi, hslot]
    | entry cte =>
      rw [hslot] at hcharset
      obtain ⟨hplace, f, level2, hf, hentry, hrows⟩ := hcharset
      rw [hf]
      refine (calls_row hI hplace hentry hrows hbyte1.bounds).congr fun st hst => ?_
      rw [mapCharTable, (hI st hst).table, h.table]
      simp only [bind_eq_bind, bind_some, indexFrom_charset hlo hhi, hslot]
  | char num =>
    obtain ⟨ch, hch, rfl⟩ := hrange
    rw [TableView.subranges, breakupChar_emchar hch]
    refine .one fun st hst => ?_
    rw [mapCharTable, (hI st hst).table, h.table]
    simp only [bind_eq_bind, bind_some, h.valueUnsafe_eq (hI st hst) hch]

theorem Viewed.mapCharTable_grows (h : Viewed s₀ place t ct w) {J : Set Mchar → σ → Prop}
    (hJ : ∀ st, J ∅ st → Keeps s₀ place t (tables st))
    (hmono : ∀ A B st, A ⊆ B → J B st → J A st) {range : ChartabRange}
    (hrange : range.Valid s₀.charsets) (hskipped : ¬ range.Skipped)
    (hfn : ∀ p, Subrange s₀.charsets w p → p.1.Proper →
      (∀ ch ∈ blockOf s₀.charsets p, range.Has ch) → ∀ A st, J A st →
      ∃ st', fn p.1 p.2 st = some (0, st') ∧ J (A ∪ blockOf s₀.charsets p) st')
    {A : Set Mchar} {st : σ} (hst : J A st) :
    ∃ st', mapCharTable tables fn t range st = some (0, st') ∧
      J (A ∪ {ch | ch.Valid s₀.charsets ∧ range.Has ch}) st' := by
  have hparts := partitions_subranges hrange hskipped w
  have hcalls : ∀ p ∈ w.subranges s₀.charsets range, ∀ A st, J A st →
      ∃ st', fn p.1 p.2 st = some (0, st') ∧ J (A ∪ blockOf s₀.charsets p) st' := by
    intro p hp
    refine hfn p (subranges_subrange hrange p hp) (proper_subranges range p hp) fun ch hch => ?_
    exact ((hparts.union ch).mpr ⟨p, hp, hch⟩).2
  have hruns : ∀ p ∈ w.subranges s₀.charsets range, Runs (J ∅) fn p := by
    intro p hp st hst
    obtain ⟨st', hcall, hst'⟩ := hcalls p hp ∅ st hst
    exact ⟨st', hcall, hmono _ _ _ (Set.empty_subset _) hst'⟩
  rw [h.mapCharTable_calls hJ hrange (fun p hp => (hruns p hp).kept) st
    (hmono _ _ _ (Set.empty_subset _) hst)]
  obtain ⟨st', hcall, hst'⟩ := callAll_grows hcalls hst
  refine ⟨st', hcall, ?_⟩
  rwa [← Set.ext fun ch => hparts.union ch] at hst'

end map

end viewed

end XEmacs.Chartab

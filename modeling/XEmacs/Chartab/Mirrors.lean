import XEmacs.Chartab.Mapping

/-!
# Syntax tables and their mirror tables

Each syntax table has a mirror table, and no other table has one (`Laid`).
-/

namespace XEmacs.Chartab

open Coding List Function Option

variable {V : Type}

/-! ### Rows that are separate -/

section fits

variable {charsets : Charsets} {w : TableView V} {range : ChartabRange} {val : V}

theorem TableView.Fits.setCharset (h : w.Fits charsets) {lb : Nat} {l : CharsetView V}
    (hl : ∀ f i g, l = .rows f → f i = .chars g →
      ∃ c ∈ charsets.list, charsetIndex c.leadingByte = charsetIndex lb ∧ c.dimension = 2) :
    (w.setCharset lb l).Fits charsets := by
  intro lb' f i g hf hi
  rw [TableView.setCharset] at hf
  simp only at hf
  by_cases hlb : lb' = charsetIndex lb
  · rw [hlb, update_self] at hf
    rw [hlb]
    exact hl f i g hf hi
  · rw [update_of_ne hlb] at hf
    exact h lb' f i g hf hi

theorem TableView.Fits.put (h : w.Fits charsets) (hrange : range.Valid charsets) :
    (w.put charsets range val).Fits charsets := by
  cases range with
  | all =>
    intro lb f i g hf
    cases hf
  | charset c =>
    rw [TableView.put]
    split
    · exact h
    · split
      · exact h
      · refine h.setCharset fun f i g hf => ?_
        cases hf
  | row c byte1 =>
    obtain ⟨hc, hdim, -⟩ := hrange
    exact h.setCharset fun f i g _ _ => ⟨c, hc, rfl, hdim⟩
  | char num =>
    obtain ⟨ch, hch, rfl⟩ := hrange
    rw [TableView.put, breakupChar_emchar hch]
    simp only
    split
    · exact h
    · split
      · exact h
      · refine h.setCharset fun f i g hf hi => ?_
        rcases dimension_cases ch.charset with hdim | hdim
        · -- the new row has one value, the others are as they were
          cases hf
          rw [if_pos hdim] at hi
          by_cases hcode : i = codeIndex ch.c1
          · rw [hcode, update_self] at hi
            cases hi
          · rw [update_of_ne hcode] at hi
            cases hl : w.level1 (charsetIndex ch.charset.leadingByte) with
            | whole val =>
              rw [hl] at hi
              cases hi
            | rows f =>
              rw [hl] at hi
              exact h _ f i g hl hi
        · exact ⟨ch.charset, hch.defined, rfl, hdim⟩

end fits

/-- The slots of charsets that are not defined are the same. -/
def SameUndefined (charsets : Charsets) (w w' : TableView V) : Prop :=
  ∀ lb, (∀ c ∈ charsets.list, charsetIndex c.leadingByte ≠ lb) → w'.level1 lb = w.level1 lb

section undefined

variable {charsets : Charsets} {w w' w'' : TableView V} {range : ChartabRange} {val : V}

theorem SameUndefined.trans (h : SameUndefined charsets w w')
    (h' : SameUndefined charsets w' w'') : SameUndefined charsets w w'' :=
  fun lb hlb => (h' lb hlb).trans (h lb hlb)

theorem SameUndefined.setCharset {c : Charset} (hc : c ∈ charsets.list) (l : CharsetView V) :
    SameUndefined charsets w (w.setCharset c.leadingByte l) := by
  intro lb hlb
  rw [TableView.setCharset]
  simp only
  rw [update_of_ne (hlb c hc).symm]

theorem SameUndefined.put (hrange : range.Valid charsets) (hall : range ≠ .all) :
    SameUndefined charsets w (w.put charsets range val) := by
  cases range with
  | all => exact absurd rfl hall
  | charset c =>
    rw [TableView.put]
    split
    · exact fun _ _ => rfl
    · split
      · exact fun _ _ => rfl
      · exact .setCharset hrange _
  | row c byte1 => exact .setCharset hrange.1 _
  | char num =>
    obtain ⟨ch, hch, rfl⟩ := hrange
    rw [TableView.put, breakupChar_emchar hch]
    simp only
    split
    · exact fun _ _ => rfl
    · split
      · exact fun _ _ => rfl
      · exact .setCharset hch.defined _

end undefined

/-! ### Which tables there are -/

namespace CharTables

/-- The type and the mirror table of a table. -/
def kindOf (s : CharTables V) (t : Nat) : Option (CharTableType × Option Nat) :=
  s.tables[t]?.map fun ct => (ct.type, ct.mirrorTable)

/-- A mirror table, which no Lisp program gets hold of. -/
def IsMirror (s : CharTables V) (m : Nat) : Prop := ∃ t type, s.kindOf t = some (type, some m)

end CharTables

/-- The syntax tables have mirror tables. -/
structure Laid (s : CharTables V) : Prop where
  mirror : ∀ t m, s.kindOf t = some (.typeSyntax, m) →
    ∃ m', m = some m' ∧ s.kindOf m' = some (.typeGeneric, none)
  plain : ∀ t type m, s.kindOf t = some (type, m) → type ≠ .typeSyntax → m = none
  all : ∀ t ∈ s.allSyntaxTables, ∃ m, s.kindOf t = some (.typeSyntax, m)
  standard : ∀ t, s.standardSyntaxTable = some t → ∃ m, s.kindOf t = some (.typeSyntax, m)

/-- Every table shows its view, and is as it should be. -/
structure Sound (s : CharTables V) (place : Nat → Place) (views : List (TableView V)) : Prop where
  shows : Shows s place views
  fits : ∀ w ∈ views, w.Fits s.charsets
  laid : Laid s

section sound

variable {s s' : CharTables V} {place place' : Nat → Place} {views views' : List (TableView V)}
  {t m : Nat} {w : TableView V} {type : CharTableType} {mirror : Option Nat}

theorem kindOf_eq {ct : CharTable V} (h : s.tables[t]? = some ct) :
    s.kindOf t = some (ct.type, ct.mirrorTable) := by
  rw [CharTables.kindOf, h, map_some]

theorem kindOf_some (h : s.kindOf t = some (type, mirror)) :
    ∃ ct, s.tables[t]? = some ct ∧ ct.type = type ∧ ct.mirrorTable = mirror := by
  obtain ⟨ct, hct, hkind⟩ := Option.map_eq_some_iff.mp h
  cases hkind
  exact ⟨ct, hct, rfl, rfl⟩

theorem SameLayout.length (h : SameLayout s s') : s'.tables.length = s.tables.length := by
  rw [← length_map, h.tables, length_map]

theorem SameLayout.kind (h : SameLayout s s') : s'.kindOf = s.kindOf := funext h.getElem?

theorem Laid.sameLayout (h : Laid s) (hsame : SameLayout s s') : Laid s' := by
  obtain ⟨hmirror, hplain, hall, hstandard⟩ := h
  rw [← hsame.kind] at hmirror hplain hall hstandard
  rw [← hsame.allTables] at hall
  rw [← hsame.standard] at hstandard
  exact ⟨hmirror, hplain, hall, hstandard⟩

theorem SameLayout.isMirror (h : SameLayout s s') : s'.IsMirror = s.IsMirror := by
  unfold CharTables.IsMirror
  rw [h.kind]

theorem Sound.viewed (h : Sound s place views) {ct : CharTable V} (ht : s.tables[t]? = some ct)
    (hview : views[t]? = some w) : Viewed s place t ct w :=
  ⟨ht, h.shows.table t ct w ht hview, h.fits w (mem_of_getElem? hview)⟩

theorem Sound.view (h : Sound s place views) (hkind : s.kindOf t = some (type, mirror)) :
    ∃ ct w, s.tables[t]? = some ct ∧ ct.type = type ∧ ct.mirrorTable = mirror ∧
      views[t]? = some w := by
  obtain ⟨ct, ht, htype, hmirror⟩ := kindOf_some hkind
  have hlt := (List.getElem?_eq_some_iff.mp ht).1
  rw [← h.shows.length] at hlt
  exact ⟨ct, views[t], ht, htype, hmirror, getElem?_eq_getElem hlt⟩

theorem Sound.assign (h : Sound s place views) {ct : CharTable V} (ht : s.tables[t]? = some ct)
    (hview : views[t]? = some w) {range : ChartabRange} (hrange : range.Valid s.charsets)
    (val : V) :
    ∃ s' place', s.assign t range val = some s' ∧
      Sound s' place' (views.set t (w.put s.charsets range val)) ∧
      Moves (· = t) s place views s' place' (views.set t (w.put s.charsets range val)) := by
  obtain ⟨s', place', hassign, hshows, hmoves⟩ := h.shows.assign ht hview hrange val
  refine ⟨s', place', hassign, ⟨hshows, fun w' hw' => ?_, h.laid.sameLayout hmoves.layout⟩, hmoves⟩
  rw [hmoves.layout.charsets]
  rcases mem_or_eq_of_mem_set hw' with hold | rfl
  · exact h.fits w' hold
  · exact (h.fits w (mem_of_getElem? hview)).put hrange

theorem Sound.putPlain (h : Sound s place views) (values : TableValues V)
    (hkind : s.kindOf t = some (type, mirror)) (htype : type ≠ .typeSyntax)
    (hview : views[t]? = some w) {range : ChartabRange} (hrange : range.Valid s.charsets)
    (val : V) (depth : Nat) :
    ∃ s' place', putCharTable values (depth + 1) s t range val = some s' ∧
      Sound s' place' (views.set t (w.put s.charsets range val)) ∧
      Moves (· = t) s place views s' place' (views.set t (w.put s.charsets range val)) := by
  obtain ⟨ct, ht, rfl, rfl⟩ := kindOf_some hkind
  obtain ⟨s', place', hassign, hsound, hmoves⟩ := h.assign ht hview hrange val
  have hkind' := hkind
  rw [← hmoves.layout.kind] at hkind'
  obtain ⟨ct', ht', htype', -⟩ := kindOf_some hkind'
  refine ⟨s', place', ?_, hsound, hmoves⟩
  rw [putCharTable, hassign]
  simp only [bind_eq_bind, bind_some]
  rw [updateIfSyntax, ht']
  simp only [bind_eq_bind, bind_some]
  rw [htype', if_neg htype]

end sound

/-! ### Updating the mirror tables -/

/-- Only the values of some tables have changed since `s₀`. -/
def Changed (T : Nat → Prop) (s₀ : CharTables V) (place₀ : Nat → Place)
    (views₀ : List (TableView V)) (s : CharTables V) : Prop :=
  ∃ place views, Sound s place views ∧ Moves T s₀ place₀ views₀ s place views

section update

variable {s₀ s : CharTables V} {place₀ : Nat → Place} {views₀ : List (TableView V)} {t m : Nat}
  {T U : Nat → Prop} {type : CharTableType} {mirror : Option Nat}

theorem Changed.keeps (ht : ¬ T t) :
    ∀ s, Changed T s₀ place₀ views₀ s → Keeps s₀ place₀ t (id s) := by
  rintro s ⟨place, views, -, hmoves⟩
  refine ⟨hmoves.layout.charsets, hmoves.tables t ht, fun cte level2 hplace hentry => ?_⟩
  have hT : ¬ T (place₀ cte).under.1 := by rwa [hplace]
  exact (hmoves.entries cte level2 hT hentry).1

/-- The mirror table `m` has got these codes for the characters in `A`. Nothing else has changed. -/
def Coded (m : Nat) (code : Mchar → V) (s₀ : CharTables V) (place₀ : Nat → Place)
    (views₀ : List (TableView V)) (A : Set Mchar) (s : CharTables V) : Prop :=
  ∃ place views, Sound s place views ∧ Moves (· = m) s₀ place₀ views₀ s place views ∧
    ∀ w₀ w, views₀[m]? = some w₀ → views[m]? = some w →
      (∀ ch, ch.Valid s₀.charsets → ch ∈ A → w.value ch = code ch) ∧
      SameUndefined s₀.charsets w₀ w

theorem Coded.changed {code : Mchar → V} {A : Set Mchar} (h : Coded m code s₀ place₀ views₀ A s) :
    Changed (· = m) s₀ place₀ views₀ s := by
  obtain ⟨place, views, hsound, hmoves, -⟩ := h
  exact ⟨place, views, hsound, hmoves⟩

theorem Coded.mono {code : Mchar → V} (A B : Set Mchar) (s : CharTables V) (hAB : A ⊆ B)
    (h : Coded m code s₀ place₀ views₀ B s) : Coded m code s₀ place₀ views₀ A s := by
  obtain ⟨place, views, hsound, hmoves, hcode⟩ := h
  refine ⟨place, views, hsound, hmoves, fun w₀ w hw₀ hw => ?_⟩
  obtain ⟨hvalue, hundefined⟩ := hcode w₀ w hw₀ hw
  exact ⟨fun ch hch hA => hvalue ch hch (hAB hA), hundefined⟩

theorem Coded.refl (h : Sound s₀ place₀ views₀) (code : Mchar → V) :
    Coded m code s₀ place₀ views₀ ∅ s₀ := by
  refine ⟨place₀, views₀, h, .refl .., fun w₀ w hw₀ hw => ⟨fun _ _ => nofun, fun _ _ => ?_⟩⟩
  rw [Option.some.inj (hw.symm.trans hw₀)]

theorem Coded.put {code : Mchar → V} {A : Set Mchar} (values : TableValues V)
    (hmirror : s₀.kindOf m = some (.typeGeneric, none)) {range : ChartabRange}
    (hrange : range.Valid s₀.charsets) (hall : range ≠ .all) {val : V}
    (hcode : ∀ ch : Mchar, ch.Valid s₀.charsets → range.Has ch → code ch = val) (depth : Nat)
    (h : Coded m code s₀ place₀ views₀ A s) :
    ∃ s', putCharTable values (depth + 1) s m range val = some s' ∧
      Coded m code s₀ place₀ views₀ (A ∪ {ch | ch.Valid s₀.charsets ∧ range.Has ch}) s' := by
  obtain ⟨place, views, hsound, hmoves, hcoded⟩ := h
  have hcharsets := hmoves.layout.charsets
  rw [← hmoves.layout.kind] at hmirror
  rw [← hcharsets] at hrange
  obtain ⟨ct, w, -, -, -, hview⟩ := hsound.view hmirror
  obtain ⟨s', place', hput, hsound', hmoves'⟩ :=
    hsound.putPlain values hmirror nofun hview hrange val depth
  refine ⟨s', hput, place', _, hsound', hmoves.trans hmoves', fun w₀ w' hw₀ hw' => ?_⟩
  rw [getElem?_set_self (List.getElem?_eq_some_iff.mp hview).1] at hw'
  cases hw'
  obtain ⟨hvalue, hundefined⟩ := hcoded w₀ w hw₀ hview
  refine ⟨fun ch hch hA => ?_, hundefined.trans (hcharsets ▸ .put hrange hall)⟩
  rw [TableView.value_put hrange (hcharsets ▸ hch)]
  split
  · rename_i hhas
    exact (hcode ch hch hhas).symm
  · rename_i hhas
    exact hvalue ch hch (hA.resolve_right fun h => hhas h.2)

/-- What a mirror table has for a value: where the standard syntax table is used, its code. -/
def TableValues.mirrored (values : TableValues V) (standard : Option V) (val : V) : V :=
  match standard with
  | none => values.code val
  | some standard =>
    if values.isInherit (values.code val) then values.code standard else values.code val

/-- The value of a character in the standard syntax table. -/
def standardValue (s : CharTables V) (views : List (TableView V)) (ch : Mchar) : Option V :=
  (s.standardSyntaxTable.bind fun standard => views[standard]?).map (·.value ch)

theorem cmstMapfunNoInherit_coded {code : Mchar → V} {w : TableView V} {A : Set Mchar}
    (values : TableValues V) (hmirror : s₀.kindOf m = some (.typeGeneric, none))
    {p : ChartabRange × V} (hp : Subrange s₀.charsets w p) (hproper : p.1.Proper)
    (hcode : ∀ ch ∈ blockOf s₀.charsets p, code ch = values.code (w.value ch))
    (h : Coded m code s₀ place₀ views₀ A s) :
    ∃ s', cmstMapfunNoInherit values (putCharTable values 1) m p.1 p.2 s = some (0, s') ∧
      Coded m code s₀ place₀ views₀ (A ∪ blockOf s₀.charsets p) s' := by
  have hval : ∀ ch : Mchar, ch.Valid s₀.charsets → p.1.Has ch → code ch = values.code p.2 := by
    intro ch hch hhas
    rw [hcode ch ⟨hch, hhas⟩, hp.value ch hch hhas]
  obtain ⟨s', hput, hs'⟩ := h.put values hmirror hp.valid hproper.1 hval 0
  refine ⟨s', ?_, hs'⟩
  rw [cmstMapfunNoInherit, hput]
  rfl

/-- A call for a range of a syntax table puts the codes of the range on the mirror table, from the
standard syntax table where it is used. -/
theorem cmstMapfun_coded {code : Mchar → V} {w : TableView V} {A : Set Mchar}
    (values : TableValues V) (hsound : Sound s₀ place₀ views₀)
    (hmirror : s₀.kindOf m = some (.typeGeneric, none))
    {p : ChartabRange × V} (hp : Subrange s₀.charsets w p) (hproper : p.1.Proper)
    {checkInherit : Bool}
    (hcheck : checkInherit = true → ∃ standard, s₀.standardSyntaxTable = some standard)
    (hinherit : checkInherit = true → ∀ ch ∈ blockOf s₀.charsets p,
      code ch = values.mirrored (standardValue s₀ views₀ ch) (w.value ch))
    (hown : checkInherit = false → ∀ ch ∈ blockOf s₀.charsets p,
      code ch = values.code (w.value ch))
    (h : Coded m code s₀ place₀ views₀ A s) :
    ∃ s', cmstMapfun values (putCharTable values 1) m checkInherit p.1 p.2 s = some (0, s') ∧
      Coded m code s₀ place₀ views₀ (A ∪ blockOf s₀.charsets p) s' := by
  rw [cmstMapfun]
  split
  · rename_i hsplit
    obtain ⟨hval, hchecked⟩ := hsplit
    obtain ⟨standard, hstandard⟩ := hcheck hchecked
    obtain ⟨m', hkind⟩ := hsound.laid.standard standard hstandard
    obtain ⟨ct, ws, ht, -, -, hview⟩ := hsound.view hkind
    have hne : standard ≠ m := by
      rintro rfl
      rw [hmirror] at hkind
      cases hkind
    -- what the characters have in the standard syntax table
    have hcode : ∀ ch ∈ blockOf s₀.charsets p, code ch = values.code (ws.value ch) := by
      intro ch hch
      rw [hinherit hchecked ch hch, standardValue, hstandard, bind_some, hview,
        map_some, TableValues.mirrored, hp.value ch hch.1 hch.2]
      exact if_pos hval
    obtain ⟨s', hmap, hs'⟩ := (hsound.viewed ht hview).mapCharTable_grows
      (J := Coded m code s₀ place₀ views₀)
      (fun s hs => Changed.keeps (T := (· = m)) hne s hs.changed) Coded.mono hp.valid hproper.2 (fun q hq hqproper hqp A s hs =>
        cmstMapfunNoInherit_coded values hmirror hq hqproper
          (fun ch hch => hcode ch ⟨hch.1, hqp ch hch⟩) hs) h
    refine ⟨s', ?_, hs'⟩
    obtain ⟨place, views, -, hmoves, -⟩ := h
    rw [hmoves.layout.standard, hstandard]
    simp only [bind_eq_bind, bind_some, hmap]
    rfl
  · rename_i hsplit
    have hcode : ∀ ch : Mchar, ch.Valid s₀.charsets → p.1.Has ch → code ch = values.code p.2 := by
      intro ch hch hhas
      rw [← hp.value ch hch hhas]
      cases hchecked : checkInherit with
      | false => exact hown hchecked ch ⟨hch, hhas⟩
      | true =>
        rw [hinherit hchecked ch ⟨hch, hhas⟩]
        cases standardValue s₀ views₀ ch with
        | none => rfl
        | some standard =>
          refine if_neg fun hval => hsplit ⟨?_, hchecked⟩
          rwa [hp.value ch hch hhas] at hval
    obtain ⟨s', hput, hs'⟩ := h.put values hmirror hp.valid hproper.1 hcode 0
    refine ⟨s', ?_, hs'⟩
    simp only [hput]
    rfl

theorem Sound.updateJustThisSyntaxTable (h : Sound s₀ place₀ views₀) (values : TableValues V)
    (hkind : s₀.kindOf t = some (.typeSyntax, some m)) {w : TableView V}
    (hview : views₀[t]? = some w) :
    ∃ s', updateJustThisSyntaxTable values (putCharTable values 1) s₀ t = some s' ∧
      Coded m (fun ch => values.mirrored (standardValue s₀ views₀ ch) (w.value ch)) s₀ place₀ views₀
        {ch | ch.Valid s₀.charsets} s' := by
  obtain ⟨m', hm', hmirror⟩ := h.laid.mirror t _ hkind
  cases hm'
  obtain ⟨ct, ht, -, hct⟩ := kindOf_some hkind
  have hne : t ≠ m := by
    rintro rfl
    rw [hmirror] at hkind
    cases hkind
  let checkInherit : Bool := s₀.standardSyntaxTable.isSome ∧ s₀.standardSyntaxTable ≠ some t
  have hown : checkInherit = false → ∀ ch : Mchar,
      values.mirrored (standardValue s₀ views₀ ch) (w.value ch) = values.code (w.value ch) := by
    intro hcheck ch
    cases hstandard : s₀.standardSyntaxTable with
    | none =>
      rw [standardValue, hstandard]
      rfl
    | some standard =>
      have hstandard' : standard = t := by
        by_contra hother
        refine of_decide_eq_false hcheck ⟨?_, ?_⟩
        · rw [hstandard]
          rfl
        · rw [hstandard]
          exact fun heq => hother (Option.some.inj heq)
      rw [standardValue, hstandard, hstandard', bind_some, hview, map_some,
        TableValues.mirrored, ite_self]
  obtain ⟨s', hmap, hs'⟩ := (h.viewed ht hview).mapCharTable_grows
    (J := Coded m (fun ch => values.mirrored (standardValue s₀ views₀ ch) (w.value ch)) s₀ place₀
      views₀)
    (fun s hs => Changed.keeps (T := (· = m)) hne s hs.changed) Coded.mono
    (show ChartabRange.all.Valid s₀.charsets from trivial) (fun ⟨_, hall, _⟩ => nomatch hall)
    (fun p hp hproper _ A s hs =>
      cmstMapfun_coded values h hmirror hp hproper
        (fun hcheck => Option.isSome_iff_exists.mp (of_decide_eq_true hcheck).1)
        (fun _ _ _ => rfl) (fun hcheck ch _ => hown hcheck ch) hs)
    (Coded.refl h _)
  refine ⟨s', ?_, hs'.mono _ _ s' fun ch hch => .inr ⟨hch, trivial⟩⟩
  rw [Chartab.updateJustThisSyntaxTable, ht]
  simp only [bind_eq_bind, bind_some, hct]
  rw [hmap]
  rfl

/-! ### Updating several mirror tables -/

/-- No two syntax tables have the same mirror table. -/
def CharTables.OwnMirrors (s : CharTables V) : Prop :=
  ∀ t t' m, s.kindOf t = some (.typeSyntax, some m) → s.kindOf t' = some (.typeSyntax, some m) →
    t = t'

/-- The mirror table of a syntax table has the codes. -/
def Mirrored (values : TableValues V) (s : CharTables V) (views : List (TableView V)) (t : Nat) :
    Prop :=
  ∀ m w wm, s.kindOf t = some (.typeSyntax, some m) → views[t]? = some w → views[m]? = some wm →
    ∀ ch : Mchar, ch.Valid s.charsets →
      wm.value ch = values.mirrored (standardValue s views ch) (w.value ch)

/-- The mirror tables of some tables have been updated. -/
structure Updates (values : TableValues V) (l : List Nat) (s : CharTables V) (place : Nat → Place)
    (views : List (TableView V)) (s' : CharTables V) (place' : Nat → Place)
    (views' : List (TableView V)) : Prop where
  moves : Moves (fun m => ∃ t ∈ l, s.kindOf t = some (.typeSyntax, some m)) s place views s' place'
    views'
  mirrored : s.OwnMirrors → ∀ t ∈ l, Mirrored values s' views' t
  undefined : ∀ (m : Nat) (w w' : TableView V), views[m]? = some w → views'[m]? = some w' →
    SameUndefined s.charsets w w'

/-- The tables whose mirror tables depend on a syntax table. -/
def CharTables.dependents (s : CharTables V) (t : Nat) : List Nat :=
  if s.standardSyntaxTable = some t then s.allSyntaxTables else [t]

theorem updateSyntaxTable_eq (values : TableValues V) (put : Put V) (s : CharTables V) (t : Nat) :
    updateSyntaxTable values put s t
      = (s.dependents t).foldlM (Chartab.updateJustThisSyntaxTable values put) s := by
  rw [updateSyntaxTable, CharTables.dependents]
  split
  · rfl
  · rw [foldlM_cons]
    exact (bind_pure _).symm

theorem Laid.syntax_ne (h : Laid s) {t' : Nat} (ht : s.kindOf t = some (.typeSyntax, mirror))
    (ht' : s.kindOf t' = some (.typeSyntax, some m)) : t ≠ m := by
  rintro rfl
  obtain ⟨m', hm', hkind⟩ := h.mirror t' _ ht'
  cases hm'
  rw [ht] at hkind
  cases hkind

theorem Mirrored.moves {values : TableValues V} {place place' : Nat → Place}
    {views views' : List (TableView V)} {s' : CharTables V} (h : Mirrored values s views t)
    (hmoves : Moves T s place views s' place' views') (ht : ¬ T t)
    (hstandard : ∀ standard, s.standardSyntaxTable = some standard → ¬ T standard)
    (hm : ∀ m, s.kindOf t = some (.typeSyntax, some m) → ¬ T m) : Mirrored values s' views' t := by
  intro m w wm hkind hw hwm ch hch
  rw [hmoves.layout.kind] at hkind
  rw [hmoves.layout.charsets] at hch
  rw [hmoves.views t ht] at hw
  rw [hmoves.views m (hm m hkind)] at hwm
  have hsame : standardValue s' views' ch = standardValue s views ch := by
    rw [standardValue, standardValue, hmoves.layout.standard]
    cases hs : s.standardSyntaxTable with
    | none => rfl
    | some standard => rw [bind_some, bind_some, hmoves.views _ (hstandard _ hs)]
  rw [hsame]
  exact h m w wm hkind hw hwm ch hch

/-- Updating one table after another. -/
theorem Sound.updateTables (h : Sound s₀ place₀ views₀) (values : TableValues V) (l : List Nat)
    (hl : ∀ t ∈ l, ∃ mirror, s₀.kindOf t = some (.typeSyntax, mirror)) :
    ∃ s' place' views',
      l.foldlM (Chartab.updateJustThisSyntaxTable values (putCharTable values 1)) s₀ = some s' ∧
      Sound s' place' views' ∧ Updates values l s₀ place₀ views₀ s' place' views' := by
  induction l generalizing s₀ place₀ views₀ with
  | nil =>
    refine ⟨s₀, place₀, views₀, rfl, h, .refl .., fun _ => nofun, fun m w w' hw hw' => ?_⟩
    rw [Option.some.inj (hw'.symm.trans hw)]
    exact fun _ _ => rfl
  | cons t l ih =>
    rw [forall_mem_cons] at hl
    obtain ⟨mirror, hkind⟩ := hl.1
    obtain ⟨m, rfl, hmirror⟩ := h.laid.mirror t mirror hkind
    obtain ⟨ct, w, -, -, -, hview⟩ := h.view hkind
    obtain ⟨s₁, hupdate, place₁, views₁, hsound₁, hmoves₁, hcoded₁⟩ :=
      h.updateJustThisSyntaxTable values hkind hview
    have hkinds := hmoves₁.layout.kind
    obtain ⟨s', place', views', hrest, hsound', hmoves', hmirrored', hundefined'⟩ :=
      ih hsound₁ (by rw [hkinds]; exact hl.2)
    rw [hkinds] at hmoves'
    have hmirrorOf : ∀ t' mirror', s₀.kindOf t' = some (.typeSyntax, mirror') →
        ¬ ∃ u ∈ l, s₀.kindOf u = some (.typeSyntax, some t') :=
      fun t' mirror' ht' ⟨u, _, hu⟩ => h.laid.syntax_ne ht' hu rfl
    -- the first mirror table has its codes
    have hfirst : Mirrored values s₁ views₁ t := by
      intro m' w' wm hkind' hw' hwm ch hch
      rw [hkinds, hkind] at hkind'
      cases hkind'
      rw [hmoves₁.views t (h.laid.syntax_ne hkind hkind), hview] at hw'
      cases hw'
      obtain ⟨ctm, wm₀, -, -, -, hviewm⟩ := h.view hmirror
      rw [hmoves₁.layout.charsets] at hch
      rw [(hcoded₁ wm₀ wm hviewm hwm).1 ch hch hch]
      refine congrArg (values.mirrored · _) ?_
      rw [standardValue, standardValue, hmoves₁.layout.standard]
      cases hs : s₀.standardSyntaxTable with
      | none => rfl
      | some standard =>
        obtain ⟨ms, hstandard⟩ := h.laid.standard standard hs
        rw [bind_some, bind_some,
          hmoves₁.views standard (h.laid.syntax_ne hstandard hkind)]
    refine ⟨s', place', views', ?_, hsound', ⟨?_, fun hown => ?_, fun m' w₀ w' hw₀ hw' => ?_⟩⟩
    · rw [foldlM_cons, hupdate]
      exact hrest
    · refine (hmoves₁.mono ?_).trans (hmoves'.mono ?_)
      · rintro m' rfl
        exact ⟨t, mem_cons_self .., hkind⟩
      · rintro m' ⟨t', ht', hkind'⟩
        exact ⟨t', mem_cons_of_mem t ht', hkind'⟩
    · have hown₁ : s₁.OwnMirrors := by
        rw [CharTables.OwnMirrors, hkinds]
        exact hown
      rw [forall_mem_cons]
      refine ⟨?_, hmirrored' hown₁⟩
      by_cases hmem : t ∈ l
      · exact hmirrored' hown₁ t hmem
      · refine hfirst.moves hmoves' (hmirrorOf t _ hkind) (fun standard hs => ?_)
          fun m' hkind' => ?_
        · rw [hmoves₁.layout.standard] at hs
          obtain ⟨ms, hstandard⟩ := h.laid.standard standard hs
          exact hmirrorOf standard ms hstandard
        · rw [hkinds] at hkind'
          rintro ⟨u, hu, hkindu⟩
          exact hmem (hown t u m' hkind' hkindu ▸ hu)
    · have hlt := (List.getElem?_eq_some_iff.mp hw').1
      rw [hsound'.shows.length, hmoves'.layout.length, ← hsound₁.shows.length] at hlt
      have hw₁ := getElem?_eq_getElem hlt
      have hrest := hundefined' m' _ w' hw₁ hw'
      rw [hmoves₁.layout.charsets] at hrest
      by_cases hm : m' = m
      · subst hm
        exact (hcoded₁ w₀ _ hw₀ hw₁).2.trans hrest
      · have hsame : w₀ = views₁[m'] := by
          rw [hmoves₁.views m' hm] at hw₁
          exact Option.some.inj (hw₀.symm.trans hw₁)
        exact hsame ▸ hrest

theorem Sound.updateSyntaxTable (h : Sound s₀ place₀ views₀) (values : TableValues V)
    (hkind : s₀.kindOf t = some (.typeSyntax, mirror)) :
    ∃ s' place' views', updateSyntaxTable values (putCharTable values 1) s₀ t = some s' ∧
      Sound s' place' views' ∧
      Updates values (s₀.dependents t) s₀ place₀ views₀ s' place' views' := by
  rw [updateSyntaxTable_eq]
  refine h.updateTables values _ ?_
  rw [CharTables.dependents]
  split
  · exact h.laid.all
  · exact List.forall_mem_singleton.mpr ⟨mirror, hkind⟩

/-- **A put** on a syntax table changes its view, and then mirror tables are updated. -/
theorem Sound.putSyntax (h : Sound s₀ place₀ views₀) (values : TableValues V) {w : TableView V}
    (hkind : s₀.kindOf t = some (.typeSyntax, mirror)) (hview : views₀[t]? = some w)
    {range : ChartabRange} (hrange : range.Valid s₀.charsets) (val : V) :
    ∃ s₁ place₁ s' place' views', putCharTable values 2 s₀ t range val = some s' ∧
      Moves (· = t) s₀ place₀ views₀ s₁ place₁ (views₀.set t (w.put s₀.charsets range val)) ∧
      Sound s' place' views' ∧
      Updates values (s₀.dependents t) s₁ place₁ (views₀.set t (w.put s₀.charsets range val)) s'
        place' views' := by
  obtain ⟨ct, hct, htype, -⟩ := kindOf_some hkind
  obtain ⟨s₁, place₁, hassign, hsound₁, hmoves₁⟩ := h.assign hct hview hrange val
  rw [← hmoves₁.layout.kind] at hkind
  obtain ⟨s', place', views', hupdate, hsound', hupdates⟩ := hsound₁.updateSyntaxTable values hkind
  have hdependents : s₁.dependents t = s₀.dependents t := by
    rw [CharTables.dependents, hmoves₁.layout.standard, hmoves₁.layout.allTables]
    rfl
  refine ⟨s₁, place₁, s', place', views', ?_, hmoves₁, hsound', hdependents ▸ hupdates⟩
  obtain ⟨ct', hct', htype', -⟩ := kindOf_some hkind
  rw [putCharTable, hassign]
  simp only [bind_eq_bind, bind_some]
  rw [updateIfSyntax, hct']
  simp only [bind_eq_bind, bind_some]
  rw [if_pos htype']
  exact hupdate

/-! ### All mirror tables -/

/-- The mirror tables have the codes, but perhaps those of the tables in `T`. -/
structure Faithful (values : TableValues V) (s : CharTables V) (views : List (TableView V))
    (T : Nat → Prop) : Prop where
  listed : ∀ t mirror, s.kindOf t = some (.typeSyntax, mirror) → t ∈ s.allSyntaxTables
  own : s.OwnMirrors
  mirrored : ∀ t, ¬ T t → Mirrored values s views t

/-- What a put on the table `t` does to mirror tables. -/
structure PutMirrors (values : TableValues V) (t : Nat) (s : CharTables V)
    (views : List (TableView V)) (s' : CharTables V) (views' : List (TableView V)) : Prop where
  undefined : ∀ (m : Nat) (w w' : TableView V), m ≠ t → views[m]? = some w →
    views'[m]? = some w' → SameUndefined s.charsets w w'
  faithful : Faithful values s views (· = t) → Faithful values s' views' fun _ => False

section faithful

variable {values : TableValues V} {s₁ s' : CharTables V} {place place₁ place' : Nat → Place}
  {views views₁ views' : List (TableView V)}

theorem Faithful.but (h : Faithful values s views fun _ => False) (T : Nat → Prop) :
    Faithful values s views T := ⟨h.listed, h.own, fun t _ => h.mirrored t id⟩

theorem Faithful.layout (h : Faithful values s views T) (hlayout : SameLayout s s') :
    (∀ t mirror, s'.kindOf t = some (.typeSyntax, mirror) → t ∈ s'.allSyntaxTables) ∧
      s'.OwnMirrors := by
  rw [CharTables.OwnMirrors, hlayout.kind, hlayout.allTables]
  exact ⟨h.listed, h.own⟩

theorem Faithful.updates (h : Faithful values s views (· = t)) (hlaid : Laid s)
    (hkind : s.kindOf t = some (.typeSyntax, mirror))
    (hmoves₁ : Moves (· = t) s place views s₁ place₁ views₁)
    (hupdates : Updates values (s.dependents t) s₁ place₁ views₁ s' place' views') :
    Faithful values s' views' fun _ => False := by
  have hkinds₁ := hmoves₁.layout.kind
  obtain ⟨hlisted₁, hown₁⟩ := h.layout hmoves₁.layout
  obtain ⟨hmoves', hmirrored', -⟩ := hupdates
  have hkinds' := hmoves'.layout.kind
  refine ⟨?_, ?_, fun t' _ => ?_⟩
  · rw [hkinds', hmoves'.layout.allTables]
    exact hlisted₁
  · rw [CharTables.OwnMirrors, hkinds']
    exact hown₁
  by_cases hmem : t' ∈ s.dependents t
  · exact hmirrored' hown₁ t' hmem
  intro m w wm hkind'
  have hkind₀ := hkind'
  rw [hkinds', hkinds₁] at hkind₀
  have hstandard : s.standardSyntaxTable ≠ some t := by
    intro hs
    rw [CharTables.dependents, if_pos hs] at hmem
    exact hmem (h.listed t' _ hkind₀)
  have hne : t' ≠ t := by
    rintro rfl
    rw [CharTables.dependents, if_neg hstandard] at hmem
    exact hmem (mem_singleton_self t')
  have hmirrored₁ : Mirrored values s₁ views₁ t' := by
    refine (h.mirrored t' hne).moves hmoves₁ hne (fun standard hs => ?_) fun m' hkindm => ?_
    · rintro rfl
      exact hstandard hs
    · exact (hlaid.syntax_ne hkind hkindm).symm
  rw [hkinds₁] at hmoves'
  have hnot : ∀ u mirror', s.kindOf u = some (.typeSyntax, mirror') →
      ¬ ∃ u' ∈ s.dependents t, s.kindOf u' = some (.typeSyntax, some u) :=
    fun u mirror' hu ⟨u', _, hu'⟩ => hlaid.syntax_ne hu hu' rfl
  refine hmirrored₁.moves hmoves' (hnot t' _ hkind₀) (fun standard hs => ?_) (fun m' hkindm => ?_) m
    w wm hkind'
  · rw [hmoves₁.layout.standard] at hs
    obtain ⟨ms, hkinds⟩ := hlaid.standard standard hs
    exact hnot standard ms hkinds
  · rw [hkinds₁] at hkindm
    rintro ⟨u, hu, hkindu⟩
    exact hmem (h.own t' u m' hkindm hkindu ▸ hu)

theorem Faithful.plain (h : Faithful values s views (· = t)) (hlaid : Laid s)
    (hmirror : ¬ s.IsMirror t) (htype : type ≠ .typeSyntax)
    (hkind : s.kindOf t = some (type, mirror))
    (hmoves : Moves (· = t) s place views s' place' views') :
    Faithful values s' views' fun _ => False := by
  obtain ⟨hlisted, hown⟩ := h.layout hmoves.layout
  refine ⟨hlisted, hown, fun t' _ m w wm hkind' => ?_⟩
  have hsyntax : ∀ u mirror', s.kindOf u = some (.typeSyntax, mirror') → u ≠ t := by
    rintro u mirror' hu rfl
    rw [hkind] at hu
    cases hu
    exact htype rfl
  have hkind₀ := hkind'
  rw [hmoves.layout.kind] at hkind₀
  have hne := hsyntax t' _ hkind₀
  refine (h.mirrored t' hne).moves hmoves hne (fun standard hs => ?_) (fun m' hkindm => ?_) m w wm
    hkind'
  · obtain ⟨ms, hkinds⟩ := hlaid.standard standard hs
    exact hsyntax standard ms hkinds
  · rintro rfl
    exact hmirror ⟨t', _, hkindm⟩

end faithful

/-- **A put** on a table that is no mirror table changes what is seen through it and through mirror
tables. -/
theorem Sound.put (h : Sound s₀ place₀ views₀) (values : TableValues V) {w : TableView V}
    (hview : views₀[t]? = some w) (ht : ¬ s₀.IsMirror t) {range : ChartabRange}
    (hrange : range.Valid s₀.charsets) (val : V) :
    ∃ s' place' views', putCharTable values 2 s₀ t range val = some s' ∧
      Sound s' place' views' ∧
      Moves (fun t' => t' = t ∨ s₀.IsMirror t') s₀ place₀ views₀ s' place' views' ∧
      views'[t]? = some (w.put s₀.charsets range val) ∧
      PutMirrors values t s₀ views₀ s' views' := by
  have hlt := (List.getElem?_eq_some_iff.mp hview).1
  have hset : (views₀.set t (w.put s₀.charsets range val))[t]?
      = some (w.put s₀.charsets range val) := getElem?_set_self hlt
  have hother : ∀ (m : Nat) (w' : TableView V), m ≠ t → views₀[m]? = some w' →
      (views₀.set t (w.put s₀.charsets range val))[m]? = some w' :=
    fun m w' hm hw' => (getElem?_set_ne hm.symm).trans hw'
  rw [h.shows.length] at hlt
  have hct := getElem?_eq_getElem hlt
  have hkind := kindOf_eq hct
  by_cases htype : s₀.tables[t].type = .typeSyntax
  · rw [htype] at hkind
    obtain ⟨s₁, place₁, s', place', views', hput, hmoves₁, hsound', hupdates⟩ :=
      h.putSyntax values hkind hview hrange val
    have hmoves' := hupdates.moves
    rw [hmoves₁.layout.kind] at hmoves'
    have hmirrors : ∀ m, (∃ t' ∈ s₀.dependents t, s₀.kindOf t' = some (.typeSyntax, some m)) →
        s₀.IsMirror m := fun m ⟨t', _, hkind'⟩ => ⟨t', _, hkind'⟩
    refine ⟨s', place', views', hput, hsound', ?_, ?_, fun m w' w'' hm hw' hw'' => ?_, fun hf => ?_⟩
    · exact (hmoves₁.mono fun t' => .inl).trans (hmoves'.mono fun m hm => .inr (hmirrors m hm))
    · rw [hmoves'.views t fun hm => ht (hmirrors t hm), hset]
    · exact hmoves₁.layout.charsets ▸ hupdates.undefined m w' w'' (hother m w' hm hw') hw''
    · exact hf.updates h.laid hkind hmoves₁ hupdates
  · obtain ⟨s', place', hput, hsound', hmoves'⟩ :=
      h.putPlain values hkind htype hview hrange val 1
    refine ⟨s', place', _, hput, hsound', hmoves'.mono fun t' => .inl, hset,
      fun m w' w'' hm hw' hw'' => ?_, fun hf => hf.plain h.laid ht htype hkind hmoves'⟩
    rw [hother m w' hm hw'] at hw''
    cases hw''
    exact fun _ _ => rfl

end update

end XEmacs.Chartab

import XEmacs.Chartab.Copies

/-!
# The assignment law

Lisp programs make char tables, copy them and put values on them, in any order.
-/

namespace XEmacs.Chartab

open Coding

variable {V : Type}

/-! ### Runs -/

/-- More charsets are defined. The old ones may have got charsets in the other direction. -/
def Extends (charsets charsets' : Charsets) : Prop :=
  ∀ c ∈ charsets.list, ∃ c' ∈ charsets'.list, c'.leadingByte = c.leadingByte ∧ c'.type = c.type

/-- What is done with char tables. -/
inductive Op (V : Type) where
  | make (type : CharTableType)
  | copy (t : Nat)
  | put (t : Nat) (range : ChartabRange) (val : V)
  | reset (t : Nat)
  | setStandardSyntaxTable (t : Nat)
  | defineCharsets (charsets : Charsets)

/-- The operation puts a value on the table. -/
def Op.Changes : Op V → Nat → Prop
  | put t _ _, t' => t' = t
  | reset t, t' => t' = t
  | _, _ => False

/-- One operation. Lisp programs do not get hold of mirror tables, and the ranges are those of
`decode_char_table_range`. -/
inductive Step (values : TableValues V) (s : CharTables V) : Op V → CharTables V → Prop
  | make {type s' t} (h : makeCharTable values s type = some (s', t)) :
    Step values s (.make type) s'
  | copy {t s' t'} (ht : s.Visible t) (h : copyCharTable 2 s t = some (s', t')) :
    Step values s (.copy t) s'
  | put {t range val s'} (ht : s.Visible t) (hrange : range.Valid s.charsets)
    (h : putCharTable values 2 s t range val = some s') : Step values s (.put t range val) s'
  | reset {t s'} (ht : s.Visible t) (h : resetCharTable values s t = some s') :
    Step values s (.reset t) s'
  | setStandardSyntaxTable {t m} (ht : s.kindOf t = some (.typeSyntax, m)) :
    Step values s (.setStandardSyntaxTable t) { s with standardSyntaxTable := some t }
  | defineCharsets {charsets} (h : Extends s.charsets charsets) :
    Step values s (.defineCharsets charsets) { s with charsets }

inductive Run (values : TableValues V) : CharTables V → List (Op V) → CharTables V → Prop
  | nil (s) : Run values s [] s
  | cons {s op s₁ ops s'} (hstep : Step values s op s₁) (hrun : Run values s₁ ops s') :
    Run values s (op :: ops) s'

/-- Before there are tables. -/
def CharTables.start (charsets : Charsets) : CharTables V := ⟨charsets, [], [], none, []⟩

/-- What is expected of the tables. -/
structure Lawful (values : TableValues V) (s : CharTables V) : Prop where
  /-- A value that is put is the value of the characters of the range. -/
  put : ∀ t range val, s.Visible t → range.Valid s.charsets →
    ∃ s', putCharTable values 2 s t range val = some s' ∧
      ∀ ch : Mchar, ch.Valid s.charsets → ∃ old, s.getCharTable ch.emchar t = some old ∧
        s'.getCharTable ch.emchar t = some (if range.Has ch then val else old)
  /-- A copy is a new table with the values of its original. -/
  copy : ∀ t, s.Visible t →
    ∃ s' t', copyCharTable 2 s t = some (s', t') ∧ ¬ s.Visible t' ∧ s'.Visible t' ∧
      ∀ ch : Mchar, ch.Valid s.charsets → ∃ val, s.getCharTable ch.emchar t = some val ∧
        s'.getCharTable ch.emchar t = some val ∧ s'.getCharTable ch.emchar t' = some val
  /-- Later operations on other tables change none of the values. -/
  later : ∀ t ops s', s.Visible t → Run values s ops s' → (∀ op ∈ ops, ¬ op.Changes t) →
    s'.Visible t ∧
      ∀ ch : Mchar, ch.Valid s.charsets → s'.getCharTable ch.emchar t = s.getCharTable ch.emchar t

/-! ### The invariant -/

section runs

variable {charsets charsets' : Charsets} {values : TableValues V} {s s' : CharTables V}
  {place : Nat → Place} {views views' : List (TableView V)} {t : Nat} {w : TableView V}
  {ch : Mchar}

theorem Extends.refl (charsets : Charsets) : Extends charsets charsets :=
  fun c hc => ⟨c, hc, rfl, rfl⟩

theorem Extends.trans {charsets'' : Charsets} (h : Extends charsets charsets')
    (h' : Extends charsets' charsets'') : Extends charsets charsets'' := by
  intro c hc
  obtain ⟨c', hc', hlb, htype⟩ := h c hc
  obtain ⟨c'', hc'', hlb', htype'⟩ := h' c' hc'
  exact ⟨c'', hc'', hlb'.trans hlb, htype'.trans htype⟩

theorem Extends.char (h : Extends charsets charsets') (hch : ch.Valid charsets) :
    ∃ ch' : Mchar, ch'.Valid charsets' ∧ ch'.emchar = ch.emchar ∧
      ∀ w : TableView V, w.value ch' = w.value ch := by
  obtain ⟨⟨lb, rep, type, graphic, final, direction, reverse⟩, c1, c2⟩ := ch
  obtain ⟨⟨lb', rep', type', graphic', final', direction', reverse'⟩, hc', hlb, htype⟩ :=
    h _ hch.defined
  cases hlb
  cases htype
  exact ⟨⟨_, c1, c2⟩, ⟨hc', hch.positions⟩, rfl, fun w => rfl⟩

theorem TableView.Fits.extends (h : w.Fits charsets) (hextends : Extends charsets charsets') :
    w.Fits charsets' := by
  intro lb f i g hf hi
  obtain ⟨c, hc, hindex, hdim⟩ := h lb f i g hf hi
  obtain ⟨c', hc', hlb, htype⟩ := hextends c hc
  exact ⟨c', hc', hlb ▸ hindex, (congrArg CharsetType.dimension htype).trans hdim⟩

theorem sound_start (charsets : Charsets) :
    Sound (CharTables.start charsets : CharTables V) (fun _ => .charset 0 0) [] :=
  ⟨⟨rfl, nofun⟩, nofun, ⟨nofun, nofun, nofun, nofun⟩⟩

theorem Sound.getCharTable_eq (h : Sound s place views) (hview : views[t]? = some w)
    (hch : ch.Valid s.charsets) : s.getCharTable ch.emchar t = some (w.value ch) := by
  have hlt := (List.getElem?_eq_some_iff.mp hview).1
  rw [h.shows.length] at hlt
  exact (h.viewed (List.getElem?_eq_getElem hlt) hview).getCharTable_eq (.refl s place t) hch

theorem Sound.visible_view (h : Sound s place views) (ht : s.Visible t) :
    ∃ w, views[t]? = some w := by
  have hlt := ht.lt
  rw [← h.shows.length] at hlt
  exact ⟨_, List.getElem?_eq_getElem hlt⟩

theorem Makes.leaves_all {t' : Nat} (h : Makes s views s' views' t') (T : Nat → Prop) :
    Leaves T s views s' views' :=
  fun t _ ht => h.leaves t (Nat.not_le.mpr ht.lt) ht

theorem Sound.setStandard (h : Sound s place views) {mirror : Option Nat}
    (ht : s.kindOf t = some (.typeSyntax, mirror)) :
    Sound { s with standardSyntaxTable := some t } place views := by
  obtain ⟨⟨hlength, htable⟩, hfits, hmirror, hplain, hall, -⟩ := h
  refine ⟨⟨hlength, htable⟩, hfits, hmirror, hplain, hall, fun t' ht' => ?_⟩
  cases ht'
  exact ⟨mirror, ht⟩

theorem Sound.defineCharsets (h : Sound s place views) (hextends : Extends s.charsets charsets) :
    Sound { s with charsets } place views := by
  obtain ⟨⟨hlength, htable⟩, hfits, hmirror, hplain, hall, hstandard⟩ := h
  exact ⟨⟨hlength, htable⟩, fun w hw => (hfits w hw).extends hextends, hmirror, hplain, hall,
    hstandard⟩

/-- The operation changes neither the standard syntax table nor the charsets. -/
def Op.OnTables : Op V → Prop
  | setStandardSyntaxTable _ | defineCharsets _ => False
  | _ => True

/-- What an operation on tables leaves as it is: the charsets, the standard syntax table, and that
the mirror tables have their codes. -/
structure KeepsMirrors (values : TableValues V) (s : CharTables V) (views : List (TableView V))
    (s' : CharTables V) (views' : List (TableView V)) : Prop where
  charsets : s'.charsets = s.charsets
  standard : s'.standardSyntaxTable = s.standardSyntaxTable
  faithful : Faithful values s views (fun _ => False) → Faithful values s' views' fun _ => False

/-- **An operation** keeps the invariant, and the views of the tables that it does not change. -/
theorem Sound.step (h : Sound s place views) {op : Op V} (hstep : Step values s op s') :
    ∃ place' views', Sound s' place' views' ∧ Extends s.charsets s'.charsets ∧
      Leaves op.Changes s views s' views' ∧
      (op.OnTables → KeepsMirrors values s views s' views') := by
  cases hstep with
  | @make type s' t hmake =>
    obtain ⟨s₁, t₁, place', views', hmake', hsound', hmakes, hstandard, hfaithful⟩ :=
      h.makeCharTable values type
    rw [hmake] at hmake'
    cases hmake'
    exact ⟨place', views', hsound', hmakes.charsets ▸ .refl _, hmakes.leaves_all _,
      fun _ => ⟨hmakes.charsets, hstandard, hfaithful⟩⟩
  | @copy t s' t' ht hcopy =>
    obtain ⟨w, hview⟩ := h.visible_view ht
    obtain ⟨s₁, t₁, place', views', hcopy', hsound', hmakes, -, hstandard, hfaithful⟩ :=
      h.copyCharTable ht hview
    rw [hcopy] at hcopy'
    cases hcopy'
    exact ⟨place', views', hsound', hmakes.charsets ▸ .refl _, hmakes.leaves_all _,
      fun _ => ⟨hmakes.charsets, hstandard, hfaithful values⟩⟩
  | @put t range val s' ht hrange hput =>
    obtain ⟨s₁, place', views', hput', hsound', hsame, hleaves, -, hmirrors⟩ :=
      h.putVisible values ht hrange val
    rw [hput] at hput'
    cases hput'
    exact ⟨place', views', hsound', hsame.charsets ▸ .refl _, hleaves,
      fun _ => ⟨hsame.charsets, hsame.standard, fun hf => hmirrors.faithful (hf.but _)⟩⟩
  | @reset t s' ht hreset =>
    obtain ⟨s₁, place', views', hreset', hsound', hsame, hleaves, hmirrors⟩ :=
      h.resetVisible values ht
    rw [hreset] at hreset'
    cases hreset'
    exact ⟨place', views', hsound', hsame.charsets ▸ .refl _, hleaves,
      fun _ => ⟨hsame.charsets, hsame.standard, fun hf => hmirrors.faithful (hf.but _)⟩⟩
  | @setStandardSyntaxTable t m ht =>
    exact ⟨place, views, h.setStandard ht, .refl _, Leaves.refl _ s views, nofun⟩
  | @defineCharsets charsets hextends =>
    exact ⟨place, views, h.defineCharsets hextends, hextends, Leaves.refl _ s views, nofun⟩

theorem Sound.run (h : Sound s place views) {ops : List (Op V)} (hrun : Run values s ops s') :
    ∃ place' views', Sound s' place' views' ∧ Extends s.charsets s'.charsets ∧
      Leaves (fun t => ∃ op ∈ ops, op.Changes t) s views s' views' := by
  induction hrun generalizing place views with
  | nil s => exact ⟨place, views, h, .refl _, Leaves.refl _ s views⟩
  | @cons s op s₁ ops s' hstep hrun ih =>
    obtain ⟨place₁, views₁, hsound₁, hextends₁, hleaves₁, -⟩ := h.step hstep
    obtain ⟨place', views', hsound', hextends', hleaves'⟩ := ih hsound₁
    refine ⟨place', views', hsound', hextends₁.trans hextends',
      (hleaves₁.mono fun t hop => ?_).trans (hleaves'.mono fun t hops => ?_)⟩
    · exact ⟨op, List.mem_cons_self .., hop⟩
    · obtain ⟨op', hmem, hop⟩ := hops
      exact ⟨op', List.mem_cons_of_mem op hmem, hop⟩

/-! ### The law -/

theorem Sound.lawful (h : Sound s place views) (values : TableValues V) : Lawful values s := by
  refine ⟨fun t range val ht hrange => ?_, fun t ht => ?_, fun t ops s' ht hrun hops => ?_⟩
  · obtain ⟨w, hview⟩ := h.visible_view ht
    obtain ⟨s', place', views', hput, hsound', hsame, -, hview', -⟩ :=
      h.putVisible values ht hrange val
    refine ⟨s', hput, fun ch hch => ⟨w.value ch, h.getCharTable_eq hview hch, ?_⟩⟩
    rw [hsound'.getCharTable_eq (hview' w hview) (hsame.charsets ▸ hch),
      TableView.value_put hrange hch]
  · obtain ⟨w, hview⟩ := h.visible_view ht
    obtain ⟨s', t', place', views', hcopy, hsound', hmakes, hview', -⟩ := h.copyCharTable ht hview
    refine ⟨s', t', hcopy, fun hnew => absurd hnew.lt (Nat.not_lt.mpr hmakes.new), hmakes.visible,
      fun ch hch => ⟨w.value ch, h.getCharTable_eq hview hch, ?_, ?_⟩⟩
    · rw [← (hmakes.leaves_all (fun _ => False) t id ht).2] at hview
      exact hsound'.getCharTable_eq hview (hmakes.charsets ▸ hch)
    · exact hsound'.getCharTable_eq hview' (hmakes.charsets ▸ hch)
  · obtain ⟨w, hview⟩ := h.visible_view ht
    obtain ⟨place', views', hsound', hextends, hleaves⟩ := h.run hrun
    obtain ⟨ht', hsame⟩ := hleaves t (fun ⟨op, hmem, hop⟩ => hops op hmem hop) ht
    refine ⟨ht', fun ch hch => ?_⟩
    obtain ⟨ch', hch', hemchar, hvalue⟩ := hextends.char (V := V) hch
    rw [h.getCharTable_eq hview hch, ← hemchar,
      hsound'.getCharTable_eq (hsame.trans hview) hch', hvalue]

/-- **The assignment law** holds after every run. -/
theorem char_tables_lawful {ops : List (Op V)} (h : Run values (.start charsets) ops s) :
    Lawful values s := by
  obtain ⟨place, views, hsound, -⟩ := (sound_start charsets).run h
  exact hsound.lawful values

end runs

/-- Codes that are numbers. 13 is `Sinherit` and 1 is `Spunct`. -/
def numberValues : TableValues Nat := ⟨0, 0, 13, 1, id, (· = 13)⟩

/-- A table in which `A` has a value of its own. -/
theorem letterTable_lawful :
    ∃ s, Run numberValues (.start .initial) [.make .typeChar, .put 0 (.char 65) 5] s ∧
      Lawful numberValues s := by
  have hrange : (ChartabRange.char 65).Valid .initial := by
    obtain ⟨ch, hch, -, hemchar, -⟩ := exists_ascii .initial (show 65 < 128 by decide)
    exact ⟨ch, hch, hemchar⟩
  have hvisible : ∀ s t, makeCharTable numberValues (.start .initial) .typeChar = some (s, t) →
      s.Visible 0 := by
    rintro s t hmake
    cases hmake
    refine ⟨rfl, ?_⟩
    rintro ⟨_ | t, type, hkind⟩
    · cases hkind
    · cases hkind
  have hrun : Run numberValues (.start .initial) [.make .typeChar, .put 0 (.char 65) 5] _ :=
    .cons (.make rfl) (.cons (.put (hvisible _ _ rfl) hrange rfl) (.nil _))
  exact ⟨_, hrun, char_tables_lawful hrun⟩

end XEmacs.Chartab

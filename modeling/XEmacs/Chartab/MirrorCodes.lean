import XEmacs.Chartab.Assignment
import XEmacs.SyntaxScan.Codes

/-!
# The codes in the mirror tables

`complex_vars_of_syntax` makes the standard syntax table.
-/

namespace XEmacs.Chartab

open Coding SyntaxScan List Option

/-! ### Lisp objects -/

/-- The Lisp objects in char tables, as far as syntax tables tell them apart. -/
inductive LispObject where
  | nil
  | int (n : Int)
  | char (ch : Nat)
  | cons (car cdr : LispObject)
  | other (address : Nat)

/-- `make_int` of a code. -/
def makeCode (c : Syntaxcode) : LispObject := .int c.ctorIdx

/-- The code of a value: `if (CONSP (val)) val = XCAR (val)`. -/
def xcarIfCons : LispObject → LispObject
  | .cons car _ => car
  | val => val

/-- `SYNTAX_FROM_CODE (XINT (val)) == Sinherit`. -/
def isSinherit : LispObject → Bool
  | .int n => Syntaxcode.ofBits (n % 128).toNat = .sinherit
  | _ => false

def lispValues : TableValues LispObject where
  nil := .nil
  charZero := .char 0
  inheritCode := makeCode .sinherit
  punctCode := makeCode .spunct
  code := xcarIfCons
  isInherit := isSinherit

/-! ### The standard syntax table -/

/-- `Fcopy_syntax_table`. A table that is no syntax table is an error. -/
def copySyntaxTable (s : CharTables LispObject) (syntaxTable : Option Nat) :
    Option (CharTables LispObject × Nat) :=
  match s.standardSyntaxTable with
  | none => makeCharTable lispValues s .typeSyntax
  | some standard => do
    let t := syntaxTable.getD standard
    let ct ← s.tables[t]?
    if ct.type = .typeSyntax then copyCharTable 2 s t else none

def defineStandardSyntax (p : String) (syn : Syntaxcode) : List (Nat × LispObject) :=
  p.toList.map fun c => (c.toNat, makeCode syn)

/-- What `complex_vars_of_syntax` puts on the standard syntax table. -/
def standardSyntax : List (Nat × LispObject) :=
  (List.range 33).map (fun i => (i, makeCode .swhitespace)) ++
  (List.range' 127 33).map (fun i => (i, makeCode .swhitespace)) ++
  defineStandardSyntax "abcdefghijklmnopqrstuvwxyzABCDEFGHIJKLMNOPQRSTUVWXYZ0123456789$%" .sword ++
  defineStandardSyntax "\"" .sstring ++
  defineStandardSyntax "\\" .sescape ++
  defineStandardSyntax "_-+*/&|<>=" .ssymbol ++
  defineStandardSyntax ".,;:?!#@~^'`" .spunct ++
  [('(', ')'), ('[', ']'), ('\x7b', '\x7d')].flatMap fun (p0, p1) =>
    [(p0.toNat, .cons (makeCode .sopen) (.char p1.toNat)),
      (p1.toNat, .cons (makeCode .sclose) (.char p0.toNat))]

def complexVarsOfSyntax (s : CharTables LispObject) : Option (CharTables LispObject) := do
  let s := { s with standardSyntaxTable := none }
  let (s, standard) ← copySyntaxTable s none
  let s := { s with standardSyntaxTable := some standard }
  let s ← putCharTable lispValues 2 s standard .all (makeCode .spunct)
  standardSyntax.foldlM (fun s (ch, val) => putCharTable lispValues 2 s standard (.char ch) val) s

/-- After XEmacs has been started. Charsets may have been defined since. -/
inductive Started : CharTables LispObject → Prop
  | intro {charsets charsets' s} (h : complexVarsOfSyntax (.start charsets) = some s)
    (hextends : Extends charsets charsets') : Started { s with charsets := charsets' }

/-- The mirror tables have the codes of the syntax tables, and those of the standard syntax table
where a table inherits them. -/
def EffectiveMirrors (s : CharTables LispObject) : Prop :=
  ∃ standard, s.standardSyntaxTable = some standard ∧
    ∀ t mirror, s.kindOf t = some (.typeSyntax, mirror) → ∃ m, mirror = some m ∧
      ∀ ch : Mchar, ch.Valid s.charsets →
        ∃ val standardVal, s.getCharTable ch.emchar t = some val ∧
          s.getCharTable ch.emchar standard = some standardVal ∧
          s.getCharTable ch.emchar m
            = some (if isSinherit (xcarIfCons val) then xcarIfCons standardVal else xcarIfCons val)

/-! ### Starting -/

/-- A table of punctuation. -/
def punctView : TableView LispObject :=
  ⟨fun _ => makeCode .spunct, fun _ => .whole (makeCode .spunct)⟩

/-- The tables after XEmacs has been started. In the slots of charsets that are not defined all
tables have punctuation. -/
structure Start (s : CharTables LispObject) (place : Nat → Place)
    (views : List (TableView LispObject)) : Prop where
  sound : Sound s place views
  faithful : Faithful lispValues s views fun _ => False
  standard : s.standardSyntaxTable = some 1
  visible : s.Visible 1
  undefined : ∀ (t : Nat) (w : TableView LispObject), views[t]? = some w →
    SameUndefined s.charsets punctView w

section start

variable {s s' : CharTables LispObject} {place place' : Nat → Place}
  {views views' : List (TableView LispObject)} {charsets charsets' : Charsets} {t : Nat}
  {w : TableView LispObject} {ch : Mchar}

theorem Faithful.setStandard (h : Faithful lispValues s views fun _ => False)
    (hnone : s.standardSyntaxTable = none)
    (honly : ∀ t' mirror, s.kindOf t' = some (.typeSyntax, mirror) → t' = t) :
    Faithful lispValues { s with standardSyntaxTable := some t } views fun _ => False := by
  refine ⟨h.listed, h.own, fun t' ht m w wm hkind hw hwm ch hch => ?_⟩
  obtain rfl := honly t' _ hkind
  rw [h.mirrored t' ht m w wm hkind hw hwm ch hch, standardValue, hnone, standardValue,
    bind_some, hw, map_some]
  exact (ite_self _).symm

theorem Start.put (h : Start s place views) {ch : Nat}
    (hch : (ChartabRange.char ch).Valid s.charsets) (val : LispObject) :
    ∃ s' place' views', putCharTable lispValues 2 s 1 (.char ch) val = some s' ∧
      Start s' place' views' ∧ s'.charsets = s.charsets := by
  obtain ⟨s', place', views', hput, hsound', hsame, -, hview', hmirrors⟩ :=
    h.sound.putVisible lispValues h.visible hch val
  refine ⟨s', place', views', hput, ⟨hsound', hmirrors.faithful (h.faithful.but _), ?_, ?_, ?_⟩,
    hsame.charsets⟩
  · rw [hsame.standard]
    exact h.standard
  · rw [hsame.visible]
    exact h.visible
  · intro t w' hw'
    have hlt := (List.getElem?_eq_some_iff.mp hw').1
    rw [hsound'.shows.length, hsame.length, ← h.sound.shows.length] at hlt
    have hw := getElem?_eq_getElem hlt
    have hbefore := h.undefined t _ hw
    rw [hsame.charsets]
    by_cases ht : t = 1
    · subst ht
      rw [hview' _ hw] at hw'
      cases hw'
      exact hbefore.trans (.put hch nofun)
    · exact hbefore.trans (hmirrors.undefined t _ w' ht hw hw')

theorem valid_char (charsets : Charsets) {i : Nat} (hi : i < 160) :
    (ChartabRange.char i).Valid charsets := by
  by_cases hlt : i < 128
  · obtain ⟨ch, hch, -, hemchar, -⟩ := exists_ascii charsets hlt
    exact ⟨ch, hch, hemchar⟩
  · obtain ⟨ch, hch, -, hemchar⟩ := exists_control1 charsets (Nat.le_of_not_lt hlt) hi
    exact ⟨ch, hch, hemchar⟩

theorem Start.puts (h : Start s place views) {l : List (Nat × LispObject)}
    (hl : ∀ p ∈ l, p.1 < 160) :
    ∃ s' place' views',
      l.foldlM (fun s p => putCharTable lispValues 2 s 1 (.char p.1) p.2) s = some s' ∧
      Start s' place' views' ∧ s'.charsets = s.charsets := by
  induction l generalizing s place views with
  | nil => exact ⟨s, place, views, rfl, h, rfl⟩
  | cons p l ih =>
    rw [forall_mem_cons] at hl
    obtain ⟨s₁, place₁, views₁, hput, hstart₁, hcharsets₁⟩ := h.put (valid_char _ hl.1) p.2
    obtain ⟨s', place', views', hputs, hstart', hcharsets'⟩ := ih hstart₁ hl.2
    refine ⟨s', place', views', ?_, hstart', hcharsets'.trans hcharsets₁⟩
    rw [foldlM_cons, hput]
    exact hputs

set_option maxRecDepth 2000 in
theorem standardSyntax_lt : ∀ p ∈ standardSyntax, p.1 < 160 := by
  decide

/-- `complex_vars_of_syntax` makes the standard syntax table. -/
theorem complexVarsOfSyntax_start (charsets : Charsets) :
    ∃ s place views, complexVarsOfSyntax (.start charsets) = some s ∧ Start s place views ∧
      s.charsets = charsets := by
  have hempty : Faithful lispValues (.start charsets) [] fun _ => False :=
    ⟨nofun, nofun, fun _ _ _ _ _ => nofun⟩
  obtain ⟨s₁, place₁, views₁, hmake, hsound₁, hmakes, hbuilt⟩ :=
    (sound_start charsets).makeSyntaxTable lispValues
  have hlength : s₁.tables.length = 2 := hbuilt.length
  have hkind₁ : s₁.kindOf 1 = some (.typeSyntax, some 0) := hbuilt.kind
  have hvisible₁ : s₁.Visible 1 := hmakes.visible
  have honly : ∀ t mirror, s₁.kindOf t = some (.typeSyntax, mirror) → t = 1 := by
    intro t mirror hkind
    have hlt := kindOf_lt hkind
    have hne := hsound₁.laid.syntax_ne hkind hkind₁
    omega
  -- it becomes the standard one
  have hsound₂ := hsound₁.setStandard hkind₁
  have hfaithful₂ := (hbuilt.faithful hempty).setStandard hbuilt.standard honly
  have hvisible₂ : ({ s₁ with standardSyntaxTable := some 1 } : CharTables LispObject).Visible 1 :=
    hvisible₁
  obtain ⟨s₃, place₃, views₃, hfill, hsound₃, hsame₃, -, hview₃, hmirrors₃⟩ :=
    hsound₂.putVisible lispValues hvisible₂
      (show ChartabRange.all.Valid s₁.charsets from trivial) (makeCode .spunct)
  have hlength₃ := hsound₃.shows.length.trans (hsame₃.length.trans hlength)
  have hviews₁ : views₁.length = 2 := hsound₁.shows.length.trans hlength
  have hcharsets₁ : s₁.charsets = charsets := hmakes.charsets
  have hstart₃ : Start s₃ place₃ views₃ := by
    refine ⟨hsound₃, hmirrors₃.faithful (hfaithful₂.but _), hsame₃.standard, ?_, fun t w hw => ?_⟩
    · rw [hsame₃.visible]
      exact hvisible₂
    · have hlt := (List.getElem?_eq_some_iff.mp hw).1
      rw [hlength₃, ← hviews₁] at hlt
      have hw₁ := getElem?_eq_getElem hlt
      rw [hsame₃.charsets]
      by_cases ht : t = 1
      · subst ht
        rw [hview₃ _ hw₁] at hw
        cases hw
        exact fun _ _ => rfl
      · obtain rfl : t = 0 := by omega
        have hbefore := hbuilt.undefined _ hw₁
        rw [← hmakes.charsets] at hbefore
        exact hbefore.trans (hmirrors₃.undefined 0 _ w ht hw₁ hw)
  obtain ⟨s', place', views', hputs, hstart', hcharsets'⟩ := hstart₃.puts standardSyntax_lt
  refine ⟨s', place', views', ?_, hstart', (hcharsets'.trans hsame₃.charsets).trans hcharsets₁⟩
  rw [complexVarsOfSyntax, copySyntaxTable]
  have hmake' : makeCharTable lispValues (.start charsets) .typeSyntax = some (s₁, 1) := hmake
  simp only [CharTables.start] at hmake' ⊢
  simp only [hmake', bind_eq_bind, bind_some, hfill]
  exact hputs

theorem Extends.old (h : Extends charsets charsets') (hch : ch.Valid charsets') {c : Charset}
    (hc : c ∈ charsets.list) (hlb : c.leadingByte = ch.charset.leadingByte) :
    ∃ ch' : Mchar, ch'.Valid charsets ∧
      ∀ w : TableView LispObject, w.value ch' = w.value ch := by
  obtain ⟨c', hc', hlb', htype⟩ := h c hc
  obtain rfl := charsets'.leadingByte_inj c' hc' ch.charset hch.defined (hlb'.trans hlb)
  obtain ⟨⟨lb, rep, type, graphic, final, direction, reverse⟩, c1, c2⟩ := ch
  obtain ⟨lb', rep', type', graphic', final', direction', reverse'⟩ := c
  cases hlb
  cases htype
  exact ⟨⟨_, c1, c2⟩, ⟨hc, hch.positions⟩, fun w => rfl⟩

theorem value_undefined (hch : ch.Valid charsets')
    (hnew : ∀ c ∈ charsets.list, c.leadingByte ≠ ch.charset.leadingByte)
    (hw : SameUndefined charsets punctView w) : w.value ch = makeCode .spunct := by
  obtain ⟨ascii, hascii, hasciilb, -⟩ := exists_standard charsets
    (show (⟨0x8E, 1, .type94, 0, 0x42, .leftToRight, none⟩ : Charset) ∈ standardCharsets by
      decide)
  obtain ⟨control, hcontrol, hcontrollb, -⟩ := exists_standard charsets
    (show (⟨0x8F, 2, .type94, 1, 0, .leftToRight, none⟩ : Charset) ∈ standardCharsets by
      decide)
  have hslot := hw (charsetIndex ch.charset.leadingByte) fun c hc heq =>
    hnew c hc (charsetIndex_inj (leadingByte_bounds hc) (leadingByte_bounds hch.defined) heq)
  rw [TableView.value, if_neg fun heq => hnew ascii hascii (hasciilb.trans heq.symm),
    if_neg fun heq => hnew control hcontrol (hcontrollb.trans heq.symm), hslot]
  rfl

theorem Start.defineCharsets (h : Start s place views) (hextends : Extends s.charsets charsets) :
    Faithful lispValues { s with charsets } views fun _ => False := by
  refine ⟨h.faithful.listed, h.faithful.own, fun t ht m w wm hkind hw hwm ch hch => ?_⟩
  obtain ⟨mirror, hkind₁⟩ := h.sound.laid.standard 1 h.standard
  obtain ⟨ct, ws, -, -, -, hws⟩ := h.sound.view hkind₁
  have hstandard (charsets : Charsets) (ch : Mchar) :
      standardValue { s with charsets } views ch = some (ws.value ch) := by
    rw [standardValue, h.standard, bind_some, hws, map_some]
  rw [hstandard]
  by_cases hold : ∃ c ∈ s.charsets.list, c.leadingByte = ch.charset.leadingByte
  · obtain ⟨c, hc, hlb⟩ := hold
    obtain ⟨ch', hch', hvalue⟩ := hextends.old hch hc hlb
    have hmirrored := h.faithful.mirrored t ht m w wm hkind hw hwm ch' hch'
    have hstandard' := hstandard s.charsets ch'
    rw [hstandard'] at hmirrored
    rwa [hvalue, hvalue, hvalue] at hmirrored
  · have hnew : ∀ c ∈ s.charsets.list, c.leadingByte ≠ ch.charset.leadingByte :=
      fun c hc hlb => hold ⟨c, hc, hlb⟩
    rw [value_undefined hch hnew (h.undefined t w hw),
      value_undefined hch hnew (h.undefined m wm hwm),
      value_undefined hch hnew (h.undefined 1 ws hws)]
    rw [TableValues.mirrored]
    exact (ite_self _).symm

/-! ### Runs -/

theorem Started.faithful (h : Started s) :
    ∃ place views, Sound s place views ∧ Faithful lispValues s views (fun _ => False) ∧
      s.standardSyntaxTable = some 1 := by
  obtain ⟨hstarted, hextends⟩ := h
  rename_i charsets charsets' s
  obtain ⟨s', place, views, hstarted', hstart, rfl⟩ := complexVarsOfSyntax_start charsets
  rw [hstarted] at hstarted'
  cases hstarted'
  exact ⟨place, views, hstart.sound.defineCharsets hextends, hstart.defineCharsets hextends,
    hstart.standard⟩

theorem Sound.run_faithful (h : Sound s place views)
    (hf : Faithful lispValues s views fun _ => False) {ops : List (Op LispObject)}
    (hrun : Run lispValues s ops s') (hops : ∀ op ∈ ops, op.OnTables) :
    ∃ place' views', Sound s' place' views' ∧
      Faithful lispValues s' views' (fun _ => False) ∧
      s'.standardSyntaxTable = s.standardSyntaxTable := by
  induction hrun generalizing place views with
  | nil s => exact ⟨place, views, h, hf, rfl⟩
  | @cons s op s₁ ops s' hstep hrun ih =>
    rw [forall_mem_cons] at hops
    obtain ⟨place₁, views₁, hsound₁, -, -, hkeeps⟩ := h.step hstep
    obtain ⟨-, hstandard₁, hfaithful₁⟩ := hkeeps hops.1
    obtain ⟨place', views', hsound', hf', hstandard'⟩ := ih hsound₁ (hfaithful₁ hf) hops.2
    exact ⟨place', views', hsound', hf', hstandard'.trans hstandard₁⟩

theorem Sound.effective (h : Sound s place views)
    (hf : Faithful lispValues s views fun _ => False) {standard : Nat}
    (hstandard : s.standardSyntaxTable = some standard) : EffectiveMirrors s := by
  refine ⟨standard, hstandard, fun t mirror hkind => ?_⟩
  obtain ⟨m, rfl, hkindm⟩ := h.laid.mirror t mirror hkind
  obtain ⟨ms, hkinds⟩ := h.laid.standard standard hstandard
  obtain ⟨-, w, -, -, -, hw⟩ := h.view hkind
  obtain ⟨-, wm, -, -, -, hwm⟩ := h.view hkindm
  obtain ⟨-, ws, -, -, -, hws⟩ := h.view hkinds
  refine ⟨m, rfl, fun ch hch => ⟨w.value ch, ws.value ch, h.getCharTable_eq hw hch,
    h.getCharTable_eq hws hch, ?_⟩⟩
  rw [h.getCharTable_eq hwm hch, hf.mirrored t id m w wm hkind hw hwm ch hch, standardValue,
    hstandard, bind_some, hws, map_some]
  rfl

/-- **The mirror tables** are effective after every run. -/
theorem mirror_tables_effective {s₀ : CharTables LispObject} (hstarted : Started s₀)
    {ops : List (Op LispObject)} (hrun : Run lispValues s₀ ops s)
    (hops : ∀ op ∈ ops, op.OnTables) : EffectiveMirrors s := by
  obtain ⟨place₀, views₀, hsound₀, hfaithful₀, hstandard₀⟩ := hstarted.faithful
  obtain ⟨place, views, hsound, hfaithful, hstandard⟩ :=
    hsound₀.run_faithful hfaithful₀ hrun hops
  exact hsound.effective hfaithful (hstandard.trans hstandard₀)

end start

/-- After the start, `A` is made a symbol constituent in the standard syntax table, of which there
is a copy. -/
theorem copiedTable_effective :
    ∃ s₀ s, Started s₀ ∧
      (∃ t, Run lispValues s₀ [.copy 1, .put t (.char 65) (makeCode .ssymbol)] s) ∧
      EffectiveMirrors s := by
  obtain ⟨s₀, place₀, views₀, hstarted, hstart, hcharsets⟩ := complexVarsOfSyntax_start .initial
  have hstarted₀ : Started s₀ := .intro hstarted (hcharsets ▸ .refl _)
  have hlawful := hstart.sound.lawful lispValues
  obtain ⟨s₁, t, hcopy, -, -, -⟩ := hlawful.copy 1 hstart.visible
  have hcopied : Step lispValues s₀ (.copy 1) s₁ := .copy hstart.visible hcopy
  obtain ⟨place₁, views₁, hsound₁, -, hleaves, -⟩ := hstart.sound.step hcopied
  have hvisible₁ : s₁.Visible 1 := (hleaves 1 id hstart.visible).1
  obtain ⟨s, hput, -⟩ := (hsound₁.lawful lispValues).put 1 (.char 65) (makeCode .ssymbol) hvisible₁
    (valid_char _ (by decide))
  have hrun : Run lispValues s₀ [.copy 1, .put 1 (.char 65) (makeCode .ssymbol)] s :=
    .cons hcopied (.cons (.put hvisible₁ (valid_char _ (by decide)) hput) (.nil s))
  refine ⟨s₀, s, hstarted₀, ⟨1, hrun⟩, mirror_tables_effective hstarted₀ hrun ?_⟩
  rw [List.forall_mem_cons, List.forall_mem_singleton]
  exact ⟨trivial, trivial⟩

end XEmacs.Chartab

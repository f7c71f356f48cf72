import XEmacs.Chartab.Mirrors

/-!
# New tables and copies

A new table is put at the end, and the entries of a copy get places of their own, so that the other
tables look as they did (`Leaves`). A copy looks like its original.
-/

namespace XEmacs.Chartab

open Coding List Function Option

variable {V : Type}

/-! ### Tables that look as they did -/

/-- A table that a Lisp program may have got hold of. -/
def CharTables.Visible (s : CharTables V) (t : Nat) : Prop :=
  (s.kindOf t).isSome ∧ ¬ s.IsMirror t

/-- Tables that are not in `T` are still there and look as they did. -/
def Leaves (T : Nat → Prop) (s : CharTables V) (views : List (TableView V)) (s' : CharTables V)
    (views' : List (TableView V)) : Prop :=
  ∀ t, ¬ T t → s.Visible t → s'.Visible t ∧ views'[t]? = views[t]?

section leaves

variable {s s' : CharTables V} {place place' : Nat → Place} {views views' : List (TableView V)}
  {T U : Nat → Prop} {t : Nat} {w : TableView V} {type : CharTableType} {mirror : Option Nat}

theorem Leaves.refl (T : Nat → Prop) (s : CharTables V) (views : List (TableView V)) :
    Leaves T s views s views := fun _ _ h => ⟨h, rfl⟩

theorem Leaves.trans {s'' : CharTables V} {views'' : List (TableView V)}
    (h : Leaves T s views s' views') (h' : Leaves T s' views' s'' views'') :
    Leaves T s views s'' views'' := by
  intro t hT ht
  obtain ⟨ht', hview'⟩ := h t hT ht
  obtain ⟨ht'', hview''⟩ := h' t hT ht'
  exact ⟨ht'', hview''.trans hview'⟩

theorem Leaves.mono (h : Leaves T s views s' views') (hTU : ∀ t, T t → U t) :
    Leaves U s views s' views' := fun t hU => h t (mt (hTU t) hU)

theorem SameLayout.visible (h : SameLayout s s') : s'.Visible = s.Visible := by
  unfold CharTables.Visible
  rw [h.kind, h.isMirror]

theorem Moves.leaves (h : Moves U s place views s' place' views')
    (hU : ∀ t, U t → s.Visible t → T t) : Leaves T s views s' views' := by
  intro t hT ht
  rw [h.layout.visible]
  exact ⟨ht, h.views t fun hUt => hT (hU t hUt ht)⟩

theorem kindOf_lt (h : s.kindOf t = some (type, mirror)) : t < s.tables.length := by
  obtain ⟨ct, hct, -⟩ := kindOf_some h
  exact (List.getElem?_eq_some_iff.mp hct).1

theorem CharTables.Visible.lt (h : s.Visible t) : t < s.tables.length := by
  obtain ⟨kind, hkind⟩ := Option.isSome_iff_exists.mp h.1
  exact kindOf_lt hkind

end leaves

/-! ### A new table -/

section push

variable {s s' : CharTables V} {place : Nat → Place} {views : List (TableView V)} {t n : Nat}
  {ct : CharTable V} {w : TableView V}

/-- A table at the end. -/
structure Push (s : CharTables V) (ct : CharTable V) (s' : CharTables V) : Prop where
  charsets : s'.charsets = s.charsets
  standard : s'.standardSyntaxTable = s.standardSyntaxTable
  allTables : ∀ t ∈ s'.allSyntaxTables,
    t ∈ s.allSyntaxTables ∨ t = s.tables.length ∧ ct.type = .typeSyntax
  tables : s'.tables = s.tables ++ [ct]
  entries : s'.entries = s.entries

theorem Push.kind_new (h : Push s ct s') :
    s'.kindOf s.tables.length = some (ct.type, ct.mirrorTable) := by
  rw [CharTables.kindOf, h.tables, getElem?_concat_length, map_some]

theorem Push.kind_old (h : Push s ct s') (ht : t ≠ s.tables.length) :
    s'.kindOf t = s.kindOf t := by
  rw [CharTables.kindOf, h.tables, CharTables.kindOf]
  rcases Nat.lt_or_gt_of_ne ht with hlt | hgt
  · rw [getElem?_append_left hlt]
  · rw [getElem?_eq_none (Nat.le_of_lt hgt), getElem?_eq_none]
    rw [length_append]
    exact hgt

theorem Push.kind_some (h : Push s ct s') {kind : CharTableType × Option Nat}
    (ht : s.kindOf t = some kind) : s'.kindOf t = some kind := by
  refine (h.kind_old ?_).trans ht
  rintro rfl
  rw [CharTables.kindOf, getElem?_eq_none (Nat.le_refl _)] at ht
  cases ht

theorem Push.isMirror (h : Push s ct s') {m : Nat} (hm : s'.IsMirror m) :
    s.IsMirror m ∨ ct.mirrorTable = some m := by
  obtain ⟨t, type, hkind⟩ := hm
  by_cases ht : t = s.tables.length
  · rw [ht, h.kind_new] at hkind
    exact .inr (Prod.mk.inj (Option.some.inj hkind)).2
  · rw [h.kind_old ht] at hkind
    exact .inl ⟨t, type, hkind⟩

/-- What a new table may be. -/
def NewKind (s : CharTables V) (ct : CharTable V) : Prop :=
  (ct.type = .typeSyntax ∧ ∃ m, ct.mirrorTable = some m ∧ s.kindOf m = some (.typeGeneric, none)) ∨
    (ct.type ≠ .typeSyntax ∧ ct.mirrorTable = none)

theorem Laid.push (h : Laid s) (hpush : Push s ct s') (hnew : NewKind s ct) : Laid s' := by
  have hcases : ∀ t kind, s'.kindOf t = some kind →
      s.kindOf t = some kind ∨ kind = (ct.type, ct.mirrorTable) := by
    intro t kind hkind
    by_cases ht : t = s.tables.length
    · rw [ht, hpush.kind_new] at hkind
      cases hkind
      exact .inr rfl
    · rw [hpush.kind_old ht] at hkind
      exact .inl hkind
  refine ⟨fun t m hkind => ?_, fun t type m hkind htype => ?_, fun t ht => ?_, fun t ht => ?_⟩
  · rcases hcases t _ hkind with hold | heq
    · obtain ⟨m', hm', hkind'⟩ := h.mirror t m hold
      exact ⟨m', hm', hpush.kind_some hkind'⟩
    · obtain ⟨htype, hmirror⟩ := Prod.mk.inj heq
      rcases hnew with ⟨-, m', hm', hkind'⟩ | ⟨hne, -⟩
      · exact ⟨m', hmirror.trans hm', hpush.kind_some hkind'⟩
      · exact absurd htype.symm hne
  · rcases hcases t _ hkind with hold | heq
    · exact h.plain t type m hold htype
    · obtain ⟨htype', hmirror⟩ := Prod.mk.inj heq
      rcases hnew with ⟨hsyn, -⟩ | ⟨-, hnone⟩
      · exact absurd (htype'.trans hsyn) htype
      · exact hmirror.trans hnone
  · rcases hpush.allTables t ht with hold | ⟨rfl, hsyn⟩
    · obtain ⟨m, hm⟩ := h.all t hold
      exact ⟨m, hpush.kind_some hm⟩
    · exact ⟨ct.mirrorTable, hpush.kind_new.trans (by rw [hsyn])⟩
  · rw [hpush.standard] at ht
    obtain ⟨m, hm⟩ := h.standard t ht
    exact ⟨m, hpush.kind_some hm⟩

theorem Sound.push (h : Sound s place views) (hpush : Push s ct s') (hnew : NewKind s ct)
    (htable : ShowsTable s.entries place s.tables.length ct w) (hfits : w.Fits s.charsets) :
    Sound s' place (views ++ [w]) := by
  refine ⟨⟨?_, fun t ct' w' ht hw' => ?_⟩, fun w' hw' => ?_, h.laid.push hpush hnew⟩
  · rw [hpush.tables, length_append, length_append, h.shows.length]
    rfl
  · rw [hpush.tables] at ht
    rw [hpush.entries]
    by_cases heq : t = s.tables.length
    · subst heq
      rw [getElem?_concat_length] at ht
      rw [← h.shows.length, getElem?_concat_length] at hw'
      cases ht
      cases hw'
      exact htable
    · have hlt : t < s.tables.length := by
        have hle := (List.getElem?_eq_some_iff.mp ht).1
        rw [length_append, length_singleton] at hle
        omega
      rw [getElem?_append_left hlt] at ht
      rw [getElem?_append_left (h.shows.length ▸ hlt)] at hw'
      exact h.shows.table t ct' w' ht hw'
  · rw [hpush.charsets]
    rcases List.mem_append.mp hw' with hold | hnew
    · exact h.fits w' hold
    · rw [List.mem_singleton.mp hnew]
      exact hfits

theorem Push.leaves (h : Push s ct s') (hlength : views.length = s.tables.length)
    (hmirror : ∀ m, ct.mirrorTable = some m → n ≤ m) :
    Leaves (n ≤ ·) s views s' (views ++ [w]) := by
  intro t hn ht
  have hlt := ht.lt
  refine ⟨⟨?_, fun hm => ?_⟩, getElem?_append_left (hlength ▸ hlt)⟩
  · rw [h.kind_old (Nat.ne_of_lt hlt)]
    exact ht.1
  · exact (h.isMirror hm).elim ht.2 fun heq => hn (hmirror t heq)

theorem Push.standardValue (h : Push s ct s') (hlaid : Laid s)
    (hlength : views.length = s.tables.length) (ch : Mchar) :
    Chartab.standardValue s' (views ++ [w]) ch = Chartab.standardValue s views ch := by
  rw [Chartab.standardValue, Chartab.standardValue, h.standard]
  cases hs : s.standardSyntaxTable with
  | none => rfl
  | some standard =>
    obtain ⟨m, hkind⟩ := hlaid.standard standard hs
    rw [bind_some, bind_some, getElem?_append_left (hlength ▸ kindOf_lt hkind)]

theorem Push.faithful {values : TableValues V} {T T' : Nat → Prop} (h : Push s ct s')
    (hlaid : Laid s) (hlength : views.length = s.tables.length)
    (hall : ∀ t ∈ s.allSyntaxTables, t ∈ s'.allSyntaxTables)
    (hlisted : ct.type = .typeSyntax → s.tables.length ∈ s'.allSyntaxTables)
    (hown : ∀ m, ct.mirrorTable = some m → ¬ s.IsMirror m)
    (hT : ∀ t, t ≠ s.tables.length → ¬ T' t → ¬ T t)
    (hnew : ¬ T' s.tables.length → Mirrored values s' (views ++ [w]) s.tables.length)
    (hf : Faithful values s views T) : Faithful values s' (views ++ [w]) T' := by
  have hnone : ∀ t m, s.kindOf t = some (.typeSyntax, some m) → ct.mirrorTable ≠ some m :=
    fun t m ht heq => hown m heq ⟨t, _, ht⟩
  refine ⟨fun t mirror ht => ?_, fun t t' m ht ht' => ?_, fun t ht => ?_⟩
  · by_cases hnew : t = s.tables.length
    · subst hnew
      rw [h.kind_new] at ht
      exact hlisted (Prod.mk.inj (Option.some.inj ht)).1
    · rw [h.kind_old hnew] at ht
      exact hall t (hf.listed t mirror ht)
  · by_cases hnew : t = s.tables.length
    · by_cases hnew' : t' = s.tables.length
      · rw [hnew, hnew']
      · rw [hnew, h.kind_new] at ht
        rw [h.kind_old hnew'] at ht'
        exact absurd (Prod.mk.inj (Option.some.inj ht)).2 (hnone t' m ht')
    · by_cases hnew' : t' = s.tables.length
      · rw [hnew', h.kind_new] at ht'
        rw [h.kind_old hnew] at ht
        exact absurd (Prod.mk.inj (Option.some.inj ht')).2 (hnone t m ht)
      · rw [h.kind_old hnew] at ht
        rw [h.kind_old hnew'] at ht'
        exact hf.own t t' m ht ht'
  · by_cases hsame : t = s.tables.length
    · rw [hsame] at ht ⊢
      exact hnew ht
    · intro m wt wm hkind hw hwm ch hch
      rw [h.kind_old hsame] at hkind
      obtain ⟨m', hm', hkindm⟩ := hlaid.mirror t _ hkind
      cases hm'
      rw [getElem?_append_left (hlength ▸ kindOf_lt hkind)] at hw
      rw [getElem?_append_left (hlength ▸ kindOf_lt hkindm)] at hwm
      rw [h.standardValue hlaid hlength]
      exact hf.mirrored t (hT t hsame ht) m wt wm hkind hw hwm ch (h.charsets ▸ hch)

end push

/-! ### Changing a visible table -/

/-- The value that a table starts with. -/
def resetValue (values : TableValues V) : CharTableType → V
  | .typeChar => values.charZero
  | .typeDisplay | .typeGeneric | .typeCategory => values.nil
  | .typeSyntax => values.inheritCode

section visible

variable {s : CharTables V} {place : Nat → Place} {views : List (TableView V)} {t m : Nat}
  {type : CharTableType} {mirror : Option Nat}

theorem resetCharTable_eq (values : TableValues V) (hkind : s.kindOf t = some (type, mirror)) :
    resetCharTable values s t = putCharTable values 2 s t .all (resetValue values type) := by
  obtain ⟨ct, ht, rfl, -⟩ := kindOf_some hkind
  rw [resetCharTable, ht]
  simp only [bind_eq_bind, bind_some]
  cases ct.type with
  | typeGeneric => rfl
  | typeCategory => rfl
  | typeSyntax => rfl
  | typeDisplay => rfl
  | typeChar => rfl

theorem Sound.putVisible (h : Sound s place views) (values : TableValues V) (ht : s.Visible t)
    {range : ChartabRange} (hrange : range.Valid s.charsets) (val : V) :
    ∃ s' place' views', putCharTable values 2 s t range val = some s' ∧ Sound s' place' views' ∧
      SameLayout s s' ∧ Leaves (· = t) s views s' views' ∧
      (∀ w, views[t]? = some w → views'[t]? = some (w.put s.charsets range val)) ∧
      PutMirrors values t s views s' views' := by
  have hlt := ht.lt
  rw [← h.shows.length] at hlt
  obtain ⟨s', place', views', hput, hsound', hmoves, hview, hmirrors⟩ :=
    h.put values (getElem?_eq_getElem hlt) ht.2 hrange val
  refine ⟨s', place', views', hput, hsound', hmoves.layout, ?_, fun w hw => ?_, hmirrors⟩
  · exact hmoves.leaves fun t' hU ht' => hU.elim id fun hmirror => absurd hmirror ht'.2
  · rw [hview, Option.some.inj ((getElem?_eq_getElem hlt).symm.trans hw)]

theorem Sound.resetVisible (h : Sound s place views) (values : TableValues V)
    (ht : s.Visible t) :
    ∃ s' place' views', resetCharTable values s t = some s' ∧ Sound s' place' views' ∧
      SameLayout s s' ∧ Leaves (· = t) s views s' views' ∧
      PutMirrors values t s views s' views' := by
  obtain ⟨⟨type, mirror⟩, hkind⟩ := Option.isSome_iff_exists.mp ht.1
  obtain ⟨s', place', views', hput, hsound', hsame, hleaves, -, hmirrors⟩ :=
    h.putVisible values ht (show ChartabRange.all.Valid s.charsets from trivial)
      (resetValue values type)
  exact ⟨s', place', views', (resetCharTable_eq values hkind).trans hput, hsound', hsame, hleaves,
    hmirrors⟩

theorem Laid.isMirror (h : Laid s) (hm : s.IsMirror m) :
    s.kindOf m = some (.typeGeneric, none) := by
  obtain ⟨t, type, hkind⟩ := hm
  by_cases htype : type = .typeSyntax
  · rw [htype] at hkind
    obtain ⟨m', hm', hkind'⟩ := h.mirror t _ hkind
    cases hm'
    exact hkind'
  · exact nomatch h.plain t type _ hkind htype

theorem kindOf_length (s : CharTables V) : s.kindOf s.tables.length = none := by
  rw [CharTables.kindOf, getElem?_eq_none (Nat.le_refl _), map_none]

theorem Push.visible {ct : CharTable V} {s' : CharTables V} (h : Push s ct s') (hlaid : Laid s)
    (hne : ct.mirrorTable ≠ some s.tables.length) : s'.Visible s.tables.length := by
  refine ⟨h.kind_new ▸ rfl, fun hm => ?_⟩
  rcases h.isMirror hm with hold | hnew
  · have hkind := hlaid.isMirror hold
    rw [kindOf_length] at hkind
    cases hkind
  · exact hne hnew

end visible

/-! ### Making tables -/

section make

variable {s : CharTables V} {place : Nat → Place} {views : List (TableView V)}

/-- What an operation on the tables may have done, if it has made the table `t`. -/
structure Makes (s : CharTables V) (views : List (TableView V)) (s' : CharTables V)
    (views' : List (TableView V)) (t : Nat) : Prop where
  charsets : s'.charsets = s.charsets
  leaves : Leaves (s.tables.length ≤ ·) s views s' views'
  new : s.tables.length ≤ t
  visible : s'.Visible t

theorem Sound.alloc (h : Sound s place views) {ct : CharTable V} {s' : CharTables V}
    (hpush : Push s ct s') (hnew : NewKind s ct) {val : V} (hascii : ct.ascii = fun _ => val)
    (hlevel1 : ct.level1 = fun _ => .value val) :
    Sound s' place (views ++ [⟨fun _ => val, fun _ => .whole val⟩]) := by
  refine h.push hpush hnew ⟨hascii, fun lb => ?_⟩ fun lb f i g hf => nomatch hf
  rw [hlevel1]
  rfl

theorem Sound.allocPlain (h : Sound s place views) (values : TableValues V)
    {type : CharTableType} (htype : type ≠ .typeSyntax) :
    ∃ s' place' views',
      resetCharTable values (allocTable values s type none).1 s.tables.length = some s' ∧
      Sound s' place' views' ∧ Makes s views s' views' s.tables.length ∧
      s'.kindOf s.tables.length = some (type, none) ∧ s'.tables.length = s.tables.length + 1 ∧
      s'.standardSyntaxTable = s.standardSyntaxTable ∧
      (Faithful values s views (fun _ => False) → Faithful values s' views' fun _ => False) := by
  have hpush : Push s ⟨fun _ => values.nil, fun _ => .value values.nil, type, none⟩
      (allocTable values s type none).1 := ⟨rfl, rfl, fun t => .inl, rfl, rfl⟩
  have hsound₁ := h.alloc hpush (.inr ⟨htype, rfl⟩) rfl rfl
  have hvisible := hpush.visible h.laid nofun
  obtain ⟨s', place', views', hreset, hsound', hsame, hleaves, hmirrors⟩ :=
    hsound₁.resetVisible values hvisible
  refine ⟨s', place', views', hreset, hsound', ⟨?_, ?_, Nat.le_refl _, ?_⟩, ?_, ?_, ?_, ?_⟩
  · exact hsame.charsets.trans hpush.charsets
  · refine (hpush.leaves h.shows.length nofun).trans fun t ht => hleaves t ?_
    rintro rfl
    exact ht (Nat.le_refl _)
  · rw [hsame.visible]
    exact hvisible
  · rw [hsame.kind, hpush.kind_new]
  · rw [hsame.length, hpush.tables, length_append, length_singleton]
  · exact hsame.standard.trans hpush.standard
  · intro hf
    refine hmirrors.faithful (hpush.faithful h.laid h.shows.length (fun _ => id)
      (fun heq => absurd heq htype) nofun (fun _ _ _ => id) (fun hne => absurd rfl hne) hf)

/-- A syntax table and its mirror table have been made. -/
structure MakesSyntax (values : TableValues V) (s : CharTables V) (views : List (TableView V))
    (s' : CharTables V) (views' : List (TableView V)) : Prop where
  length : s'.tables.length = s.tables.length + 2
  standard : s'.standardSyntaxTable = s.standardSyntaxTable
  kind : s'.kindOf (s.tables.length + 1) = some (.typeSyntax, some s.tables.length)
  undefined : ∀ w, views'[s.tables.length]? = some w →
    SameUndefined s.charsets ⟨fun _ => values.punctCode, fun _ => .whole values.punctCode⟩ w
  faithful : Faithful values s views (fun _ => False) → Faithful values s' views' fun _ => False

/-- Making a syntax table. -/
theorem Sound.makeSyntaxTable (h : Sound s place views) (values : TableValues V) :
    ∃ s' place' views',
      makeCharTable values s .typeSyntax = some (s', s.tables.length + 1) ∧ Sound s' place' views' ∧
      Makes s views s' views' (s.tables.length + 1) ∧ MakesSyntax values s views s' views' := by
  obtain ⟨s₁, place₁, views₁, hreset₁, hsound₁, hmakes₁, hkind₁, hlength₁, hstandard₁,
      hfaithful₁⟩ :=
    h.allocPlain values (show CharTableType.typeGeneric ≠ .typeSyntax from nofun)
  obtain ⟨s₂, place₂, views₂, hput, hsound₂, hsame, hleaves₂, hview₂, hmirrors₂⟩ :=
    hsound₁.putVisible values hmakes₁.visible
      (show ChartabRange.all.Valid s₁.charsets from trivial) values.punctCode
  have hlength₂ : s₂.tables.length = s.tables.length + 1 := hsame.length.trans hlength₁
  have hcharsets₂ : s₂.charsets = s.charsets := hsame.charsets.trans hmakes₁.charsets
  have hkind₂ : s₂.kindOf s.tables.length = some (.typeGeneric, none) := by
    rw [hsame.kind, hkind₁]
  have hpush : Push s₂
      ⟨fun _ => values.nil, fun _ => .value values.nil, .typeSyntax, some s.tables.length⟩
      { (allocTable values s₂ .typeSyntax (some s.tables.length)).1 with
        allSyntaxTables := s₂.tables.length :: s₂.allSyntaxTables } :=
    ⟨rfl, rfl, fun t ht => (List.mem_cons.mp ht).elim (fun h => .inr ⟨h, rfl⟩) .inl, rfl, rfl⟩
  have hsound₃ := hsound₂.alloc hpush (.inl ⟨rfl, _, rfl, hkind₂⟩) rfl rfl
  have hvisible := hpush.visible hsound₂.laid
    (by simp only [ne_eq, Option.some.injEq]; omega)
  obtain ⟨s', place', views', hreset, hsound', hsame', hleaves', hmirrors'⟩ :=
    hsound₃.resetVisible values hvisible
  have hnew : ∀ t, ¬ s.tables.length ≤ t → t ≠ s.tables.length ∧ t ≠ s₂.tables.length := by
    intro t ht
    omega
  rw [← hlength₂]
  refine ⟨s', place', views', ?_, hsound', ⟨?_, ?_, ?_, ?_⟩,
    ⟨?_, ?_, ?_, fun w hw => ?_, fun hf => ?_⟩⟩
  · rw [Chartab.makeCharTable, if_pos rfl]
    rw [allocTable] at hreset₁ hreset ⊢
    simp only [hreset₁, bind_eq_bind, bind_some, hput]
    rw [allocTable]
    simp only [hreset, bind_some]
    rfl
  · exact (hsame'.charsets.trans hpush.charsets).trans hcharsets₂
  · refine hmakes₁.leaves.trans (Leaves.trans (fun t ht => hleaves₂ t (hnew t ht).1) ?_)
    refine (hpush.leaves hsound₂.shows.length fun m hm => ?_).trans fun t ht =>
      hleaves' t (hnew t ht).2
    cases hm
    exact Nat.le_refl _
  · omega
  · rw [hsame'.visible]
    exact hvisible
  · rw [hsame'.length, hpush.tables, length_append, hlength₂, length_singleton]
  · exact (hsame'.standard.trans hpush.standard).trans (hsame.standard.trans hstandard₁)
  · rw [hsame'.kind, ← hlength₂, hpush.kind_new]
  · -- the mirror table was punctuation before the last reset
    have hlt : s.tables.length < views₁.length := by
      rw [hsound₁.shows.length]
      omega
    have hview := hview₂ _ (getElem?_eq_getElem hlt)
    have hbefore (new : TableView V) : (views₂ ++ [new])[s.tables.length]? = some _ :=
      (getElem?_append_left (List.getElem?_eq_some_iff.mp hview).1).trans hview
    have hundefined := hmirrors'.undefined s.tables.length _ w (by omega) (hbefore _) hw
    rw [hpush.charsets, hcharsets₂] at hundefined
    exact hundefined
  · have hvisible₂ : s₂.Visible s.tables.length := by
      rw [hsame.visible]
      exact hmakes₁.visible
    refine hmirrors'.faithful (hpush.faithful hsound₂.laid hsound₂.shows.length
      (fun _ => mem_cons_of_mem _) (fun _ => mem_cons_self ..) ?_ (fun _ _ _ => id)
      (fun hne => absurd rfl hne) (hmirrors₂.faithful ((hfaithful₁ hf).but _)))
    rintro m ⟨⟩
    exact hvisible₂.2

/-- **Making a table** changes no other visible table. -/
theorem Sound.makeCharTable (h : Sound s place views) (values : TableValues V)
    (type : CharTableType) :
    ∃ s' t place' views', makeCharTable values s type = some (s', t) ∧ Sound s' place' views' ∧
      Makes s views s' views' t ∧ s'.standardSyntaxTable = s.standardSyntaxTable ∧
      (Faithful values s views (fun _ => False) → Faithful values s' views' fun _ => False) := by
  by_cases htype : type = .typeSyntax
  · rw [htype]
    obtain ⟨s', place', views', hmake, hsound', hmakes, hbuilt⟩ := h.makeSyntaxTable values
    exact ⟨s', _, place', views', hmake, hsound', hmakes, hbuilt.standard, hbuilt.faithful⟩
  · obtain ⟨s', place', views', hreset, hsound', hmakes, -, -, hstandard, hfaithful⟩ :=
      h.allocPlain values htype
    refine ⟨s', s.tables.length, place', views', ?_, hsound', hmakes, hstandard, hfaithful⟩
    rw [Chartab.makeCharTable, if_neg htype]
    rw [allocTable] at hreset ⊢
    simp only [hreset]
    rfl

end make

/-! ### Copying entries -/

/-- There are new entries, and nothing else has changed. -/
structure Grows (s : CharTables V) (place : Nat → Place) (s' : CharTables V)
    (place' : Nat → Place) : Prop where
  only : s' = { s with entries := s'.entries }
  entries : Untouched s.entries place s'.entries place' fun _ => True

section grows

variable {s s' s₀ : CharTables V} {place place' place₀ : Nat → Place} {views : List (TableView V)}
  {t : Nat} {lb : Fin 128} {i : Fin 96} {cte : Nat}

theorem Grows.refl (s : CharTables V) (place : Nat → Place) : Grows s place s place :=
  ⟨rfl, .refl _⟩

theorem Grows.trans {s'' : CharTables V} {place'' : Nat → Place} (h : Grows s place s' place')
    (h' : Grows s' place' s'' place'') : Grows s place s'' place'' := by
  refine ⟨?_, h.entries.trans h'.entries⟩
  rw [h'.only, h.only]

theorem Grows.charset (h : Grows s place s' place') {slot : Slot V} {l : CharsetView V}
    (hshows : ShowsCharset s.entries place t lb slot l) :
    ShowsCharset s'.entries place' t lb slot l := h.entries.charset (fun _ _ => trivial) hshows

theorem Grows.row (h : Grows s place s' place') {slot : Slot V} {r : RowView V}
    (hshows : ShowsRow s.entries place t lb i slot r) :
    ShowsRow s'.entries place' t lb i slot r := h.entries.row trivial hshows

theorem Grows.sound (h : Grows s place s' place') (hsound : Sound s place views) :
    Sound s' place' views := by
  have htables : s'.tables = s.tables := by
    rw [h.only]
  refine ⟨⟨?_, fun t ct w ht hw => ?_⟩, ?_, hsound.laid.sameLayout ⟨?_, ?_, ?_, ?_⟩⟩
  · rw [htables, hsound.shows.length]
  · rw [htables] at ht
    exact (hsound.shows.table t ct w ht hw).untouched h.entries fun _ _ => trivial
  · rw [h.only]
    exact hsound.fits
  · rw [h.only]
  · rw [h.only]
  · rw [h.only]
  · rw [htables]

theorem grows_append (s : CharTables V) (place : Nat → Place) (new : CharTableEntry V)
    (p : Place) :
    Grows s place { s with entries := s.entries ++ [new] }
      (Function.update place s.entries.length p) := ⟨rfl, untouched_append _ _ new p _⟩

/-- Slots are copied one by one. What is good of a copied slot stays so when there are new
entries. -/
theorem copySlots_spec (s₀ : CharTables V) (place₀ : Nat → Place) {n : Nat}
    (copy : CharTables V → Nat → Option (CharTables V × Nat)) (slots : Fin n → Slot V)
    (Good : Fin n → Slot V → CharTables V → (Nat → Place) → Prop)
    (hgrows : ∀ i slot s place s' place', Good i slot s place → Grows s place s' place' →
      Good i slot s' place')
    (hvalue : ∀ i val s place, slots i = .value val → Good i (.value val) s place)
    (hentry : ∀ i cte s place, slots i = .entry cte → Grows s₀ place₀ s place →
      ∃ s' place' cte', copy s cte = some (s', cte') ∧ Grows s place s' place' ∧
        Good i (.entry cte') s' place') :
    ∃ s' place' slots', copySlots copy s₀ slots = some (s', slots') ∧
      Grows s₀ place₀ s' place' ∧ ∀ i, Good i (slots' i) s' place' := by
  -- the slots of a list are copied, the others stay
  have hlist : ∀ (l : List (Fin n)) (s : CharTables V) (place : Nat → Place)
      (new : Fin n → Slot V), Grows s₀ place₀ s place →
      ∃ s' place' new', l.foldlM (copySlot copy slots) (s, new) = some (s', new') ∧
        Grows s place s' place' ∧ (∀ i ∈ l, Good i (new' i) s' place') ∧
        ∀ i, i ∉ l → new' i = new i := by
    intro l
    induction l with
    | nil =>
      intro s place new _
      refine ⟨s, place, new, rfl, .refl .., fun i hi => ?_, fun _ _ => rfl⟩
      cases hi
    | cons i l ih =>
      intro s place new hs
      have hslot : ∃ s₁ place₁ slot, copySlot copy slots (s, new) i
          = some (s₁, Function.update new i slot) ∧ Grows s place s₁ place₁ ∧
            Good i slot s₁ place₁ := by
        rw [copySlot]
        cases hi : slots i with
        | value val => exact ⟨s, place, .value val, rfl, .refl .., hvalue i val s place hi⟩
        | entry cte =>
          obtain ⟨s₁, place₁, cte', hcopy, hs₁, hgood⟩ := hentry i cte s place hi hs
          refine ⟨s₁, place₁, .entry cte', ?_, hs₁, hgood⟩
          simp only [hcopy]
          rfl
      obtain ⟨s₁, place₁, slot, hstep, hs₁, hgood⟩ := hslot
      obtain ⟨s', place', new', hrest, hs', hnew, hother⟩ :=
        ih s₁ place₁ (Function.update new i slot) (hs.trans hs₁)
      refine ⟨s', place', new', ?_, hs₁.trans hs', fun j hj => ?_, fun j hj => ?_⟩
      · rw [foldlM_cons, hstep]
        exact hrest
      · by_cases hmem : j ∈ l
        · exact hnew j hmem
        · have hji : j = i := (List.mem_cons.mp hj).resolve_right hmem
          rw [hother j hmem, hji, update_self]
          exact hgrows i slot s₁ place₁ s' place' hgood hs'
      · rw [mem_cons, not_or] at hj
        rw [hother j hj.2, update_of_ne hj.1]
  obtain ⟨s', place', new', hcopy, hs', hnew, -⟩ :=
    hlist (List.finRange n) s₀ place₀ slots (.refl ..)
  exact ⟨s', place', new', hcopy, hs', fun i => hnew i (mem_finRange i)⟩

theorem copyCharTableEntry_row {r : RowView V}
    (h : ShowsRow s.entries place t lb i (.entry cte) r) (depth t' : Nat) :
    ∃ s' place' cte', copyCharTableEntry (depth + 1) s cte = some (s', cte') ∧
      Grows s place s' place' ∧ ShowsRow s'.entries place' t' lb i (.entry cte') r := by
  obtain ⟨-, g, hg, hentry⟩ := h
  obtain ⟨s', place', new, hcopy, hs', hnew⟩ := copySlots_spec s place
    (copyCharTableEntry depth) (fun j => .value (g j))
    (fun j slot _ _ => slot = .value (g j)) (fun _ _ _ _ _ _ h _ => h)
    (fun j val _ _ h => h.symm) nofun
  rw [copyCharTableEntry, hentry]
  simp only [bind_eq_bind, bind_some, hcopy]
  refine ⟨_, _, s'.entries.length, rfl, hs'.trans (grows_append s' place' new (.row t' lb i)),
    update_self .., g, hg, ?_⟩
  rw [getElem?_concat_length, funext hnew]

theorem copyCharTableEntry_charset {l : CharsetView V}
    (h : ShowsCharset s.entries place t lb (.entry cte) l) (depth t' : Nat) :
    ∃ s' place' cte', copyCharTableEntry (depth + 2) s cte = some (s', cte') ∧
      Grows s place s' place' ∧ ShowsCharset s'.entries place' t' lb (.entry cte') l := by
  obtain ⟨-, f, level2, hf, hentry, hrows⟩ := h
  obtain ⟨s', place', new, hcopy, hs', hnew⟩ := copySlots_spec s place
    (copyCharTableEntry (depth + 1)) level2
    (fun i slot s place => ShowsRow s.entries place t' lb i slot (f i))
    (fun i slot s place s' place' hshows hgrows => hgrows.row hshows)
    (fun i val s place hi => by
      have hrow := hrows i
      rw [hi] at hrow
      exact hrow)
    (fun i cte s place hi hgrows => by
      have hrow := hgrows.row (hrows i)
      rw [hi] at hrow
      exact copyCharTableEntry_row hrow depth t')
  rw [copyCharTableEntry, hentry]
  simp only [bind_eq_bind, bind_some, hcopy]
  have happend := grows_append s' place' new (.charset t' lb)
  exact ⟨_, _, s'.entries.length, rfl, hs'.trans happend, update_self .., f, new, hf,
    getElem?_concat_length, fun i => happend.row (hnew i)⟩

theorem copySlots_level1 {ct : CharTable V} {w : TableView V}
    (h : ShowsTable s.entries place t ct w) (t' : Nat) :
    ∃ s' place' level1, copySlots (copyCharTableEntry 2) s ct.level1 = some (s', level1) ∧
      Grows s place s' place' ∧
      ShowsTable s'.entries place' t' { ct with level1 := level1 } w := by
  obtain ⟨s', place', new, hcopy, hs', hnew⟩ := copySlots_spec s place
    (copyCharTableEntry 2) ct.level1
    (fun lb slot s place => ShowsCharset s.entries place t' lb slot (w.level1 lb))
    (fun i slot s place s' place' hshows hgrows => hgrows.charset hshows)
    (fun lb val s place hlb => by
      have hcharset := h.level1 lb
      rw [hlb] at hcharset
      exact hcharset)
    (fun lb cte s place hlb hgrows => by
      have hcharset := hgrows.charset (h.level1 lb)
      rw [hlb] at hcharset
      exact copyCharTableEntry_charset hcharset 0 t')
  exact ⟨s', place', new, hcopy, hs', h.ascii, hnew⟩

end grows

/-! ### Copying tables -/

section copy

variable {s s' : CharTables V} {place place' : Nat → Place} {views : List (TableView V)}
  {t : Nat} {w : TableView V} {type : CharTableType}

theorem Grows.tables (h : Grows s place s' place') : s'.tables = s.tables := by
  rw [h.only]

theorem Grows.allTables (h : Grows s place s' place') :
    s'.allSyntaxTables = s.allSyntaxTables := by
  rw [h.only]

theorem Grows.kind (h : Grows s place s' place') : s'.kindOf = s.kindOf := by
  unfold CharTables.kindOf
  rw [h.tables]

theorem Grows.leaves (h : Grows s place s' place') (T : Nat → Prop) :
    Leaves T s views s' views := by
  intro t _ ht
  refine ⟨?_, rfl⟩
  rw [CharTables.Visible, CharTables.IsMirror, h.kind]
  exact ht

theorem Grows.faithful {values : TableValues V} {T : Nat → Prop} (h : Grows s place s' place')
    (hf : Faithful values s views T) : Faithful values s' views T := by
  obtain ⟨hlisted, hown, hmirrored⟩ := hf
  rw [← h.kind, ← h.allTables] at hlisted
  refine ⟨hlisted, ?_, fun t ht m w wm hkind hw hwm ch hch => ?_⟩
  · rw [CharTables.OwnMirrors, h.kind]
    exact hown
  · rw [h.kind] at hkind
    rw [h.only] at hch
    rw [standardValue, h.only]
    exact hmirrored t ht m w wm hkind hw hwm ch hch

theorem Sound.copyPlain (h : Sound s place views) (hkind : s.kindOf t = some (type, none))
    (htype : type ≠ .typeSyntax) (hview : views[t]? = some w) (depth : Nat) :
    ∃ s₁ place' ct' s', copyCharTable (depth + 1) s t = some (s', s.tables.length) ∧
      Grows s place s₁ place' ∧ Push s₁ ct' s' ∧ ct'.type = type ∧ ct'.mirrorTable = none ∧
      s'.allSyntaxTables = s.allSyntaxTables ∧ Sound s' place' (views ++ [w]) := by
  obtain ⟨ct, ht, rfl, hmirror⟩ := kindOf_some hkind
  obtain ⟨s₁, place', level1, hcopy, hgrows, htable⟩ :=
    copySlots_level1 (h.shows.table t ct w ht hview) s.tables.length
  have hpush : Push s₁ { ct with level1 := level1, mirrorTable := none }
      { s₁ with tables := s₁.tables ++ [{ ct with level1 := level1, mirrorTable := none }] } :=
    ⟨rfl, rfl, fun t => .inl, rfl, rfl⟩
  refine ⟨s₁, place', _, _, ?_, hgrows, hpush, rfl, rfl, ?_, ?_⟩
  · rw [Chartab.copyCharTable, ht]
    simp only [bind_eq_bind, bind_some, hcopy, hmirror, if_neg htype, hgrows.tables]
    rfl
  · exact hgrows.allTables
  · refine (hgrows.sound h).push hpush (.inr ⟨htype, rfl⟩) ⟨htable.ascii, ?_⟩ ?_
    · rw [hgrows.tables]
      exact htable.level1
    · rw [hgrows.only]
      exact h.fits w (mem_of_getElem? hview)

/-- **Copying a table** changes no other visible table. The copy looks like the original. -/
theorem Sound.copyCharTable (h : Sound s place views) (ht : s.Visible t)
    (hview : views[t]? = some w) :
    ∃ s' t' place' views', copyCharTable 2 s t = some (s', t') ∧ Sound s' place' views' ∧
      Makes s views s' views' t' ∧ views'[t']? = some w ∧
      s'.standardSyntaxTable = s.standardSyntaxTable ∧
      ∀ values : TableValues V, Faithful values s views (fun _ => False) →
        Faithful values s' views' fun _ => False := by
  obtain ⟨⟨type, mirror⟩, hkind⟩ := Option.isSome_iff_exists.mp ht.1
  by_cases htype : type = .typeSyntax
  · rw [htype] at hkind
    obtain ⟨m, rfl, hkindm⟩ := h.laid.mirror t mirror hkind
    obtain ⟨ct, hct, hcttype, hctmirror⟩ := kindOf_some hkind
    obtain ⟨s₁, place₁, level1, hcopy, hgrows₁, htable⟩ :=
      copySlots_level1 (h.shows.table t ct w hct hview) (s.tables.length + 1)
    have hsound₁ := hgrows₁.sound h
    rw [← hgrows₁.kind] at hkindm
    obtain ⟨ctm, wm, -, -, -, hviewm⟩ := hsound₁.view hkindm
    obtain ⟨s₂, place₂, ctm', s₃, hcopym, hgrows₂, hpushm, htypem, hmirrorm, hall₃, hsound₃⟩ :=
      hsound₁.copyPlain hkindm nofun hviewm 0
    have hlength₂ : s₂.tables.length = s.tables.length := by
      rw [hgrows₂.tables, hgrows₁.tables]
    have hlength₃ : s₃.tables.length = s.tables.length + 1 := by
      rw [hpushm.tables, length_append, hlength₂, length_singleton]
    have hkindnew : s₃.kindOf s.tables.length = some (.typeGeneric, none) := by
      rw [← hlength₂, hpushm.kind_new, htypem, hmirrorm]
    have hpush : Push s₃ { ct with level1 := level1, mirrorTable := some s.tables.length }
        { s₃ with
          tables :=
            s₃.tables ++ [{ ct with level1 := level1, mirrorTable := some s.tables.length }]
          allSyntaxTables := s₃.tables.length :: s₃.allSyntaxTables } :=
      ⟨rfl, rfl, fun t ht => (List.mem_cons.mp ht).elim (fun h => .inr ⟨h, hcttype⟩) .inl, rfl, rfl⟩
    have hsound' := hsound₃.push hpush (w := w) (.inl ⟨hcttype, _, rfl, hkindnew⟩)
      ⟨htable.ascii, fun lb => ?_⟩ ?_
    · have hvisible := hpush.visible hsound₃.laid (by simp only [ne_eq, Option.some.injEq]; omega)
      have hlengthv : views.length = s₂.tables.length := h.shows.length.trans hlength₂.symm
      refine ⟨_, s₃.tables.length, place₂, _, ?_, hsound', ⟨?_, ?_, by omega, hvisible⟩, ?_, ?_,
        fun values hf => ?_⟩
      · rw [Chartab.copyCharTable, hct]
        simp only [bind_eq_bind, bind_some, hcopy, hctmirror, hcopym, hcttype,
          if_true, hgrows₁.tables]
        rfl
      · rw [hpush.charsets, hpushm.charsets, hgrows₂.only, hgrows₁.only]
      · refine (hgrows₁.leaves _).trans ((hgrows₂.leaves _).trans ?_)
        refine (hpushm.leaves ?_ (by rw [hmirrorm]; exact nofun)).trans
          (hpush.leaves hsound₃.shows.length fun m hm => ?_)
        · rw [h.shows.length, hlength₂]
        · cases hm
          exact Nat.le_refl _
      · rw [← hsound₃.shows.length, getElem?_concat_length]
      · rw [hpush.standard, hpushm.standard, hgrows₂.only, hgrows₁.only]
      · have hfaithful₂ := hgrows₂.faithful (hgrows₁.faithful hf)
        have hlaid₂ := (hgrows₂.sound hsound₁).laid
        have hfaithful₃ : Faithful values s₃ (views ++ [wm]) fun _ => False := by
          refine hpushm.faithful hlaid₂ hlengthv (fun t ht => ?_) (fun heq => ?_) (fun m hm => ?_)
            (fun _ _ => id) (fun _ => ?_) hfaithful₂
          · rwa [hall₃, ← hgrows₂.allTables]
          · exact nomatch htypem.symm.trans heq
          · exact nomatch hmirrorm.symm.trans hm
          · intro m _ _ hkind'
            rw [hpushm.kind_new, hmirrorm] at hkind'
            exact nomatch (Prod.mk.inj (Option.some.inj hkind')).2
        have hvisible₃ := hpushm.visible hlaid₂ (by rw [hmirrorm]; exact nofun)
        rw [hlength₂] at hvisible₃
        refine hpush.faithful hsound₃.laid hsound₃.shows.length (fun _ => mem_cons_of_mem _)
          (fun _ => mem_cons_self ..) ?_ (fun _ _ => id) (fun _ => ?_) hfaithful₃
        · rintro m ⟨⟩
          exact hvisible₃.2
        · -- the mirror table has been copied, too
          intro m' w' wm' hkind' hw' hwm' ch hch
          rw [hpush.kind_new] at hkind'
          obtain rfl := Option.some.inj (Prod.mk.inj (Option.some.inj hkind')).2
          rw [← hsound₃.shows.length, getElem?_concat_length] at hw'
          cases hw'
          rw [getElem?_append_left (by rw [hsound₃.shows.length]; omega), ← hlength₂,
            ← hlengthv, getElem?_concat_length] at hwm'
          cases hwm'
          rw [hpush.charsets, hpushm.charsets, hgrows₂.only, hgrows₁.only] at hch
          rw [hpush.standardValue hsound₃.laid hsound₃.shows.length,
            hpushm.standardValue hlaid₂ hlengthv, standardValue, hgrows₂.only, hgrows₁.only]
          exact hf.mirrored t id m w wm hkind hview hviewm ch hch
    · rw [hlength₃, hpushm.entries]
      exact hgrows₂.charset (htable.level1 lb)
    · rw [hpushm.charsets, hgrows₂.only, hgrows₁.only]
      exact h.fits w (mem_of_getElem? hview)
  · obtain rfl := h.laid.plain t type mirror hkind htype
    obtain ⟨s₁, place', ct', s', hcopy, hgrows, hpush, htype', hmirror, hall', hsound'⟩ :=
      h.copyPlain hkind htype hview 1
    have hlength : s₁.tables.length = s.tables.length := by
      rw [hgrows.tables]
    refine ⟨s', s.tables.length, place', _, hcopy, hsound', ⟨?_, ?_, Nat.le_refl _, ?_⟩, ?_, ?_,
      fun values hf => ?_⟩
    · rw [hpush.charsets, hgrows.only]
    · refine (hgrows.leaves _).trans (hpush.leaves ?_ (by rw [hmirror]; exact nofun))
      rw [h.shows.length, hlength]
    · rw [← hlength]
      exact hpush.visible (hgrows.sound h).laid (by rw [hmirror]; exact nofun)
    · rw [← h.shows.length, getElem?_concat_length]
    · rw [hpush.standard, hgrows.only]
    · refine hpush.faithful (hgrows.sound h).laid (h.shows.length.trans hlength.symm)
        (fun t ht => ?_) (fun heq => ?_) (fun m hm => ?_) (fun _ _ => id) (fun _ => ?_)
        (hgrows.faithful hf)
      · rwa [hall', ← hgrows.allTables]
      · exact absurd (htype'.symm.trans heq) htype
      · exact nomatch hmirror.symm.trans hm
      · intro m _ _ hkind'
        rw [hpush.kind_new, hmirror] at hkind'
        exact nomatch (Prod.mk.inj (Option.some.inj hkind')).2

end copy

end XEmacs.Chartab

import XEmacs.Chartab.Views

/-!
# The entries of char tables

Each char table entry has one place: a charset of a table, or a row of one. `Shows` says that the
tables show their views through entries that are at their places, so that no two tables share
one.
-/

namespace XEmacs.Chartab

open Coding List Function Option

variable {V : Type}

/-- The place of an entry: the slot of a charset in a table, or that of a row. -/
inductive Place where
  | charset (t : Nat) (lb : Fin 128)
  | row (t : Nat) (lb : Fin 128) (row : Fin 96)

/-- The table and the charset of a place. -/
def Place.under : Place → Nat × Fin 128
  | charset t lb => (t, lb)
  | row t lb _ => (t, lb)

section shows

variable (entries : List (CharTableEntry V)) (place : Nat → Place)

/-- The slot of a row shows the view of the row. -/
def ShowsRow (t : Nat) (lb : Fin 128) (i : Fin 96) : Slot V → RowView V → Prop
  | .value val, r => r = .whole val
  | .entry cte, r => place cte = .row t lb i ∧
    ∃ f, r = .chars f ∧ entries[cte]? = some fun i => .value (f i)

/-- The slot of a charset shows the view of the charset. -/
def ShowsCharset (t : Nat) (lb : Fin 128) : Slot V → CharsetView V → Prop
  | .value val, l => l = .whole val
  | .entry cte, l => place cte = .charset t lb ∧
    ∃ f level2, l = .rows f ∧ entries[cte]? = some level2 ∧
      ∀ i, ShowsRow entries place t lb i (level2 i) (f i)

/-- A table shows its view. -/
structure ShowsTable (t : Nat) (ct : CharTable V) (w : TableView V) : Prop where
  ascii : ct.ascii = w.ascii
  level1 : ∀ lb, ShowsCharset entries place t lb (ct.level1 lb) (w.level1 lb)

/-- The entries at some places stay as they are and where they are. -/
def Untouched (entries' : List (CharTableEntry V)) (place' : Nat → Place) (P : Place → Prop) :
    Prop :=
  ∀ cte level2, P (place cte) → entries[cte]? = some level2 →
    entries'[cte]? = some level2 ∧ place' cte = place cte

end shows

/-! ### What does not change -/

section frame

variable {entries entries' : List (CharTableEntry V)} {place place' : Nat → Place} {t : Nat}
  {lb : Fin 128}

theorem Untouched.row {P : Place → Prop} (h : Untouched entries place entries' place' P)
    {i : Fin 96} (hP : P (.row t lb i)) {slot : Slot V} {r : RowView V}
    (hshows : ShowsRow entries place t lb i slot r) : ShowsRow entries' place' t lb i slot r := by
  cases slot with
  | value val => exact hshows
  | entry cte =>
    obtain ⟨hplace, f, hr, hentry⟩ := hshows
    obtain ⟨hentry', hplace'⟩ := h cte _ (hplace ▸ hP) hentry
    exact ⟨hplace'.trans hplace, f, hr, hentry'⟩

theorem Untouched.charset {P : Place → Prop} (h : Untouched entries place entries' place' P)
    (hP : ∀ p : Place, p.under = (t, lb) → P p) {slot : Slot V} {l : CharsetView V}
    (hshows : ShowsCharset entries place t lb slot l) :
    ShowsCharset entries' place' t lb slot l := by
  cases slot with
  | value val => exact hshows
  | entry cte =>
    obtain ⟨hplace, f, level2, hl, hentry, hrows⟩ := hshows
    obtain ⟨hentry', hplace'⟩ := h cte _ (hP _ (hplace ▸ rfl)) hentry
    exact ⟨hplace'.trans hplace, f, level2, hl, hentry', fun i => h.row (hP _ rfl) (hrows i)⟩

theorem Untouched.refl (P : Place → Prop) : Untouched entries place entries place P :=
  fun _ _ _ h => ⟨h, rfl⟩

theorem Untouched.trans {entries'' : List (CharTableEntry V)} {place'' : Nat → Place}
    {P : Place → Prop} (h : Untouched entries place entries' place' P)
    (h' : Untouched entries' place' entries'' place'' P) :
    Untouched entries place entries'' place'' P := by
  intro cte level2 hP hentry
  obtain ⟨hentry', hplace'⟩ := h cte level2 hP hentry
  obtain ⟨hentry'', hplace''⟩ := h' cte level2 (hplace' ▸ hP) hentry'
  exact ⟨hentry'', hplace''.trans hplace'⟩

theorem Untouched.mono {P Q : Place → Prop} (h : Untouched entries place entries' place' P)
    (hPQ : ∀ p, Q p → P p) : Untouched entries place entries' place' Q :=
  fun cte level2 hQ => h cte level2 (hPQ _ hQ)

theorem untouched_append (entries : List (CharTableEntry V)) (place : Nat → Place)
    (new : CharTableEntry V) (p : Place) (P : Place → Prop) :
    Untouched entries place (entries ++ [new]) (Function.update place entries.length p) P := by
  intro cte level2 _ hentry
  have hlt := (List.getElem?_eq_some_iff.mp hentry).1
  exact ⟨(getElem?_append_left hlt).trans hentry,
    update_of_ne (Nat.ne_of_lt hlt) _ _⟩

theorem untouched_set (entries : List (CharTableEntry V)) (place : Nat → Place) (cte : Nat)
    (level2 : CharTableEntry V) :
    Untouched entries place (entries.set cte level2) place (· ≠ place cte) := by
  intro cte' level2' hne hentry
  have hne : cte ≠ cte' := fun h => hne (h ▸ rfl)
  exact ⟨(getElem?_set_ne hne).trans hentry, rfl⟩

end frame

/-! ### Steps in the slot of a charset -/

section steps

variable {s : CharTables V} {place : Nat → Place} {t cte : Nat} {lb : Fin 128}

theorem setTable_self {ct : CharTable V} (ht : s.tables[t]? = some ct) : s.setTable t ct = s := by
  obtain ⟨hlt, rfl⟩ := List.getElem?_eq_some_iff.mp ht
  rw [CharTables.setTable, set_getElem_self]

theorem separateCharset_spec {ct : CharTable V} {l : CharsetView V} (ht : s.tables[t]? = some ct)
    (h : ShowsCharset s.entries place t lb (ct.level1 lb) l) :
    ∃ s' place' cte, s.separateCharset t lb = some (s', cte) ∧
      s' = { s.setTable t { ct with level1 := Function.update ct.level1 lb (.entry cte) } with
        entries := s'.entries } ∧
      ShowsCharset s'.entries place' t lb (.entry cte) (.rows l.separate) ∧
      Untouched s.entries place s'.entries place' fun _ => True := by
  rw [CharTables.separateCharset, ht]
  simp only [bind_eq_bind, bind_some]
  cases hslot : ct.level1 lb with
  | entry cte =>
    rw [hslot] at h
    refine ⟨s, place, cte, rfl, ?_, ?_, .refl _⟩
    · rw [← hslot, update_eq_self, setTable_self ht]
    · obtain ⟨hplace, f, level2, rfl, hentry, hrows⟩ := h
      exact ⟨hplace, f, level2, rfl, hentry, hrows⟩
  | value val =>
    rw [hslot] at h
    obtain rfl : l = .whole val := h
    refine ⟨_, Function.update place s.entries.length (.charset t lb), s.entries.length, rfl, rfl,
      ?_, untouched_append _ _ (fun _ => .value val) (.charset t lb) _⟩
    refine ⟨update_self .., fun _ => .whole val, fun _ => .value val, rfl, ?_,
      fun i => rfl⟩
    exact (getElem?_append_right (Nat.le_refl _)).trans (by rw [Nat.sub_self]; rfl)

theorem setSlot_charset {f : Fin 96 → RowView V}
    (h : ShowsCharset s.entries place t lb (.entry cte) (.rows f)) (i : Fin 96) (val : V) :
    ∃ s', s.setSlot cte i val = some s' ∧ s' = { s with entries := s'.entries } ∧
      ShowsCharset s'.entries place t lb (.entry cte) (.rows (Function.update f i (.whole val))) ∧
      Untouched s.entries place s'.entries place (· ≠ .charset t lb) := by
  obtain ⟨hplace, f', level2, hf, hentry, hrows⟩ := h
  cases hf
  have hlt := (List.getElem?_eq_some_iff.mp hentry).1
  have huntouched := untouched_set s.entries place cte
    (Function.update level2 i (.value val))
  rw [hplace] at huntouched
  rw [CharTables.setSlot, hentry]
  refine ⟨_, rfl, rfl, ⟨hplace, _, _, rfl, getElem?_set_self hlt, fun j => ?_⟩, huntouched⟩
  by_cases hij : j = i
  · subst hij
    rw [update_self, update_self]
    rfl
  · rw [update_of_ne hij, update_of_ne hij]
    exact huntouched.row nofun (hrows j)

/-- The entry of a charset, with that of a row in it. -/
structure HasRow (entries : List (CharTableEntry V)) (place : Nat → Place) (t : Nat) (lb : Fin 128)
    (cte : Nat) (f : Fin 96 → RowView V) (i : Fin 96) (cte' : Nat) (g : Fin 96 → V) : Prop where
  shows : ShowsCharset entries place t lb (.entry cte) (.rows f)
  view : f i = .chars g
  slot : ∃ level2, entries[cte]? = some level2 ∧ level2 i = .entry cte'

/-- The slot of a row is made an entry. -/
theorem separateRow_spec {f : Fin 96 → RowView V}
    (h : ShowsCharset s.entries place t lb (.entry cte) (.rows f)) (i : Fin 96) :
    ∃ s' place' cte', s.separateRow cte i = some (s', cte') ∧
      s' = { s with entries := s'.entries } ∧
      HasRow s'.entries place' t lb cte (Function.update f i (.chars (f i).separate)) i cte'
        (f i).separate ∧
      Untouched s.entries place s'.entries place' (· ≠ .charset t lb) := by
  obtain ⟨hplace, f', level2, hf, hentry, hrows⟩ := h
  cases hf
  rw [CharTables.separateRow, hentry]
  simp only [bind_eq_bind, bind_some]
  have hrow := hrows i
  cases hslot : level2 i with
  | entry cte' =>
    rw [hslot] at hrow
    obtain ⟨-, g, hg, -⟩ := hrow
    have hsame : Function.update f i (.chars (f i).separate) = f := by
      rw [hg]
      exact (congrArg _ hg.symm).trans (update_eq_self i f)
    refine ⟨s, place, cte', rfl, rfl, ⟨?_, update_self .., level2, hentry, hslot⟩, .refl _⟩
    rw [hsame]
    exact ⟨hplace, f, level2, rfl, hentry, hrows⟩
  | value val =>
    rw [hslot] at hrow
    have hwhole : f i = .whole val := hrow
    have hlt := (List.getElem?_eq_some_iff.mp hentry).1
    have happend := untouched_append s.entries place
      (fun _ => .value val) (.row t lb i) fun _ => True
    have hset := untouched_set (s.entries ++ [fun _ => .value val])
      (Function.update place s.entries.length (.row t lb i)) cte
      (Function.update level2 i (.entry s.entries.length))
    have hplace' : Function.update place s.entries.length (.row t lb i) cte = .charset t lb := by
      rw [update_of_ne (Nat.ne_of_lt hlt), hplace]
    rw [hplace'] at hset
    have huntouched := (happend.mono (Q := (· ≠ .charset t lb)) fun _ _ => trivial).trans hset
    have hcte : cte < (s.entries ++ [fun _ => Slot.value val]).length := by
      rw [length_append]
      omega
    refine ⟨_, Function.update place s.entries.length (.row t lb i), s.entries.length, rfl, rfl,
      ⟨⟨hplace', _, _, rfl, getElem?_set_self hcte, fun j => ?_⟩, update_self .., _,
        getElem?_set_self hcte, update_self ..⟩, huntouched⟩
    by_cases hij : j = i
    · subst hij
      rw [update_self, update_self]
      refine ⟨update_self .., _, rfl, ?_⟩
      rw [hwhole]
      refine (getElem?_set_ne (Nat.ne_of_lt hlt)).trans ?_
      refine (getElem?_append_right (Nat.le_refl _)).trans ?_
      rw [Nat.sub_self]
      rfl
    · rw [update_of_ne hij, update_of_ne hij]
      exact huntouched.row nofun (hrows j)

theorem setSlot_row {f : Fin 96 → RowView V} {i : Fin 96} {g : Fin 96 → V} {cte' : Nat}
    (h : HasRow s.entries place t lb cte f i cte' g) (j : Fin 96) (val : V) :
    ∃ s', s.setSlot cte' j val = some s' ∧ s' = { s with entries := s'.entries } ∧
      ShowsCharset s'.entries place t lb (.entry cte)
        (.rows (Function.update f i (.chars (Function.update g j val)))) ∧
      Untouched s.entries place s'.entries place (· ≠ .row t lb i) := by
  obtain ⟨⟨hplace, f', level2, hf, hentry, hrows⟩, hview, level2', hentry', hslot⟩ := h
  cases hf
  obtain rfl : level2 = level2' := Option.some.inj (hentry.symm.trans hentry')
  have hrow := hrows i
  rw [hslot, hview] at hrow
  obtain ⟨hplace', g', hg, hrowEntry⟩ := hrow
  cases hg
  have hne : cte' ≠ cte := by
    rintro rfl
    rw [hplace] at hplace'
    cases hplace'
  have hlt := (List.getElem?_eq_some_iff.mp hrowEntry).1
  have huntouched := untouched_set s.entries place cte'
    (Function.update (fun j => .value (g j)) j (.value val))
  rw [hplace'] at huntouched
  rw [CharTables.setSlot, hrowEntry]
  refine ⟨_, rfl, rfl, ⟨hplace, _, level2, rfl, (getElem?_set_ne hne).trans hentry,
    fun k => ?_⟩, huntouched⟩
  by_cases hik : k = i
  · subst hik
    rw [hslot, update_self]
    refine ⟨hplace', _, rfl, (getElem?_set_self hlt).trans (congrArg some ?_)⟩
    funext m
    by_cases hjm : m = j
    · rw [hjm, update_self, update_self]
    · rw [update_of_ne hjm, update_of_ne hjm]
  · rw [update_of_ne hik]
    exact huntouched.row (fun heq => hik (by cases heq; rfl)) (hrows k)

end steps

/-! ### Steps of a table -/

/-- Every table shows its view. -/
structure Shows (s : CharTables V) (place : Nat → Place) (views : List (TableView V)) : Prop where
  length : views.length = s.tables.length
  table : ∀ t ct w, s.tables[t]? = some ct → views[t]? = some w →
    ShowsTable s.entries place t ct w

/-- Values may change, but not what tables and variables there are. -/
structure SameLayout (s s' : CharTables V) : Prop where
  charsets : s'.charsets = s.charsets
  standard : s'.standardSyntaxTable = s.standardSyntaxTable
  allTables : s'.allSyntaxTables = s.allSyntaxTables
  tables : s'.tables.map (fun ct => (ct.type, ct.mirrorTable))
    = s.tables.map (fun ct => (ct.type, ct.mirrorTable))

/-- Only the values of the tables in `T` change. -/
structure Moves (T : Nat → Prop) (s : CharTables V) (place : Nat → Place)
    (views : List (TableView V)) (s' : CharTables V) (place' : Nat → Place)
    (views' : List (TableView V)) : Prop where
  layout : SameLayout s s'
  entries : Untouched s.entries place s'.entries place' fun p => ¬ T p.under.1
  tables : ∀ t, ¬ T t → s'.tables[t]? = s.tables[t]?
  views : ∀ t, ¬ T t → views'[t]? = views[t]?

section tables

variable {s s' : CharTables V} {place place' : Nat → Place} {views views' : List (TableView V)}
  {t : Nat} {ct ct' : CharTable V} {w w' : TableView V}

theorem SameLayout.refl (s : CharTables V) : SameLayout s s := ⟨rfl, rfl, rfl, rfl⟩

theorem SameLayout.trans {s'' : CharTables V} (h : SameLayout s s') (h' : SameLayout s' s'') :
    SameLayout s s'' :=
  ⟨h'.charsets.trans h.charsets, h'.standard.trans h.standard, h'.allTables.trans h.allTables,
    h'.tables.trans h.tables⟩

theorem SameLayout.getElem? (h : SameLayout s s') (t : Nat) :
    s'.tables[t]?.map (fun ct => (ct.type, ct.mirrorTable))
      = s.tables[t]?.map (fun ct => (ct.type, ct.mirrorTable)) := by
  rw [← getElem?_map, ← getElem?_map, h.tables]

theorem Moves.refl (T : Nat → Prop) (s : CharTables V) (place : Nat → Place)
    (views : List (TableView V)) : Moves T s place views s place views :=
  ⟨.refl s, .refl _, fun _ _ => rfl, fun _ _ => rfl⟩

theorem Moves.trans {T : Nat → Prop} {s'' : CharTables V} {place'' : Nat → Place}
    {views'' : List (TableView V)} (h : Moves T s place views s' place' views')
    (h' : Moves T s' place' views' s'' place'' views'') :
    Moves T s place views s'' place'' views'' :=
  ⟨h.layout.trans h'.layout, h.entries.trans h'.entries,
    fun t' ht' => (h'.tables t' ht').trans (h.tables t' ht'),
    fun t' ht' => (h'.views t' ht').trans (h.views t' ht')⟩

theorem Moves.mono {T U : Nat → Prop} (h : Moves T s place views s' place' views')
    (hTU : ∀ t, T t → U t) : Moves U s place views s' place' views' :=
  ⟨h.layout, h.entries.mono fun _ hp hT => hp (hTU _ hT), fun t ht => h.tables t (mt (hTU t) ht),
    fun t ht => h.views t (mt (hTU t) ht)⟩

theorem ShowsTable.untouched (h : ShowsTable s.entries place t ct w) {P : Place → Prop}
    (hentries : Untouched s.entries place s'.entries place' P)
    (hP : ∀ p : Place, p.under.1 = t → P p) : ShowsTable s'.entries place' t ct w :=
  ⟨h.ascii, fun lb => hentries.charset (fun p hp => hP p (congrArg Prod.fst hp)) (h.level1 lb)⟩

theorem ShowsTable.setCharset (h : ShowsTable s.entries place t ct w) {lb : Fin 128}
    {slot : Slot V} {l : CharsetView V}
    (hentries : Untouched s.entries place s'.entries place' (·.under ≠ (t, lb)))
    (hcharset : ShowsCharset s'.entries place' t lb slot l) :
    ShowsTable s'.entries place' t { ct with level1 := Function.update ct.level1 lb slot }
      { w with level1 := Function.update w.level1 lb l } := by
  refine ⟨h.ascii, fun lb' => ?_⟩
  by_cases hlb : lb' = lb
  · subst hlb
    simp only [update_self]
    exact hcharset
  · simp only [update_of_ne hlb]
    refine hentries.charset (fun p hp heq => hlb ?_) (h.level1 lb')
    exact congrArg Prod.snd (hp.symm.trans heq)

theorem Shows.setTable (h : Shows s place views) (ht : s.tables[t]? = some ct)
    (hview : views[t]? = some w) (htype : ct'.type = ct.type)
    (hmirror : ct'.mirrorTable = ct.mirrorTable)
    (hs' : s' = { s.setTable t ct' with entries := s'.entries })
    (hentries : Untouched s.entries place s'.entries place' (·.under.1 ≠ t))
    (htable : ShowsTable s'.entries place' t ct' w') :
    Shows s' place' (views.set t w') ∧ Moves (· = t) s place views s' place' (views.set t w') := by
  have htables : s'.tables = s.tables.set t ct' := by
    rw [hs']
    rfl
  have hlt := (List.getElem?_eq_some_iff.mp ht).1
  refine ⟨⟨?_, fun t' ct₁ w₁ ht' hw₁ => ?_⟩, ⟨?_, ?_, ?_, ?_⟩, hentries, fun t' hne => ?_,
    fun t' hne => ?_⟩
  · rw [length_set, htables, length_set, h.length]
  · rw [htables] at ht'
    by_cases heq : t' = t
    · subst heq
      rw [getElem?_set_self hlt] at ht'
      rw [getElem?_set_self (h.length ▸ hlt)] at hw₁
      cases ht'
      cases hw₁
      exact htable
    · rw [getElem?_set_ne (Ne.symm heq)] at ht' hw₁
      exact (h.table t' ct₁ w₁ ht' hw₁).untouched hentries fun p hp => hp ▸ heq
  · rw [hs']
    rfl
  · rw [hs']
    rfl
  · rw [hs']
    rfl
  · refine ext_getElem? fun t' => ?_
    rw [htables, getElem?_map, getElem?_map]
    by_cases heq : t' = t
    · subst heq
      rw [getElem?_set_self hlt, ht, map_some, map_some, htype, hmirror]
    · rw [getElem?_set_ne (Ne.symm heq)]
  · rw [htables, getElem?_set_ne (Ne.symm hne)]
  · rw [getElem?_set_ne (Ne.symm hne)]

theorem Shows.setTable_only (h : Shows s place views) (ht : s.tables[t]? = some ct)
    (hview : views[t]? = some w) (htype : ct'.type = ct.type)
    (hmirror : ct'.mirrorTable = ct.mirrorTable)
    (htable : ShowsTable s.entries place t ct' w') :
    ∃ s' place', some (s.setTable t ct') = some s' ∧ Shows s' place' (views.set t w') ∧
      Moves (· = t) s place views s' place' (views.set t w') :=
  ⟨_, place, rfl, h.setTable ht hview htype hmirror rfl (.refl _) htable⟩

theorem Shows.setCharset (h : Shows s place views) (ht : s.tables[t]? = some ct)
    (hview : views[t]? = some w) {lb : Fin 128} {slot : Slot V} {l : CharsetView V}
    (hs' : s' = { s.setTable t { ct with level1 := Function.update ct.level1 lb slot } with
      entries := s'.entries })
    (hentries : Untouched s.entries place s'.entries place' (·.under ≠ (t, lb)))
    (hcharset : ShowsCharset s'.entries place' t lb slot l) :
    Shows s' place' (views.set t { w with level1 := Function.update w.level1 lb l }) ∧
      Moves (· = t) s place views s' place'
        (views.set t { w with level1 := Function.update w.level1 lb l }) := by
  refine h.setTable ht hview ?_ ?_ hs' (hentries.mono fun _ hp heq => hp (congrArg Prod.fst heq))
    ((h.table t ct w ht hview).setCharset hentries hcharset)
  · rfl
  · rfl

theorem Shows.putRow (h : Shows s place views) (ht : s.tables[t]? = some ct)
    (hview : views[t]? = some w) (lb : Fin 128) (i : Fin 96) (val : V) :
    ∃ s₁ cte s' place', s.separateCharset t lb = some (s₁, cte) ∧ s₁.setSlot cte i val = some s' ∧
      Shows s' place' (views.set t { w with
        level1 := Function.update w.level1 lb
          (.rows (Function.update (w.level1 lb).separate i (.whole val))) }) ∧
      Moves (· = t) s place views s' place' (views.set t { w with
        level1 := Function.update w.level1 lb
          (.rows (Function.update (w.level1 lb).separate i (.whole val))) }) := by
  obtain ⟨s₁, place₁, cte, hseparate, hs₁, hshows₁, hentries₁⟩ :=
    separateCharset_spec ht ((h.table t ct w ht hview).level1 lb)
  obtain ⟨s', hset, hs', hshows', hentries'⟩ := setSlot_charset hshows₁ i val
  refine ⟨s₁, cte, s', place₁, hseparate, hset, h.setCharset ht hview ?_ ?_ hshows'⟩
  · rw [hs', hs₁]
  · exact (hentries₁.mono fun _ _ => trivial).trans
      (hentries'.mono fun p hp heq => hp (heq ▸ rfl))

theorem Shows.putChar (h : Shows s place views) (ht : s.tables[t]? = some ct)
    (hview : views[t]? = some w) (lb : Fin 128) (i j : Fin 96) (val : V) :
    ∃ s₁ cte s₂ cte' s' place', s.separateCharset t lb = some (s₁, cte) ∧
      s₁.separateRow cte i = some (s₂, cte') ∧ s₂.setSlot cte' j val = some s' ∧
      Shows s' place' (views.set t { w with
        level1 := Function.update w.level1 lb (.rows (Function.update (w.level1 lb).separate i
          (.chars (Function.update ((w.level1 lb).separate i).separate j val)))) }) ∧
      Moves (· = t) s place views s' place' (views.set t { w with
        level1 := Function.update w.level1 lb (.rows (Function.update (w.level1 lb).separate i
          (.chars (Function.update ((w.level1 lb).separate i).separate j val)))) }) := by
  obtain ⟨s₁, place₁, cte, hseparate, hs₁, hshows₁, hentries₁⟩ :=
    separateCharset_spec ht ((h.table t ct w ht hview).level1 lb)
  obtain ⟨s₂, place₂, cte', hrow, hs₂, hshows₂, hentries₂⟩ := separateRow_spec hshows₁ i
  obtain ⟨s', hset, hs', hshows', hentries'⟩ := setSlot_row hshows₂ j val
  rw [update_idem] at hshows'
  refine ⟨s₁, cte, s₂, cte', s', place₂, hseparate, hrow, hset,
    h.setCharset ht hview ?_ ?_ hshows'⟩
  · rw [hs', hs₂, hs₁]
  · exact ((hentries₁.mono fun _ _ => trivial).trans
      (hentries₂.mono fun p hp heq => hp (heq ▸ rfl))).trans
      (hentries'.mono fun p hp heq => hp (heq ▸ rfl))

/-- **An assignment** changes the view of its table. -/
theorem Shows.assign (h : Shows s place views) (ht : s.tables[t]? = some ct)
    (hview : views[t]? = some w) {range : ChartabRange} (hrange : range.Valid s.charsets)
    (val : V) :
    ∃ s' place', s.assign t range val = some s' ∧
      Shows s' place' (views.set t (w.put s.charsets range val)) ∧
      Moves (· = t) s place views s' place' (views.set t (w.put s.charsets range val)) := by
  have htable := h.table t ct w ht hview
  rw [CharTables.assign, ht]
  simp only [bind_eq_bind, bind_some]
  cases range with
  | all => exact h.setTable_only ht hview rfl rfl ⟨rfl, fun lb => rfl⟩
  | charset c =>
    have hc : c ∈ s.charsets.list := hrange
    rw [TableView.put]
    simp only
    by_cases hascii : c.leadingByte = leadingByteAscii
    · rw [if_pos hascii, if_pos hascii]
      refine h.setTable_only ht hview rfl rfl ⟨?_, htable.level1⟩
      rw [CharTables.fillAscii, htable.ascii]
    by_cases hcontrol : c.leadingByte = leadingByteControl1
    · rw [if_neg hascii, if_neg hascii, if_pos hcontrol, if_pos hcontrol]
      refine h.setTable_only ht hview rfl rfl ⟨?_, htable.level1⟩
      rw [CharTables.fillAscii, htable.ascii]
    · obtain ⟨hlo, hhi⟩ := leadingByte_bounds hc
      rw [if_neg hascii, if_neg hascii, if_neg hcontrol, if_neg hcontrol,
        indexFrom_charset hlo hhi]
      exact ⟨_, place, rfl, h.setCharset ht hview rfl (.refl _) rfl⟩
  | row c byte1 =>
    obtain ⟨hc, hdim, hbyte1⟩ := hrange
    obtain ⟨hlo, hhi⟩ := leadingByte_bounds hc
    obtain ⟨s₁, cte, s', place', hseparate, hset, hshows⟩ :=
      h.putRow ht hview (charsetIndex c.leadingByte) (codeIndex byte1) val
    refine ⟨s', place', ?_, hshows⟩
    simp only [indexFrom_charset hlo hhi, bind_some, hseparate,
      indexFrom_code hbyte1.bounds.1 hbyte1.bounds.2]
    exact hset
  | char c =>
    obtain ⟨ch, hch, rfl⟩ := hrange
    rw [TableView.put]
    simp only [breakupChar_emchar hch, bind_some]
    cases character hch with
    | ascii lb dim code emchar =>
      rw [if_pos lb, if_pos lb, indexFrom_ascii (by omega)]
      refine h.setTable_only ht hview rfl rfl ⟨?_, htable.level1⟩
      rw [htable.ascii]
    | control1 lb dim code emchar =>
      have hascii : ch.charset.leadingByte ≠ leadingByteAscii := by
        rw [lb]
        decide
      rw [if_neg hascii, if_neg hascii, if_pos lb, if_pos lb, indexFrom_ascii (by omega)]
      refine h.setTable_only ht hview rfl rfl ⟨?_, htable.level1⟩
      rw [htable.ascii]
    | other notAscii notControl1 code second emchar =>
      obtain ⟨hlo, hhi⟩ := leadingByte_bounds hch.defined
      rw [if_neg notAscii, if_neg notAscii, if_neg notControl1, if_neg notControl1,
        indexFrom_charset hlo hhi]
      rcases second with ⟨hdim, -⟩ | ⟨hdim, hlo₂, hhi₂⟩
      · obtain ⟨s₁, cte, s', place', hseparate, hset, hshows⟩ :=
          h.putRow ht hview (charsetIndex ch.charset.leadingByte) (codeIndex ch.c1) val
        rw [if_pos hdim]
        refine ⟨s', place', ?_, hshows⟩
        simp only [bind_some, hseparate, indexFrom_code code.1 code.2, if_pos hdim]
        exact hset
      · obtain ⟨s₁, cte, s₂, cte', s', place', hseparate, hrow, hset, hshows⟩ :=
          h.putChar ht hview (charsetIndex ch.charset.leadingByte) (codeIndex ch.c1)
            (codeIndex ch.c2) val
        have hne : ¬ ch.charset.dimension = 1 := by omega
        rw [if_neg hne]
        refine ⟨s', place', ?_, hshows⟩
        simp only [bind_some, hseparate, indexFrom_code code.1 code.2, if_neg hne, hrow,
          indexFrom_code hlo₂ hhi₂]
        exact hset

end tables

end XEmacs.Chartab

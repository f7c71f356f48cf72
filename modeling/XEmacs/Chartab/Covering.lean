import XEmacs.Chartab.Assignment

/-!
# What `map_char_table` covers

With a function that always returns 0, the ranges that are passed partition the characters of the
range that is mapped over, and each comes with the value of its characters.
-/

namespace XEmacs.Chartab

open Coding Blocks List

variable {V : Type}

/-- A function that always returns 0 and leaves the tables alone is called for these ranges. -/
def Passes (s : CharTables V) (t : Nat) (range : ChartabRange) (l : List (ChartabRange × V)) :
    Prop :=
  ∀ (σ : Type) (tables : σ → CharTables V) (f : ChartabRange → V → σ → σ),
    (∀ range val st, tables (f range val st) = tables st) → ∀ st, tables st = s →
      mapCharTable tables (fun range val st => some (0, f range val st)) t range st
        = some (0, l.foldl (fun st p => f p.1 p.2 st) st)

/-- The ranges partition the characters, and have their values. -/
structure Covers (s : CharTables V) (t : Nat) (range : ChartabRange)
    (l : List (ChartabRange × V)) : Prop where
  partitions : Partitions (blockOf s.charsets) {ch | ch.Valid s.charsets ∧ range.Has ch} l
  values : ∀ p ∈ l, ∀ ch : Mchar, ch.Valid s.charsets → p.1.Has ch →
    s.getCharTable ch.emchar t = some p.2

section covering

variable {charsets : Charsets} {values : TableValues V} {s : CharTables V} {place : Nat → Place}
  {t : Nat} {ct : CharTable V} {w : TableView V} {range : ChartabRange}
  {l m : List (ChartabRange × V)}

theorem Viewed.passes (h : Viewed s place t ct w) (hrange : range.Valid s.charsets) :
    Passes s t range (w.subranges s.charsets range) := by
  intro σ tables f hf st hst
  have hkeeps : ∀ st, tables st = s → Keeps s place t (tables st) := fun st hst =>
    hst.symm ▸ .refl s place t
  rw [h.mapCharTable_calls hkeeps hrange (fun p _ st retval st' hst hcall => ?_) st hst,
    callAll_returns]
  cases hcall
  exact (hf ..).trans hst

theorem Passes.unique (h : Passes s t range l) (h' : Passes s t range m) : l = m := by
  have happend : ∀ l : List (ChartabRange × V),
      l.foldl (fun st p => st ++ [(p.1, p.2)]) [] = l := by
    intro l
    rw [foldl_append_eq_append, nil_append, ← flatMap_def, flatMap_singleton']
  have hl := h _ (fun _ => s) (fun range val st => st ++ [(range, val)]) (fun _ _ _ => rfl) [] rfl
  have hm := h' _ (fun _ => s) (fun range val st => st ++ [(range, val)]) (fun _ _ _ => rfl) [] rfl
  rw [hl] at hm
  simp only [Option.some.injEq, Prod.mk.injEq, true_and] at hm
  rwa [happend, happend] at hm

theorem skipped_char (hrange : range.Valid charsets) (h : range.Skipped) :
    ∃ ch : Mchar, ch.Valid charsets ∧ range.Has ch := by
  obtain ⟨c, rfl, hc⟩ := h
  refine ⟨⟨c, 0, 0⟩, ⟨hrange, ?_⟩, rfl⟩
  rw [Mchar.Positions]
  rcases hc with hascii | hcontrol
  · rw [if_pos hascii]
    exact ⟨Nat.zero_lt_succ _, rfl⟩
  · rw [if_neg (by rw [hcontrol]; decide), if_pos hcontrol]
    exact ⟨Nat.zero_lt_succ _, rfl⟩

theorem Sound.covers_iff {views : List (TableView V)} (h : Sound s place views)
    (ht : t < s.tables.length) (hrange : range.Valid s.charsets) :
    (∃ l, Passes s t range l ∧ Covers s t range l) ↔ ¬ range.Skipped := by
  have hct := getElem?_eq_getElem ht
  rw [← h.shows.length] at ht
  have hview := getElem?_eq_getElem ht
  have hpasses := (h.viewed hct hview).passes hrange
  constructor
  · rintro ⟨l, hl, hcovers⟩ hskipped
    obtain ⟨ch, hch, hhas⟩ := skipped_char hrange hskipped
    obtain ⟨p, hp, -⟩ := (hcovers.partitions.union ch).mp ⟨hch, hhas⟩
    rw [hl.unique hpasses, subranges_skipped hskipped] at hp
    cases hp
  · intro hskipped
    refine ⟨_, hpasses, partitions_subranges hrange hskipped _, fun p hp ch hch hhas => ?_⟩
    rw [h.getCharTable_eq hview hch, (subranges_subrange hrange p hp).value ch hch hhas]

/-- **The map covers its range** if this is not the charset ASCII or Control-1. -/
theorem map_char_table_covers_iff {ops : List (Op V)} (hrun : Run values (.start charsets) ops s)
    (ht : t < s.tables.length) (hrange : range.Valid s.charsets) :
    (∃ l, Passes s t range l ∧ Covers s t range l) ↔ ¬ range.Skipped := by
  obtain ⟨place, views, hsound, -⟩ := (sound_start charsets).run hrun
  exact hsound.covers_iff ht hrange

end covering

/-- All the characters of a new table. -/
theorem newTable_covers :
    ∃ s t, makeCharTable numberValues (.start .initial) .typeChar = some (s, t) ∧
      ∃ l, Passes s t .all l ∧ Covers s t .all l := by
  have hrun : Run numberValues (.start .initial) [.make .typeChar] _ := .cons (.make rfl) (.nil _)
  refine ⟨_, 0, rfl, (map_char_table_covers_iff hrun (Nat.zero_lt_succ _) ?_).mpr ?_⟩
  · trivial
  · rintro ⟨c, hc, -⟩
    cases hc

/-- The charset ASCII of a new table is not covered. -/
theorem asciiCharset_not_covered : ¬ ∀ (values : TableValues Nat) (charsets : Charsets)
    (ops : List (Op Nat)) (s : CharTables Nat), Run values (.start charsets) ops s →
    ∀ t range, t < s.tables.length → range.Valid s.charsets →
      ∃ l, Passes s t range l ∧ Covers s t range l := by
  intro h
  have hrun : Run numberValues (.start .initial) [.make .typeChar] _ := .cons (.make rfl) (.nil _)
  obtain ⟨place, views, hsound, -⟩ := (sound_start .initial).run hrun
  let ascii : Charset := ⟨0x8E, 1, .type94, 0, 0x42, .leftToRight, none⟩
  have hascii : (ChartabRange.charset ascii).Valid .initial := List.mem_cons_self ..
  exact (hsound.covers_iff (Nat.zero_lt_succ _) hascii).mp
    (h _ _ _ _ hrun 0 _ (Nat.zero_lt_succ _) hascii) ⟨ascii, rfl, .inl rfl⟩

end XEmacs.Chartab

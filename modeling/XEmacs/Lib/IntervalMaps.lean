import Mathlib.Data.List.Basic
import Mathlib.Tactic.Common

/-!
# Interval maps

A partial map on the integers that is constant on intervals, as the list of the intervals.
-/

namespace IntervalMaps

open List

/-- An interval with a value. -/
structure Interval (V : Type*) where
  first : Int
  last : Int
  val : V
deriving DecidableEq, Repr

variable {V : Type*}

/-- A position is in the interval. -/
abbrev Interval.Has (e : Interval V) (pos : Int) : Prop := e.first ≤ pos ∧ pos ≤ e.last

/-- The value of the first interval that has the position. -/
def lookup : List (Interval V) → Int → Option V
  | [], _ => none
  | e :: l, pos => if e.Has pos then some e.val else lookup l pos

@[simp] theorem lookup_nil (pos : Int) : lookup ([] : List (Interval V)) pos = none := rfl

theorem lookup_cons (e : Interval V) (l : List (Interval V)) (pos : Int) :
    lookup (e :: l) pos = if e.Has pos then some e.val else lookup l pos := rfl

theorem lookup_append (l l' : List (Interval V)) (pos : Int) :
    lookup (l ++ l') pos = (lookup l pos).or (lookup l' pos) := by
  induction l with
  | nil => rfl
  | cons e l ih =>
    rw [cons_append, lookup_cons, lookup_cons, ih]
    split
    · rfl
    · rfl

theorem lookup_eq_none_iff {l : List (Interval V)} {pos : Int} :
    lookup l pos = none ↔ ∀ e ∈ l, ¬ e.Has pos := by
  induction l with
  | nil => exact iff_of_true rfl fun _ he => absurd he not_mem_nil
  | cons e l ih =>
    rw [lookup_cons, forall_mem_cons, ← ih]
    split
    · rename_i hin
      exact iff_of_false nofun fun hboth => hboth.1 hin
    · rename_i hout
      exact (and_iff_right hout).symm

theorem exists_of_lookup {l : List (Interval V)} {pos : Int} {v : V} (h : lookup l pos = some v) :
    ∃ e ∈ l, e.Has pos ∧ e.val = v := by
  induction l with
  | nil => cases h
  | cons e l ih =>
    rw [lookup_cons] at h
    split at h
    · rename_i hin
      exact ⟨e, mem_cons_self .., hin, Option.some.inj h⟩
    · obtain ⟨d, hd, hrest⟩ := ih h
      exact ⟨d, mem_cons_of_mem e hd, hrest⟩

/-- One interval is before another, and they do not touch if they have the same value. -/
def Apart (e e' : Interval V) : Prop :=
  e.last < e'.first ∧ (e.last + 1 = e'.first → e.val ≠ e'.val)

/-- The intervals are not empty and in order, and no two could be one. -/
structure Canonical (l : List (Interval V)) : Prop where
  proper : ∀ e ∈ l, e.first ≤ e.last
  apart : l.Pairwise Apart

namespace Canonical

variable {l l' : List (Interval V)} {e : Interval V}

theorem nil : Canonical ([] : List (Interval V)) := ⟨nofun, .nil⟩

theorem tail (h : Canonical (e :: l)) : Canonical l :=
  ⟨fun d hd => h.proper d (mem_cons_of_mem e hd), h.apart.tail⟩

theorem head_apart (h : Canonical (e :: l)) : ∀ d ∈ l, Apart e d :=
  (List.pairwise_cons.mp h.apart).1

theorem append_iff : Canonical (l ++ l') ↔
    Canonical l ∧ Canonical l' ∧ ∀ e ∈ l, ∀ d ∈ l', Apart e d := by
  constructor
  · intro h
    obtain ⟨hl, hl', hboth⟩ := List.pairwise_append.mp h.apart
    exact ⟨⟨fun e he => h.proper e (mem_append_left l' he), hl⟩,
      ⟨fun e he => h.proper e (mem_append_right l he), hl'⟩, hboth⟩
  · rintro ⟨hl, hl', hboth⟩
    refine ⟨fun e he => ?_, List.pairwise_append.mpr ⟨hl.apart, hl'.apart, hboth⟩⟩
    obtain he | he := List.mem_append.mp he
    · exact hl.proper e he
    · exact hl'.proper e he

theorem cons_iff : Canonical (e :: l) ↔ e.first ≤ e.last ∧ Canonical l ∧ ∀ d ∈ l, Apart e d := by
  constructor
  · exact fun h => ⟨h.proper e (mem_cons_self ..), h.tail, h.head_apart⟩
  · rintro ⟨hproper, hl, hall⟩
    exact ⟨List.forall_mem_cons.mpr ⟨hproper, hl.proper⟩, List.pairwise_cons.mpr ⟨hall, hl.apart⟩⟩

theorem lookup_tail (h : Canonical (e :: l)) {pos : Int} (hpos : pos ≤ e.last) :
    lookup l pos = none := by
  refine lookup_eq_none_iff.mpr fun d hd hin => ?_
  have hbefore := (h.head_apart d hd).1
  have hfirst := hin.1
  omega

/-- **The map determines the intervals.** The induction takes off the first interval: it begins
with the first position of the map, and ends where the value changes. -/
theorem unique (h : Canonical l) (h' : Canonical l') (hsame : lookup l = lookup l') : l = l' := by
  induction l generalizing l' with
  | nil =>
    cases l' with
    | nil => rfl
    | cons e' l' =>
      have hlookup := congrFun hsame e'.first
      have hproper := h'.proper e' (mem_cons_self ..)
      rw [lookup_cons, if_pos ⟨Int.le_refl _, hproper⟩] at hlookup
      cases hlookup
  | cons e l ih =>
    cases l' with
    | nil =>
      have hlookup := congrFun hsame e.first
      have hproper := h.proper e (mem_cons_self ..)
      rw [lookup_cons, if_pos ⟨Int.le_refl _, hproper⟩] at hlookup
      cases hlookup
    | cons e' l' =>
      have hfirst := first_le h h' hsame
      have hfirst' := first_le h' h hsame.symm
      have hlast := last_le h h' hsame (by omega)
      have hlast' := last_le h' h hsame.symm (by omega)
      have hproper := h.proper e (mem_cons_self ..)
      have hval : e.val = e'.val := by
        have hlookup := congrFun hsame e.first
        rw [lookup_cons, lookup_cons, if_pos ⟨Int.le_refl _, hproper⟩, if_pos ⟨hfirst', by omega⟩,
          Option.some.injEq] at hlookup
        exact hlookup
      have he : e = e' := by
        obtain ⟨first, last, val⟩ := e
        obtain ⟨first', last', val'⟩ := e'
        simp only at hfirst hfirst' hlast hlast' hval
        rw [Int.le_antisymm hfirst hfirst', Int.le_antisymm hlast hlast', hval]
      subst he
      refine congrArg (e :: ·) (ih h.tail h'.tail ?_)
      funext pos
      by_cases hpos : pos ≤ e.last
      · rw [h.lookup_tail hpos, h'.lookup_tail hpos]
      · have hlookup := congrFun hsame pos
        rw [lookup_cons, lookup_cons, if_neg fun hin => hpos hin.2, if_neg fun hin => hpos hin.2]
          at hlookup
        exact hlookup
where
  first_le {e e' : Interval V} {l l' : List (Interval V)} (h : Canonical (e :: l))
      (h' : Canonical (e' :: l')) (hsame : lookup (e :: l) = lookup (e' :: l')) :
      e.first ≤ e'.first := by
    by_contra hlt
    have hproper := h.proper e (mem_cons_self ..)
    have hproper' := h'.proper e' (mem_cons_self ..)
    have hlookup := congrFun hsame e'.first
    rw [lookup_cons, lookup_cons, if_pos (show e'.Has e'.first from ⟨Int.le_refl _, hproper'⟩),
      if_neg fun hin => hlt hin.1, h.lookup_tail (by omega)] at hlookup
    cases hlookup
  last_le {e e' : Interval V} {l l' : List (Interval V)} (h : Canonical (e :: l))
      (h' : Canonical (e' :: l')) (hsame : lookup (e :: l) = lookup (e' :: l'))
      (hfirst : e.first = e'.first) : e.last ≤ e'.last := by
    by_contra hlt
    have hproper := h.proper e (mem_cons_self ..)
    have hproper' := h'.proper e' (mem_cons_self ..)
    have hval := congrFun hsame e.first
    rw [lookup_cons, lookup_cons, if_pos (show e.Has e.first from ⟨Int.le_refl _, hproper⟩),
      if_pos (show e'.Has e.first from ⟨by omega, by omega⟩), Option.some.injEq] at hval
    -- the position after the shorter interval has the same value in the longer one
    have hnext := congrFun hsame (e'.last + 1)
    rw [lookup_cons, if_pos (show e.Has (e'.last + 1) from ⟨by omega, by omega⟩), lookup_cons,
      if_neg (show ¬ e'.Has (e'.last + 1) from fun hin => by have := hin.2; omega)] at hnext
    obtain ⟨d, hd, hhas, hdval⟩ := exists_of_lookup hnext.symm
    have hapart := h'.head_apart d hd
    have hdfirst : e'.last + 1 = d.first := by
      have := hhas.1
      have := hapart.1
      omega
    exact hapart.2 hdfirst (hval.symm.trans hdval.symm)

theorem lookup_of_mem (h : Canonical l) (he : e ∈ l) {pos : Int} (hin : e.Has pos) :
    lookup l pos = some e.val := by
  induction l with
  | nil => cases he
  | cons d l ih =>
    rw [lookup_cons]
    obtain rfl | he := List.mem_cons.mp he
    · rw [if_pos hin]
    · have hbefore := (h.head_apart e he).1
      rw [if_neg fun hd => by have := hin.1; have := hd.2; omega, ih h.tail he]

end Canonical

/-! ### Taking a range out -/

/-- What of an interval is before a position. -/
def Interval.before (first : Int) (e : Interval V) : Option (Interval V) :=
  if e.first < first then some { e with last := min e.last (first - 1) } else none

/-- What of an interval is after a position. -/
def Interval.after (last : Int) (e : Interval V) : Option (Interval V) :=
  if last < e.last then some { e with first := max e.first (last + 1) } else none

/-- What is before a position. -/
def lefts (first : Int) (l : List (Interval V)) : List (Interval V) :=
  l.filterMap (Interval.before first)

/-- What is after a position. -/
def rights (last : Int) (l : List (Interval V)) : List (Interval V) :=
  l.filterMap (Interval.after last)

/-- The range from `first` to `last` taken out. -/
def erase (first last : Int) (l : List (Interval V)) : List (Interval V) :=
  lefts first l ++ rights last l

section erase

variable {l : List (Interval V)} {first last : Int}

theorem mem_lefts {d : Interval V} : d ∈ lefts first l ↔
    ∃ e ∈ l, e.first < first ∧ d = { e with last := min e.last (first - 1) } := by
  rw [lefts, mem_filterMap]
  refine exists_congr fun e => and_congr_right fun _ => ?_
  rw [Interval.before]
  split
  · rename_i h
    rw [Option.some.injEq, and_iff_right h, eq_comm]
  · rename_i h
    exact iff_of_false nofun fun hboth => h hboth.1

theorem mem_rights {d : Interval V} : d ∈ rights last l ↔
    ∃ e ∈ l, last < e.last ∧ d = { e with first := max e.first (last + 1) } := by
  rw [rights, mem_filterMap]
  refine exists_congr fun e => and_congr_right fun _ => ?_
  rw [Interval.after]
  split
  · rename_i h
    rw [Option.some.injEq, and_iff_right h, eq_comm]
  · rename_i h
    exact iff_of_false nofun fun hboth => h hboth.1

theorem lookup_lefts (pos : Int) :
    lookup (lefts first l) pos = if pos < first then lookup l pos else none := by
  induction l with
  | nil => exact (ite_self none).symm
  | cons e l ih =>
    rw [lefts, filterMap_cons, Interval.before]
    by_cases he : e.first < first
    · rw [if_pos he]
      show lookup (_ :: lefts first l) pos = _
      rw [lookup_cons, lookup_cons, ih]
      unfold Interval.Has
      simp only
      split_ifs <;> first | rfl | omega
    · rw [if_neg he]
      show lookup (lefts first l) pos = _
      rw [ih, lookup_cons]
      unfold Interval.Has
      split_ifs <;> first | rfl | omega

theorem lookup_rights (pos : Int) :
    lookup (rights last l) pos = if last < pos then lookup l pos else none := by
  induction l with
  | nil => exact (ite_self none).symm
  | cons e l ih =>
    rw [rights, filterMap_cons, Interval.after]
    by_cases he : last < e.last
    · rw [if_pos he]
      show lookup (_ :: rights last l) pos = _
      rw [lookup_cons, lookup_cons, ih]
      unfold Interval.Has
      simp only
      split_ifs <;> first | rfl | omega
    · rw [if_neg he]
      show lookup (rights last l) pos = _
      rw [ih, lookup_cons]
      unfold Interval.Has
      split_ifs <;> first | rfl | omega

theorem Canonical.lefts (h : Canonical l) (first : Int) : Canonical (lefts first l) := by
  constructor
  · intro d hd
    obtain ⟨e, he, hlt, rfl⟩ := mem_lefts.mp hd
    have hproper := h.proper e he
    simp only
    omega
  · refine h.apart.filterMap _ fun e e' hapart d hd d' hd' => ?_
    rw [Interval.before, Option.ite_none_right_eq_some, Option.some.injEq] at hd hd'
    obtain ⟨hlt, rfl⟩ := hd
    obtain ⟨hlt', rfl⟩ := hd'
    have hbefore := hapart.1
    refine ⟨by simp only; omega, fun htouch => hapart.2 ?_⟩
    simp only at htouch
    omega

theorem Canonical.rights (h : Canonical l) (last : Int) : Canonical (rights last l) := by
  constructor
  · intro d hd
    obtain ⟨e, he, hlt, rfl⟩ := mem_rights.mp hd
    have hproper := h.proper e he
    simp only
    omega
  · refine h.apart.filterMap _ fun e e' hapart d hd d' hd' => ?_
    rw [Interval.after, Option.ite_none_right_eq_some, Option.some.injEq] at hd hd'
    obtain ⟨hlt, rfl⟩ := hd
    obtain ⟨hlt', rfl⟩ := hd'
    have hbefore := hapart.1
    refine ⟨by simp only; omega, fun htouch => hapart.2 ?_⟩
    simp only at htouch
    omega

theorem last_lt_of_mem_lefts {d : Interval V} (hd : d ∈ IntervalMaps.lefts first l) :
    d.last < first := by
  obtain ⟨e, -, -, rfl⟩ := mem_lefts.mp hd
  simp only
  omega

theorem lt_first_of_mem_rights {d : Interval V} (hd : d ∈ IntervalMaps.rights last l) :
    last < d.first := by
  obtain ⟨e, -, -, rfl⟩ := mem_rights.mp hd
  simp only
  omega

theorem Canonical.erase (h : Canonical l) (hle : first ≤ last) : Canonical (erase first last l) := by
  refine append_iff.mpr ⟨h.lefts first, h.rights last, fun e he d hd => ?_⟩
  have hlt := last_lt_of_mem_lefts he
  have hlt' := lt_first_of_mem_rights hd
  exact ⟨by omega, fun htouch => by omega⟩

theorem lookup_erase (hle : first ≤ last) (pos : Int) :
    lookup (erase first last l) pos
      = if first ≤ pos ∧ pos ≤ last then none else lookup l pos := by
  rw [IntervalMaps.erase, lookup_append, lookup_lefts, lookup_rights]
  split_ifs <;> first | rfl | omega | simp

end erase

/-! ### Giving a range a value -/

section paint

variable [DecidableEq V]

/-- The interval joined with the last one before it, if they touch and have the same value. -/
def joinLeft (l : List (Interval V)) (e : Interval V) : List (Interval V) × Interval V :=
  match l.getLast? with
  | some d =>
    if e.val = d.val ∧ d.last = e.first - 1 then (l.dropLast, { e with first := d.first })
    else (l, e)
  | none => (l, e)

/-- The interval joined with the first one after it, if they touch and have the same value. -/
def joinRight (e : Interval V) : List (Interval V) → List (Interval V)
  | [] => [e]
  | d :: l =>
    if e.val = d.val ∧ d.first = e.last + 1 then { e with last := d.last } :: l else e :: d :: l

/-- The range of `e` given the value of `e`. -/
def paint (e : Interval V) (l : List (Interval V)) : List (Interval V) :=
  let (before, e') := joinLeft (lefts e.first l) e
  before ++ joinRight e' (rights e.last l)

variable {l r : List (Interval V)} {e : Interval V}

/-- What joining to the left makes of an interval after canonical ones. -/
structure Joined (l : List (Interval V)) (e : Interval V) (joined : List (Interval V) × Interval V) :
    Prop where
  canonical : Canonical joined.1
  proper : joined.2.first ≤ joined.2.last
  apart : ∀ d ∈ joined.1, Apart d joined.2
  last : joined.2.last = e.last
  val : joined.2.val = e.val
  lookup : ∀ pos, lookup (joined.1 ++ [joined.2]) pos = lookup (l ++ [e]) pos

theorem joinLeft_spec (hl : Canonical l) (he : e.first ≤ e.last)
    (hbefore : ∀ d ∈ l, d.last < e.first) :
    Joined l e (joinLeft l e) := by
  rw [joinLeft]
  cases hlast : l.getLast? with
  | none =>
    obtain rfl := List.getLast?_eq_none_iff.mp hlast
    exact ⟨hl, he, nofun, rfl, rfl, fun _ => rfl⟩
  | some d =>
    obtain ⟨l', rfl⟩ := List.getLast?_eq_some_iff.mp hlast
    obtain ⟨hl', hd, hall⟩ := Canonical.append_iff.mp hl
    have hdproper := hd.proper d (mem_singleton_self d)
    have hdlast := hbefore d (mem_append_right _ (mem_singleton_self d))
    simp only
    split
    · rename_i hjoin
      rw [dropLast_concat]
      refine ⟨hl', by simp only; omega, fun c hc => ?_, rfl, rfl, fun pos => ?_⟩
      · have hapart := hall c hc d (mem_singleton_self d)
        exact ⟨hapart.1, fun htouch => by rw [hjoin.1]; exact hapart.2 htouch⟩
      · rw [append_assoc, lookup_append, lookup_append]
        congr 1
        rw [lookup_cons, singleton_append, lookup_cons, lookup_cons, hjoin.1]
        unfold Interval.Has
        simp only
        split_ifs <;> first | rfl | omega
    · rename_i hno
      refine ⟨hl, he, fun c hc => ⟨hbefore c hc, fun htouch => ?_⟩, rfl, rfl, fun _ => rfl⟩
      obtain hc | hc := List.mem_append.mp hc
      · have hcd := (hall c hc d (mem_singleton_self d)).1
        simp only at htouch
        omega
      · obtain rfl := List.mem_singleton.mp hc
        simp only at htouch
        exact fun hval => hno ⟨hval.symm, by omega⟩

theorem joinRight_canonical (hr : Canonical r) (he : e.first ≤ e.last)
    (hafter : ∀ d ∈ r, e.last < d.first) : Canonical (joinRight e r) := by
  cases r with
  | nil => exact Canonical.cons_iff.mpr ⟨he, .nil, nofun⟩
  | cons d r =>
    have hdproper := hr.proper d (mem_cons_self ..)
    have hdfirst := hafter d (mem_cons_self ..)
    rw [joinRight]
    split
    · rename_i hjoin
      refine Canonical.cons_iff.mpr ⟨by simp only; omega, hr.tail, fun c hc => ?_⟩
      have hapart := hr.head_apart c hc
      exact ⟨hapart.1, fun htouch => by rw [hjoin.1]; exact hapart.2 htouch⟩
    · rename_i hno
      refine Canonical.cons_iff.mpr ⟨he, hr, fun c hc => ⟨hafter c hc, fun htouch => ?_⟩⟩
      obtain rfl | hc := List.mem_cons.mp hc
      · exact fun hval => hno ⟨hval, htouch.symm⟩
      · have hdc := (hr.head_apart c hc).1
        omega

theorem lookup_joinRight (he : e.first ≤ e.last) (hr : Canonical r) (pos : Int) :
    lookup (joinRight e r) pos = lookup (e :: r) pos := by
  cases r with
  | nil => rfl
  | cons d r =>
    have hdproper := hr.proper d (mem_cons_self ..)
    rw [joinRight]
    split
    · rename_i hjoin
      rw [lookup_cons, lookup_cons, lookup_cons, hjoin.1]
      unfold Interval.Has
      simp only
      split_ifs <;> first | rfl | omega
    · rfl

theorem apart_joinRight {d : Interval V} (hde : Apart d e) (he : e.first ≤ e.last)
    (hafter : ∀ c ∈ r, e.last < c.first) : ∀ c ∈ joinRight e r, Apart d c := by
  have hlater : ∀ c ∈ r, Apart d c := by
    intro c hc
    have hec := hafter c hc
    have hbefore := hde.1
    exact ⟨by omega, fun htouch => by omega⟩
  cases r with
  | nil =>
    intro c hc
    obtain rfl := List.mem_singleton.mp hc
    exact hde
  | cons b r =>
    intro c hc
    rw [joinRight] at hc
    split at hc
    · obtain rfl | hc := List.mem_cons.mp hc
      · exact hde
      · exact hlater c (mem_cons_of_mem b hc)
    · obtain rfl | hc := List.mem_cons.mp hc
      · exact hde
      · exact hlater c hc

theorem Canonical.paint (h : Canonical l) (he : e.first ≤ e.last) : Canonical (paint e l) := by
  have hjoined := joinLeft_spec (h.lefts e.first) he fun d hd => last_lt_of_mem_lefts hd
  have hafter : ∀ d ∈ IntervalMaps.rights e.last l,
      (joinLeft (IntervalMaps.lefts e.first l) e).2.last < d.first := fun d hd =>
    hjoined.last ▸ lt_first_of_mem_rights hd
  refine append_iff.mpr ⟨hjoined.canonical,
    joinRight_canonical (h.rights e.last) hjoined.proper hafter, fun d hd => ?_⟩
  exact apart_joinRight (hjoined.apart d hd) hjoined.proper hafter

/-- **The range has the value, and all else is as it was.** -/
theorem lookup_paint (h : Canonical l) (he : e.first ≤ e.last) (pos : Int) :
    lookup (paint e l) pos = if e.Has pos then some e.val else lookup l pos := by
  have hjoined := joinLeft_spec (h.lefts e.first) he fun d hd => last_lt_of_mem_lefts hd
  rw [IntervalMaps.paint]
  simp only
  rw [lookup_append, lookup_joinRight hjoined.proper (h.rights e.last), lookup_cons,
    lookup_rights]
  have hleft := hjoined.lookup pos
  rw [lookup_append, lookup_append, lookup_cons, lookup_cons, lookup_lefts] at hleft
  simp only [lookup_nil] at hleft
  unfold Interval.Has at hleft ⊢
  split_ifs at hleft ⊢ <;> simp_all <;> omega

end paint

end IntervalMaps

import XEmacs.Plists.Walk
import Mathlib.Algebra.Group.Nat.Even

/-!
# The walk along a property list is safe

After `k` rounds the tortoise is at the `k`-th tail of the list and the hare at the `2k`-th. A
round goes on (`Goes`) where the hare has two more cells or is at the end, and does not come to
where the tortoise goes.
-/

namespace XEmacs.Plists

open ConsLists Machines List
open XEmacs.Lists (Fault xcar xcdr setXcar)

variable {α : Type} {c : Cells α} {plist : Ref α} {s : Pointers} {k n : Nat}

/-- The pointers after `k` rounds. -/
structure At (c : Cells α) (plist : Ref α) (k : Nat) (s : Pointers) : Prop where
  tortoise : s.tortoise = Place.nth c plist k
  hare : s.hare.get c plist = c.tail plist (2 * k)
  cells : ∀ j < k, (c.tail plist j).IsCell

theorem At.start : At c plist 0 start := ⟨rfl, rfl, fun _ hj => absurd hj (Nat.not_lt_zero _)⟩

theorem At.tortoise_get (h : At c plist k s) : s.tortoise.get c plist = c.tail plist k := by
  rw [h.tortoise, Place.get_nth h.cells]

theorem At.xcdrPlace (hs : At c plist k s) {p : Nat} (hp : c.tail plist k = .cell p) :
    xcdrPlace (s.tortoise.get c plist) = .ok (.cdr p) := by
  rw [hs.tortoise_get, hp]
  rfl

/-- The hare can go on. -/
def HareGoes (nil : α) (c : Cells α) (plist : Ref α) (k : Nat) : Prop :=
  c.tail plist (2 * k) = .atom nil ∨
    (c.tail plist (2 * k)).IsCell ∧ (c.tail plist (2 * k + 1)).IsCell

/-- The round goes on. -/
structure Goes (nil : α) (c : Cells α) (plist : Ref α) (k : Nat) : Prop where
  cell : (c.tail plist k).IsCell
  hare : HareGoes nil c plist k
  apart : c.tail plist (2 * k + 2) = .atom nil ∨
    c.tail plist (k + 1) ≠ c.tail plist (2 * k + 2)

/-! ### Property lists -/

/-- The object is a property list with these entries, each in two cells. -/
inductive IsPlist (nil : α) (c : Cells α) : Ref α → List (Nat × Nat) → List (α × α) → Prop
  | nil : IsPlist nil c (.atom nil) [] []
  | cons {p q : Nat} {ps : List (Nat × Nat)} {es : List (α × α)} (hq : c.cdr p = .cell q)
    (h : IsPlist nil c (c.cdr q) ps es) :
    IsPlist nil c (.cell p) ((p, q) :: ps) ((c.car p, c.car q) :: es)

/-- A finite list of even length that ends in nil. -/
def WellFormed (nil : α) (c : Cells α) (plist : Ref α) : Prop :=
  ∃ n, c.tail plist n = .atom nil ∧ (∀ j < n, (c.tail plist j).IsCell) ∧ Even n

section IsPlist

variable {nil : α} {ps : List (Nat × Nat)} {es : List (α × α)}

theorem tail_two {p q : Nat} (hq : c.cdr p = .cell q) (j : Nat) :
    c.tail (.cell p) (j + 2) = c.tail (c.cdr q) j := by
  rw [Cells.tail_succ', Cells.tail_succ', Cells.rest, hq]
  rfl

theorem IsPlist.tails (h : IsPlist nil c plist ps es) :
    c.tail plist (2 * ps.length) = .atom nil ∧
      ∀ j < 2 * ps.length, (c.tail plist j).IsCell := by
  induction h with
  | nil => exact ⟨rfl, fun j hj => absurd hj (Nat.not_lt_zero j)⟩
  | @cons p q ps es hq h ih =>
    refine ⟨(tail_two hq _).trans ih.1, fun j hj => ?_⟩
    match j with
    | 0 => trivial
    | 1 =>
      rw [Cells.tail_succ_of_cell rfl, hq]
      trivial
    | j + 2 =>
      rw [tail_two hq]
      exact ih.2 j (by rw [length_cons] at hj; omega)

theorem IsPlist.length_eq (h : IsPlist nil c plist ps es) : ps.length = es.length := by
  induction h with
  | nil => rfl
  | cons _ _ ih => rw [length_cons, length_cons, ih]

theorem WellFormed.isPlist (h : WellFormed nil c plist) : ∃ ps es, IsPlist nil c plist ps es := by
  obtain ⟨n, hend, hcells, m, rfl⟩ := h
  induction m generalizing plist with
  | zero =>
    obtain rfl : plist = .atom nil := hend
    exact ⟨[], [], .nil⟩
  | succ m ih =>
    obtain ⟨p, rfl⟩ := (hcells 0 (by omega)).exists
    obtain ⟨q, hq⟩ := (hcells 1 (by omega)).exists
    rw [Cells.tail_succ_of_cell rfl] at hq
    have hend' : c.tail (c.cdr q) (m + m) = .atom nil := by
      rw [← tail_two hq, ← hend]
      congr 1
      omega
    obtain ⟨ps, es, hrest⟩ := ih hend' fun j hj => by
      rw [← tail_two hq]
      exact hcells _ (by omega)
    exact ⟨_, _, .cons hq hrest⟩

theorem IsPlist.goes (h : IsPlist nil c plist ps es) (hk : k < 2 * ps.length) :
    Goes nil c plist k := by
  obtain ⟨hend, hcells⟩ := h.tails
  refine ⟨hcells k hk, ?_, ?_⟩
  · by_cases hhare : ps.length ≤ k
    · exact .inl (Cells.tail_of_le hend (by omega))
    · exact .inr ⟨hcells _ (by omega), hcells _ (by omega)⟩
  · by_cases hhare : ps.length ≤ k + 1
    · exact .inl (Cells.tail_of_le hend (by omega))
    · exact .inr (Cells.tail_ne hend hcells (by omega) (by omega))

end IsPlist

/-! ### Other lists -/

section otherLists

variable {nil : α}

/-- The last round along a list that is not well-formed. -/
structure LastRound (nil : α) (c : Cells α) (plist : Ref α) (n : Nat) : Prop where
  goes : ∀ k < n, Goes nil c plist k
  stops : ¬ Goes nil c plist n
  ne_nil : ∀ k ≤ n, c.tail plist k ≠ .atom nil
  cell : ∀ k ≤ n, HareGoes nil c plist k → (c.tail plist k).IsCell

theorem lastRound_of_atom {a : α} (hend : c.tail plist n = .atom a)
    (hcells : ∀ j < n, (c.tail plist j).IsCell) (h : ¬ (a = nil ∧ Even n)) :
    LastRound nil c plist (n / 2) := by
  have hlt : ∀ {j}, (c.tail plist j).IsCell → j < n := fun hj => Cells.isCell_of_lt hend hj
  have hpast : ∀ {j}, n ≤ j → c.tail plist j = .atom nil → a = nil := by
    intro j hj hnil
    rw [Cells.tail_of_le hend hj] at hnil
    exact Ref.atom.inj hnil
  have hne : ∀ {j}, j < n → c.tail plist j ≠ .atom nil := by
    intro j hj hnil
    have hcell := hcells j hj
    rw [hnil] at hcell
    exact hcell
  have hhare : ∀ k, 2 * k ≤ n → HareGoes nil c plist k → 2 * k + 1 < n := by
    rintro k hk (hnil | ⟨-, hcell⟩)
    · by_contra hlast
      by_cases hlt : 2 * k < n
      · exact hne hlt hnil
      · exact h ⟨hpast (Nat.not_lt.mp hlt) hnil, k, by omega⟩
    · exact hlt hcell
  refine ⟨fun k hk => ⟨hcells k (by omega), ?_, ?_⟩, fun hgoes => ?_, fun k hk => ?_,
    fun k hk hgoes => hcells k ?_⟩
  · exact .inr ⟨hcells _ (by omega), hcells _ (by omega)⟩
  · exact .inr (Cells.tail_ne hend hcells (by omega) (by omega))
  · have := hhare (n / 2) (by omega) hgoes.hare
    omega
  · by_cases hk' : k < n
    · exact hne hk'
    · intro hnil
      have hzero : n = 0 := by omega
      exact h ⟨hpast (Nat.not_lt.mp hk') hnil, hzero ▸ Even.zero⟩
  · have := hhare k (by omega) hgoes
    omega

theorem lastRound_of_circular (hc : c.Closed) (hplist : plist.Live c.next)
    (hcells : ∀ j, (c.tail plist j).IsCell) : ∃ n, LastRound nil c plist n := by
  classical
  have hmeet := hc.exists_meet hplist hcells
  have hne : ∀ j, c.tail plist j ≠ .atom nil := by
    intro j hnil
    have hcell := hcells j
    rw [hnil] at hcell
    exact hcell
  obtain ⟨hpos, heq⟩ := Nat.find_spec hmeet
  refine ⟨Nat.find hmeet - 1, fun k hk => ⟨hcells k, .inr ⟨hcells _, hcells _⟩, .inr ?_⟩,
    fun hgoes => ?_, fun k _ => hne k, fun k _ _ => hcells k⟩
  · intro heq'
    exact Nat.find_min hmeet (m := k + 1) (by omega) ⟨Nat.succ_pos k, heq'.symm⟩
  · refine hgoes.apart.elim (hne _) fun hapart => hapart ?_
    have hsucc : Nat.find hmeet - 1 + 1 = Nat.find hmeet := by omega
    have hdouble : 2 * (Nat.find hmeet - 1) + 2 = 2 * Nat.find hmeet := by omega
    rw [hsucc, hdouble, heq]

theorem exists_lastRound (hc : c.Closed) (hplist : plist.Live c.next)
    (h : ¬ WellFormed nil c plist) : ∃ n, LastRound nil c plist n := by
  obtain ⟨n, a, hend, hcells⟩ | hcells := Cells.tail_cases c plist
  · refine ⟨n / 2, lastRound_of_atom hend hcells ?_⟩
    rintro ⟨rfl, heven⟩
    exact h ⟨n, hend, hcells, heven⟩
  · exact lastRound_of_circular hc hplist hcells

end otherLists

/-! ### What walks end with -/

section walked

variable {nil : α} {errb : ErrorBehavior}

/-- The test on an entry is one of its key. -/
def Tests (c : Cells α) (found : Ref α → Except Fault Bool) (test : α → Bool) : Prop :=
  ∀ p, found (.cell p) = .ok (test (c.car p))

theorem Tests.none : Tests c (fun _ => .ok false) fun _ => false := fun _ => rfl

/-- What the loop returns where the walk stops. -/
def stopped (nil : α) (errb : ErrorBehavior) (c : Cells α) (plist : Ref α) (badplace : Place)
    (e : PlistError α) : Walked α :=
  match bad nil errb c plist badplace e with
  | .on _ => .ended
  | .unbound plist' c' => .unbound plist' c'
  | .signaled e => .signaled e

/-- What a walk along a property list ends with. -/
def walked (c : Cells α) (plist : Ref α) : Option Nat → Walked α
  | none => .ended
  | some i => .found (Place.nth c plist (2 * i))

/-- A place that a walk has found is that of an entry. -/
def Walked.Sound (c : Cells α) (plist : Ref α) (w : Walked α) : Prop :=
  ∀ place, w = .found place → ∃ p q, place.get c plist = .cell p ∧ c.cdr p = .cell q

theorem Tests.keyIs (c : Cells α) (same : α → α → Bool) (property : α) :
    Tests c (keyIs c same property) fun a => same a property := fun _ => rfl

theorem stopped_ne_found (badplace : Place) (e : PlistError α) (place : Place) :
    stopped nil errb c plist badplace e ≠ .found place := by
  cases errb <;> nofun

theorem IsPlist.walked_sound {ps : List (Nat × Nat)} {es : List (α × α)}
    (h : IsPlist nil c plist ps es) (test : α × α → Bool) :
    (walked c plist (es.findIdx? test)).Sound c plist := by
  intro place hplace
  cases hfind : es.findIdx? test with
  | none =>
    rw [hfind] at hplace
    cases hplace
  | some i =>
    rw [hfind] at hplace
    cases hplace
    have hi : i < ps.length := by
      rw [h.length_eq]
      exact (List.findIdx?_eq_some_iff_findIdx_eq.mp hfind).1
    have hcells := h.tails.2
    obtain ⟨p, hp⟩ := (hcells (2 * i) (by omega)).exists
    obtain ⟨q, hq⟩ := (hcells (2 * i + 1) (by omega)).exists
    refine ⟨p, q, ?_, ?_⟩
    · rw [Place.get_nth fun j hj => hcells j (by omega), hp]
    · rw [← Cells.tail_succ_of_cell hp, hq]

theorem walked_ne_signaled (o : Option Nat) (e : PlistError α) : walked c plist o ≠ .signaled e := by
  cases o <;> nofun

theorem getAt_sound {w : Walked α} (hw : w.Sound c plist) :
    ∃ a, getAt c plist w = .ok a ∧ ∀ e, a = .signaled e → w = .signaled e := by
  cases w with
  | ended => exact ⟨_, rfl, nofun⟩
  | found place =>
    obtain ⟨p, q, hp, hq⟩ := hw place rfl
    refine ⟨.returned (some (c.car q)) plist c, ?_, nofun⟩
    simp only [getAt, hp, xcdr, hq]
    rfl
  | unbound => exact ⟨_, rfl, nofun⟩
  | signaled e => exact ⟨_, rfl, fun e' he => by cases he; rfl⟩

theorem putAt_sound (property value : α) {w : Walked α} (hw : w.Sound c plist) :
    ∃ a, putAt c plist property value w = .ok a ∧ ∀ e, a = .signaled e → w = .signaled e := by
  cases w with
  | ended => exact ⟨_, rfl, nofun⟩
  | found place =>
    obtain ⟨p, q, hp, hq⟩ := hw place rfl
    refine ⟨.returned () plist { c with car := Function.update c.car q value }, ?_, nofun⟩
    simp only [putAt, hp, xcdr, hq]
    rfl
  | unbound => exact ⟨_, rfl, nofun⟩
  | signaled e => exact ⟨_, rfl, fun e' he => by cases he; rfl⟩

theorem rempropAt_sound {w : Walked α} (hw : w.Sound c plist) :
    ∃ a, rempropAt c plist w = .ok a ∧ ∀ e, a = .signaled e → w = .signaled e := by
  cases w with
  | ended => exact ⟨_, rfl, nofun⟩
  | found place =>
    obtain ⟨p, q, hp, hq⟩ := hw place rfl
    refine ⟨.returned true (place.store c plist (c.cdr q)).1 (place.store c plist (c.cdr q)).2,
      ?_, nofun⟩
    simp only [rempropAt, hp, xcdr, hq]
    rfl
  | unbound => exact ⟨_, rfl, nofun⟩
  | signaled e => exact ⟨_, rfl, fun e' he => by cases he; rfl⟩

end walked

/-! ### Rounds -/

variable [DecidableEq α] {nil : α} (errb : ErrorBehavior)

theorem advanceHare_of_goes (hs : At c plist k s) (h : HareGoes nil c plist k) :
    ∃ hare, advanceHare nil c plist s.hare = some hare ∧
      hare.get c plist = c.tail plist (2 * k + 2) := by
  obtain hnil | ⟨hcell, hcell'⟩ := h
  · refine ⟨s.hare, ?_, ?_⟩
    · rw [advanceHare, hs.hare, hnil]
      exact if_pos rfl
    · rw [hs.hare, hnil, Cells.tail_of_le hnil (Nat.le_add_right ..)]
  · obtain ⟨p, hp⟩ := hcell.exists
    obtain ⟨q, hq⟩ := hcell'.exists
    refine ⟨.cdr q, ?_, ?_⟩
    · have hcdr : c.cdr p = .cell q := (Cells.tail_succ_of_cell hp).symm.trans hq
      simp only [advanceHare, hs.hare, hp, hcdr]
    · rw [Cells.tail_succ_of_cell hq]
      rfl

theorem advanceHare_of_not (hs : At c plist k s) (h : ¬ HareGoes nil c plist k) :
    advanceHare nil c plist s.hare = none := by
  rw [HareGoes, not_or, not_and] at h
  rw [advanceHare, hs.hare]
  cases htail : c.tail plist (2 * k) with
  | atom a =>
    refine if_neg fun ha => h.1 ?_
    rw [htail, ha]
  | cell p =>
    obtain ⟨a, ha⟩ := Ref.exists_atom (h.2 (by rw [htail]; trivial))
    rw [Cells.tail_succ_of_cell htail] at ha
    simp only [ha]

theorem advanceOne_eq {tortsave t hare : Place}
    (hadvance : advanceHare nil c plist s.hare = some hare)
    (hplace : xcdrPlace (s.tortoise.get c plist) = .ok t) :
    advanceOne nil errb c plist tortsave s =
      .ok (if hare.get c plist ≠ .atom nil ∧ t.get c plist = hare.get c plist then
        badBadTurtle nil errb c plist tortsave
      else .on ⟨t, hare⟩) := by
  rw [advanceOne, hadvance]
  show (xcdrPlace (s.tortoise.get c plist) >>= fun tortoise => _) = _
  rw [hplace]
  show (if _ then _ else _) = _
  split <;> rfl

theorem advanceOne_of_goes (hs : At c plist k s) (h : Goes nil c plist k) (tortsave : Place) :
    ∃ s', advanceOne nil errb c plist tortsave s = .ok (.on s') ∧ At c plist (k + 1) s' := by
  obtain ⟨hare, hadvance, hget⟩ := advanceHare_of_goes hs h.hare
  obtain ⟨p, hp⟩ := h.cell.exists
  have hcells : ∀ j < k + 1, (c.tail plist j).IsCell := by
    intro j hj
    obtain hj | rfl := Nat.lt_succ_iff_lt_or_eq.mp hj
    · exact hs.cells j hj
    · exact h.cell
  refine ⟨⟨.cdr p, hare⟩, ?_, (Place.nth_succ hp).symm, ?_, hcells⟩
  · have hnext : (Place.cdr p).get c plist = c.tail plist (k + 1) :=
      (Cells.tail_succ_of_cell hp).symm
    rw [advanceOne_eq errb hadvance (hs.xcdrPlace hp), hnext, hget, if_neg]
    rintro ⟨hne, heq⟩
    exact h.apart.elim hne fun hapart => hapart heq
  · rw [hget, Nat.mul_succ]

theorem advanceOne_of_not (hs : At c plist k s) (h : ¬ Goes nil c plist k)
    (hcell : HareGoes nil c plist k → (c.tail plist k).IsCell) (tortsave : Place) :
    ∃ badplace e,
      advanceOne nil errb c plist tortsave s = .ok (bad nil errb c plist badplace e) := by
  by_cases hhare : HareGoes nil c plist k
  · obtain ⟨hare, hadvance, hget⟩ := advanceHare_of_goes hs hhare
    obtain ⟨p, hp⟩ := (hcell hhare).exists
    have hnext : (Place.cdr p).get c plist = c.tail plist (k + 1) :=
      (Cells.tail_succ_of_cell hp).symm
    have hmeet : ¬ (c.tail plist (2 * k + 2) = .atom nil ∨
        c.tail plist (k + 1) ≠ c.tail plist (2 * k + 2)) :=
      fun hapart => h ⟨hcell hhare, hhare, hapart⟩
    rw [not_or, not_not] at hmeet
    refine ⟨tortsave, .circular plist, ?_⟩
    rw [advanceOne_eq errb hadvance (hs.xcdrPlace hp), hnext, hget, if_pos hmeet]
    rfl
  · refine ⟨s.hare, .malformed plist (s.hare.get c plist), ?_⟩
    rw [advanceOne, advanceHare_of_not hs hhare]
    rfl

/-! ### Walks -/

theorem advancePlistPointers_of_goes (hs : At c plist k s) (h : Goes nil c plist k)
    (h' : Goes nil c plist (k + 1)) :
    ∃ s', advancePlistPointers nil errb c plist s = .ok (.on s') ∧ At c plist (k + 2) s' := by
  obtain ⟨s₁, hadvance₁, hs₁⟩ := advanceOne_of_goes errb hs h s.tortoise
  obtain ⟨s₂, hadvance₂, hs₂⟩ := advanceOne_of_goes errb hs₁ h' s.tortoise
  refine ⟨s₂, ?_, hs₂⟩
  rw [advancePlistPointers, hadvance₁]
  exact hadvance₂

theorem advancePlistPointers_of_not (hs : At c plist k s)
    (hcell : HareGoes nil c plist k → (c.tail plist k).IsCell)
    (hcell' : Goes nil c plist k → HareGoes nil c plist (k + 1) → (c.tail plist (k + 1)).IsCell)
    (h : ¬ (Goes nil c plist k ∧ Goes nil c plist (k + 1))) :
    ∃ badplace e,
      advancePlistPointers nil errb c plist s = .ok (bad nil errb c plist badplace e) := by
  by_cases h₁ : Goes nil c plist k
  · obtain ⟨s₁, hadvance₁, hs₁⟩ := advanceOne_of_goes errb hs h₁ s.tortoise
    obtain ⟨badplace, e, hadvance₂⟩ := advanceOne_of_not errb hs₁
      (fun h₂ => h ⟨h₁, h₂⟩) (hcell' h₁) s.tortoise
    refine ⟨badplace, e, ?_⟩
    rw [advancePlistPointers, hadvance₁]
    exact hadvance₂
  · obtain ⟨badplace, e, hadvance₁⟩ :=
      advanceOne_of_not errb hs h₁ hcell s.tortoise
    refine ⟨badplace, e, ?_⟩
    rw [advancePlistPointers, hadvance₁]
    cases errb <;> rfl

section walk

variable {found : Ref α → Except Fault Bool} {test : α → Bool}

theorem walk_end (hs : At c plist k s) (hend : c.tail plist k = .atom nil) :
    walk nil errb c plist found s = .ok (.done .ended) := by
  rw [walk, hs.tortoise_get, if_pos hend]

theorem walk_entry (hfound : Tests c found test) (hs : At c plist k s)
    (h : Goes nil c plist k) (h' : Goes nil c plist (k + 1)) {p : Nat}
    (hp : c.tail plist k = .cell p) :
    ∃ s', At c plist (k + 2) s' ∧ walk nil errb c plist found s =
      .ok (if test (c.car p) then .done (.found (Place.nth c plist k)) else .next s') := by
  obtain ⟨s', hadvance, hs'⟩ := advancePlistPointers_of_goes errb hs h h'
  refine ⟨s', hs', ?_⟩
  rw [walk, hs.tortoise_get, hp, if_neg nofun, hadvance]
  show (found (.cell p) >>= fun _ => _) = _
  rw [hfound p, ← hs.tortoise]
  show (if _ then _ else _) = _
  split <;> rfl

theorem walk_stop (hs : At c plist k s) (hne : c.tail plist k ≠ .atom nil)
    (hcell : HareGoes nil c plist k → (c.tail plist k).IsCell)
    (hcell' : Goes nil c plist k → HareGoes nil c plist (k + 1) → (c.tail plist (k + 1)).IsCell)
    (h : ¬ (Goes nil c plist k ∧ Goes nil c plist (k + 1))) :
    ∃ badplace e,
      walk nil errb c plist found s = .ok (.done (stopped nil errb c plist badplace e)) := by
  obtain ⟨badplace, e, hadvance⟩ := advancePlistPointers_of_not errb hs hcell hcell' h
  refine ⟨badplace, e, ?_⟩
  rw [walk, hs.tortoise_get, if_neg hne, hadvance, stopped]
  cases errb <;> rfl

/-! ### Well-formed lists -/

variable {r : Ref α} {ps ps' : List (Nat × Nat)} {es es' : List (α × α)}

theorem IsPlist.walk_rest (h : IsPlist nil c plist ps es)
    (hfound : Tests c found test) (hrest : IsPlist nil c r ps' es') :
    ∀ {i : Nat} {s : Pointers}, r = c.tail plist (2 * i) → i + ps'.length = ps.length →
      At c plist (2 * i) s → Ends (walk nil errb c plist found) s
        (walked c plist ((es'.findIdx? (test ·.1)).map (i + ·))) := by
  induction hrest with
  | nil => exact fun hr _ hs => .done (walk_end errb hs hr.symm)
  | @cons p q ps' es' hq hrest ih =>
    intro i s hr hlen hs
    rw [length_cons] at hlen
    obtain ⟨s', hs', hwalk⟩ := walk_entry errb hfound hs (h.goes (by omega))
      (h.goes (by omega)) hr.symm
    rw [findIdx?_cons]
    by_cases htest : test (c.car p) = true
    · rw [if_pos htest] at hwalk
      rw [if_pos htest]
      exact .done hwalk
    · rw [if_neg htest] at hwalk
      have htail : c.cdr q = c.tail plist (2 * (i + 1)) := by
        rw [Nat.mul_succ, Cells.tail_succ_of_cell ((Cells.tail_succ_of_cell hr.symm).trans hq)]
      have hends := ih (i := i + 1) htail (by omega) hs'
      have hshift : (i + ·) ∘ (· + 1) = (i + 1 + ·) := by
        funext x
        simp only [Function.comp_apply]
        omega
      rw [if_neg htest, Option.map_map, hshift]
      exact .next hwalk hends

/-- **The walk along a property list** comes to the first entry whose key passes the test, or to
the end. -/
theorem IsPlist.walks (h : IsPlist nil c plist ps es)
    (hfound : Tests c found test) :
    Walks nil errb c plist found (walked c plist (es.findIdx? (test ·.1))) := by
  have hends := h.walk_rest errb hfound h (i := 0) rfl (Nat.zero_add _) .start
  simp only [Nat.zero_add, Option.map_id'] at hends
  exact hends

/-- What the walk along another list ends with: an entry, or an error that has been found. -/
def Interrupted (nil : α) (errb : ErrorBehavior) (c : Cells α) (plist : Ref α) (test : α → Bool)
    (w : Walked α) : Prop :=
  (∃ i p q, w = .found (Place.nth c plist i) ∧ c.tail plist i = .cell p ∧ c.cdr p = .cell q ∧
      (∀ j < i, (c.tail plist j).IsCell) ∧ test (c.car p) = true) ∨
    ∃ badplace e, w = stopped nil errb c plist badplace e

theorem LastRound.walk (h : LastRound nil c plist n)
    (hfound : Tests c found test) (hk : k ≤ n) (hs : At c plist k s) :
    ∃ w, Ends (walk nil errb c plist found) s w ∧ Interrupted nil errb c plist test w := by
  induction hd : n - k using Nat.strong_induction_on generalizing k s with
  | _ d ih =>
  by_cases hgoes : Goes nil c plist k ∧ Goes nil c plist (k + 1)
  · obtain ⟨hgo, hgo'⟩ := hgoes
    obtain ⟨p, hp⟩ := hgo.cell.exists
    obtain ⟨q, hq⟩ := hgo'.cell.exists
    obtain ⟨s', hs', hwalk⟩ := walk_entry errb hfound hs hgo hgo' hp
    by_cases htest : test (c.car p) = true
    · rw [if_pos htest] at hwalk
      refine ⟨_, .done hwalk, .inl ⟨k, p, q, rfl, hp, ?_, hs.cells, htest⟩⟩
      rw [← hq, Cells.tail_succ_of_cell hp]
    · rw [if_neg htest] at hwalk
      have hk' : k + 2 ≤ n := by
        by_contra hlast
        obtain hn | hn : n = k ∨ n = k + 1 := by omega
        · exact h.stops (hn ▸ hgo)
        · exact h.stops (hn ▸ hgo')
      obtain ⟨w, hw, hinterrupted⟩ := ih (n - (k + 2)) (by omega) hk' hs' rfl
      exact ⟨w, .next hwalk hw, hinterrupted⟩
  · obtain ⟨badplace, e, hwalk⟩ := walk_stop errb hs (h.ne_nil k hk)
      (h.cell k hk) (fun hgo => h.cell (k + 1) (by
        by_contra hlast
        obtain rfl : n = k := by omega
        exact h.stops hgo)) hgoes
    exact ⟨_, .done hwalk, .inr ⟨badplace, e, rfl⟩⟩

/-- **The walk along any other list** stops too, before its end. -/
theorem walks_of_not_wellFormed (hc : c.Closed) (hplist : plist.Live c.next)
    (h : ¬ WellFormed nil c plist) (hfound : Tests c found test) :
    ∃ w, Walks nil errb c plist found w ∧ Interrupted nil errb c plist test w := by
  obtain ⟨n, hn⟩ := exists_lastRound hc hplist h
  exact hn.walk errb hfound (Nat.zero_le n) .start

end walk

/-! ### The functions -/

/-- **Every walk ends**, with an entry, at the end of a well-formed list, or at what is wrong. -/
theorem exists_walks (nil : α) (errb : ErrorBehavior) (hc : c.Closed) (hplist : plist.Live c.next)
    {found : Ref α → Except Fault Bool} {test : α → Bool}
    (hfound : Tests c found test) :
    ∃ w, Walks nil errb c plist found w ∧ w.Sound c plist ∧
      (WellFormed nil c plist → ∀ e, w ≠ .signaled e) := by
  by_cases h : WellFormed nil c plist
  · obtain ⟨ps, es, hes⟩ := h.isPlist
    exact ⟨_, hes.walks errb hfound, hes.walked_sound _, fun _ => walked_ne_signaled _⟩
  · obtain ⟨w, hw, hinterrupted⟩ :=
      walks_of_not_wellFormed errb hc hplist h hfound
    refine ⟨w, hw, fun place hplace => ?_, fun hwell => absurd hwell h⟩
    obtain ⟨i, p, q, rfl, hp, hq, hcells, -⟩ | ⟨badplace, e, rfl⟩ := hinterrupted
    · cases hplace
      exact ⟨p, q, by rw [Place.get_nth hcells, hp], hq⟩
    · exact absurd hplace (stopped_ne_found badplace e place)

theorem walks_ended_iff (hc : c.Closed) (hplist : plist.Live c.next) {w : Walked α}
    (hw : Walks nil errb c plist (fun _ => .ok false) w) :
    (w = .ended ∧ WellFormed nil c plist) ∨
      (¬ WellFormed nil c plist ∧ ∃ badplace e, w = stopped nil errb c plist badplace e) := by
  by_cases h : WellFormed nil c plist
  · obtain ⟨ps, es, hes⟩ := h.isPlist
    have hends := hw.unique (hes.walks errb .none)
    rw [List.findIdx?_eq_none_iff.mpr fun _ _ => rfl] at hends
    exact .inl ⟨hends, h⟩
  · obtain ⟨w', hw', hinterrupted⟩ :=
      walks_of_not_wellFormed errb hc hplist h .none
    obtain ⟨i, p, q, -, -, -, -, htest⟩ | ⟨badplace, e, rfl⟩ := hinterrupted
    · cases htest
    · exact .inr ⟨h, badplace, e, hw.unique hw'⟩

theorem exists_answer {β : Type} (nil : α) (errb : ErrorBehavior) (hc : c.Closed)
    (hplist : plist.Live c.next) (same : α → α → Bool) (property : α) (last : Walked α → Except Fault (Answer α β))
    (hlast : ∀ w, w.Sound c plist →
      ∃ a, last w = .ok a ∧ ∀ e, a = .signaled e → w = .signaled e) :
    (∃ a w, Walks nil errb c plist (keyIs c same property) w ∧ last w = .ok a) ∧
      ∀ a w, Walks nil errb c plist (keyIs c same property) w → last w = .ok a →
        WellFormed nil c plist → ∀ e, a ≠ .signaled e := by
  obtain ⟨w, hw, hsound, hsignaled⟩ :=
    exists_walks nil errb hc hplist (.keyIs c same property)
  obtain ⟨a, ha, hcause⟩ := hlast w hsound
  refine ⟨⟨a, w, hw, ha⟩, fun a' w' hw' ha' hwell e he => ?_⟩
  obtain rfl := hw.unique hw'
  rw [ha] at ha'
  cases ha'
  exact hsignaled hwell e (hcause e he)

/-- The function ends on the list, and signals no error if it is well-formed. -/
structure Safe {β : Type} (nil : α) (c : Cells α) (plist : Ref α) (f : Answer α β → Prop) :
    Prop where
  ends : ∃ a, f a
  silent : ∀ a, f a → WellFormed nil c plist → ∀ e, a ≠ .signaled e

/-- The functions are safe on a list: each ends without a fault, and what is said of its result
holds. -/
structure WalksSafely (nil : α) (c : Cells α) (plist : Ref α) : Prop where
  valid : ∀ b, ValidPlistP nil c plist b ↔ (b = true ↔ WellFormed nil c plist)
  checks : ∃ e, CheckValidPlist nil c plist e
  check : ∀ e, CheckValidPlist nil c plist e → (e = none ↔ WellFormed nil c plist)
  get : ∀ property default, Safe nil c plist (PlistGet nil c plist property default)
  put : ∀ property value, Safe nil c plist (PlistPut nil c plist property value)
  remprop : ∀ property, Safe nil c plist (PlistRemprop nil c plist property)

/-- **The functions are safe on every list**, however its cells are linked. -/
theorem walksSafely (nil : α) (hc : c.Closed) (hplist : plist.Live c.next) :
    WalksSafely nil c plist := by
  refine ⟨fun b => ⟨?_, fun hb => ?_⟩, ?_, ?_, fun property default => ?_,
    fun property value => ?_, fun property => ?_⟩
  · rintro ⟨w, hw, hb⟩
    obtain ⟨rfl, hwell⟩ | ⟨hnot, badplace, e, rfl⟩ := walks_ended_iff _ hc hplist hw
    · exact iff_of_true hb hwell
    · exact iff_of_false (by rw [show b = false from hb]; nofun) hnot
  · obtain ⟨w, hw, -, -⟩ := exists_walks nil .errorMeNot hc hplist .none
    refine ⟨w, hw, ?_⟩
    obtain ⟨rfl, hwell⟩ | ⟨hnot, badplace, e, rfl⟩ := walks_ended_iff _ hc hplist hw
    · exact hb.mpr hwell
    · exact Bool.eq_false_iff.mpr fun htrue => hnot (hb.mp htrue)
  · obtain ⟨w, hw, -, -⟩ := exists_walks nil .errorMe hc hplist .none
    cases w with
    | signaled e => exact ⟨some e, _, hw, rfl⟩
    | _ => exact ⟨none, _, hw, rfl⟩
  · rintro e ⟨w, hw, he⟩
    obtain ⟨rfl, hwell⟩ | ⟨hnot, badplace, e', rfl⟩ := walks_ended_iff _ hc hplist hw
    · exact iff_of_true he hwell
    · exact iff_of_false (by rw [show e = some e' from he]; nofun) hnot
  · obtain ⟨⟨a, w, hw, ha⟩, hsilent⟩ := exists_answer nil .errorMe hc hplist
      (· = ·) property (getAt c plist) fun _ => getAt_sound
    refine ⟨⟨_, a, ⟨w, hw, ha⟩, rfl⟩, ?_⟩
    rintro _ ⟨a', ⟨w', hw', ha'⟩, rfl⟩ hwell e he
    cases a' with
    | returned value plist' c' => cases he
    | signaled e' => exact hsilent _ w' hw' ha' hwell e' rfl
  · obtain ⟨⟨a, w, hw, ha⟩, hsilent⟩ := exists_answer nil .errorMe hc hplist
      (· = ·) property (putAt c plist property value) fun _ => putAt_sound property value
    exact ⟨⟨a, w, hw, ha⟩, fun a' ⟨w', hw', ha'⟩ => hsilent a' w' hw' ha'⟩
  · obtain ⟨⟨a, w, hw, ha⟩, hsilent⟩ := exists_answer nil .errorMe hc hplist
      (· = ·) property (rempropAt c plist) fun _ => rempropAt_sound
    exact ⟨⟨a, w, hw, ha⟩, fun a' ⟨w', hw', ha'⟩ => hsilent a' w' hw' ha'⟩

/-- A heap with the circular list `(1 2 . #0)`. -/
def circularCells : Cells Nat where
  next := 2
  car p := p + 1
  cdr p := if p = 0 then .cell 1 else .cell 0

theorem walksSafely_circular : circularCells.Closed ∧
    (Ref.cell 0 : Ref Nat).Live circularCells.next ∧ WalksSafely 0 circularCells (.cell 0) := by
  have hclosed : circularCells.Closed := by
    intro p hp q hq
    simp only [circularCells] at hq ⊢
    split at hq <;> cases hq <;> omega
  have hlive : (Ref.cell 0 : Ref Nat).Live circularCells.next := by
    intro p hp
    cases hp
    decide
  exact ⟨hclosed, hlive, walksSafely 0 hclosed hlive⟩

end XEmacs.Plists

import XEmacs.Lists.Delete
import Mathlib.Tactic.Linarith

/-!
# When deleting from a list ends

Along a list that ends the loop keeps the conses whose element does not satisfy the condition, in
their order (`run_dotted`).
-/

namespace XEmacs.Lists

open ConsLists Machines List

variable {α : Type} [DecidableEq α] {nil : α} {condition : α → Bool} {c : Cells α} {list : Ref α}
  {s : Loop α × Option Nat} {p q : Nat}

/-! ### Lists that end -/

/-- The conses that are kept so far, and those to come. -/
structure Along (s : Loop α × Option Nat) (kept rest : List Nat) (z : α) : Prop where
  whole : Dotted s.1.cells s.1.list (kept ++ rest) ((kept ++ rest).map s.1.cells.car) z
  rest : Dotted s.1.cells s.1.hare rest (rest.map s.1.cells.car) z
  prev : s.2 = kept.getLast?

/-- What the loop along a list that ends comes to. -/
def Along.Result (nil : α) (s : Loop α × Option Nat) (left : List Nat) (z : α) :
    Except (ListError α) (Loop α) → Prop
  | .ok l => z = nil ∧ l.cells.car = s.1.cells.car ∧
      Dotted l.cells l.list left (left.map l.cells.car) nil
  | .error e => z ≠ nil ∧ ∃ r, e = .malformedList r

omit [DecidableEq α] in
theorem Along.deleted {kept rest : List Nat} {z : α} (h : Along s kept (p :: rest) z)
    (hp : s.1.hare = .cell p) : Along (s.1.deleted s.2 p, s.2) kept rest z := by
  obtain ⟨l, prevTail⟩ := s
  have hcdr : Dotted l.cells (l.cells.cdr p) rest (rest.map l.cells.car) z := by
    have hrest := h.rest
    rw [hp] at hrest
    cases hrest with
    | cell hrest => exact hrest
  have hprev := h.prev
  cases prevTail with
  | none =>
    obtain rfl : kept = [] := List.getLast?_eq_none_iff.mp hprev.symm
    exact ⟨hcdr, hcdr, hprev⟩
  | some x =>
    obtain ⟨init, rfl⟩ := List.getLast?_eq_some_iff.mp hprev.symm
    have hwhole := h.whole
    rw [append_assoc] at hwhole
    have hnodup := hwhole.nodup
    have hx : x ∉ rest := by
      have htail := (List.nodup_append.mp hnodup).2.1
      exact fun hmem => (List.nodup_cons.mp htail).1 (mem_cons_of_mem p hmem)
    refine ⟨?_, ?_, hprev⟩
    · rw [append_assoc]
      exact hwhole.skip
    · exact hcdr.frame fun q hq => ⟨rfl, Cells.skip_of_ne (ne_of_mem_of_not_mem hq hx)⟩

omit [DecidableEq α] in
theorem Along.kept {kept rest : List Nat} {z : α} (h : Along s kept (p :: rest) z)
    (hp : s.1.hare = .cell p) {l : Loop α} (hl : Advanced s.1 l) :
    Along (l, some p) (kept ++ [p]) rest z := by
  have hrest := h.rest
  rw [hp] at hrest
  cases hrest with
  | cell hrest =>
    refine ⟨?_, ?_, by rw [getLast?_concat]⟩
    · rw [hl.cells, hl.list, append_assoc]
      exact h.whole
    · rw [hl.cells, hl.hare, hp]
      exact hrest

/-- **The loop along a list that ends** leaves the conses whose element does not satisfy the
condition. -/
theorem Sound.run_along {kept rest : List Nat} {z : α} (h : Sound condition s)
    (ha : Along s kept rest z) : ∃ o, Ends (deleteIfStep nil condition) s o ∧
      Along.Result nil s (kept ++ rest.filter fun p => !condition (s.1.cells.car p)) z o := by
  induction rest generalizing s kept with
  | nil =>
    have hhare := ha.rest
    cases hr : s.1.hare with
    | cell p =>
      rw [hr] at hhare
      cases hhare
    | atom a =>
      rw [hr] at hhare
      obtain ⟨-, -, rfl⟩ := hhare.of_atom
      refine ⟨_, .done (step_atom nil hr), ?_⟩
      by_cases hz : z = nil
      · rw [if_pos hz]
        exact ⟨hz, rfl, hz ▸ ha.whole⟩
      · rw [if_neg hz]
        exact ⟨hz, _, rfl⟩
  | cons p rest ih =>
    have hp : s.1.hare = .cell p := by
      have hrest := ha.rest
      generalize s.1.hare = r at hrest
      cases hrest
      rfl
    by_cases ht : condition (s.1.cells.car p) = true
    · obtain ⟨hnext, hsound⟩ := h.step_match nil hp ht
      obtain ⟨o, ho, hresult⟩ := ih hsound (ha.deleted hp)
      refine ⟨o, .next hnext ho, ?_⟩
      have hcar : (s.1.deleted s.2 p).cells.car = s.1.cells.car := unlinked_car _ s.2 p
      rw [filter_cons_of_neg (by rw [ht]; decide)]
      simp only [Along.Result, hcar] at hresult ⊢
      exact hresult
    · rw [Bool.not_eq_true] at ht
      obtain ⟨l, hnext, hl, hsound⟩ | ⟨-, m, hm⟩ := h.step_keep nil hp ht
      · obtain ⟨o, ho, hresult⟩ := ih hsound (ha.kept hp hl)
        refine ⟨o, .next hnext ho, ?_⟩
        rw [filter_cons_of_pos (by rw [ht]; rfl)]
        simp only [Along.Result, hl.cells, append_assoc, singleton_append] at hresult ⊢
        exact hresult
      · -- there is no circle in a list that ends
        have hrest := ha.rest
        rw [hp] at hrest
        exact absurd hm (hrest.not_circle m)

/-! ### Circles of elements that are all deleted -/

/-- From some point on the elements all satisfy the condition, for ever. -/
def Endless (condition : α → Bool) (c : Cells α) (r : Ref α) : Prop :=
  ∃ n, ∀ k, n ≤ k → ∃ p, c.tail r k = .cell p ∧ condition (c.car p) = true

omit [DecidableEq α] in
theorem Endless.not_circle (h : Endless condition c (c.cdr q))
    (hq : condition (c.car q) = false) (m : Nat) : c.tail (c.cdr q) m ≠ .cell q := by
  intro hm
  obtain ⟨n, hn⟩ := h
  have hback : c.tail (.cell q) ((n + 1) * (m + 1)) = .cell q := by
    have hcircle : c.tail (.cell q) (0 + (m + 1)) = c.tail (.cell q) 0 := by
      rw [Nat.zero_add, Cells.tail_cell_succ, hm, Cells.tail_zero]
    have hmul := Cells.tail_add_mul hcircle (Nat.le_refl 0) (n + 1)
    rwa [Nat.zero_add] at hmul
  obtain ⟨k, hk⟩ : ∃ k, (n + 1) * (m + 1) = k + 1 :=
    Nat.exists_eq_succ_of_ne_zero (Nat.mul_ne_zero (Nat.succ_ne_zero n) (Nat.succ_ne_zero m))
  rw [hk, Cells.tail_cell_succ] at hback
  obtain ⟨p, hp, ht⟩ := hn k (by nlinarith)
  rw [hback] at hp
  cases hp
  rw [hq] at ht
  cases ht

omit [DecidableEq α] in
theorem Endless.cdr (h : Endless condition c (.cell p)) : Endless condition c (c.cdr p) := by
  obtain ⟨n, hn⟩ := h
  refine ⟨n, fun k hk => ?_⟩
  rw [← Cells.tail_cell_succ]
  exact hn (k + 1) (by omega)

omit [DecidableEq α] in
theorem Endless.isCell {r : Ref α} (h : Endless condition c r) : r.IsCell := by
  obtain ⟨n, hn⟩ := h
  obtain ⟨p, hp, -⟩ := hn n (Nat.le_refl n)
  exact isCell_of_tail (k := n) (by rw [hp]; trivial)

omit [DecidableEq α] in
theorem Endless.skip {x : Nat} (h : Endless condition c (c.cdr x)) (hx : c.cdr x = .cell p)
    (hkept : condition (c.car x) = false) : Endless condition (c.skip x p) (c.cdr p) := by
  have hsame : ∀ k, (c.skip x p).tail (c.cdr x) k = c.tail (c.cdr x) k := by
    intro k
    induction k with
    | zero => rfl
    | succ k ih =>
      rw [Cells.tail_succ, ih, Cells.tail_succ]
      cases htail : c.tail (c.cdr x) k with
      | atom a => rfl
      | cell y =>
        refine Cells.skip_of_ne ?_
        rintro rfl
        exact h.not_circle hkept k htail
  obtain ⟨n, hn⟩ := h
  refine ⟨n, fun k hk => ?_⟩
  have hnext : (c.skip x p).tail (c.cdr p) k = c.tail (c.cdr x) (k + 1) := by
    have hxp : p ≠ x := by
      rintro rfl
      exact Endless.not_circle ⟨n, hn⟩ hkept 0 hx
    rw [← hsame, hx, Cells.tail_cell_succ, Cells.skip_of_ne hxp]
  rw [hnext]
  exact hn (k + 1) (by omega)

/-- **The loop goes around for ever** if all elements of the circle satisfy the condition. -/
theorem Endless.not_ends (h : Endless condition c list)
    (o : Except (ListError α) (Loop α)) :
    ¬ Ends (deleteIfStep nil condition) (Loop.start c list, none) o := by
  refine Machines.not_ends
    (I := fun s => Sound condition s ∧ Endless condition s.1.cells s.1.hare) ?_
    ⟨.start condition c list, h⟩ o
  rintro s ⟨hs, hendless⟩
  obtain ⟨p, hp⟩ := hendless.isCell.exists
  rw [hp] at hendless
  by_cases ht : condition (s.1.cells.car p) = true
  · obtain ⟨hnext, hsound⟩ := hs.step_match nil hp ht
    refine ⟨_, hnext, hsound, ?_⟩
    obtain ⟨l, prevTail⟩ := s
    cases prevTail with
    | none => exact hendless.cdr
    | some x =>
      obtain ⟨hkept, hx⟩ := hs.prev x rfl
      exact Endless.skip (hx.symm ▸ hp ▸ hendless) (hx.trans hp) hkept
  · rw [Bool.not_eq_true] at ht
    obtain ⟨l, hnext, hl, hsound⟩ | ⟨-, m, hm⟩ := hs.step_keep nil hp ht
    · refine ⟨_, hnext, hsound, ?_⟩
      show Endless condition l.cells l.hare
      rw [hl.cells, hl.hare, hp]
      exact hendless.cdr
    · exact absurd hm (hendless.cdr.not_circle ht m)

/-! ### Circles with an element that is kept -/

/-- The run goes on to a state like this, or it ends before. -/
def EndsOr (nil : α) (condition : α → Bool) (s : Loop α × Option Nat)
    (P : Loop α × Option Nat → Prop) : Prop :=
  (∃ o, Ends (deleteIfStep nil condition) s o) ∨
    ∃ s', Reaches (deleteIfStep nil condition) s s' ∧ P s'

theorem EndsOr.ends {P : Loop α × Option Nat → Prop} (h : EndsOr nil condition s P)
    (hP : ∀ s', P s' → ∃ o, Ends (deleteIfStep nil condition) s' o) :
    ∃ o, Ends (deleteIfStep nil condition) s o := by
  obtain h | ⟨s', hreach, hs'⟩ := h
  · exact h
  · obtain ⟨o, ho⟩ := hP s' hs'
    exact ⟨o, ho.of_reaches hreach⟩

theorem Sound.keeps (h : Sound condition s) (hp : s.1.hare = .cell p)
    (ht : condition (s.1.cells.car p) = false) :
    (∃ o, Ends (deleteIfStep nil condition) s o) ∨
      ∃ l, Next (deleteIfStep nil condition) s (l, some p) ∧ Advanced s.1 l ∧
        Sound condition (l, some p) := by
  obtain hnext | ⟨hdone, -⟩ := h.step_keep nil hp ht
  · exact .inr hnext
  · exact .inl ⟨_, .done hdone⟩

/-- All elements ahead are kept, and the hare comes back to where it is. -/
structure Clean (condition : α → Bool) (s : Loop α × Option Nat) : Prop where
  sound : Sound condition s
  kept : ∀ k, ∃ p, s.1.cells.tail s.1.hare k = .cell p ∧ condition (s.1.cells.car p) = false
  back : ∃ n, 0 < n ∧ s.1.cells.tail s.1.hare n = s.1.hare

theorem Clean.round (h : Clean condition s) :
    (∃ o, Ends (deleteIfStep nil condition) s o) ∨
      ∃ s', Next (deleteIfStep nil condition) s s' ∧ Clean condition s' ∧ Advanced s.1 s'.1 := by
  obtain ⟨p, hp, ht⟩ := h.kept 0
  obtain hends | ⟨l, hnext, hl, hsound⟩ := h.sound.keeps hp ht
  · exact .inl hends
  · have htail : ∀ k, l.cells.tail l.hare k = s.1.cells.tail s.1.hare (k + 1) := by
      intro k
      rw [hl.cells, hl.hare, Cells.tail_succ']
    refine .inr ⟨_, hnext, ⟨hsound, fun k => ?_, ?_⟩, hl⟩
    · obtain ⟨q, hq, hkept⟩ := h.kept (k + 1)
      refine ⟨q, (htail k).trans hq, ?_⟩
      rw [hl.cells]
      exact hkept
    · obtain ⟨n, hn, hback⟩ := h.back
      refine ⟨n, hn, ?_⟩
      show l.cells.tail l.hare n = l.hare
      rw [htail, Cells.tail_succ, hback, hl.hare]

theorem Clean.rounds (h : Clean condition s) (n : Nat) :
    EndsOr nil condition s fun s' => Clean condition s' ∧ s'.1.len = s.1.len + n := by
  induction n with
  | zero => exact .inr ⟨s, .refl, h, rfl⟩
  | succ n ih =>
    obtain hends | ⟨s', hreach, hs', hlen⟩ := ih
    · exact .inl hends
    · obtain ⟨o, ho⟩ | ⟨s'', hnext, hs'', hadvanced⟩ := hs'.round
      · exact .inl ⟨o, ho.of_reaches hreach⟩
      · exact .inr ⟨s'', hreach.tail hnext, hs'', by rw [hadvanced.len, hlen]; rfl⟩

/-- The tortoise goes on by one cons while the hare goes on by two, and they do not meet. -/
structure Chased (s s' : Loop α × Option Nat) (m : Nat) : Prop where
  cells : s'.1.cells = s.1.cells
  len : s'.1.len = s.1.len + 2 * m
  hare : s'.1.hare = s.1.cells.tail s.1.hare (2 * m)
  tortoise : s'.1.tortoise = s.1.cells.tail s.1.tortoise m
  apart : 0 < m → s'.1.hare ≠ s'.1.tortoise

theorem Clean.chase (h : Clean condition s) (hlen : 1024 ≤ s.1.len) (heven : s.1.len % 2 = 0)
    (m : Nat) : EndsOr nil condition s fun s' => Clean condition s' ∧ Chased s s' m := by
  induction m with
  | zero => exact .inr ⟨s, .refl, h, rfl, rfl, rfl, rfl, fun h => absurd h (Nat.lt_irrefl 0)⟩
  | succ m ih =>
    obtain hends | ⟨s₁, hreach, hs₁, hchased⟩ := ih
    · exact .inl hends
    obtain ⟨o, ho⟩ | ⟨s₂, hnext₁, hs₂, h₁⟩ := hs₁.round
    · exact .inl ⟨o, ho.of_reaches hreach⟩
    obtain ⟨o, ho⟩ | ⟨s₃, hnext₂, hs₃, h₂⟩ := hs₂.round
    · exact .inl ⟨o, ho.of_reaches (hreach.tail hnext₁)⟩
    have hlen₁ := hchased.len
    have hlen₂ := h₁.len
    refine .inr ⟨s₃, (hreach.tail hnext₁).tail hnext₂, hs₃, ?_, ?_, ?_, ?_, fun _ =>
      h₂.apart (by omega)⟩
    · rw [h₂.cells, h₁.cells, hchased.cells]
    · rw [h₂.len]
      omega
    · rw [h₂.hare, h₁.cells, h₁.hare, hchased.cells, hchased.hare, ← Cells.tail_succ,
        ← Cells.tail_succ]
      rfl
    · rw [h₂.tortoise, if_neg (by omega), h₁.tortoise, if_pos (by omega), hchased.cells,
        hchased.tortoise, ← Cells.tail_succ]

/-- **On a clean circle** the hare meets the tortoise. -/
theorem Clean.exists_ends (h : Clean condition s) :
    ∃ o, Ends (deleteIfStep nil condition) s o := by
  refine (h.rounds (1024 + s.1.len % 2)).ends ?_
  rintro s₁ ⟨h₁, hlen⟩
  obtain ⟨d, -, hd⟩ := h₁.sound.trails
  obtain ⟨n, hn, hback⟩ := h₁.back
  have hcircle : s₁.1.cells.tail s₁.1.tortoise (d + n) = s₁.1.cells.tail s₁.1.tortoise d := by
    rw [Cells.tail_add, hd, hback]
  -- when the tortoise has come to the circle, and they are full rounds of it apart
  have hpos : d < (2 * d + 1) * n - d := by
    have := Nat.le_mul_of_pos_right (2 * d + 1) hn
    omega
  refine (h₁.chase (by omega) (by omega) ((2 * d + 1) * n - d)).ends ?_
  rintro s₂ ⟨-, hchased⟩
  refine absurd ?_ (hchased.apart (by omega))
  have hdouble : d + 2 * ((2 * d + 1) * n - d) = ((2 * d + 1) * n - d) + (2 * d + 1) * n := by
    omega
  rw [hchased.hare, hchased.tortoise, ← hd, ← Cells.tail_add, hdouble,
    Cells.tail_add_mul hcircle (Nat.le_of_lt hpos)]

/-- The last cons that has been kept is on the circle, `m` conses after the hare. -/
structure OnRing (condition : α → Bool) (s : Loop α × Option Nat) (m : Nat) : Prop where
  sound : Sound condition s
  ring : ∃ x, s.2 = some x ∧ s.1.cells.tail s.1.hare m = .cell x

omit [DecidableEq α] in
theorem OnRing.back {m : Nat} (h : OnRing condition s m) :
    s.1.cells.tail s.1.hare (m + 1) = s.1.hare := by
  obtain ⟨x, hx, hm⟩ := h.ring
  rw [Cells.tail_succ_of_cell hm, (h.sound.prev x hx).2]

omit [DecidableEq α] in
theorem OnRing.isCell {m : Nat} (h : OnRing condition s m) (k : Nat) :
    (s.1.cells.tail s.1.hare k).IsCell := by
  obtain ⟨x, hx, hm⟩ := h.ring
  exact Cells.isCell_of_circle h.back (Nat.succ_pos m)
    (isCell_of_tail (k := m) (by rw [hm]; trivial)) k

theorem OnRing.keep {m : Nat} (h : OnRing condition s m) (hp : s.1.hare = .cell p)
    (ht : condition (s.1.cells.car p) = false) :
    (∃ o, Ends (deleteIfStep nil condition) s o) ∨
      ∃ s', Next (deleteIfStep nil condition) s s' ∧ OnRing condition s' m ∧
        Advanced s.1 s'.1 := by
  obtain hends | ⟨l, hnext, hl, hsound⟩ := h.sound.keeps hp ht
  · exact .inl hends
  · refine .inr ⟨_, hnext, ⟨hsound, p, rfl, ?_⟩, hl⟩
    show l.cells.tail l.hare m = .cell p
    rw [hl.cells, hl.hare, ← Cells.tail_succ', h.back, hp]

theorem OnRing.delete {m : Nat} (h : OnRing condition s m) (hp : s.1.hare = .cell p)
    (ht : condition (s.1.cells.car p) = true) :
    ∃ s', Next (deleteIfStep nil condition) s s' ∧ ∃ m' < m, OnRing condition s' m' := by
  obtain ⟨x, hx, hm⟩ := h.ring
  have hxp := h.sound.ne ht hx
  obtain ⟨hnext, hsound⟩ := h.sound.step_match nil hp ht
  obtain ⟨l, prevTail⟩ := s
  obtain rfl : prevTail = some x := hx
  have hcdr := (h.sound.prev x rfl).2.trans hp
  rw [hp] at hm
  cases m with
  | zero => exact absurd (Ref.cell.inj hm).symm hxp
  | succ m =>
    rw [Cells.tail_cell_succ] at hm
    obtain ⟨m', hle, hm'⟩ := Cells.exists_skip_tail hcdr hxp hm
    exact ⟨_, hnext, m', Nat.lt_succ_of_le hle, hsound, x, rfl, hm'⟩

/-- **Around a circle** with a cons that is kept the loop ends. -/
theorem OnRing.exists_ends {m : Nat} (h : OnRing condition s m) :
    ∃ o, Ends (deleteIfStep nil condition) s o := by
  induction m using Nat.strong_induction_on generalizing s with
  | _ m ih =>
  by_cases hclean : ∀ k, ∃ p, s.1.cells.tail s.1.hare k = .cell p ∧
      condition (s.1.cells.car p) = false
  · exact Clean.exists_ends ⟨h.sound, hclean, m + 1, Nat.succ_pos m, h.back⟩
  · -- on to the next cons that is taken out
    have hmatch : ∃ k p, s.1.cells.tail s.1.hare k = .cell p ∧
        condition (s.1.cells.car p) = true := by
      by_contra hno
      refine hclean fun k => ?_
      obtain ⟨p, hp⟩ := (h.isCell k).exists
      exact ⟨p, hp, Bool.eq_false_iff.mpr fun ht => hno ⟨k, p, hp, ht⟩⟩
    clear hclean
    obtain ⟨k, q, hq, ht⟩ := hmatch
    induction k generalizing s with
    | zero =>
      obtain ⟨s', hnext, m', hlt, hs'⟩ := h.delete hq ht
      obtain ⟨o, ho⟩ := ih m' hlt hs'
      exact ⟨o, .next hnext ho⟩
    | succ k ihk =>
      obtain ⟨p, hp⟩ := (h.isCell 0).exists
      by_cases htp : condition (s.1.cells.car p) = true
      · obtain ⟨s', hnext, m', hlt, hs'⟩ := h.delete hp htp
        obtain ⟨o, ho⟩ := ih m' hlt hs'
        exact ⟨o, .next hnext ho⟩
      · rw [Bool.not_eq_true] at htp
        obtain hends | ⟨s', hnext, hs', hadvanced⟩ := h.keep hp htp
        · exact hends
        · obtain ⟨o, ho⟩ := ihk hs' (by
            rw [hadvanced.cells, hadvanced.hare, ← Cells.tail_succ']
            exact hq) (by rw [hadvanced.cells]; exact ht)
          exact ⟨o, .next hnext ho⟩

/-- On the way to a cons on a circle that is kept. -/
structure Towards (condition : α → Bool) (s : Loop α × Option Nat) (q m : Nat) : Prop where
  sound : Sound condition s
  kept : condition (s.1.cells.car q) = false
  there : s.1.cells.tail s.1.hare m = .cell q
  back : ∃ n, s.1.cells.tail (s.1.cells.cdr q) n = .cell q

theorem Towards.exists_ends {m : Nat} (h : Towards condition s q m) :
    ∃ o, Ends (deleteIfStep nil condition) s o := by
  induction m using Nat.strong_induction_on generalizing s with
  | _ m ih =>
  obtain ⟨n, hn⟩ := h.back
  have hthere := h.there
  obtain ⟨p, hp⟩ := (isCell_of_tail (k := m) (by rw [hthere]; trivial)).exists
  by_cases hpq : p = q
  · -- it is there
    obtain hends | ⟨l, hnext, hl, hsound⟩ := h.sound.keeps hp (hpq ▸ h.kept)
    · exact hends
    · have hring : OnRing condition (l, some p) n := by
        refine ⟨hsound, p, rfl, ?_⟩
        show l.cells.tail l.hare n = .cell p
        rw [hl.cells, hl.hare, hp, hpq]
        exact hn
      obtain ⟨o, ho⟩ := hring.exists_ends
      exact ⟨o, .next hnext ho⟩
  rw [hp] at hthere
  cases m with
  | zero => exact absurd (Ref.cell.inj hthere) hpq
  | succ m =>
    rw [Cells.tail_cell_succ] at hthere
    by_cases ht : condition (s.1.cells.car p) = true
    · obtain ⟨hnext, hsound⟩ := h.sound.step_match nil hp ht
      obtain ⟨l, prevTail⟩ := s
      obtain ⟨m', hle, htowards⟩ : ∃ m' ≤ m,
          Towards condition (l.deleted prevTail p, prevTail) q m' := by
        cases prevTail with
        | none => exact ⟨m, Nat.le_refl m, hsound, h.kept, hthere, h.back⟩
        | some x =>
          have hcdr := (h.sound.prev x rfl).2.trans hp
          have hqp : q ≠ p := fun heq => hpq heq.symm
          obtain ⟨m', hle, hm'⟩ := Cells.exists_skip_tail hcdr hqp hthere
          exact ⟨m', hle, hsound, h.kept, hm', Cells.exists_skip_back hcdr hqp hn⟩
      obtain ⟨o, ho⟩ := ih m' (Nat.lt_succ_of_le hle) htowards
      exact ⟨o, .next hnext ho⟩
    · rw [Bool.not_eq_true] at ht
      obtain hends | ⟨l, hnext, hl, hsound⟩ := h.sound.keeps hp ht
      · exact hends
      · have htowards : Towards condition (l, some p) q m := by
          refine ⟨hsound, ?_, ?_, n, ?_⟩
          · rw [hl.cells]
            exact h.kept
          · rw [hl.cells, hl.hare, hp]
            exact hthere
          · rw [hl.cells]
            exact hn
        obtain ⟨o, ho⟩ := ih m (Nat.lt_succ_self m) htowards
        exact ⟨o, .next hnext ho⟩

/-! ### All lists -/

theorem not_returned (hcells : ∀ k, (c.tail list k).IsCell) {o : Except (ListError α) (Loop α)}
    (h : Ends (deleteIfStep nil condition) (Loop.start c list, none) o) :
    ∃ r, o = .error (.circularList r) := by
  refine h.of_keeps
    (I := fun s => Sound condition s ∧ ∀ k, (s.1.cells.tail s.1.hare k).IsCell)
    (P := fun o => ∃ r, o = .error (.circularList r)) ?_ ?_ ⟨.start condition c list, hcells⟩
  · rintro s s' ⟨hs, hcells⟩ hnext
    obtain ⟨p, hp⟩ := (hcells 0).exists
    have hp : s.1.hare = .cell p := hp
    rw [hp] at hcells
    have hcdr : ∀ k, (s.1.cells.tail (s.1.cells.cdr p) k).IsCell := fun k => by
      rw [← Cells.tail_cell_succ]
      exact hcells (k + 1)
    by_cases ht : condition (s.1.cells.car p) = true
    · obtain ⟨hnext', hsound⟩ := hs.step_match nil hp ht
      rw [Next, hnext'] at hnext
      cases hnext
      refine ⟨hsound, fun k => ?_⟩
      obtain ⟨l, prevTail⟩ := s
      cases prevTail with
      | none => exact hcdr k
      | some x =>
        obtain ⟨k', hk'⟩ := Cells.exists_tail_of_skip ((hs.prev x rfl).2.trans hp)
          (l.cells.cdr p) k
        show ((l.cells.skip x p).tail (l.cells.cdr p) k).IsCell
        rw [hk']
        exact hcdr k'
    · rw [Bool.not_eq_true] at ht
      obtain ⟨l, hnext', hl, hsound⟩ | ⟨hdone, -⟩ := hs.step_keep nil hp ht
      · rw [Next, hnext'] at hnext
        cases hnext
        refine ⟨hsound, fun k => ?_⟩
        show (l.cells.tail l.hare k).IsCell
        rw [hl.cells, hl.hare, hp]
        exact hcdr k
      · rw [Next, hdone] at hnext
        cases hnext
  · rintro s o ⟨hs, hcells⟩ hdone
    obtain ⟨p, hp⟩ := (hcells 0).exists
    have hp : s.1.hare = .cell p := hp
    by_cases ht : condition (s.1.cells.car p) = true
    · rw [(hs.step_match nil hp ht).1] at hdone
      cases hdone
    · rw [Bool.not_eq_true] at ht
      obtain ⟨l, hnext', -⟩ | ⟨hdone', -⟩ := hs.step_keep nil hp ht
      · rw [hnext'] at hdone
        cases hdone
      · rw [hdone'] at hdone
        cases hdone
        exact ⟨_, rfl⟩

/-- What is said of a function that deletes from a list. -/
structure Deletes (nil : α) (condition : α → Bool) (c : Cells α) (list : Ref α)
    (F : Except (ListError α) (Ref α × Cells α) → Prop) : Prop where
  ends : ∃ a, F a
  returns : ∀ ps as, Dotted c list ps as nil → ∃ list' c', F (.ok (list', c'))
  returned : ∀ list' c', F (.ok (list', c')) → ∃ ps, Dotted c list ps (ps.map c.car) nil ∧
    Dotted c' list' (ps.filter fun p => !condition (c.car p))
      ((ps.filter fun p => !condition (c.car p)).map c.car) nil
  signaled : ∀ e, F (.error e) → ∃ r, e = .malformedList r ∨ e = .circularList r

theorem deletes_of_dotted {ps : List Nat} {as : List α} {z : α} (h : Dotted c list ps as z) :
    Deletes nil condition c list (ExternalListLoopDeleteIf nil c list condition) := by
  have has := h.eq_map
  subst has
  have halong : Along (Loop.start c list, none) [] ps z := ⟨h, h, rfl⟩
  obtain ⟨o, ho, hresult⟩ := (Sound.start condition c list).run_along halong
  rw [nil_append] at hresult
  have hunique : ∀ {a}, ExternalListLoopDeleteIf nil c list condition a →
      a = o.map fun l => (l.list, l.cells) := by
    rintro a ⟨o', ho', rfl⟩
    rw [ho.unique ho']
  have hreturned : ∀ list' c', ExternalListLoopDeleteIf nil c list condition (.ok (list', c')) →
      z = nil ∧ Dotted c' list' (ps.filter fun p => !condition (c.car p))
        ((ps.filter fun p => !condition (c.car p)).map c.car) nil := by
    intro list' c' ha
    cases o with
    | error e => cases hunique ha
    | ok l =>
      cases hunique ha
      obtain ⟨hz, hcar, hdot⟩ := hresult
      refine ⟨hz, ?_⟩
      rw [hcar] at hdot
      exact hdot
  refine ⟨⟨_, o, ho, rfl⟩, fun ps' as' h' => ?_, fun list' c' ha => ?_, fun e ha => ?_⟩
  · obtain ⟨-, -, rfl⟩ := h.unique h'
    cases o with
    | error e => exact absurd rfl hresult.1
    | ok l => exact ⟨_, _, _, ho, rfl⟩
  · obtain ⟨rfl, hdot⟩ := hreturned list' c' ha
    exact ⟨ps, h, hdot⟩
  · cases o with
    | ok l => cases hunique ha
    | error e' =>
      cases hunique ha
      obtain ⟨-, r, hr⟩ := hresult
      exact ⟨r, .inl hr⟩

theorem deletes_of_kept (hc : c.Closed) (hlist : list.Live c.next)
    (hcells : ∀ k, (c.tail list k).IsCell) (h : ¬ Endless condition c list) :
    Deletes nil condition c list (ExternalListLoopDeleteIf nil c list condition) := by
  obtain ⟨i, n, hn, hcircle⟩ := hc.exists_tail_eq hlist hcells
  obtain ⟨k, hk, q, hq, hkept⟩ : ∃ k, i ≤ k ∧ ∃ q, c.tail list k = .cell q ∧
      condition (c.car q) = false := by
    by_contra hno
    refine h ⟨i, fun k hk => ?_⟩
    obtain ⟨p, hp⟩ := (hcells k).exists
    exact ⟨p, hp, by_contra fun ht => hno ⟨k, hk, p, hp, Bool.eq_false_iff.mpr ht⟩⟩
  have hback : c.tail (.cell q) n = .cell q := by
    have hmul := Cells.tail_add_mul hcircle hk 1
    rwa [Nat.one_mul, Cells.tail_add, hq] at hmul
  obtain ⟨n, rfl⟩ := Nat.exists_eq_succ_of_ne_zero (Nat.pos_iff_ne_zero.mp hn)
  rw [Nat.succ_eq_add_one, Cells.tail_cell_succ] at hback
  have htowards : Towards condition (Loop.start c list, none) q k :=
    ⟨.start condition c list, hkept, hq, n, hback⟩
  obtain ⟨o, ho⟩ := htowards.exists_ends
  have hcircular : ∀ {a}, ExternalListLoopDeleteIf nil c list condition a →
      ∃ r, a = .error (.circularList r) := by
    rintro a ⟨o', ho', rfl⟩
    obtain ⟨r, rfl⟩ := not_returned hcells ho'
    exact ⟨r, rfl⟩
  refine ⟨⟨_, o, ho, rfl⟩, fun ps as h => ?_, fun list' c' ha => ?_, fun e ha => ?_⟩
  · have hend := hcells ps.length
    rw [h.tail_length] at hend
    exact hend.elim
  · obtain ⟨r, hr⟩ := hcircular ha
    cases hr
  · obtain ⟨r, hr⟩ := hcircular ha
    cases hr
    exact ⟨r, .inr rfl⟩

/-- **The loop** does what is said of it unless the list is circular and all elements on the
circle satisfy the condition; then it goes on for ever. -/
theorem deletes_iff (hc : c.Closed) (hlist : list.Live c.next) :
    Deletes nil condition c list (ExternalListLoopDeleteIf nil c list condition) ↔
      ¬ Endless condition c list := by
  constructor
  · rintro ⟨⟨a, o, ho, -⟩, -⟩ hendless
    exact hendless.not_ends o ho
  · intro h
    obtain ⟨n, a, hend, hcells⟩ | hcells := Cells.tail_cases c list
    · obtain ⟨ps, as, hdot, -⟩ := Dotted.exists_of_tail hend hcells
      exact deletes_of_dotted hdot
    · exact deletes_of_kept hc hlist hcells h

/-- A call of one of the functions that delete. -/
inductive DeletionCall (α : Type) where
  | delete (elt : α)
  | delq (elt : α)
  | remassoc (key : α)
  | remassq (key : α)
  | remrassoc (value : α)
  | remrassq (value : α)

namespace DeletionCall

variable (equal : α → α → Bool) (conses : Conses α)

/-- The elements that a call is to delete. -/
def deleted : DeletionCall α → α → Bool
  | delete elt, e => equal elt e
  | delq elt, e => elt = e
  | remassoc key, e => (conses e).any fun e => equal key e.1
  | remassq key, e => (conses e).any fun e => key = e.1
  | remrassoc value, e => (conses e).any fun e => equal value e.2
  | remrassq value, e => (conses e).any fun e => value = e.2

/-- What a call may come to. -/
def Result (nil : α) (c : Cells α) (list : Ref α) :
    DeletionCall α → Except (ListError α) (Ref α × Cells α) → Prop
  | delete elt => Fdelete nil c list equal elt
  | delq elt => Fdelq nil c list elt
  | remassoc key => Fremassoc nil c list equal conses key
  | remassq key => Fremassq nil c list conses key
  | remrassoc value => Fremrassoc nil c list equal conses value
  | remrassq value => Fremrassq nil c list conses value

/-- **Deleting from a list** does what is said of it unless the list is circular and all
elements on the circle are to be deleted; then it goes on for ever. -/
theorem result_iff (hc : c.Closed) (hlist : list.Live c.next) (f : DeletionCall α) :
    Deletes nil (f.deleted equal conses) c list (f.Result equal conses nil c list) ↔
      ¬ Endless (f.deleted equal conses) c list := by
  cases f <;> exact deletes_iff hc hlist

/-- A cons that leads to itself. -/
def circle : Cells Nat where
  next := 1
  car _ := 1
  cdr _ := .cell 0

theorem circle_closed : circle.Closed ∧ (Ref.cell 0 : Ref Nat).Live circle.next := by
  constructor
  · rintro p - q hq
    cases hq
    exact Nat.zero_lt_one
  · rintro p hp
    cases hp
    exact Nat.zero_lt_one

theorem circle_tail (k : Nat) : circle.tail (.cell 0) k = .cell 0 := by
  induction k with
  | zero => rfl
  | succ k ih =>
    rw [Cells.tail_succ, ih]
    rfl

theorem result_circle : Deletes 0 (fun e => 2 = e) circle (.cell 0) (Fdelq 0 circle (.cell 0) 2) ↔
    ¬ Endless (fun e => 2 = e) circle (.cell 0) :=
  result_iff (· == ·) (fun _ => none) circle_closed.1 circle_closed.2 (.delq 2)

/-- Its element is deleted for ever. -/
theorem result_endless : ¬ ∀ (nil : Nat) (equal : Nat → Nat → Bool) (conses : Conses Nat)
    (c : Cells Nat) (list : Ref Nat), c.Closed → list.Live c.next → ∀ f : DeletionCall Nat,
      Deletes nil (f.deleted equal conses) c list (f.Result equal conses nil c list) := by
  intro h
  obtain ⟨a, o, ho, -⟩ := (h 0 (· == ·) (fun _ => none) circle (.cell 0) circle_closed.1
    circle_closed.2 (.delq 1)).ends
  have hendless : Endless (fun e => 1 = e) circle (.cell 0) :=
    ⟨0, fun k _ => ⟨0, circle_tail k, rfl⟩⟩
  exact hendless.not_ends o ho

end DeletionCall

end XEmacs.Lists

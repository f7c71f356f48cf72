import XEmacs.Lib.ConsLists
import Mathlib.Data.Fintype.Pigeonhole
import Mathlib.Logic.Function.Iterate

/-!
# Walks along the cdrs

What a walk along a list in a heap of cons cells comes by, without knowing whether the list ends:
`tail r k` is the object after `k` cdrs.
-/

namespace ConsLists

open List Function

variable {α : Type}

/-- The object is a cell. -/
def Ref.IsCell : Ref α → Prop
  | .cell _ => True
  | .atom _ => False

instance (r : Ref α) : Decidable r.IsCell :=
  match r with
  | .cell _ => .isTrue trivial
  | .atom _ => .isFalse id

theorem Ref.IsCell.exists {r : Ref α} (h : r.IsCell) : ∃ p, r = .cell p := by
  cases r with
  | cell p => exact ⟨p, rfl⟩
  | atom a => exact h.elim

theorem Ref.exists_atom {r : Ref α} (h : ¬ r.IsCell) : ∃ a, r = .atom a := by
  cases r with
  | cell p => exact absurd trivial h
  | atom a => exact ⟨a, rfl⟩

namespace Cells

variable (c : Cells α)

/-- A step along the cdrs; an atom is the end. -/
def rest : Ref α → Ref α
  | .cell p => c.cdr p
  | .atom a => .atom a

/-- The object after some steps. -/
def tail (r : Ref α) (k : Nat) : Ref α := c.rest^[k] r

@[simp] theorem tail_zero (r : Ref α) : c.tail r 0 = r := rfl

theorem tail_succ (r : Ref α) (k : Nat) : c.tail r (k + 1) = c.rest (c.tail r k) :=
  iterate_succ_apply' c.rest k r

theorem tail_succ' (r : Ref α) (k : Nat) : c.tail r (k + 1) = c.tail (c.rest r) k :=
  iterate_succ_apply c.rest k r

theorem tail_add (r : Ref α) (j k : Nat) : c.tail r (j + k) = c.tail (c.tail r j) k := by
  rw [Nat.add_comm]
  exact iterate_add_apply c.rest k j r

@[simp] theorem tail_atom (a : α) (k : Nat) : c.tail (.atom a) k = .atom a :=
  iterate_fixed rfl k

variable {c} {r : Ref α} {a : α} {j k n : Nat}

theorem tail_succ_of_cell {p : Nat} (h : c.tail r k = .cell p) : c.tail r (k + 1) = c.cdr p := by
  rw [tail_succ, h]
  rfl

theorem tail_of_le (h : c.tail r n = .atom a) (hnk : n ≤ k) : c.tail r k = .atom a := by
  obtain ⟨d, rfl⟩ := Nat.exists_eq_add_of_le hnk
  rw [tail_add, h, tail_atom]

theorem isCell_of_lt (h : c.tail r n = .atom a) (hcells : (c.tail r k).IsCell) : k < n := by
  by_contra hnk
  rw [tail_of_le h (Nat.not_lt.mp hnk)] at hcells
  exact hcells

theorem tail_ne (hend : c.tail r n = .atom a) (hcells : ∀ j < n, (c.tail r j).IsCell)
    (hjk : j < k) (hkn : k ≤ n) : c.tail r j ≠ c.tail r k := by
  intro heq
  have hback : c.tail r (j + (n - k)) = .atom a := by
    rw [tail_add, heq, ← tail_add, Nat.add_sub_cancel' hkn, hend]
  have hcell := hcells (j + (n - k)) (by omega)
  rw [hback] at hcell
  exact hcell

theorem tail_cases (c : Cells α) (r : Ref α) :
    (∃ n a, c.tail r n = .atom a ∧ ∀ j < n, (c.tail r j).IsCell) ∨ ∀ j, (c.tail r j).IsCell := by
  classical
  by_cases h : ∃ n, ¬ (c.tail r n).IsCell
  · obtain ⟨a, ha⟩ := Ref.exists_atom (Nat.find_spec h)
    exact .inl ⟨Nat.find h, a, ha, fun j hj => not_not.mp (Nat.find_min h hj)⟩
  · exact .inr fun j => not_not.mp (not_exists.mp h j)

/-- Each cell in use leads to a cell in use. -/
def Closed (c : Cells α) : Prop := ∀ p < c.next, (c.cdr p).Live c.next

theorem Closed.tail (hc : c.Closed) (hr : r.Live c.next) (k : Nat) : (c.tail r k).Live c.next := by
  induction k with
  | zero => exact hr
  | succ k ih =>
    rw [tail_succ]
    cases htail : c.tail r k with
    | atom a => exact fun p hp => by cases hp
    | cell p => exact hc p (ih p htail)

theorem Closed.exists_tail_eq (hc : c.Closed) (hr : r.Live c.next)
    (hcells : ∀ j, (c.tail r j).IsCell) : ∃ i d, 0 < d ∧ c.tail r (i + d) = c.tail r i := by
  choose p hp using fun j => (hcells j).exists
  have hlive : ∀ j, p j < c.next := fun j => hc.tail hr j (p j) (hp j)
  obtain ⟨i, j, hne, heq⟩ :=
    Finite.exists_ne_map_eq_of_infinite fun j => (⟨p j, hlive j⟩ : Fin c.next)
  have heq : p i = p j := congrArg Fin.val heq
  obtain hij | hji := Nat.lt_or_gt_of_ne hne
  · exact ⟨i, j - i, by omega, by rw [Nat.add_sub_cancel' hij.le, hp, hp, heq]⟩
  · exact ⟨j, i - j, by omega, by rw [Nat.add_sub_cancel' hji.le, hp, hp, heq]⟩

theorem tail_add_mul {i d : Nat} (h : c.tail r (i + d) = c.tail r i) (hij : i ≤ j) (m : Nat) :
    c.tail r (j + m * d) = c.tail r j := by
  induction m with
  | zero => rw [Nat.zero_mul, Nat.add_zero]
  | succ m ih =>
    obtain ⟨e, rfl⟩ := Nat.exists_eq_add_of_le hij
    have hsplit : i + e + (m + 1) * d = i + d + (e + m * d) := by
      rw [Nat.succ_mul]
      omega
    rw [hsplit, tail_add, h, ← tail_add, ← Nat.add_assoc, ih]

/-- **Tortoise and hare**: along a list that does not end the one that goes twice as fast meets
the other. -/
theorem Closed.exists_meet (hc : c.Closed) (hr : r.Live c.next)
    (hcells : ∀ j, (c.tail r j).IsCell) : ∃ k, 0 < k ∧ c.tail r (2 * k) = c.tail r k := by
  obtain ⟨i, d, hd, heq⟩ := hc.exists_tail_eq hr hcells
  refine ⟨(i + 1) * d, Nat.mul_pos (Nat.succ_pos i) hd, ?_⟩
  have hi : i ≤ (i + 1) * d := Nat.le_trans (Nat.le_succ i) (Nat.le_mul_of_pos_right _ hd)
  rw [Nat.two_mul, tail_add_mul heq hi]

theorem isCell_of_circle (h : c.tail r n = r) (hn : 0 < n) (hr : r.IsCell) (k : Nat) :
    (c.tail r k).IsCell := by
  by_contra hk
  obtain ⟨a, ha⟩ := Ref.exists_atom hk
  have hback : c.tail r (0 + k * n) = c.tail r 0 :=
    tail_add_mul ((congrArg _ (Nat.zero_add n)).trans h) (Nat.le_refl 0) k
  rw [tail_of_le ha (by rw [Nat.zero_add]; exact Nat.le_mul_of_pos_right k hn)] at hback
  have hr : (c.tail r 0).IsCell := hr
  rw [← hback] at hr
  exact hr

/-! ### Leaving out a cell -/

section skip

variable {x p q d : Nat}

/-- `XCDR (x) = XCDR (p)`. -/
def skip (c : Cells α) (x p : Nat) : Cells α := c.setCdr x (c.cdr p)

theorem skip_self : (c.skip x p).cdr x = c.cdr p := update_self ..

theorem skip_of_ne (h : q ≠ x) : (c.skip x p).cdr q = c.cdr q := update_of_ne h ..

theorem tail_cell_succ (c : Cells α) (p k : Nat) : c.tail (.cell p) (k + 1) = c.tail (c.cdr p) k :=
  tail_succ' c _ k

theorem exists_tail_of_skip (hx : c.cdr x = .cell p) (r : Ref α) (k : Nat) :
    ∃ k', (c.skip x p).tail r k = c.tail r k' := by
  induction k generalizing r with
  | zero => exact ⟨0, rfl⟩
  | succ k ih =>
    cases r with
    | atom a => exact ⟨0, tail_atom _ a (k + 1)⟩
    | cell y =>
      rw [tail_cell_succ]
      by_cases hyx : y = x
      · obtain ⟨k', hk'⟩ := ih (c.cdr p)
        refine ⟨k' + 2, ?_⟩
        rw [hyx, skip_self, hk', tail_cell_succ, hx, tail_cell_succ]
      · obtain ⟨k', hk'⟩ := ih (c.cdr y)
        refine ⟨k' + 1, ?_⟩
        rw [skip_of_ne hyx, hk', tail_cell_succ]

theorem exists_skip_tail (hx : c.cdr x = .cell p) (hqp : q ≠ p) (hd : c.tail r d = .cell q) :
    ∃ d' ≤ d, (c.skip x p).tail r d' = .cell q := by
  induction d using Nat.strong_induction_on generalizing r with
  | _ d ih =>
  cases r with
  | atom a =>
    rw [tail_atom] at hd
    cases hd
  | cell y =>
    match d with
    | 0 => exact ⟨0, Nat.le_refl 0, hd⟩
    | d + 1 =>
      rw [tail_cell_succ] at hd
      by_cases hyx : y = x
      · rw [hyx, hx] at hd
        match d with
        | 0 => exact absurd (Ref.cell.inj hd).symm hqp
        | d + 1 =>
          rw [tail_cell_succ] at hd
          obtain ⟨d', hle, hd'⟩ := ih d (by omega) hd
          refine ⟨d' + 1, by omega, ?_⟩
          rw [tail_cell_succ, hyx, skip_self, hd']
      · obtain ⟨d', hle, hd'⟩ := ih d (Nat.lt_succ_self d) hd
        refine ⟨d' + 1, by omega, ?_⟩
        rw [tail_cell_succ, skip_of_ne hyx, hd']

theorem exists_skip_tail_next (hxp : x ≠ p) (hd : c.tail r d = .cell p) :
    ∃ d', 1 ≤ d' ∧ (c.skip x p).tail r d' = c.cdr p := by
  induction d generalizing r with
  | zero =>
    obtain rfl : r = .cell p := hd
    refine ⟨1, Nat.le_refl 1, ?_⟩
    rw [tail_cell_succ, skip_of_ne hxp.symm, tail_zero]
  | succ d ih =>
    cases r with
    | atom a =>
      rw [tail_atom] at hd
      cases hd
    | cell y =>
      rw [tail_cell_succ] at hd
      by_cases hyx : y = x
      · refine ⟨1, Nat.le_refl 1, ?_⟩
        rw [tail_cell_succ, hyx, skip_self, tail_zero]
      · obtain ⟨d', hpos, hd'⟩ := ih hd
        refine ⟨d' + 1, Nat.le_add_left 1 d', ?_⟩
        rw [tail_cell_succ, skip_of_ne hyx, hd']

theorem exists_skip_back (hx : c.cdr x = .cell p) (hqp : q ≠ p)
    (hd : c.tail (c.cdr q) d = .cell q) :
    ∃ d', (c.skip x p).tail ((c.skip x p).cdr q) d' = .cell q := by
  by_cases hqx : q = x
  · subst hqx
    rw [hx] at hd
    cases d with
    | zero => exact absurd (Ref.cell.inj hd).symm hqp
    | succ d =>
      rw [tail_cell_succ] at hd
      obtain ⟨d', -, hd'⟩ := exists_skip_tail hx hqp hd
      exact ⟨d', by rw [skip_self, hd']⟩
  · obtain ⟨d', -, hd'⟩ := exists_skip_tail hx hqp hd
    exact ⟨d', by rw [skip_of_ne hqx, hd']⟩

end skip

end Cells

namespace Dotted

variable {c : Cells α} {r : Ref α} {ps : List Nat} {as : List α} {z : α}

theorem tail_length (h : Dotted c r ps as z) : c.tail r ps.length = .atom z := by
  induction h with
  | atom a => rfl
  | cell _ ih => rwa [length_cons, Cells.tail_succ']

theorem tail_getElem (h : Dotted c r ps as z) {j : Nat} (hj : j < ps.length) :
    c.tail r j = .cell ps[j] ∧ as[j]? = some (c.car ps[j]) := by
  induction h generalizing j with
  | atom a => exact absurd hj (Nat.not_lt_zero j)
  | cell _ ih =>
    cases j with
    | zero => exact ⟨rfl, rfl⟩
    | succ j =>
      obtain ⟨htail, hcar⟩ := ih (Nat.lt_of_succ_lt_succ hj)
      rw [Cells.tail_succ']
      exact ⟨htail, hcar⟩

theorem isCell_tail (h : Dotted c r ps as z) {j : Nat} (hj : j < ps.length) :
    (c.tail r j).IsCell := by
  rw [(h.tail_getElem hj).1]
  trivial

theorem eq_map (h : Dotted c r ps as z) : as = ps.map c.car := by
  induction h with
  | atom a => rfl
  | cell _ ih => rw [map_cons, ← ih]

theorem unique {ps' : List Nat} {as' : List α} {z' : α} (h : Dotted c r ps as z)
    (h' : Dotted c r ps' as' z') : ps = ps' ∧ as = as' ∧ z = z' := by
  induction h generalizing ps' as' with
  | atom a =>
    cases h'
    exact ⟨rfl, rfl, rfl⟩
  | cell _ ih =>
    cases h' with
    | cell h' =>
      obtain ⟨rfl, rfl, rfl⟩ := ih h'
      exact ⟨rfl, rfl, rfl⟩

theorem nodup (h : Dotted c r ps as z) : ps.Nodup := by
  refine List.nodup_iff_getElem?_ne_getElem?.mpr fun i j hij hj heq => ?_
  rw [getElem?_eq_getElem (hij.trans hj), getElem?_eq_getElem hj] at heq
  refine Cells.tail_ne h.tail_length (fun k hk => h.isCell_tail hk) hij hj.le ?_
  rw [(h.tail_getElem (hij.trans hj)).1, (h.tail_getElem hj).1, Option.some.inj heq]

theorem skip {x p : Nat} {qs : List Nat} (h : Dotted c r (ps ++ x :: p :: qs) as z) :
    Dotted (c.skip x p) r (ps ++ x :: qs) ((ps ++ x :: qs).map c.car) z := by
  have hnodup := h.nodup
  induction ps generalizing r as with
  | nil =>
    cases h with
    | cell h =>
      cases hp : c.cdr x with
      | atom a =>
        rw [hp] at h
        cases h
      | cell p' =>
        rw [hp] at h
        cases h with
        | cell h =>
          have hx : x ∉ qs := fun hmem =>
            (List.nodup_cons.mp hnodup).1 (mem_cons_of_mem _ hmem)
          refine .cell ?_
          rw [Cells.skip_self, ← h.eq_map]
          exact h.frame fun q hq => ⟨rfl, Cells.skip_of_ne (ne_of_mem_of_not_mem hq hx)⟩
  | cons y ps ih =>
    obtain ⟨hy, hnodup⟩ := List.nodup_cons.mp hnodup
    cases h with
    | cell h =>
      refine .cell ?_
      rw [Cells.skip_of_ne (ne_of_mem_of_not_mem (by simp) hy).symm]
      exact ih h hnodup

theorem exists_of_tail {n : Nat} (hend : c.tail r n = .atom z)
    (hcells : ∀ j < n, (c.tail r j).IsCell) : ∃ ps as, Dotted c r ps as z ∧ ps.length = n := by
  induction n generalizing r with
  | zero =>
    obtain rfl : r = .atom z := hend
    exact ⟨[], [], .atom z, rfl⟩
  | succ n ih =>
    obtain ⟨p, rfl⟩ := (hcells 0 (Nat.succ_pos n)).exists
    rw [Cells.tail_succ'] at hend
    obtain ⟨ps, as, h, hlen⟩ := ih hend fun j hj => by
      have hcell := hcells (j + 1) (Nat.succ_lt_succ hj)
      rwa [Cells.tail_succ'] at hcell
    exact ⟨p :: ps, c.car p :: as, .cell h, congrArg Nat.succ hlen⟩

theorem not_circle {p : Nat} (h : Dotted c r (p :: ps) as z) (m : Nat) :
    c.tail (c.cdr p) m ≠ .cell p := by
  intro hm
  obtain ⟨rfl, -⟩ := h.tail_getElem (Nat.succ_pos _)
  have hlt := Cells.isCell_of_lt h.tail_length (k := m + 1)
    (by rw [getElem_cons_zero, Cells.tail_cell_succ, hm]; trivial)
  refine Cells.tail_ne h.tail_length (fun k hk => h.isCell_tail hk) (Nat.succ_pos m) hlt.le ?_
  rw [getElem_cons_zero, Cells.tail_cell_succ, hm, Cells.tail_zero]

end Dotted

/-! ### Parts of lists -/

/-- From an object the cdrs lead through these cells to another object. -/
inductive Linked (c : Cells α) : Ref α → List Nat → Ref α → Prop
  | nil (r : Ref α) : Linked c r [] r
  | cons {p : Nat} {ps : List Nat} {r : Ref α} (h : Linked c (c.cdr p) ps r) :
    Linked c (.cell p) (p :: ps) r

namespace Linked

variable {c c' : Cells α} {r r' r'' : Ref α} {ps qs : List Nat} {as : List α} {z : α} {x : Nat}

theorem dotted (h : Linked c r ps (.atom z)) : Dotted c r ps (ps.map c.car) z := by
  generalize hr' : Ref.atom z = r' at h
  induction h with
  | nil r =>
    cases hr'
    exact .atom z
  | cons _ ih => exact .cell (ih hr')

theorem of_dotted (h : Dotted c r ps as z) : Linked c r ps (.atom z) := by
  induction h with
  | atom a => exact .nil _
  | cell _ ih => exact .cons ih

theorem eq_of_nil (h : Linked c r [] r') : r = r' := by
  cases h
  rfl

theorem eq_cell {p : Nat} (h : Linked c r (p :: ps) r') : r = .cell p := by
  cases h
  rfl

theorem append (h : Linked c r ps r') (h' : Linked c r' qs r'') : Linked c r (ps ++ qs) r'' := by
  induction h with
  | nil r => exact h'
  | cons _ ih => exact .cons (ih h')

theorem split (h : Linked c r (ps ++ x :: qs) r') :
    Linked c r ps (.cell x) ∧ Linked c (c.cdr x) qs r' := by
  induction ps generalizing r with
  | nil =>
    cases h with
    | cons h => exact ⟨.nil _, h⟩
  | cons p ps ih =>
    cases h with
    | cons h =>
      obtain ⟨hfront, hback⟩ := ih h
      exact ⟨.cons hfront, hback⟩

theorem frame (h : Linked c r ps r') (hc : ∀ p ∈ ps, c'.cdr p = c.cdr p) : Linked c' r ps r' := by
  induction h with
  | nil r => exact .nil r
  | @cons p ps r _ ih =>
    refine .cons ?_
    rw [hc p (mem_cons_self ..)]
    exact ih fun q hq => hc q (mem_cons_of_mem p hq)

theorem setCdr (h : Linked c r ps (.cell x)) (hx : x ∉ ps) (new : Ref α) :
    Linked (c.setCdr x new) r (ps ++ [x]) new := by
  refine (h.frame fun p hp => update_of_ne (ne_of_mem_of_not_mem hp hx) _ _).append ?_
  refine .cons ?_
  have hself : (c.setCdr x new).cdr x = new := update_self ..
  rw [hself]
  exact .nil new

end Linked

/-! ### Places -/

/-- Where an object is kept: the variable that has the list, or the cdr of a cell. -/
inductive Place
  | head
  | cdr (p : Nat)
  deriving DecidableEq

namespace Place

/-- What is at a place. -/
def get (c : Cells α) (r : Ref α) : Place → Ref α
  | head => r
  | cdr p => c.cdr p

/-- The list and the heap after a place has got an object. -/
def store (c : Cells α) (r new : Ref α) : Place → Ref α × Cells α
  | head => (new, c)
  | cdr p => (r, c.setCdr p new)

/-- The place that a walk comes by after some steps. -/
def nth (c : Cells α) (r : Ref α) : Nat → Place
  | 0 => head
  | k + 1 =>
    match c.tail r k with
    | .cell p => cdr p
    | .atom _ => head

variable {c : Cells α} {r : Ref α} {k : Nat}

theorem nth_succ {p : Nat} (h : c.tail r k = .cell p) : Place.nth c r (k + 1) = .cdr p := by
  rw [Place.nth, h]

theorem get_nth (hcells : ∀ j < k, (c.tail r j).IsCell) :
    (Place.nth c r k).get c r = c.tail r k := by
  cases k with
  | zero => rfl
  | succ k =>
    obtain ⟨p, hp⟩ := (hcells k (Nat.lt_succ_self k)).exists
    rw [nth_succ hp, Cells.tail_succ_of_cell hp]
    rfl

end Place

end ConsLists

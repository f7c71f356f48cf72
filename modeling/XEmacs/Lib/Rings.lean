import Mathlib.Dynamics.PeriodicPts.Defs

/-!
# Classes linked in rings

A map `rep` to representatives divides a type into classes. A map `next` links each class in a
ring when the elements of a class are exactly those a walk along `next` comes to from any of
them.
-/

namespace Rings

open Function

variable {α : Type*} {rep next : α → α} {x y u l : α}

/-- `rep` maps to representatives, and `next` links each of its classes in a ring. -/
structure Ringed (rep next : α → α) : Prop where
  idem : ∀ x, rep (rep x) = rep x
  ring : ∀ x y, rep x = rep y ↔ ∃ n, next^[n] x = y

/-- The elements a walk from `x` passes until it is at `start`, if it is there after at most
so many steps. -/
def tour [DecidableEq α] (next : α → α) (start : α) : ℕ → α → Option (List α)
  | 0, _ => none
  | n + 1, x =>
    if next x = start then some [next x]
    else (tour next start n (next x)).map (next x :: ·)

/-! ## Walking a ring -/

theorem Ringed.rep_next (h : Ringed rep next) (x : α) : rep (next x) = rep x :=
  ((h.ring x (next x)).mpr ⟨1, rfl⟩).symm

theorem Ringed.rep_iterate (h : Ringed rep next) (x : α) (n : ℕ) : rep (next^[n] x) = rep x :=
  ((h.ring x _).mpr ⟨n, rfl⟩).symm

theorem Ringed.mem_periodicPts (h : Ringed rep next) (x : α) : x ∈ periodicPts next := by
  obtain ⟨n, hn⟩ := (h.ring (next x) x).mp (h.rep_next x)
  exact ⟨n + 1, n.succ_pos, hn⟩

theorem tour_eq_some [DecidableEq α] {start : α} {n k : ℕ} (hlast : next^[n + 1] x = start)
    (hfirst : ∀ m, 0 < m → m ≤ n → next^[m] x ≠ start) (hk : n < k) :
    tour next start k x = some ((List.range (n + 1)).map fun m => next^[m + 1] x) := by
  induction n generalizing x k with
  | zero =>
    obtain ⟨k, rfl⟩ := Nat.exists_eq_succ_of_ne_zero (Nat.ne_of_gt hk)
    have hx : next x = start := hlast
    simp [tour, hx]
  | succ n ih =>
    have hk0 : k ≠ 0 := by omega
    obtain ⟨k, rfl⟩ := Nat.exists_eq_succ_of_ne_zero hk0
    have hx : next x ≠ start := hfirst 1 Nat.one_pos (by omega)
    have hrest : ∀ m, 0 < m → m ≤ n → next^[m] (next x) ≠ start :=
      fun m _ hm => hfirst (m + 1) m.succ_pos (by omega)
    rw [tour, if_neg hx, ih hlast hrest (by omega), List.range_succ_eq_map (n := n + 1),
      List.map_cons, List.map_map]
    rfl

/-- **A walk around a ring** ends, and passes exactly the class it starts in. -/
theorem Ringed.tour_self [DecidableEq α] (h : Ringed rep next) (x : α) :
    ∃ passed, (∃ n, ∀ k, n ≤ k → tour next x k x = some passed) ∧
      ∀ y, y ∈ passed ↔ rep y = rep x := by
  have hper := h.mem_periodicPts x
  obtain ⟨p, hp⟩ := Nat.exists_eq_succ_of_ne_zero (minimalPeriod_pos_of_mem_periodicPts hper).ne'
  have hlast : next^[p + 1] x = x := by
    rw [← Nat.succ_eq_add_one, ← hp]
    exact iterate_minimalPeriod
  have hfirst : ∀ m, 0 < m → m ≤ p → next^[m] x ≠ x :=
    fun m hm hmp => not_isPeriodicPt_of_pos_of_lt_minimalPeriod hm.ne' (by omega)
  refine ⟨_, ⟨p + 1, fun k hk => tour_eq_some hlast hfirst hk⟩, fun y => ?_⟩
  rw [List.mem_map]
  constructor
  · rintro ⟨m, -, rfl⟩
    exact h.rep_iterate x (m + 1)
  · intro hy
    -- the place of `y` in the ring, counted from `next x`
    obtain ⟨n, hn⟩ := (h.ring (next x) y).mp ((h.rep_next x).trans hy.symm)
    refine ⟨n % (p + 1), List.mem_range.mpr (Nat.mod_lt _ p.succ_pos), ?_⟩
    have hmin : minimalPeriod next (next x) = p + 1 := (minimalPeriod_apply hper).trans hp
    rw [iterate_succ_apply, ← hmin, iterate_mod_minimalPeriod_eq, hn]

/-! ## Linking a pair -/

/-- The classes of `u` and `l` hold nothing but these two. -/
def Apart (rep : α → α) (u l : α) : Prop :=
  ∀ x, rep x = rep u ∨ rep x = rep l → x = u ∨ x = l

theorem Apart.not_mem (ha : Apart rep u l) (hx : ¬ (x = u ∨ x = l)) (hxy : rep y = rep x) :
    ¬ (y = u ∨ y = l) := by
  rintro (rfl | rfl)
  · exact hx (ha x (.inl hxy.symm))
  · exact hx (ha x (.inr hxy.symm))

theorem exists_enter {p : α → Prop} (hx : ¬ p x) {n : ℕ} (hn : p (next^[n] x)) :
    ∃ m, ¬ p (next^[m] x) ∧ p (next (next^[m] x)) := by
  induction n with
  | zero => exact absurd hn hx
  | succ n ih =>
    by_cases hp : p (next^[n] x)
    · exact ih hp
    · exact ⟨n, hp, by rwa [← iterate_succ_apply' next]⟩

variable [DecidableEq α]

/-- The representatives after `u` and `l` are made a class with representative `l`. -/
def pairRep (u l : α) (rep : α → α) : α → α :=
  update (update rep l l) u l

/-- The links after `u` and `l` are made a ring. -/
def pairNext (u l : α) (next : α → α) : α → α :=
  update (update next u l) l u

theorem pairRep_of_mem (h : x = u ∨ x = l) : pairRep u l rep x = l := by
  unfold pairRep
  obtain rfl | rfl := h
  · simp
  · by_cases hul : x = u
    · simp [hul]
    · simp [update_of_ne hul]

theorem pairRep_of_ne (h : ¬ (x = u ∨ x = l)) : pairRep u l rep x = rep x := by
  rw [not_or] at h
  rw [pairRep, update_of_ne h.1, update_of_ne h.2]

theorem pairNext_lower : pairNext u l next l = u := update_self ..

theorem pairNext_upper : pairNext u l next u = l := by
  by_cases hul : u = l
  · rw [hul, pairNext_lower]
  · rw [pairNext, update_of_ne hul, update_self]

theorem pairNext_of_ne (h : ¬ (x = u ∨ x = l)) : pairNext u l next x = next x := by
  rw [not_or] at h
  rw [pairNext, update_of_ne h.2, update_of_ne h.1]

theorem iterate_pairNext_mem (h : x = u ∨ x = l) (n : ℕ) :
    (pairNext u l next)^[n] x = u ∨ (pairNext u l next)^[n] x = l := by
  induction n with
  | zero => exact h
  | succ n ih =>
    rw [iterate_succ_apply']
    obtain hu | hl := ih
    · rw [hu]
      exact .inr pairNext_upper
    · rw [hl]
      exact .inl pairNext_lower

theorem Apart.iterate_pairNext (ha : Apart rep u l) (h : Ringed rep next)
    (hx : ¬ (x = u ∨ x = l)) (n : ℕ) : (pairNext u l next)^[n] x = next^[n] x := by
  induction n with
  | zero => rfl
  | succ n ih =>
    rw [iterate_succ_apply', iterate_succ_apply', ih,
      pairNext_of_ne (ha.not_mem hx (h.rep_iterate x n))]

theorem Apart.pair (ha : Apart rep u l) (h : Ringed rep next) :
    Ringed (pairRep u l rep) (pairNext u l next) where
  idem x := by
    by_cases hx : x = u ∨ x = l
    · rw [pairRep_of_mem hx, pairRep_of_mem (.inr rfl)]
    · rw [pairRep_of_ne hx, pairRep_of_ne (ha.not_mem hx (h.idem x)), h.idem]
  ring x y := by
    by_cases hx : x = u ∨ x = l
    · rw [pairRep_of_mem hx]
      by_cases hy : y = u ∨ y = l
      · -- both are in the pair: it takes at most one step
        refine iff_of_true (pairRep_of_mem hy).symm ?_
        obtain rfl | rfl := hx <;> obtain rfl | rfl := hy
        · exact ⟨0, rfl⟩
        · exact ⟨1, pairNext_upper⟩
        · exact ⟨1, pairNext_lower⟩
        · exact ⟨0, rfl⟩
      · rw [pairRep_of_ne hy]
        constructor
        · intro hl
          have hyl : rep l = rep y := by rw [hl, h.idem]
          exact absurd (.inr rfl) (ha.not_mem hy hyl)
        · rintro ⟨n, rfl⟩
          exact absurd (iterate_pairNext_mem hx n) hy
    · rw [pairRep_of_ne hx]
      by_cases hy : y = u ∨ y = l
      · rw [pairRep_of_mem hy]
        constructor
        · intro hl
          have hxl : rep l = rep x := by rw [← hl, h.idem]
          exact absurd (.inr rfl) (ha.not_mem hx hxl)
        · rintro ⟨n, rfl⟩
          rw [ha.iterate_pairNext h hx n] at hy
          exact absurd hy (ha.not_mem hx (h.rep_iterate x n))
      · simp only [pairRep_of_ne hy, h.ring x y, ha.iterate_pairNext h hx]

theorem Apart.of_pair (h : Ringed rep next)
    (hpair : Ringed (pairRep u l rep) (pairNext u l next)) : Apart rep u l := by
  intro x hx
  by_contra hxul
  -- some element outside the pair has its link into the pair
  have hreach : ∃ n, next^[n] x = u ∨ next^[n] x = l := by
    obtain hu | hl := hx
    · exact ((h.ring x u).mp hu).imp fun _ => .inl
    · exact ((h.ring x l).mp hl).imp fun _ => .inr
  obtain ⟨n, hn⟩ := hreach
  obtain ⟨m, hout, hin⟩ := exists_enter (p := fun z => z = u ∨ z = l) hxul hn
  have hlink : pairNext u l next (next^[m] x) = next (next^[m] x) := pairNext_of_ne hout
  rw [← hlink] at hin
  have hclass : pairRep u l rep (pairNext u l next (next^[m] x)) =
      pairRep u l rep (next^[m] x) := hpair.rep_next _
  -- but the walk from there, within the pair, would have to come back to it
  obtain ⟨k, hk⟩ := (hpair.ring _ _).mp hclass
  rw [← hk] at hout
  exact hout (iterate_pairNext_mem hin k)

/-- **Linking a pair** keeps the rings exactly where the two share no class with others. -/
theorem pair_iff (h : Ringed rep next) :
    Ringed (pairRep u l rep) (pairNext u l next) ↔ Apart rep u l :=
  ⟨Apart.of_pair h, fun ha => ha.pair h⟩

end Rings

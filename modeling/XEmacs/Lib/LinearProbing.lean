import Mathlib.Data.Finset.Card
import Mathlib.Data.Finset.Range
import Mathlib.Logic.Function.Basic
import Mathlib.Tactic.Common

/-!
# Linear probing over a circular array

Open addressing with linear probing, over any element type. The array has `n` slots, indexed `0
.. n-1`, each clear or holding an element, and every element has a home slot.
-/

namespace LinearProbing

open Function

/-! ## Circular intervals -/

/-- Slot `j` lies on the circular half-open interval `[h, x)`. -/
def InCyc (h x j : Nat) : Prop :=
  if h ≤ x then h ≤ j ∧ j < x else h ≤ j ∨ j < x

instance (h x j : Nat) : Decidable (InCyc h x j) := by
  unfold InCyc; infer_instance

theorem inCyc_iff (h x j : Nat) :
    InCyc h x j ↔ (h ≤ x ∧ h ≤ j ∧ j < x) ∨ (x < h ∧ (h ≤ j ∨ j < x)) := by
  unfold InCyc
  split <;> omega

/-- The slot a walk standing at `p ≤ n` looks at: the sentinel `n` stands for
slot 0. -/
def slotOf (n p : Nat) : Nat := if p = n then 0 else p

theorem slotOf_lt {n p : Nat} (hp : p < n) : slotOf n p = p := if_neg (by omega)

/-- The slot after `p`, around the circle. -/
def next (n p : Nat) : Nat := slotOf n (p + 1)

theorem next_lt {n p : Nat} (hp : p < n) : next n p < n := by
  unfold next slotOf
  split <;> omega

/-! ## The probing loop -/

/-- The walk of a probing loop, from `probe`, over an array whose slot `n` is a
sentinel: it stops at the first slot that is clear or satisfies `stop`. Without
fuel it has found neither. -/
def probeLoop (occ stop : Nat → Bool) (n : Nat) : Nat → Nat → Option Nat
  | 0, _ => none
  | fuel + 1, probe =>
    if occ probe then
      if stop probe then some probe else probeLoop occ stop n fuel (probe + 1)
    else if probe = n then
      if occ 0 then
        if stop 0 then some 0 else probeLoop occ stop n fuel 1
      else some 0
    else some probe

/-- `r` is the first slot from `p` that is clear or satisfies `stop`. -/
structure StopsAt (occ stop : Nat → Bool) (n p r : Nat) : Prop where
  lt : r < n
  stops : occ r = true → stop r = true
  passed : ∀ j < n, InCyc p r j → occ j = true ∧ stop j = false

theorem StopsAt.unique {occ stop : Nat → Bool} {n p r r' : Nat}
    (h : StopsAt occ stop n p r) (h' : StopsAt occ stop n p r') : r = r' := by
  by_contra hne
  have hcases : InCyc p r r' ∨ InCyc p r' r := by
    rw [inCyc_iff, inCyc_iff]
    have := h.lt
    have := h'.lt
    omega
  rcases hcases with hc | hc
  · obtain ⟨ho, hs⟩ := h.passed r' h'.lt hc
    rw [h'.stops ho] at hs
    cases hs
  · obtain ⟨ho, hs⟩ := h'.passed r h.lt hc
    rw [h.stops ho] at hs
    cases hs

/-- Steps a walk standing at `p` still takes to reach `c`. -/
def stepsTo (n p c : Nat) : Nat := if p ≤ c then c - p else n - p + c

theorem StopsAt.of_next {occ stop : Nat → Bool} {n p r : Nat} (hp : p < n)
    (ho : occ p = true) (hs : stop p = false)
    (h : StopsAt occ stop n (next n p) r) : StopsAt occ stop n p r := by
  refine ⟨h.lt, h.stops, fun j hj hin => ?_⟩
  have hrp : r ≠ p := by
    intro heq
    have := h.stops (heq ▸ ho)
    rw [heq, hs] at this
    cases this
  by_cases hjp : j = p
  · exact hjp ▸ ⟨ho, hs⟩
  · refine h.passed j hj ?_
    have := h.lt
    rw [inCyc_iff] at hin ⊢
    unfold next slotOf
    split <;> omega

/-- **The probing loop stops** when some slot is clear, and it stops at the
first slot that is clear or wanted. The induction is on the number of steps to
the clear slot. -/
theorem probeLoop_stopsAt {occ : Nat → Bool} (stop : Nat → Bool) {n c : Nat}
    (hsent : occ n = false) (hc : c < n) (hclear : occ c = false) :
    ∀ (fuel p : Nat), p ≤ n → stepsTo n p c < fuel →
      ∃ r, probeLoop occ stop n fuel p = some r ∧
        StopsAt occ stop n (slotOf n p) r := by
  intro fuel
  induction fuel with
  | zero => intro p _ h; omega
  | succ fuel ih =>
    intro p hp hfuel
    unfold probeLoop
    by_cases ho : occ p = true
    · -- an occupied slot, so not the sentinel
      have hpn : p ≠ n := fun h => by rw [h, hsent] at ho; cases ho
      have hslot : slotOf n p = p := if_neg hpn
      rw [if_pos ho, hslot]
      by_cases hs : stop p = true
      · rw [if_pos hs]
        refine ⟨p, rfl, by omega, fun _ => hs, fun j _ hin => ?_⟩
        rw [inCyc_iff] at hin
        omega
      · rw [if_neg hs]
        have hpc : p ≠ c := fun h => by rw [h, hclear] at ho; cases ho
        have hsteps : stepsTo n (p + 1) c < fuel := by
          unfold stepsTo at hfuel ⊢
          split at hfuel <;> split <;> omega
        obtain ⟨r, hr, hstop⟩ := ih (p + 1) (by omega) hsteps
        refine ⟨r, hr, StopsAt.of_next (by omega) ho (by simpa using hs) ?_⟩
        exact hstop
    · rw [if_neg ho]
      by_cases hpn : p = n
      · -- the sentinel: the walk goes on from slot 0
        subst hpn
        have hslot : slotOf p p = 0 := if_pos rfl
        rw [if_pos rfl, hslot]
        by_cases h0 : occ 0 = true
        · rw [if_pos h0]
          by_cases hs : stop 0 = true
          · rw [if_pos hs]
            refine ⟨0, rfl, by omega, fun _ => hs, fun j _ hin => ?_⟩
            rw [inCyc_iff] at hin
            omega
          · rw [if_neg hs]
            have hc0 : c ≠ 0 := fun h => by rw [h, h0] at hclear; cases hclear
            have hsteps : stepsTo p 1 c < fuel := by
              unfold stepsTo at hfuel ⊢
              split at hfuel <;> split <;> omega
            obtain ⟨r, hr, hstop⟩ := ih 1 (by omega) hsteps
            refine ⟨r, hr, StopsAt.of_next (by omega) h0 (by simpa using hs) ?_⟩
            exact hstop
        · rw [if_neg h0]
          refine ⟨0, rfl, by omega, fun h => absurd h h0, fun j _ hin => ?_⟩
          rw [inCyc_iff] at hin
          omega
      · rw [if_neg hpn]
        have hslot : slotOf n p = p := if_neg hpn
        rw [hslot]
        refine ⟨p, rfl, by omega, fun h => absurd h ho, fun j _ hin => ?_⟩
        rw [inCyc_iff] at hin
        omega

theorem probeLoop_eq {occ stop : Nat → Bool} {n c p r : Nat}
    (hsent : occ n = false) (hc : c < n) (hclear : occ c = false) (hp : p < n)
    (h : StopsAt occ stop n p r) :
    probeLoop occ stop n (n + 1) p = some r := by
  have hsteps : stepsTo n p c < n + 1 := by
    unfold stepsTo
    split <;> omega
  obtain ⟨r', hr', hstop⟩ := probeLoop_stopsAt stop hsent hc hclear
    (n + 1) p (by omega) hsteps
  rw [slotOf_lt hp] at hstop
  rw [hr', h.unique hstop]

theorem exists_probeLoop {occ : Nat → Bool} (stop : Nat → Bool) {n c p : Nat}
    (hsent : occ n = false) (hc : c < n) (hclear : occ c = false) (hp : p < n) :
    ∃ r, probeLoop occ stop n (n + 1) p = some r ∧ StopsAt occ stop n p r := by
  have hsteps : stepsTo n p c < n + 1 := by
    unfold stepsTo
    split <;> omega
  obtain ⟨r, hr, hstop⟩ := probeLoop_stopsAt stop hsent hc hclear
    (n + 1) p (by omega) hsteps
  rw [slotOf_lt hp] at hstop
  exact ⟨r, hr, hstop⟩

/-! ## Probed arrays -/

section Probed

variable {α : Type*} (n : Nat) (home : α → Nat)

/-- Slot `j` holds an element. -/
def occupied (s : Nat → Option α) (j : Nat) : Bool := (s j).isSome

theorem occupied_iff {s : Nat → Option α} {j : Nat} :
    occupied s j = true ↔ s j ≠ none := by
  rw [occupied, Option.isSome_iff_ne_none]

theorem occupied_eq_false {s : Nat → Option α} {j : Nat} :
    occupied s j = false ↔ s j = none := by
  rw [occupied, Option.isSome_eq_false_iff, Option.isNone_iff_eq_none]

/-- Every element of the array is reached from its home slot over slots that are
not clear. -/
def Probed (s : Nat → Option α) : Prop :=
  ∀ y < n, ∀ a, s y = some a → ∀ j < n, InCyc (home a) y j → s j ≠ none

/-- The slots below `n` that hold an element. -/
def filled (s : Nat → Option α) : Finset Nat :=
  (Finset.range n).filter fun j => occupied s j

/-- `a` is stored in one of the `n` slots. -/
def Holds (s : Nat → Option α) (a : α) : Prop := ∃ j < n, s j = some a

/-- What `s'` holds below slot `i`, `s` holds there, if in another slot. -/
def FromBelow (i : Nat) (s s' : Nat → Option α) : Prop :=
  ∀ j < i, ∀ a, s' j = some a → ∃ k < i, s k = some a

/-- What `s'` holds from slot `i` on, `s` holds there. -/
def FromAbove (n i : Nat) (s s' : Nat → Option α) : Prop :=
  ∀ j < n, i ≤ j → ∀ a, s' j = some a → ∃ k < n, i ≤ k ∧ s k = some a

/-- The walk to some element passes slot `t`. -/
def Walked (s : Nat → Option α) (t : Nat) : Prop :=
  ∃ y < n, ∃ a, s y = some a ∧ InCyc (home a) y t

/-- Two slots hold elements related by `r` only if they are the same slot. -/
def PairwiseApart (r : α → α → Prop) (s : Nat → Option α) : Prop :=
  ∀ i < n, ∀ j < n, ∀ a b, s i = some a → s j = some b → r a b → i = j

variable {n home} {s : Nat → Option α}

@[simp] theorem mem_filled {j : Nat} : j ∈ filled n s ↔ j < n ∧ s j ≠ none := by
  rw [filled, Finset.mem_filter, Finset.mem_range, occupied_iff]

theorem exists_clear (h : (filled n s).card < n) : ∃ c < n, s c = none := by
  by_contra hno
  push Not at hno
  have hall : filled n s = Finset.range n :=
    Finset.filter_true_of_mem fun j hj =>
      occupied_iff.mpr (hno j (Finset.mem_range.mp hj))
  rw [hall, Finset.card_range] at h
  omega

theorem filled_insert {x : Nat} {a : α} (hx : x < n) :
    filled n (Function.update s x (some a)) = insert x (filled n s) := by
  ext j
  by_cases hj : j = x
  · subst hj
    simp [hx]
  · simp [hj]

theorem filled_erase (x : Nat) :
    filled n (Function.update s x none) = (filled n s).erase x := by
  ext j
  by_cases hj : j = x
  · subst hj
    simp
  · simp [hj]

/-- **Insertion**: filling the first clear slot from an element's home keeps the
array probed. -/
theorem Probed.insert (h : Probed n home s) {a : α} {r : Nat}
    (hr : StopsAt (occupied s) (fun _ => false) n (home a) r) :
    Probed n home (Function.update s r (some a)) := by
  intro y hy b hb j hj hin
  by_cases hjr : j = r
  · subst hjr
    simp
  · rw [update_of_ne hjr]
    by_cases hyr : y = r
    · subst hyr
      rw [update_self, Option.some.injEq] at hb
      subst hb
      exact occupied_iff.mp (hr.passed j hj hin).1
    · rw [update_of_ne hyr] at hb
      exact h y hy b hb j hj hin

theorem holds_insert {x : Nat} {a b : α} (hx : x < n) (hclear : s x = none) :
    Holds n (Function.update s x (some a)) b ↔ b = a ∨ Holds n s b := by
  constructor
  · rintro ⟨j, hj, hb⟩
    by_cases hjx : j = x
    · subst hjx
      rw [update_self, Option.some.injEq] at hb
      exact Or.inl hb.symm
    · rw [update_of_ne hjx] at hb
      exact Or.inr ⟨j, hj, hb⟩
  · rintro (rfl | ⟨j, hj, hb⟩)
    · exact ⟨x, hx, update_self ..⟩
    · have hjx : j ≠ x := fun h => by rw [h, hclear] at hb; cases hb
      exact ⟨j, hj, by rw [update_of_ne hjx]; exact hb⟩

theorem PairwiseApart.insert {r : α → α → Prop} (h : PairwiseApart n r s)
    {x : Nat} {a : α} (hleft : ∀ b, Holds n s b → ¬ r a b)
    (hright : ∀ b, Holds n s b → ¬ r b a) :
    PairwiseApart n r (Function.update s x (some a)) := by
  intro i hi j hj b c hb hc hbc
  by_cases hix : i = x <;> by_cases hjx : j = x
  · rw [hix, hjx]
  · rw [hix, update_self, Option.some.injEq] at hb
    rw [update_of_ne hjx] at hc
    subst hb
    exact absurd hbc (hleft c ⟨j, hj, hc⟩)
  · rw [hjx, update_self, Option.some.injEq] at hc
    rw [update_of_ne hix] at hb
    subst hc
    exact absurd hbc (hright b ⟨i, hi, hb⟩)
  · rw [update_of_ne hix] at hb
    rw [update_of_ne hjx] at hc
    exact h i hi j hj b c hb hc hbc

theorem Probed.replace (h : Probed n home s) {x : Nat} {a b : α} (hx : s x = some a)
    (hhome : home b = home a) : Probed n home (Function.update s x (some b)) := by
  intro y hy c hc j hj hin
  by_cases hjx : j = x
  · rw [hjx, update_self]
    simp
  · rw [update_of_ne hjx]
    by_cases hyx : y = x
    · rw [hyx, update_self, Option.some.injEq] at hc
      rw [← hc, hhome] at hin
      exact h y hy a (hyx ▸ hx) j hj hin
    · rw [update_of_ne hyx] at hc
      exact h y hy c hc j hj hin

theorem PairwiseApart.replace {r : α → α → Prop} (h : PairwiseApart n r s) {x : Nat}
    {a b : α} (hx : s x = some a) (hxn : x < n) (hleft : ∀ c, r b c → r a c)
    (hright : ∀ c, r c b → r c a) :
    PairwiseApart n r (Function.update s x (some b)) := by
  intro i hi j hj c d hc hd hcd
  by_cases hix : i = x <;> by_cases hjx : j = x
  · rw [hix, hjx]
  · rw [hix, update_self, Option.some.injEq] at hc
    rw [update_of_ne hjx] at hd
    exact hix.trans (h x hxn j hj a d hx hd (hleft d (hc ▸ hcd)))
  · rw [hjx, update_self, Option.some.injEq] at hd
    rw [update_of_ne hix] at hc
    exact (h i hi x hxn c a hc hx (hright c (hd ▸ hcd))).trans hjx.symm
  · rw [update_of_ne hix] at hc
    rw [update_of_ne hjx] at hd
    exact h i hi j hj c d hc hd hcd

theorem holds_replace {x : Nat} {a b : α} (hx : x < n) :
    Holds n (Function.update s x (some a)) b ↔
      b = a ∨ ∃ j < n, j ≠ x ∧ s j = some b := by
  constructor
  · rintro ⟨j, hj, hb⟩
    by_cases hjx : j = x
    · rw [hjx, update_self, Option.some.injEq] at hb
      exact Or.inl hb.symm
    · rw [update_of_ne hjx] at hb
      exact Or.inr ⟨j, hj, hjx, hb⟩
  · rintro (rfl | ⟨j, hj, hjx, hb⟩)
    · exact ⟨x, hx, update_self ..⟩
    · exact ⟨j, hj, by rw [update_of_ne hjx, hb]⟩

theorem holds_move {x y : Nat} {a b : α} (hx : s x = some a) (hy : s y = none)
    (hxn : x < n) (hyn : y < n) :
    Holds n (Function.update (Function.update s y (some a)) x none) b ↔ Holds n s b := by
  have hxy : x ≠ y := fun h => by rw [h, hy] at hx; cases hx
  constructor
  · rintro ⟨j, hj, hb⟩
    have hjx : j ≠ x := fun h => by rw [h, update_self] at hb; cases hb
    rw [update_of_ne hjx] at hb
    by_cases hjy : j = y
    · rw [hjy, update_self] at hb
      exact ⟨x, hxn, hx.trans hb⟩
    · rw [update_of_ne hjy] at hb
      exact ⟨j, hj, hb⟩
  · rintro ⟨j, hj, hb⟩
    by_cases hjx : j = x
    · refine ⟨y, hyn, ?_⟩
      rw [update_of_ne hxy.symm, update_self, ← hx, ← hjx, hb]
    · have hjy : j ≠ y := fun h => by rw [h, hy] at hb; cases hb
      exact ⟨j, hj, by rw [update_of_ne hjx, update_of_ne hjy, hb]⟩

theorem card_filled_move {x y : Nat} {a : α} (hx : s x = some a) (hy : s y = none)
    (hxn : x < n) (hyn : y < n) :
    (filled n (Function.update (Function.update s y (some a)) x none)).card
      = (filled n s).card := by
  have hyf : y ∉ filled n s := by simp [hy]
  have hxf : x ∈ insert y (filled n s) := by simp [hx, hxn]
  rw [filled_erase, filled_insert hyn, Finset.card_erase_of_mem hxf,
    Finset.card_insert_of_notMem hyf, Nat.add_sub_cancel]

theorem PairwiseApart.move {r : α → α → Prop} (h : PairwiseApart n r s) {x y : Nat}
    {a : α} (hx : s x = some a) (hxn : x < n) :
    PairwiseApart n r (Function.update (Function.update s y (some a)) x none) := by
  -- the slot each element had before the move
  have hback : ∀ j < n, ∀ b,
      Function.update (Function.update s y (some a)) x none j = some b →
      j ≠ x ∧ ((j = y ∧ s x = some b) ∨ (j ≠ y ∧ s j = some b)) := by
    intro j hj b hb
    have hjx : j ≠ x := fun h => by rw [h, update_self] at hb; cases hb
    rw [update_of_ne hjx] at hb
    by_cases hjy : j = y
    · rw [hjy, update_self] at hb
      exact ⟨hjx, Or.inl ⟨hjy, hx.trans hb⟩⟩
    · rw [update_of_ne hjy] at hb
      exact ⟨hjx, Or.inr ⟨hjy, hb⟩⟩
  intro i hi j hj b c hb hc hbc
  obtain ⟨hix, ⟨hiy, hb⟩ | ⟨hiy, hb⟩⟩ := hback i hi b hb <;>
    obtain ⟨hjx, ⟨hjy, hc⟩ | ⟨hjy, hc⟩⟩ := hback j hj c hc
  · rw [hiy, hjy]
  · exact absurd (h x hxn j hj b c hb hc hbc) hjx.symm
  · exact absurd (h i hi x hxn b c hb hc hbc) hix
  · exact h i hi j hj b c hb hc hbc

theorem filled_succ :
    filled (n + 1) s = if s n = none then filled n s else insert n (filled n s) := by
  ext j
  split
  case isTrue h =>
    simp only [mem_filled]
    refine ⟨fun ⟨hj, hs⟩ => ⟨?_, hs⟩, fun ⟨hj, hs⟩ => ⟨by omega, hs⟩⟩
    have : j ≠ n := fun heq => hs (heq ▸ h)
    omega
  case isFalse h =>
    simp only [mem_filled, Finset.mem_insert]
    constructor
    · rintro ⟨hj, hs⟩
      rcases Nat.lt_or_eq_of_le (Nat.lt_succ_iff.mp hj) with hlt | heq
      · exact Or.inr ⟨hlt, hs⟩
      · exact Or.inl heq
    · rintro (rfl | ⟨hj, hs⟩)
      · exact ⟨by omega, h⟩
      · exact ⟨by omega, hs⟩

theorem holds_succ {a : α} : Holds (n + 1) s a ↔ Holds n s a ∨ s n = some a := by
  constructor
  · rintro ⟨j, hj, ha⟩
    rcases Nat.lt_or_eq_of_le (Nat.lt_succ_iff.mp hj) with hlt | heq
    · exact Or.inl ⟨j, hlt, ha⟩
    · exact Or.inr (heq ▸ ha)
  · rintro (⟨j, hj, ha⟩ | ha)
    · exact ⟨j, by omega, ha⟩
    · exact ⟨n, by omega, ha⟩

end Probed

/-! ## Deletion by re-inserting the rest of the cluster -/

section Repair

variable {α : Type*} {n : Nat} {home : α → Nat}

/-- The array between the clearing of slot `i` and the end of the repair, when
the slots from `i` up to `x` have been treated: `hole` is the only clear slot
among them, walks are broken by nothing but the hole, and no element treated
already is walked to across it. -/
structure Repairing (n : Nat) (home : α → Nat) (i x hole : Nat)
    (s : Nat → Option α) : Prop where
  hole_lt : hole < n
  hole_in : InCyc i x hole
  hole_clear : s hole = none
  solid : ∀ j < n, InCyc i x j → j ≠ hole → s j ≠ none
  walk : ∀ y < n, ∀ a, s y = some a → ∀ j < n, InCyc (home a) y j →
    s j ≠ none ∨ j = hole
  treated : ∀ y < n, InCyc i x y → ∀ a, s y = some a → ¬ InCyc (home a) y hole

theorem Repairing.start {s : Nat → Option α} (h : Probed n home s) {i : Nat}
    (hi : i < n) (hn : next n i ≠ i) :
    Repairing n home i (next n i) i (Function.update s i none) := by
  have honly : ∀ j < n, InCyc i (next n i) j → j = i := by
    intro j hj hin
    rw [inCyc_iff] at hin
    unfold next slotOf at hin hn
    split at hin <;> omega
  refine ⟨hi, ?_, update_self .., ?_, ?_, ?_⟩
  · rw [inCyc_iff]
    have := next_lt hi
    omega
  · intro j hj hin hne
    exact absurd (honly j hj hin) hne
  · intro y hy a ha j hj hin
    by_cases hji : j = i
    · exact Or.inr hji
    · refine Or.inl ?_
      have hyi : y ≠ i := fun h => by rw [h, update_self] at ha; cases ha
      rw [update_of_ne hji]
      rw [update_of_ne hyi] at ha
      exact h y hy a ha j hj hin
  · intro y hy hin a ha
    rw [honly y hy hin, update_self] at ha
    cases ha

theorem Repairing.stay {s : Nat → Option α} {i x hole e : Nat}
    (h : Repairing n home i x hole s) (hi : i < n) (hx : x < n) (he : e < n)
    (hex : e ≠ x) (hei : ¬ InCyc i x e) {a : α} (ha : s x = some a)
    (hwalk : ¬ InCyc (home a) x hole) : Repairing n home i (next n x) hole s := by
  have hstep : ∀ j < n, InCyc i (next n x) j → j = x ∨ InCyc i x j := by
    intro j hj hin
    rw [inCyc_iff] at hin hei ⊢
    unfold next slotOf at hin
    split at hin <;> omega
  have hin := h.hole_in
  refine ⟨h.hole_lt, ?_, h.hole_clear, ?_, h.walk, ?_⟩
  · have := h.hole_lt
    rw [inCyc_iff] at hin hei ⊢
    unfold next slotOf
    split <;> omega
  · intro j hj hin hne
    rcases hstep j hj hin with rfl | hin
    · rw [ha]; simp
    · exact h.solid j hj hin hne
  · intro y hy hin b hb
    rcases hstep y hy hin with rfl | hin
    · rw [ha, Option.some.injEq] at hb
      exact hb ▸ hwalk
    · exact h.treated y hy hin b hb

/-- An element whose walk crosses the hole moves into it, and its old slot is
the new hole. -/
theorem Repairing.move {s : Nat → Option α} {i x hole e : Nat}
    (h : Repairing n home i x hole s) (hi : i < n) (hx : x < n) (he : e < n)
    (hex : e ≠ x) (hei : ¬ InCyc i x e) (heclear : s e = none) {a : α}
    (ha : s x = some a) (hwalk : InCyc (home a) x hole) :
    Repairing n home i (next n x) x
      (Function.update (Function.update s hole (some a)) x none) := by
  have hhole := h.hole_lt
  have hin := h.hole_in
  have hxh : x ≠ hole := fun heq => by rw [heq, h.hole_clear] at ha; cases ha
  have hstep : ∀ j < n, InCyc i (next n x) j → j = x ∨ InCyc i x j := by
    intro j hj hin
    rw [inCyc_iff] at hin hei ⊢
    unfold next slotOf at hin
    split at hin <;> omega
  have hne_of : ∀ j, s j ≠ none → j ≠ x →
      Function.update (Function.update s hole (some a)) x none j ≠ none := by
    intro j hj hjx
    rw [update_of_ne hjx]
    by_cases hjh : j = hole
    · rw [hjh, update_self]; simp
    · rwa [update_of_ne hjh]
  have hhole_some :
      Function.update (Function.update s hole (some a)) x none hole = some a := by
    rw [update_of_ne hxh.symm, update_self]
  refine ⟨hx, ?_, update_self .., ?_, ?_, ?_⟩
  · rw [inCyc_iff] at hin hei ⊢
    unfold next slotOf
    split <;> omega
  · intro j hj hjin hjx
    rcases hstep j hj hjin with rfl | hjin
    · exact absurd rfl hjx
    · by_cases hjh : j = hole
      · rw [hjh, hhole_some]; simp
      · exact hne_of j (h.solid j hj hjin hjh) hjx
  · intro y hy b hb j hj hjin
    by_cases hjx : j = x
    · exact Or.inr hjx
    refine Or.inl ?_
    have hyx : y ≠ x := fun heq => by rw [heq, update_self] at hb; cases hb
    by_cases hyh : y = hole
    · -- the element just moved: its walk is a part of its old walk
      rw [hyh, hhole_some, Option.some.injEq] at hb
      subst hb
      have hjin' : InCyc (home a) x j ∧ j ≠ hole := by
        rw [hyh] at hjin
        rw [inCyc_iff] at hwalk hjin ⊢
        omega
      rcases h.walk x hx a ha j hj hjin'.1 with hj' | hj'
      · exact hne_of j hj' hjx
      · exact absurd hj' hjin'.2
    · rw [update_of_ne hyx, update_of_ne hyh] at hb
      rcases h.walk y hy b hb j hj hjin with hj' | hj'
      · exact hne_of j hj' hjx
      · rw [hj', hhole_some]; simp
  · intro y hy hyin b hb hcross
    have hyx : y ≠ x := fun heq => by rw [heq, update_self] at hb; cases hb
    have hyin' : InCyc i x y := (hstep y hy hyin).resolve_left hyx
    by_cases hyh : y = hole
    · rw [hyh, hhole_some, Option.some.injEq] at hb
      subst hb
      rw [hyh] at hcross
      rw [inCyc_iff] at hwalk hcross
      omega
    · -- a walk crossing `x` to a treated slot would pass the clear slot `e`
      rw [update_of_ne hyx, update_of_ne hyh] at hb
      have he' : InCyc (home b) y e ∧ e ≠ hole := by
        rw [inCyc_iff] at hei hyin' hcross hin ⊢
        omega
      rcases h.walk y hy b hb e he he'.1 with hcon | hcon
      · exact hcon heclear
      · exact he'.2 hcon

/-- What the repair has done to the array `s₀` it was started on, by clearing slot `i`: what
is not where it was is from a slot up to the hole, and the hole has gone only over slots that
walks of `s₀` pass. It has come around to the slots below `i` exactly when an element from
there is now behind them. -/
structure Trails (n : Nat) (home : α → Nat) (i : Nat) (s₀ : Nat → Option α) (x hole : Nat)
    (s : Nat → Option α) : Prop where
  fromBelow : FromBelow i s₀ s
  ahead : ∀ y < n, ¬ InCyc i x y → s y = s₀ y
  moved : ∀ y < n, ∀ a, s₀ y = some a → s y = some a ∨ y = hole ∨ InCyc i hole y
  origin : ∀ y < n, ∀ a, s y = some a → ∃ k < n, s₀ k = some a ∧ (k = y ∨ k = hole ∨ InCyc i hole k)
  passed : ∀ t < n, InCyc i hole t → Walked n home s₀ t
  around : hole < i → ∃ j < n, i ≤ j ∧ InCyc i x j ∧ ∃ a, s j = some a ∧ ∃ k < i, s₀ k = some a

theorem Trails.start {s : Nat → Option α} {i : Nat} (hi : i < n) (hn : next n i ≠ i) :
    Trails n home i s (next n i) i (Function.update s i none) := by
  have hback : ∀ y a, Function.update s i none y = some a → s y = some a := by
    intro y a ha
    by_cases hyi : y = i
    · rw [hyi, update_self] at ha
      cases ha
    · rwa [update_of_ne hyi] at ha
  have hnone : ∀ t, ¬ InCyc i i t := by
    intro t hin
    rw [inCyc_iff] at hin
    omega
  refine ⟨fun j hj a ha => ⟨j, hj, hback j a ha⟩, fun y hy hnot => ?_, fun y hy a ha => ?_,
    fun y hy a ha => ⟨y, hy, hback y a ha, .inl rfl⟩, fun t _ hin => absurd hin (hnone t),
    fun hlt => absurd hlt (lt_irrefl i)⟩
  · refine update_of_ne ?_ _ _
    rintro rfl
    refine hnot ?_
    rw [inCyc_iff]
    have := next_lt hi
    omega
  · by_cases hyi : y = i
    · exact .inr (.inl hyi)
    · exact .inl (by rw [update_of_ne hyi, ha])

theorem Trails.stay {s₀ s : Nat → Option α} {i x hole e : Nat}
    (h : Trails n home i s₀ x hole s) (hi : i < n) (hx : x < n) (he : e < n) (hex : e ≠ x)
    (hei : ¬ InCyc i x e) : Trails n home i s₀ (next n x) hole s := by
  have hmono : ∀ j < n, InCyc i x j → InCyc i (next n x) j := by
    intro j hj hin
    rw [inCyc_iff] at hin hei ⊢
    unfold next slotOf
    split <;> omega
  refine { h with ahead := fun y hy hnot => h.ahead y hy fun hin => hnot (hmono y hy hin)
                  around := fun hlt => ?_ }
  obtain ⟨j, hj, hij, hin, hrest⟩ := h.around hlt
  exact ⟨j, hj, hij, hmono j hj hin, hrest⟩

/-- An element that moves into the hole was still where `s₀` has it. -/
theorem Trails.move {s₀ s : Nat → Option α} {i x hole e : Nat}
    (hr : Repairing n home i x hole s) (h : Trails n home i s₀ x hole s) (hi : i < n)
    (hx : x < n) (he : e < n) (hex : e ≠ x) (hei : ¬ InCyc i x e) {a : α} (ha : s x = some a)
    (hwalk : InCyc (home a) x hole) :
    Trails n home i s₀ (next n x) x
      (Function.update (Function.update s hole (some a)) x none) := by
  have hhole := hr.hole_lt
  have hin := hr.hole_in
  have hxh : x ≠ hole := fun heq => by rw [heq, hr.hole_clear] at ha; cases ha
  have hxx : ¬ InCyc i x x := by
    rw [inCyc_iff]
    omega
  have hx₀ : s₀ x = some a := (h.ahead x hx hxx).symm.trans ha
  have hmono : ∀ j < n, InCyc i x j → InCyc i (next n x) j := by
    intro j hj hin
    rw [inCyc_iff] at hin hei ⊢
    unfold next slotOf
    split <;> omega
  have hxin : InCyc i (next n x) x := by
    rw [inCyc_iff] at hin hei ⊢
    unfold next slotOf
    split <;> omega
  -- the slots up to the hole are now up to `x`
  have hup : ∀ y < n, y = hole ∨ InCyc i hole y → y = x ∨ InCyc i x y := by
    intro y hy hor
    rw [inCyc_iff] at hin hor ⊢
    omega
  have hback : ∀ y b, Function.update (Function.update s hole (some a)) x none y = some b →
      y ≠ x ∧ (y = hole ∧ b = a ∨ y ≠ hole ∧ s y = some b) := by
    intro y b hb
    have hyx : y ≠ x := fun heq => by rw [heq, update_self] at hb; cases hb
    rw [update_of_ne hyx] at hb
    by_cases hyh : y = hole
    · rw [hyh, update_self, Option.some.injEq] at hb
      exact ⟨hyx, .inl ⟨hyh, hb.symm⟩⟩
    · rw [update_of_ne hyh] at hb
      exact ⟨hyx, .inr ⟨hyh, hb⟩⟩
  refine ⟨fun j hj b hb => ?_, fun y hy hnot => ?_, fun y hy b hb => ?_, fun y hy b hb => ?_,
    fun t ht hpass => ?_, fun hlt => ?_⟩
  · obtain ⟨-, ⟨rfl, rfl⟩ | ⟨-, hb⟩⟩ := hback j b hb
    · -- the hole is below `i` only when the walk has come around
      refine ⟨x, ?_, hx₀⟩
      rw [inCyc_iff] at hin
      omega
    · exact h.fromBelow j hj b hb
  · have hyx : y ≠ x := fun heq => hnot (heq ▸ hxin)
    have hyh : y ≠ hole := fun heq => hnot (hmono y hy (heq ▸ hin))
    rw [update_of_ne hyx, update_of_ne hyh]
    exact h.ahead y hy fun hin => hnot (hmono y hy hin)
  · by_cases hyx : y = x
    · exact .inr (.inl hyx)
    · obtain hsame | hor := h.moved y hy b hb
      · refine .inl ?_
        have hyh : y ≠ hole := fun heq => by rw [heq, hr.hole_clear] at hsame; cases hsame
        rw [update_of_ne hyx, update_of_ne hyh, hsame]
      · exact .inr (hup y hy hor)
  · obtain ⟨-, ⟨-, rfl⟩ | ⟨-, hb⟩⟩ := hback y b hb
    · exact ⟨x, hx, hx₀, .inr (.inl rfl)⟩
    · obtain ⟨k, hk, hk₀, hor⟩ := h.origin y hy b hb
      exact ⟨k, hk, hk₀, hor.imp_right (hup k hk)⟩
  · -- from the old hole on, it is the walk to the moved element
    by_cases hbefore : InCyc i hole t
    · exact h.passed t ht hbefore
    · refine ⟨x, hx, a, hx₀, ?_⟩
      rw [inCyc_iff] at hin hpass hbefore hwalk ⊢
      omega
  · by_cases hold : hole < i
    · obtain ⟨j, hj, hij, hjin, b, hb, hrest⟩ := h.around hold
      have hjx : j ≠ x := fun heq => hxx (heq ▸ hjin)
      have hjh : j ≠ hole := by omega
      refine ⟨j, hj, hij, hmono j hj hjin, b, ?_, hrest⟩
      rw [update_of_ne hjx, update_of_ne hjh, hb]
    · refine ⟨hole, hhole, Nat.le_of_not_lt hold, hmono hole hhole hin, a, ?_, x, hlt, hx₀⟩
      rw [update_of_ne hxh.symm, update_self]

/-- What deleting the element of slot `i` does to the array: nothing gets from behind slot
`i` before it, and nothing from before it behind it, unless walks pass all the slots from `i`
to the end. -/
structure Refills (n : Nat) (home : α → Nat) (i : Nat) (s s' : Nat → Option α) : Prop where
  fromBelow : FromBelow i s s'
  fromAbove_iff : FromAbove n i s s' ↔ ∃ t, i ≤ t ∧ t < n ∧ ¬ Walked n home s t

theorem Repairing.finish {s : Nat → Option α} {i x hole : Nat}
    (h : Repairing n home i x hole s) (hx : x < n)
    (hclear : s x = none) (hne : x ≠ hole) : Probed n home s := by
  intro y hy a ha j hj hin
  rcases h.walk y hy a ha j hj hin with hj' | rfl
  · exact hj'
  · have hyx : y ≠ x := fun heq => by rw [heq, hclear] at ha; cases ha
    by_cases hyin : InCyc i x y
    · exact absurd hin (h.treated y hy hyin a ha)
    · -- the walk to a slot past the cluster would pass the clear slot `x`
      have hx' : InCyc (home a) y x := by
        have hh := h.hole_in
        rw [inCyc_iff] at hyin hin hh ⊢
        omega
      rcases h.walk y hy a ha x hx hx' with hcon | hcon
      · exact absurd hclear hcon
      · exact absurd hcon hne

theorem Trails.refills {s₀ s : Nat → Option α} {i x hole : Nat} (hs₀ : Probed n home s₀)
    (happart : PairwiseApart n Eq s₀) (hr : Repairing n home i x hole s)
    (h : Trails n home i s₀ x hole s) (hx : x < n) (hclear : s x = none) (hne : x ≠ hole) :
    Refills n home i s₀ s := by
  have hprobed := hr.finish hx hclear hne
  have hhole := hr.hole_lt
  have hin := hr.hole_in
  have hxx : ¬ InCyc i x x := by
    rw [inCyc_iff]
    omega
  have hclear₀ : s₀ x = none := (h.ahead x hx hxx).symm.trans hclear
  have hnot : ¬ Walked n home s₀ hole := by
    rintro ⟨y, hy, a, ha, hwalk⟩
    obtain hsame | hmoved := h.moved y hy a ha
    · exact hprobed y hy a hsame hole hhole hwalk hr.hole_clear
    · -- from the hole on, the walk would pass the clear slot `x`
      refine hs₀ y hy a ha x hx ?_ hclear₀
      rw [inCyc_iff] at hin hmoved hwalk ⊢
      omega
  refine ⟨h.fromBelow, fun hall => ?_, ?_⟩
  · refine ⟨hole, ?_, hhole, hnot⟩
    by_contra hlt
    obtain ⟨j, hj, hij, -, a, ha, k, hk, hk₀⟩ := h.around (by omega)
    obtain ⟨m, hm, him, hm₀⟩ := hall j hj hij a ha
    have := happart k (by omega) m hm a a hk₀ hm₀ rfl
    omega
  · rintro ⟨t, hit, ht, hwalked⟩ j hj hij a ha
    have hbehind : i ≤ hole := by
      by_contra hlt
      refine hwalked (h.passed t ht ?_)
      rw [inCyc_iff]
      omega
    obtain ⟨k, hk, hk₀, hor⟩ := h.origin j hj a ha
    refine ⟨k, hk, ?_, hk₀⟩
    rw [inCyc_iff] at hor
    omega

end Repair

end LinearProbing

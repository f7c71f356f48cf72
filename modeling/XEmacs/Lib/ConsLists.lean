import Mathlib.Data.List.Nodup
import Mathlib.Data.List.Perm.Subperm

/-!
# Dotted lists in a heap of cons cells

A Lisp list without a final `nil` is kept in cons cells.
-/

namespace ConsLists

open List Function

variable {α : Type}

/-- A Lisp object that is an atom or a cons cell. -/
inductive Ref (α : Type)
  | atom (a : α)
  | cell (p : Nat)
  deriving DecidableEq

/-- The cells, of which those below `next` are in use. -/
structure Cells (α : Type) where
  car : Nat → α
  cdr : Nat → Ref α
  next : Nat

namespace Cells

variable (c : Cells α)

/-- `Fcons`: the new cell is `next`. -/
def cons (a : α) (r : Ref α) : Cells α :=
  { car := Function.update c.car c.next a, cdr := Function.update c.cdr c.next r,
    next := c.next + 1 }

def setCdr (p : Nat) (r : Ref α) : Cells α :=
  { c with cdr := Function.update c.cdr p r }

/-- Two heaps hold the same in some cells. -/
def Agree (c c' : Cells α) (ps : List Nat) : Prop :=
  ∀ p ∈ ps, c'.car p = c.car p ∧ c'.cdr p = c.cdr p

end Cells

/-- The list at `r` runs through the cells `ps` and spells `as`, then the last
element `z`. -/
inductive Dotted (c : Cells α) : Ref α → List Nat → List α → α → Prop
  | atom (a : α) : Dotted c (.atom a) [] [] a
  | cell {p : Nat} {ps : List Nat} {as : List α} {z : α}
      (h : Dotted c (c.cdr p) ps as z) :
      Dotted c (.cell p) (p :: ps) (c.car p :: as) z

namespace Dotted

variable {c c' : Cells α} {r : Ref α} {ps : List Nat} {as : List α} {z : α}

theorem frame (h : Dotted c r ps as z) (hc : c.Agree c' ps) : Dotted c' r ps as z := by
  induction h with
  | atom a => exact .atom a
  | @cell p ps as z _ ih =>
    obtain ⟨hcar, hcdr⟩ := hc p (mem_cons_self ..)
    rw [← hcar]
    refine .cell ?_
    rw [hcdr]
    exact ih fun q hq => hc q (mem_cons_of_mem p hq)

theorem of_atom {a : α} (h : Dotted c (.atom a) ps as z) : ps = [] ∧ as = [] ∧ z = a := by
  cases h
  exact ⟨rfl, rfl, rfl⟩

end Dotted

namespace Cells

variable (c : Cells α)

/-! ### Adding at the end -/

/-- The last cell of a list and what its cdr is:
`while (CONSP (XCDR (keys))) keys = XCDR (keys);`. -/
def lastCell : Nat → Nat → Option (Nat × α)
  | 0, _ => none
  | fuel + 1, p =>
    match c.cdr p with
    | .atom z => some (p, z)
    | .cell q => lastCell fuel q

/-- The cells after `XCDR (p) = Fcons (z, a)`. -/
def extend (p : Nat) (z a : α) : Cells α :=
  (c.cons z (.atom a)).setCdr p (.cell c.next)

variable {c}

theorem cons_agree {a : α} {r : Ref α} {qs : List Nat} (hqs : ∀ q ∈ qs, q < c.next) :
    c.Agree (c.cons a r) qs := fun q hq =>
  ⟨update_of_ne (Nat.ne_of_lt (hqs q hq)) _ _,
    update_of_ne (Nat.ne_of_lt (hqs q hq)) _ _⟩

theorem Dotted_cons (c : Cells α) (a z : α) :
    Dotted (c.cons a (.atom z)) (.cell c.next) [c.next] [a] z := by
  have hcar : (c.cons a (.atom z)).car c.next = a := update_self ..
  have hcdr : (c.cons a (.atom z)).cdr c.next = .atom z := update_self ..
  have hrest : Dotted (c.cons a (.atom z)) ((c.cons a (.atom z)).cdr c.next) [] [] z := by
    rw [hcdr]
    exact .atom z
  have hpair := Dotted.cell hrest
  rwa [hcar] at hpair

theorem extend_agree {l : Nat} {z a : α} {qs : List Nat} (hl : l ∉ qs)
    (hqs : ∀ q ∈ qs, q < c.next) : c.Agree (c.extend l z a) qs := by
  intro q hq
  have hne : q ≠ c.next := Nat.ne_of_lt (hqs q hq)
  have hnel : q ≠ l := fun h => hl (h ▸ hq)
  exact ⟨update_of_ne hne _ _,
    (update_of_ne hnel _ _).trans (update_of_ne hne _ _)⟩

theorem extend_car {l p : Nat} {z a : α} (hp : p < c.next) :
    (c.extend l z a).car p = c.car p :=
  update_of_ne (Nat.ne_of_lt hp) _ _

theorem Dotted_extend_next {l : Nat} {z a : α} (hl : l < c.next) :
    Dotted (c.extend l z a) (.cell c.next) [c.next] [z] a := by
  have hcar : (c.extend l z a).car c.next = z := update_self ..
  have hcdr : (c.extend l z a).cdr c.next = .atom a :=
    (update_of_ne (Nat.ne_of_gt hl) _ _).trans (update_self ..)
  have hrest : Dotted (c.extend l z a) ((c.extend l z a).cdr c.next) [] [] a := by
    rw [hcdr]
    exact .atom a
  have hpair := Dotted.cell hrest
  rwa [hcar] at hpair

end Cells

namespace Dotted

variable {c : Cells α} {r : Ref α} {ps : List Nat} {as : List α} {z : α}

theorem extend (a : α) (h : Dotted c r ps as z) (hnd : ps.Nodup)
    (hps : ∀ q ∈ ps, q < c.next) :
    ∀ p, r = .cell p → ∃ l ∈ ps,
      (∀ fuel, ps.length ≤ fuel → c.lastCell fuel p = some (l, z)) ∧
      Dotted (c.extend l z a) r (ps ++ [c.next]) (as ++ [z]) a := by
  induction h with
  | atom b => exact fun p hp => by cases hp
  | @cell p ps as z h ih =>
    intro p' hp'
    cases hp'
    obtain ⟨hp, hnd⟩ := List.nodup_cons.mp hnd
    have hpn : p < c.next := hps p (mem_cons_self ..)
    cases hcdr : c.cdr p with
    | atom b =>
      rw [hcdr] at h
      obtain ⟨rfl, rfl, rfl⟩ := h.of_atom
      refine ⟨p, mem_cons_self .., fun fuel hfuel => ?_, ?_⟩
      · cases fuel with
        | zero => exact absurd hfuel (by simp)
        | succ fuel => rw [Cells.lastCell, hcdr]
      · have hset : (c.extend p z a).cdr p = .cell c.next := update_self ..
        rw [← Cells.extend_car (l := p) (z := z) (a := a) hpn]
        refine .cell ?_
        rw [hset]
        exact Cells.Dotted_extend_next hpn
    | cell q =>
      obtain ⟨l, hl, hlast, htail⟩ :=
        ih hnd (fun q hq => hps q (mem_cons_of_mem p hq)) q hcdr
      refine ⟨l, mem_cons_of_mem p hl, fun fuel hfuel => ?_, ?_⟩
      · cases fuel with
        | zero => exact absurd hfuel (by simp)
        | succ fuel =>
          rw [Cells.lastCell, hcdr]
          exact hlast fuel (Nat.le_of_succ_le_succ hfuel)
      · have hne : p ≠ l := fun h => hp (h ▸ hl)
        have hkeep : (c.extend l z a).cdr p = c.cdr p :=
          (update_of_ne hne _ _).trans
            (update_of_ne (Nat.ne_of_lt hpn) _ _)
        rw [← Cells.extend_car (l := l) (z := z) (a := a) hpn]
        refine .cell ?_
        rw [hkeep]
        exact htail

end Dotted

theorem length_le_of_nodup {ps : List Nat} {n : Nat} (hnd : ps.Nodup)
    (hlt : ∀ p ∈ ps, p < n) : ps.length ≤ n := by
  have h : ps.Subperm (List.range n) :=
    subperm_of_subset hnd fun p hp => List.mem_range.mpr (hlt p hp)
  simpa using h.length_le

/-! ### Taking out an element -/

namespace Cells

variable [DecidableEq α] (c : Cells α) (nil a : α)

/-- What taking out an element ends with. -/
inductive Deleted (α : Type)
  | diverges
  /-- The car of an atom is asked for. -/
  | crashes
  /-- The head of the list and the cells afterwards. -/
  | done (r : Ref α) (c : Cells α)

/-- Where `*prev = r` stores: in the head or in the cdr of a cell. -/
def store (head : Ref α) (prev : Option Nat) (r : Ref α) : Deleted α :=
  match prev with
  | none => .done r c
  | some p => .done head (c.setCdr p r)

/-- `for (prev = &new_keys, tail = new_keys; ; prev = &(XCDR (tail)), tail = XCDR
(tail))`: an element in a car is unlinked, the last rest is replaced by `nil`. -/
def deleteFrom (head : Ref α) : Nat → Option Nat → Ref α → Deleted α
  | 0, _, _ => .diverges
  | fuel + 1, prev, tail =>
    if tail = .atom a then
      c.store head prev (.atom nil)
    else
      match tail with
      | .atom _ => .crashes
      | .cell p =>
        if a = c.car p then c.store head prev (c.cdr p)
        else deleteFrom head fuel (some p) (c.cdr p)

/-- Delete from a list at its head. -/
def delete (fuel : Nat) (r : Ref α) : Deleted α :=
  c.deleteFrom nil a r fuel none r

end Cells

/-- What a deletion leaves of the elements `as` and the last one: the last one gives
way to `nil`, the others to nothing. -/
def remaining [DecidableEq α] (nil a : α) (as : List α) (z : α) : List α × α :=
  if a ∈ as then (as.erase a, z) else (as, nil)

theorem remaining_cons_self [DecidableEq α] (nil a : α) (as : List α) (z : α) :
    remaining nil a (a :: as) z = (as, z) := by
  rw [remaining, if_pos (mem_cons_self ..), erase_cons_head]

theorem remaining_cons_of_ne [DecidableEq α] {nil a b : α} (h : a ≠ b) (as : List α)
    (z : α) : remaining nil a (b :: as) z =
      (b :: (remaining nil a as z).1, (remaining nil a as z).2) := by
  unfold remaining
  by_cases ha : a ∈ as
  · rw [if_pos ha, if_pos (mem_cons_of_mem b ha),
      erase_cons_tail (by simpa using h.symm)]
  · rw [if_neg ha, if_neg (by simp [h, ha])]

namespace Dotted

variable [DecidableEq α] {c : Cells α} {r : Ref α} {ps : List Nat} {as : List α} {z a : α}
  (nil : α)

/-- The loop past its first round: `q` is the cell it has just left. -/
theorem deleteFrom_some (head : Ref α) (h : Dotted c r ps as z) (hnd : ps.Nodup)
    (ha : a ∈ as ∨ a = z) : ∀ {fuel q : Nat}, ps.length < fuel → q ∉ ps → c.cdr q = r →
      ∃ c' ps', c.deleteFrom nil a head fuel (some q) r = .done head c' ∧
        Dotted c' (c'.cdr q) ps' (remaining nil a as z).1 (remaining nil a as z).2 ∧
        ps'.Sublist ps ∧ c'.car = c.car ∧ c'.next = c.next ∧
        ∀ x, x ≠ q → x ∉ ps → c'.cdr x = c.cdr x := by
  induction h with
  | atom b =>
    intro fuel q hfuel _ _
    obtain rfl : a = b := ha.resolve_left (not_mem_nil)
    refine ⟨c.setCdr q (.atom nil), [], ?_, ?_, List.Sublist.refl _, rfl, rfl,
      fun x hx _ => update_of_ne hx _ _⟩
    · cases fuel with
      | zero => exact absurd hfuel (Nat.not_lt_zero _)
      | succ fuel => rw [Cells.deleteFrom, if_pos rfl, Cells.store]
    · rw [remaining, if_neg not_mem_nil]
      have hset : (c.setCdr q (.atom nil)).cdr q = .atom nil := update_self ..
      rw [hset]
      exact .atom nil
  | @cell p ps as z h ih =>
    intro fuel q hfuel hq hcdr
    obtain ⟨hp, hnd⟩ := List.nodup_cons.mp hnd
    obtain ⟨hqp, hqs⟩ := not_or.mp (List.mem_cons.not.mp hq)
    cases fuel with
    | zero => exact absurd hfuel (Nat.not_lt_zero _)
    | succ fuel =>
      rw [Cells.deleteFrom, if_neg (by simp)]
      by_cases hcar : a = c.car p
      · -- the element is here: `q` now leads past it
        refine ⟨c.setCdr q (c.cdr p), ps, ?_, ?_, sublist_cons_self p ps, rfl, rfl,
          fun x hx _ => update_of_ne hx _ _⟩
        · simp only [if_pos hcar, Cells.store]
        · have hset : (c.setCdr q (c.cdr p)).cdr q = c.cdr p := update_self ..
          rw [hset, hcar, remaining_cons_self]
          refine h.frame fun x hx => ⟨rfl, update_of_ne ?_ _ _⟩
          rintro rfl
          exact hqs hx
      · have ha' : a ∈ as ∨ a = z := by
          rcases ha with ha | ha
          · exact .inl ((List.mem_cons.mp ha).resolve_left hcar)
          · exact .inr ha
        obtain ⟨c', ps', hrun, hdot, hsub, hcars, hnext, hframe⟩ :=
          ih hnd ha' (q := p) (Nat.lt_of_succ_lt_succ hfuel) hp rfl
        refine ⟨c', p :: ps', ?_, ?_, hsub.cons_cons p, hcars, hnext, fun x hx hxs => ?_⟩
        · simpa only [if_neg hcar] using hrun
        · rw [hframe q hqp hqs, hcdr, remaining_cons_of_ne hcar, ← congrFun hcars p]
          exact .cell hdot
        · obtain ⟨hxp, hxs⟩ := not_or.mp (List.mem_cons.not.mp hxs)
          exact hframe x hxp hxs

/-- **Deletion** of an element of the list: it does not reach an atom other than the
element, and touches no cell of another list. -/
theorem delete (h : Dotted c r ps as z) (hnd : ps.Nodup) (ha : a ∈ as ∨ a = z)
    {fuel : Nat} (hfuel : ps.length < fuel) :
    ∃ r' c' ps', c.delete nil a fuel r = .done r' c' ∧
      Dotted c' r' ps' (remaining nil a as z).1 (remaining nil a as z).2 ∧
      ps'.Sublist ps ∧ c'.next = c.next ∧
      ∀ qs : List Nat, (∀ q ∈ qs, q ∉ ps) → c.Agree c' qs := by
  cases fuel with
  | zero => exact absurd hfuel (Nat.not_lt_zero _)
  | succ fuel =>
    cases h with
    | atom =>
      obtain rfl : a = z := ha.resolve_left not_mem_nil
      refine ⟨.atom nil, c, [], ?_, ?_, List.Sublist.refl _, rfl, fun _ _ _ _ => ⟨rfl, rfl⟩⟩
      · rw [Cells.delete, Cells.deleteFrom, if_pos rfl, Cells.store]
      · rw [remaining, if_neg not_mem_nil]
        exact .atom nil
    | @cell p ps as _ h =>
      obtain ⟨hp, hnd⟩ := List.nodup_cons.mp hnd
      rw [Cells.delete, Cells.deleteFrom, if_neg (by simp)]
      by_cases hcar : a = c.car p
      · refine ⟨c.cdr p, c, ps, ?_, ?_, sublist_cons_self p ps, rfl,
          fun _ _ _ _ => ⟨rfl, rfl⟩⟩
        · simp only [if_pos hcar, Cells.store]
        · rw [hcar, remaining_cons_self]
          exact h
      · have ha' : a ∈ as ∨ a = z := by
          rcases ha with ha | ha
          · exact .inl ((List.mem_cons.mp ha).resolve_left hcar)
          · exact .inr ha
        obtain ⟨c', ps', hrun, hdot, hsub, hcars, hnext, hframe⟩ :=
          h.deleteFrom_some nil (.cell p) hnd ha'
            (Nat.lt_of_succ_lt_succ hfuel) hp rfl
        refine ⟨.cell p, c', p :: ps', ?_, ?_, hsub.cons_cons p, hnext,
          fun qs hqs q hq => ⟨congrFun hcars q, ?_⟩⟩
        · simpa only [if_neg hcar] using hrun
        · rw [remaining_cons_of_ne hcar, ← congrFun hcars p]
          exact .cell hdot
        · obtain ⟨hqp, hqps⟩ := not_or.mp (List.mem_cons.not.mp (hqs q hq))
          exact hframe q hqp hqps

end Dotted

/-! ### Copying -/

namespace Cells

/-- `Fcopy_list`: new cells from the head on; the list ends at the first atom. -/
def copyList : Nat → Cells α → Ref α → Option (Ref α × Cells α)
  | _, c, .atom a => some (.atom a, c)
  | 0, _, .cell _ => none
  | fuel + 1, c, .cell p =>
    -- the new cell first gets the old rest, then the copy of it
    match copyList fuel (c.cons (c.car p) (c.cdr p)) (c.cdr p) with
    | none => none
    | some (r, c') => some (.cell c.next, c'.setCdr c.next r)

end Cells

/-- **A copy** spells the same in new cells and changes no old one. -/
theorem Dotted.copyList {c : Cells α} {r : Ref α} {ps : List Nat} {as : List α} {z : α}
    (h : Dotted c r ps as z) :
    ∀ {c₁ : Cells α} {fuel : Nat}, c.Agree c₁ ps → (∀ p ∈ ps, p < c₁.next) →
      ps.length ≤ fuel →
      ∃ r' c' ps', Cells.copyList fuel c₁ r = some (r', c') ∧ Dotted c' r' ps' as z ∧
        ps'.Nodup ∧ (∀ p ∈ ps', c₁.next ≤ p ∧ p < c'.next) ∧ c₁.next ≤ c'.next ∧
        ∀ p < c₁.next, c'.car p = c₁.car p ∧ c'.cdr p = c₁.cdr p := by
  induction h with
  | atom a =>
    intro c₁ fuel _ _ _
    exact ⟨.atom a, c₁, [], by rw [Cells.copyList], .atom a, nodup_nil, nofun,
      Nat.le_refl _, fun _ _ => ⟨rfl, rfl⟩⟩
  | @cell p ps as z _ ih =>
    intro c₁ fuel hagree hlt hfuel
    obtain ⟨hcar, hcdr⟩ := hagree p (mem_cons_self ..)
    cases fuel with
    | zero => exact absurd hfuel (Nat.not_succ_le_zero _)
    | succ fuel =>
      have hold : ∀ q < c₁.next, (c₁.cons (c₁.car p) (c₁.cdr p)).car q = c₁.car q ∧
          (c₁.cons (c₁.car p) (c₁.cdr p)).cdr q = c₁.cdr q := fun q hq =>
        ⟨update_of_ne (Nat.ne_of_lt hq) _ _,
          update_of_ne (Nat.ne_of_lt hq) _ _⟩
      have hps : ∀ q ∈ ps, q < c₁.next := fun q hq => hlt q (mem_cons_of_mem p hq)
      obtain ⟨r', c', ps', hrun, hdot, hnd, hnew, hle, hframe⟩ :=
        @ih (c₁.cons (c₁.car p) (c₁.cdr p)) fuel
          (fun q hq => by
            obtain ⟨h1, h2⟩ := hold q (hps q hq)
            obtain ⟨h3, h4⟩ := hagree q (mem_cons_of_mem p hq)
            exact ⟨h1.trans h3, h2.trans h4⟩)
          (fun q hq => Nat.lt_succ_of_lt (hps q hq)) (Nat.le_of_succ_le_succ hfuel)
      have hfresh : c₁.next ∉ ps' := fun hmem =>
        absurd (hnew _ hmem).1 (Nat.not_succ_le_self _)
      refine ⟨.cell c₁.next, c'.setCdr c₁.next r', c₁.next :: ps', ?_, ?_, ?_, ?_, ?_, ?_⟩
      · rw [← hcdr] at hrun
        rw [Cells.copyList, hrun]
      · have hset : (c'.setCdr c₁.next r').cdr c₁.next = r' := update_self ..
        have hcar' : (c'.setCdr c₁.next r').car c₁.next = c.car p := by
          refine ((hframe c₁.next (Nat.lt_succ_self _)).1).trans ?_
          exact (update_self ..).trans hcar
        rw [← hcar']
        refine .cell ?_
        rw [hset]
        exact hdot.frame fun q hq =>
          ⟨rfl, update_of_ne (ne_of_mem_of_not_mem hq hfresh) _ _⟩
      · exact List.nodup_cons.mpr ⟨hfresh, hnd⟩
      · rintro q (_ | ⟨_, hq⟩)
        · exact ⟨Nat.le_refl _, hle⟩
        · exact ⟨Nat.le_of_succ_le (hnew q hq).1, (hnew q hq).2⟩
      · exact Nat.le_of_succ_le hle
      · intro q hq
        obtain ⟨h1, h2⟩ := hframe q (Nat.lt_succ_of_lt hq)
        obtain ⟨h3, h4⟩ := hold q hq
        exact ⟨h1.trans h3, (update_of_ne (Nat.ne_of_lt hq) _ _).trans
          (h2.trans h4)⟩

/-! ### Lists that end -/

/-- A heap of lists that end: each cell leads to a cell in use, of a lower rank. -/
structure Ends (c : Cells α) (rank : Nat → Nat) : Prop where
  live {p q : Nat} : c.cdr p = .cell q → q < c.next
  lt {p q : Nat} : c.cdr p = .cell q → rank q < rank p

/-- A reference to a cell in use. -/
def Ref.Live (n : Nat) (r : Ref α) : Prop :=
  ∀ p, r = .cell p → p < n

namespace Cells

/-- The elements of a list, the last atom included. -/
def spell (c : Cells α) : Nat → Ref α → Option (List α)
  | _, .atom a => some [a]
  | 0, .cell _ => none
  | fuel + 1, .cell p => (spell c fuel (c.cdr p)).map (c.car p :: ·)

variable {c : Cells α} {rank : Nat → Nat}

theorem spell_eq {r : Ref α} {ps : List Nat} {as : List α} {z : α} (h : Dotted c r ps as z)
    {fuel : Nat} {l : List α} (hl : c.spell fuel r = some l) : l = as ++ [z] := by
  induction h generalizing fuel l with
  | atom a =>
    cases fuel <;> cases hl <;> rfl
  | cell h ih =>
    cases fuel with
    | zero => cases hl
    | succ fuel =>
      obtain ⟨rest, hrest, rfl⟩ := Option.map_eq_some_iff.mp hl
      rw [ih hrest]
      rfl

theorem exists_of_spell_eq_none (h : Ends c rank) {fuel p : Nat}
    (hnone : c.spell fuel (.cell p) = none) :
    ∃ ps : List Nat, ps.length = fuel ∧ ps.Nodup ∧ ∀ q ∈ ps, q < c.next ∧ rank q < rank p := by
  induction fuel generalizing p with
  | zero => exact ⟨[], rfl, nodup_nil, fun q hq => absurd hq not_mem_nil⟩
  | succ fuel ih =>
    rw [spell, Option.map_eq_none_iff] at hnone
    cases hcdr : c.cdr p with
    | atom a =>
      rw [hcdr] at hnone
      cases fuel with
      | zero => cases hnone
      | succ fuel => cases hnone
    | cell q =>
      rw [hcdr] at hnone
      obtain ⟨ps, hlength, hnodup, hps⟩ := ih hnone
      have hq : q ∉ ps := fun hmem => Nat.lt_irrefl _ (hps q hmem).2
      refine ⟨q :: ps, congrArg (· + 1) hlength, List.nodup_cons.mpr ⟨hq, hnodup⟩, ?_⟩
      rintro x (_ | ⟨_, hx⟩)
      · exact ⟨h.live hcdr, h.lt hcdr⟩
      · exact ⟨(hps x hx).1, Nat.lt_trans (hps x hx).2 (h.lt hcdr)⟩

/-- **A list that ends** is spelled in as many rounds as there are cells. -/
theorem spell_ne_none (h : Ends c rank) {fuel : Nat} (hfuel : c.next < fuel) (r : Ref α) :
    c.spell fuel r ≠ none := by
  intro hnone
  cases r with
  | atom a =>
    cases fuel with
    | zero => cases hnone
    | succ fuel => cases hnone
  | cell p =>
    obtain ⟨ps, hlength, hnodup, hps⟩ := exists_of_spell_eq_none h hnone
    have hle := length_le_of_nodup hnodup fun q hq => (hps q hq).1
    rw [hlength] at hle
    exact Nat.lt_irrefl _ (Nat.lt_of_lt_of_le hfuel hle)

end Cells

namespace Ends

variable {c : Cells α} {rank : Nat → Nat}

theorem cons (h : Ends c rank) (a z : α) : Ends (c.cons a (.atom z)) rank := by
  have hcdr : ∀ {p q}, (c.cons a (.atom z)).cdr p = .cell q → c.cdr p = .cell q := by
    intro p q hp
    by_cases hpn : p = c.next
    · have hself : (c.cons a (.atom z)).cdr c.next = .atom z := update_self ..
      rw [hpn, hself] at hp
      cases hp
    · exact (update_of_ne hpn _ _).symm.trans hp
  exact ⟨fun hp => Nat.lt_succ_of_lt (h.live (hcdr hp)), fun hp => h.lt (hcdr hp)⟩

theorem setCdr (h : Ends c rank) {p : Nat} {r : Ref α}
    (hr : ∀ q, r = .cell q → q < c.next ∧ rank q < rank p) : Ends (c.setCdr p r) rank := by
  have hcdr : ∀ {x q}, (c.setCdr p r).cdr x = .cell q →
      c.cdr x = .cell q ∨ x = p ∧ r = .cell q := by
    intro x q hx
    by_cases hxp : x = p
    · have hself : (c.setCdr p r).cdr p = r := update_self ..
      rw [hxp, hself] at hx
      exact .inr ⟨hxp, hx⟩
    · exact .inl ((update_of_ne hxp _ _).symm.trans hx)
  constructor
  · intro x q hx
    obtain hx | ⟨-, hq⟩ := hcdr hx
    · exact h.live hx
    · exact (hr q hq).1
  · intro x q hx
    obtain hx | ⟨rfl, hq⟩ := hcdr hx
    · exact h.lt hx
    · exact (hr q hq).2

theorem extend (h : Ends c rank) {l : Nat} (hl : l < c.next) (z a : α) :
    ∃ rank', Ends (c.extend l z a) rank' := by
  have hcons := h.cons z a
  -- the new cell gets the lowest rank
  refine ⟨fun p => if p = c.next then 0 else rank p + 1, ?_⟩
  have hup : Ends (c.cons z (.atom a)) fun p => if p = c.next then 0 else rank p + 1 := by
    refine ⟨fun hp => hcons.live hp, fun {p q} hp => ?_⟩
    have hpn : p ≠ c.next := by
      rintro rfl
      have hself : (c.cons z (.atom a)).cdr c.next = .atom a := update_self ..
      rw [hself] at hp
      cases hp
    rw [if_neg hpn]
    split
    · exact Nat.succ_pos _
    · exact Nat.succ_lt_succ (hcons.lt hp)
  refine hup.setCdr fun q hq => ?_
  cases hq
  rw [if_pos rfl, if_neg (Nat.ne_of_lt hl)]
  exact ⟨Nat.lt_succ_self _, Nat.succ_pos _⟩

theorem lastCell_lt (h : Ends c rank) {fuel p l : Nat} {z : α} (hp : p < c.next)
    (hlast : c.lastCell fuel p = some (l, z)) : l < c.next := by
  induction fuel generalizing p with
  | zero => cases hlast
  | succ fuel ih =>
    rw [Cells.lastCell] at hlast
    cases hcdr : c.cdr p with
    | atom b =>
      rw [hcdr] at hlast
      cases hlast
      exact hp
    | cell q =>
      rw [hcdr] at hlast
      exact ih (h.live hcdr) hlast

theorem deleteFrom [DecidableEq α] (h : Ends c rank) {nil a : α} {head : Ref α}
    (hhead : head.Live c.next) {fuel q : Nat} {tail r : Ref α} {c' : Cells α}
    (hq : c.cdr q = tail)
    (hdone : c.deleteFrom nil a head fuel (some q) tail = .done r c') :
    Ends c' rank ∧ r.Live c'.next ∧ c'.next = c.next := by
  induction fuel generalizing q tail with
  | zero => cases hdone
  | succ fuel ih =>
    cases tail with
    | atom b =>
      simp only [Cells.deleteFrom] at hdone
      split at hdone
      · cases hdone
        exact ⟨h.setCdr (fun x hx => by cases hx), hhead, rfl⟩
      · cases hdone
    | cell p =>
      simp only [Cells.deleteFrom, reduceCtorEq, if_false] at hdone
      split at hdone
      · cases hdone
        refine ⟨h.setCdr fun x hx => ⟨h.live hx, ?_⟩, hhead, rfl⟩
        exact Nat.lt_trans (h.lt hx) (h.lt hq)
      · exact ih rfl hdone

theorem delete [DecidableEq α] (h : Ends c rank) {nil a : α} {fuel : Nat} {r r' : Ref α}
    {c' : Cells α} (hr : r.Live c.next) (hdone : c.delete nil a fuel r = .done r' c') :
    Ends c' rank ∧ r'.Live c'.next ∧ c'.next = c.next := by
  unfold Cells.delete at hdone
  cases fuel with
  | zero => cases hdone
  | succ fuel =>
    cases r with
    | atom b =>
      simp only [Cells.deleteFrom] at hdone
      split at hdone
      · cases hdone
        exact ⟨h, (fun p hp => by cases hp), rfl⟩
      · cases hdone
    | cell p =>
      simp only [Cells.deleteFrom, reduceCtorEq, if_false] at hdone
      split at hdone
      · cases hdone
        exact ⟨h, fun q hq => h.live hq, rfl⟩
      · exact h.deleteFrom hr rfl hdone

/-- A copy in new cells, each of the rank of its original. -/
theorem copyList {fuel : Nat} {r r' : Ref α} {c' : Cells α} (h : Ends c rank)
    (hr : r.Live c.next) (hcopy : Cells.copyList fuel c r = some (r', c')) :
    ∃ rank', Ends c' rank' ∧ c.next ≤ c'.next ∧ (∀ p < c.next, rank' p = rank p) ∧
      r'.Live c'.next ∧ ∀ q', r' = .cell q' → ∃ q, r = .cell q ∧ rank' q' ≤ rank q := by
  induction fuel generalizing c rank r r' c' with
  | zero =>
    cases r with
    | atom a =>
      cases hcopy
      exact ⟨rank, h, Nat.le_refl _, fun _ _ => rfl, hr, fun q hq => by cases hq⟩
    | cell p => cases hcopy
  | succ fuel ih =>
    cases r with
    | atom a =>
      cases hcopy
      exact ⟨rank, h, Nat.le_refl _, fun _ _ => rfl, hr, fun q hq => by cases hq⟩
    | cell p =>
      have hp : p < c.next := hr p rfl
      rw [Cells.copyList] at hcopy
      have hfirst : Ends (c.cons (c.car p) (c.cdr p)) (Function.update rank c.next (rank p)) := by
        have hcdr : ∀ {x q}, (c.cons (c.car p) (c.cdr p)).cdr x = .cell q →
            q < c.next ∧ rank q < Function.update rank c.next (rank p) x := by
          intro x q hx
          by_cases hxn : x = c.next
          · subst hxn
            have hself : (c.cons (c.car p) (c.cdr p)).cdr c.next = c.cdr p :=
              update_self ..
            have hq : c.cdr p = .cell q := hself.symm.trans hx
            rw [update_self]
            exact ⟨h.live hq, h.lt hq⟩
          · have hq : c.cdr x = .cell q := (update_of_ne hxn _ _).symm.trans hx
            rw [update_of_ne hxn]
            exact ⟨h.live hq, h.lt hq⟩
        refine ⟨fun hx => Nat.lt_succ_of_lt (hcdr hx).1, fun hx => ?_⟩
        rw [update_of_ne (Nat.ne_of_lt (hcdr hx).1)]
        exact (hcdr hx).2
      have hrest : (c.cdr p).Live (c.cons (c.car p) (c.cdr p)).next :=
        fun q hq => Nat.lt_succ_of_lt (h.live hq)
      cases hrec : Cells.copyList fuel (c.cons (c.car p) (c.cdr p)) (c.cdr p) with
      | none =>
        rw [hrec] at hcopy
        cases hcopy
      | some result =>
        obtain ⟨r₁, c₁⟩ := result
        rw [hrec] at hcopy
        cases hcopy
        obtain ⟨rank', hends, hle, hsame, hlive, hbound⟩ := ih hfirst hrest hrec
        have hnew : rank' c.next = rank p := by
          rw [hsame c.next (Nat.lt_succ_self _), update_self]
        refine ⟨rank', hends.setCdr fun q hq => ⟨hlive q hq, ?_⟩, Nat.le_of_succ_le hle,
          fun x hx => ?_, fun q hq => ?_, fun q hq => ?_⟩
        · obtain ⟨q₀, hq₀, hle₀⟩ := hbound q hq
          rw [update_of_ne (Nat.ne_of_lt (h.live hq₀))] at hle₀
          rw [hnew]
          exact Nat.lt_of_le_of_lt hle₀ (h.lt hq₀)
        · rw [hsame x (Nat.lt_succ_of_lt hx), update_of_ne (Nat.ne_of_lt hx)]
        · cases hq
          exact hle
        · cases hq
          exact ⟨p, rfl, Nat.le_of_eq hnew⟩

end Ends

end ConsLists

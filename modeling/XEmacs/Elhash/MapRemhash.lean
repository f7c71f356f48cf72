import XEmacs.Elhash.FiniteMap

/-!
# Removing the entries that satisfy a predicate

`elisp_map_remhash` goes over the array once and calls `remhash_1` for each entry that satisfies
the predicate.
-/

namespace XEmacs.Elhash

open LinearProbing List

variable {K V : Type} [DecidableEq K]

/-- The body of the loop at the slot `e`, with its `again:`. -/
def mapRemhashSlot (ops : LispOps K) (predicate : K × V → Bool) (e : Nat) :
    Nat → LispHashTable K V → Option (LispHashTable K V)
  | 0, _ => none
  | fuel + 1, ht =>
    match ht.hentries e with
    | none => some ht
    | some entry =>
      if predicate entry then do
        mapRemhashSlot ops predicate e fuel (← remhash1 ops ht e)
      else some ht

def elispMapRemhash (ops : LispOps K) (predicate : K × V → Bool) (ht : LispHashTable K V) :
    Option (LispHashTable K V) :=
  (List.range ht.size).foldlM (fun ht e => mapRemhashSlot ops predicate e (ht.size + 1) ht) ht

/-- What the loop has made of the table when it has passed the slots below `e`. -/
structure RemovedBelow (ops : LispOps K) (predicate : K × V → Bool) (ht : LispHashTable K V)
    (e : Nat) (ht' : LispHashTable K V) : Prop where
  placed : Placed ops ht'
  size : ht'.size = ht.size
  holds (b : K × V) : predicate b = false →
    (Holds ht.size ht'.hentries b ↔ Holds ht.size ht.hentries b)
  holds_of (b : K × V) : Holds ht.size ht'.hentries b → Holds ht.size ht.hentries b
  below : ∀ j < e, ∀ b, ht'.hentries j = some b → predicate b = false

variable {ops : LispOps K} {predicate : K × V → Bool} {ht ht' : LispHashTable K V} {e : Nat}

theorem RemovedBelow.remhash1 (h : RemovedBelow ops predicate ht e ht') (he : e < ht.size)
    {a : K × V} (ha : ht'.hentries e = some a) (hp : predicate a = true) :
    ∃ ht'', Elhash.remhash1 ops ht' e = some ht'' ∧ RemovedBelow ops predicate ht e ht'' ∧
      ht''.count + 1 = ht'.count := by
  obtain ⟨entries, hrem, hplaced, hholds, hrefills, -⟩ := h.placed.remhash1 (h.size ▸ he) ha
  rw [h.size] at hholds
  refine ⟨_, hrem, ⟨hplaced, h.size, fun b hb => ?_, fun b hb => ?_, fun j hj b hb => ?_⟩, ?_⟩
  · rw [← h.holds b hb, hholds]
    constructor
    · rintro ⟨j, hj, -, hin⟩
      exact ⟨j, hj, hin⟩
    · rintro ⟨j, hj, hin⟩
      refine ⟨j, hj, ?_, hin⟩
      rintro rfl
      rw [ha, Option.some.injEq] at hin
      rw [hin, hb] at hp
      cases hp
  · obtain ⟨j, hj, -, hin⟩ := (hholds b).mp hb
    exact h.holds_of b ⟨j, hj, hin⟩
  · obtain ⟨k, hk, hin⟩ := hrefills.fromBelow j hj b hb
    exact h.below k hk b hin
  · -- the removed entry has been counted
    have hmem : e ∈ filled ht'.size ht'.hentries := by
      rw [mem_filled, h.size, ha]
      exact ⟨he, nofun⟩
    have hpos : 0 < ht'.count := h.placed.count_eq ▸ Finset.card_pos.mpr ⟨e, hmem⟩
    exact Nat.sub_add_cancel hpos

theorem RemovedBelow.slot (h : RemovedBelow ops predicate ht e ht') (he : e < ht.size)
    {fuel : Nat} (hfuel : ht'.count < fuel) :
    ∃ ht'', mapRemhashSlot ops predicate e fuel ht' = some ht'' ∧
      RemovedBelow ops predicate ht (e + 1) ht'' := by
  induction fuel generalizing ht' with
  | zero => exact absurd hfuel (Nat.not_lt_zero _)
  | succ fuel ih =>
    -- the slots passed, once nothing in the slot `e` is to go
    have hpass : (∀ b, ht'.hentries e = some b → predicate b = false) →
        RemovedBelow ops predicate ht (e + 1) ht' := by
      intro hstay
      refine { h with below := fun j hj b hb => ?_ }
      obtain hlt | rfl := Nat.lt_succ_iff_lt_or_eq.mp hj
      · exact h.below j hlt b hb
      · exact hstay b hb
    rw [mapRemhashSlot]
    cases ha : ht'.hentries e with
    | none =>
      refine ⟨ht', rfl, hpass fun b hb => ?_⟩
      rw [ha] at hb
      cases hb
    | some a =>
      simp only
      split
      · rename_i hp
        obtain ⟨ht₁, hrem, h₁, hcount⟩ := h.remhash1 he ha hp
        rw [hrem]
        exact ih h₁ (by omega)
      · rename_i hp
        refine ⟨ht', rfl, hpass fun b hb => ?_⟩
        rw [ha, Option.some.injEq] at hb
        exact hb ▸ Bool.eq_false_iff.mpr hp

/-- **`elisp_map_remhash`** removes the entries that satisfy the predicate, and no others. -/
theorem Placed.elispMapRemhash (h : Placed ops ht) (predicate : K × V → Bool) :
    ∃ ht', Elhash.elispMapRemhash ops predicate ht = some ht' ∧ Placed ops ht' ∧
      ht'.size = ht.size ∧
      ∀ b, Holds ht.size ht'.hentries b ↔ Holds ht.size ht.hentries b ∧ predicate b = false := by
  have hloop : ∀ k ≤ ht.size, ∃ ht', (List.range k).foldlM
      (fun ht e => mapRemhashSlot ops predicate e (ht.size + 1) ht) ht = some ht' ∧
        RemovedBelow ops predicate ht k ht' := by
    intro k hk
    induction k with
    | zero =>
      refine ⟨ht, rfl, ⟨h, rfl, fun _ _ => Iff.rfl, fun _ => id, fun j hj => ?_⟩⟩
      exact absurd hj (Nat.not_lt_zero j)
    | succ k ih =>
      obtain ⟨ht₁, hrun, h₁⟩ := ih (Nat.le_of_succ_le hk)
      obtain ⟨ht₂, hslot, h₂⟩ := h₁.slot hk (Nat.lt_succ_of_lt h₁.placed.count_lt)
      refine ⟨ht₂, ?_, h₂⟩
      rw [range_succ, foldlM_append, hrun]
      simp only [foldlM_cons, foldlM_nil, bind_pure]
      exact hslot
  obtain ⟨ht', hrun, h'⟩ := hloop ht.size (Nat.le_refl _)
  refine ⟨ht', hrun, h'.placed, h'.size, fun b => ⟨?_, ?_⟩⟩
  · intro hin
    obtain ⟨j, hj, hb⟩ := hin
    exact ⟨h'.holds_of b ⟨j, hj, hb⟩, h'.below j hj b hb⟩
  · rintro ⟨hin, hp⟩
    exact (h'.holds b hp).mpr hin

/-! ### The table apart from its entries -/

/-- `ht'` is `ht` with other entries. -/
def OtherEntries (ht ht' : LispHashTable K V) : Prop :=
  ∃ entries count, ht' = { ht with hentries := entries, count := count }

omit [DecidableEq K] in
theorem OtherEntries.refl (ht : LispHashTable K V) : OtherEntries ht ht := ⟨_, _, rfl⟩

omit [DecidableEq K] in
theorem OtherEntries.trans {ht'' : LispHashTable K V} (h : OtherEntries ht ht')
    (h' : OtherEntries ht' ht'') : OtherEntries ht ht'' := by
  obtain ⟨entries, count, rfl⟩ := h
  obtain ⟨entries', count', rfl⟩ := h'
  exact ⟨entries', count', rfl⟩

theorem otherEntries_remhash1 (h : remhash1 ops ht e = some ht') : OtherEntries ht ht' := by
  obtain ⟨entries, -, rfl⟩ := Option.map_eq_some_iff.mp h
  exact ⟨entries, ht.count - 1, rfl⟩

theorem otherEntries_mapRemhashSlot {fuel : Nat}
    (h : mapRemhashSlot ops predicate e fuel ht = some ht') : OtherEntries ht ht' := by
  induction fuel generalizing ht with
  | zero => cases h
  | succ fuel ih =>
    rw [mapRemhashSlot] at h
    split at h
    · cases h
      exact .refl _
    · split at h
      · obtain ⟨ht₁, hrem, hrest⟩ := Option.bind_eq_some_iff.mp h
        exact (otherEntries_remhash1 hrem).trans (ih hrest)
      · cases h
        exact .refl _

theorem otherEntries_elispMapRemhash (h : elispMapRemhash ops predicate ht = some ht') :
    OtherEntries ht ht' := by
  have hloop : ∀ (slots : List Nat) (ht₁ : LispHashTable K V), slots.foldlM
      (fun ht e => mapRemhashSlot ops predicate e (ht.size + 1) ht) ht₁ = some ht' →
        OtherEntries ht₁ ht' := by
    intro slots
    induction slots with
    | nil =>
      intro ht₁ h
      cases h
      exact .refl _
    | cons slot slots ih =>
      intro ht₁ h
      rw [foldlM_cons] at h
      obtain ⟨ht₂, hslot, hrest⟩ := Option.bind_eq_some_iff.mp h
      exact (otherEntries_mapRemhashSlot hslot).trans (ih ht₂ hrest)
  exact hloop _ ht h

/-- The entries of the array that are not clear, in its order. -/
def LispHashTable.entryList (ht : LispHashTable K V) : List (K × V) :=
  (List.range ht.size).filterMap ht.hentries

omit [DecidableEq K] in
theorem LispHashTable.mem_entryList {b : K × V} :
    b ∈ ht.entryList ↔ Holds ht.size ht.hentries b := by
  rw [entryList, mem_filterMap]
  simp only [mem_range, Holds]

/-- What removing the entries that satisfy `predicate` makes of a table. -/
structure RemovesExactly (ops : LispOps K) (predicate : K × V → Bool)
    (ht ht' : LispHashTable K V) : Prop where
  valid : Valid ops ht'
  other : OtherEntries ht ht'
  mem : ∀ b, b ∈ ht'.entryList ↔ b ∈ ht.entryList ∧ predicate b = false

theorem Valid.elispMapRemhash (h : Valid ops ht) (predicate : K × V → Bool) :
    ∃ ht', Elhash.elispMapRemhash ops predicate ht = some ht' ∧
      RemovesExactly ops predicate ht ht' := by
  obtain ⟨ht', hrun, hplaced, hsize, hholds⟩ := h.placed.elispMapRemhash predicate
  have hother := otherEntries_elispMapRemhash hrun
  obtain ⟨entries, count, heq⟩ := hother
  have hkeys : ht'.keysEqualP = ht.keysEqualP := by
    rw [heq]
    rfl
  refine ⟨ht', hrun, ⟨⟨hplaced.probed, ?_, hplaced.count_eq, hplaced.count_lt,
    hplaced.sentinel⟩, ⟨entries, count, heq⟩, fun b => ?_⟩⟩
  · rw [hkeys, hsize]
    intro i hi j hj a b ha hb hab
    obtain ⟨⟨k, hk, hka⟩, -⟩ := (hholds a).mp ⟨i, hi, ha⟩
    obtain ⟨⟨m, hm, hmb⟩, -⟩ := (hholds b).mp ⟨j, hj, hb⟩
    -- both were in one slot before, so they are one entry
    obtain rfl := h.apart k hk m hm a b hka hmb hab
    rw [hka, Option.some.injEq] at hmb
    exact hplaced.eqApart i (hsize ▸ hi) j (hsize ▸ hj) a b ha hb (congrArg Prod.fst hmb)
  · rw [LispHashTable.mem_entryList, LispHashTable.mem_entryList, hsize]
    exact hholds b

end XEmacs.Elhash

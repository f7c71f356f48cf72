import XEmacs.Sxhash.Hash

/-!
# What is equal and what is hashed

Two objects are alike if their hashes agree at every level.
-/

namespace XEmacs.Sxhash

open List

/-! ### Comparisons with a result -/

theorem both_eq_true {x y : EqualResult Bool} :
    (do if ← x then y else pure false) = Except.ok true ↔ x = .ok true ∧ y = .ok true := by
  cases x with
  | error e =>
    constructor
    · intro h
      cases h
    · rintro ⟨h, -⟩
      cases h
  | ok b =>
    cases b with
    | false =>
      constructor
      · intro h
        cases h
      · rintro ⟨h, -⟩
        cases h
    | true => exact ⟨fun h => ⟨rfl, h⟩, fun h => h.2⟩

theorem unless_eq_true {P : Prop} [Decidable P] {y : EqualResult Bool} :
    (if P then pure false else y) = Except.ok true ↔ ¬ P ∧ y = .ok true := by
  split
  · rename_i hp
    constructor
    · intro h
      cases h
    · exact fun h => absurd hp h.1
  · rename_i hp
    exact ⟨fun h => ⟨hp, h⟩, fun h => h.2⟩

theorem pure_eq_true {b : Bool} : (pure b : EqualResult Bool) = .ok true ↔ b = true :=
  ⟨fun h => Except.ok.inj h, fun h => congrArg Except.ok h⟩

section alike

variable {h : Heap}

/-- What the methods call where so many levels are left. -/
def Heap.deeper (h : Heap) : Nat → Deeper
  | 0 => ⟨fun _ => 0, fun _ => 0, fun _ => 0⟩
  | levels + 1 => ⟨internalHashWithin h (levels + 1), internalHashWithin h levels, hashProgram⟩

theorem internalHashWithin_succ (levels : Nat) (o : Obj) :
    internalHashWithin h (levels + 1) o = objHash h (h.deeper levels) o := by
  cases levels with
  | zero => rfl
  | succ levels => rfl

@[simp] theorem deeper_next (levels : Nat) :
    (h.deeper levels).next = internalHashWithin h levels := by
  cases levels with
  | zero => rfl
  | succ levels => rfl

@[simp] theorem deeper_second (levels : Nat) :
    (h.deeper levels).second = internalHashWithin h (levels - 1) := by
  cases levels with
  | zero => rfl
  | succ levels => rfl

/-- The hashes of two objects agree at every level. -/
def Alike (h : Heap) (o o' : Obj) : Prop :=
  ∀ levels, internalHashWithin h levels o = internalHashWithin h levels o'

theorem Alike.refl (o : Obj) : Alike h o o :=
  fun _ => rfl

theorem alike_of_recordHash {a b : Nat}
    (heq : ∀ levels, recordHash (h.deeper levels) a (h.record a)
      = recordHash (h.deeper levels) b (h.record b)) : Alike h (.ref a) (.ref b) := by
  intro levels
  cases levels with
  | zero => rfl
  | succ levels =>
    rw [internalHashWithin_succ, internalHashWithin_succ]
    exact heq levels

theorem consp_eq {o : Obj} {c : Obj × Obj} (hc : h.consp o = some c) :
    ∃ a, o = .ref a ∧ h.record a = .cons c.1 c.2 := by
  cases o with
  | int n => cases hc
  | char n => cases hc
  | ref a =>
    rw [Heap.consp] at hc
    split at hc
    · rename_i car cdr hrecord
      cases hc
      exact ⟨a, rfl, hrecord⟩
    · cases hc

theorem alike_cons {o o' : Obj} {c c' : Obj × Obj} (hc : h.consp o = some c)
    (hc' : h.consp o' = some c') (hcar : Alike h c.1 c'.1) (hcdr : Alike h c.2 c'.2) :
    Alike h o o' := by
  obtain ⟨a, rfl, ha⟩ := consp_eq hc
  obtain ⟨b, rfl, hb⟩ := consp_eq hc'
  refine alike_of_recordHash fun levels => ?_
  rw [ha, hb, recordHash, recordHash, deeper_next, hcar levels, hcdr levels]

/-! ### Samples -/

theorem sample_map {α β : Type} (f : α → β) (l : List α) :
    sample (l.map f) = (sample l).map f := by
  unfold sample
  rw [length_map]
  split
  · rfl
  · rw [map_filterMap]
    simp only [getElem?_map]

theorem internalArrayHash_eq (hash : Obj → Hashcode) (l : List Obj) :
    internalArrayHash hash l = (sample (l.map hash)).foldl hash2 0 := by
  rw [sample_map, foldl_map, internalArrayHash]

/-- The elements of two arrays are alike. -/
def AlikeLists (h : Heap) (l l' : List Obj) : Prop :=
  ∀ levels, l.map (internalHashWithin h levels) = l'.map (internalHashWithin h levels)

theorem AlikeLists.hash {l l' : List Obj} (hl : AlikeLists h l l') (levels : Nat) :
    internalArrayHash (internalHashWithin h levels) l
      = internalArrayHash (internalHashWithin h levels) l' := by
  rw [internalArrayHash_eq, internalArrayHash_eq, hl levels]

/-! ### The methods -/

section methods

-- equal objects are alike
variable {equal : Operand → Operand → Nat → EqualResult Bool}
  (hsound : ∀ o o' depth, objEqual equal o o' depth = .ok true → Alike h o o')
include hsound

theorem consEqual_alike {depth rounds : Nat} {c c' : Obj × Obj}
    (heq : consEqual h equal depth rounds c c' = .ok true) :
    Alike h c.1 c'.1 ∧ Alike h c.2 c'.2 := by
  induction rounds generalizing c c' with
  | zero => cases heq
  | succ rounds ih =>
    obtain ⟨car, cdr⟩ := c
    obtain ⟨car', cdr'⟩ := c'
    obtain ⟨hcar, hrest⟩ := both_eq_true.mp heq
    refine ⟨hsound _ _ _ hcar, ?_⟩
    split at hrest
    · rename_i d d' hd hd'
      obtain ⟨hcar, hcdr⟩ := ih hrest
      exact alike_cons hd hd' hcar hcdr
    · exact hsound _ _ _ hrest

theorem arrayEqual_alike {depth : Nat} {l l' : List Obj} (hlength : l.length = l'.length)
    (heq : arrayEqual equal depth l l' = .ok true) : AlikeLists h l l' := by
  induction l generalizing l' with
  | nil =>
    rw [List.length_eq_zero_iff.mp hlength.symm]
    exact fun _ => rfl
  | cons o l ih =>
    cases l' with
    | nil => cases hlength
    | cons o' l' =>
      obtain ⟨hfirst, hrest⟩ := both_eq_true.mp heq
      have hlater := ih (Nat.succ.inj hlength) hrest
      intro levels
      rw [map_cons, map_cons, hsound _ _ _ hfirst levels, hlater levels]

theorem entriesEqual_alike {depth : Nat} {l l' : List RangeTableEntry}
    (hlength : l.length = l'.length) (heq : entriesEqual equal depth l l' = .ok true)
    (levels : Nat) : l.map (rangeTableEntryHash (internalHashWithin h levels))
      = l'.map (rangeTableEntryHash (internalHashWithin h levels)) := by
  induction l generalizing l' with
  | nil =>
    rw [List.length_eq_zero_iff.mp hlength.symm]
  | cons e l ih =>
    cases l' with
    | nil => cases hlength
    | cons e' l' =>
      obtain ⟨hends, hrest⟩ := unless_eq_true.mp heq
      obtain ⟨hval, hrest⟩ := both_eq_true.mp hrest
      have hlater := ih (Nat.succ.inj hlength) hrest
      have hfirst : e.first = e'.first := by
        by_contra hne
        exact hends (.inl hne)
      have hlast : e.last = e'.last := by
        by_contra hne
        exact hends (.inr hne)
      rw [map_cons, map_cons, hlater, rangeTableEntryHash, rangeTableEntryHash, hfirst,
        hlast, hsound _ _ _ hval levels]

theorem rangeTableEqual_hash {l l' : List RangeTableEntry} {depth : Nat}
    (heq : rangeTableEqual equal l l' depth = .ok true) (levels : Nat) :
    rangeTableHash (internalHashWithin h levels) l
      = rangeTableHash (internalHashWithin h levels) l' := by
  obtain ⟨hlength, heq⟩ := unless_eq_true.mp heq
  have hlength := not_not.mp hlength
  have hentries := entriesEqual_alike hsound hlength heq levels
  unfold rangeTableHash
  rw [hlength, ← foldl_map (f := rangeTableEntryHash (internalHashWithin h levels))
    (g := hash2) (l := sample l), ← sample_map, hentries, sample_map, foldl_map]

theorem charTableEqual_hash {ct ct' : CharTable} {depth : Nat}
    (heq : charTableEqual equal ct ct' depth = .ok true) :
    AlikeLists h ct.ascii.toList ct'.ascii.toList ∧
      AlikeLists h ct.level1.toList ct'.level1.toList := by
  obtain ⟨-, heq⟩ := unless_eq_true.mp heq
  obtain ⟨hascii, hlevel1⟩ := both_eq_true.mp heq
  constructor
  · exact arrayEqual_alike hsound (by simp only [Vector.length_toList]) hascii
  · exact arrayEqual_alike hsound (by simp only [Vector.length_toList]) hlevel1

/-- **Of every other type** than compiled functions, equal records have equal hashes. -/
theorem recordEqual_hash {hash : Obj → Hashcode} {rounds depth : Nat} {r r' : Record}
    (hcompiled : ∀ f f', r = .compiledFunction f → r' = .compiledFunction f' →
      compiledFunctionEqual h equal f f' depth = .ok true →
      ∀ levels, compiledFunctionHash (h.deeper levels) f = compiledFunctionHash (h.deeper levels) f')
    (heq : recordEqual h equal hash rounds r r' depth = .ok true) (a b levels : Nat) :
    recordHash (h.deeper levels) a r = recordHash (h.deeper levels) b r' := by
  cases r with
  | cons car cdr =>
    cases r' with
    | cons car' cdr' =>
      obtain ⟨hcar, hcdr⟩ := consEqual_alike hsound heq
      rw [recordHash, recordHash, deeper_next, hcar levels, hcdr levels]
    | _ => cases heq
  | vector v =>
    cases r' with
    | vector v' =>
      obtain ⟨hlength, heq⟩ := unless_eq_true.mp heq
      have hlength := not_not.mp hlength
      have halike := arrayEqual_alike hsound hlength heq
      rw [recordHash, recordHash, deeper_second, hlength, halike.hash]
    | _ => cases heq
  | bitVector v =>
    cases r' with
    | bitVector v' =>
      obtain ⟨hlength, hbits⟩ := of_decide_eq_true (pure_eq_true.mp heq)
      rw [recordHash, recordHash, bitVectorHash, bitVectorHash, hlength, hbits]
    | _ => cases heq
  | string s =>
    cases r' with
    | string s' =>
      rw [of_decide_eq_true (pure_eq_true.mp heq), recordHash, recordHash]
    | _ => cases heq
  | symbol kind =>
    cases r' with
    | _ => cases heq
  | marker buffer memind =>
    cases r' with
    | marker buffer' memind' =>
      obtain ⟨rfl, hmemind⟩ := of_decide_eq_true (pure_eq_true.mp heq)
      obtain rfl | rfl := hmemind
      · rfl
      · rfl
    | _ => cases heq
  | rangeTable l =>
    cases r' with
    | rangeTable l' =>
      rw [recordHash, recordHash, deeper_next]
      exact rangeTableEqual_hash hsound heq levels
    | _ => cases heq
  | charTable ct =>
    cases r' with
    | charTable ct' =>
      obtain ⟨hascii, hlevel1⟩ := charTableEqual_hash hsound heq
      rw [recordHash, recordHash, deeper_next, hascii.hash, hlevel1.hash]
    | _ => cases heq
  | charTableEntry level2 =>
    cases r' with
    | charTableEntry level2' =>
      have halike := arrayEqual_alike hsound (by simp only [Vector.length_toList]) heq
      rw [recordHash, recordHash, deeper_next, halike.hash]
    | _ => cases heq
  | hashTable ht =>
    cases r' with
    | hashTable ht' =>
      obtain ⟨hsame, -⟩ := unless_eq_true.mp heq
      have hcount : ht.count = ht'.count := by
        by_contra hne
        exact hsame (.inr (.inr hne))
      rw [recordHash, recordHash, hcount]
    | _ => cases heq
  | weakList type list =>
    cases r' with
    | weakList type' list' =>
      obtain ⟨htype, heq⟩ := unless_eq_true.mp heq
      rw [recordHash, recordHash, deeper_next, not_not.mp htype, hsound _ _ _ heq levels]
    | _ => cases heq
  | compiledFunction f =>
    cases r' with
    | compiledFunction f' => exact hcompiled f f' rfl rfl heq levels
    | _ => cases heq

end methods

end alike

end XEmacs.Sxhash

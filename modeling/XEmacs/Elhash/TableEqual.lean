import XEmacs.Elhash.Operations
import XEmacs.Gc.Marking

/-!
# Equality of hash tables

`hash_table_equal` looks up the keys of the first table in the second. That there are no more
keys in the second is left to the comparison of the counts.
-/

namespace XEmacs.Elhash

open LinearProbing

variable {K V : Type} [DecidableEq K]

/-- The `test_function` of `make_standard_lisp_hash_table`. -/
def HashTableTest.testFunction (ops : LispOps K) : HashTableTest → Option (K → K → Bool)
  | .eq => none
  | .eql => some ops.eqlEqual
  | .equal => some ops.internalEqual

/-- A hash table with its weakness. -/
structure HashTable (ops : LispOps K) (V : Type) where
  test : HashTableTest
  weakness : Gc.Weakness
  table : LispHashTable K V
  testFunction : table.testFunction = test.testFunction ops

/-- `Fgethash` with the default `Qunbound`, which is the value of no entry. -/
def gethashUnbound (ops : LispOps K) (key : K) (ht : LispHashTable K V) : Option (Option V) :=
  (findHentry ops key ht).map fun e => (ht.hentries e).map Prod.snd

/-- The loop of `hash_table_equal` over the entries of the first table. -/
def inOther (ops : LispOps K) (equal : V → V → Bool) (ht2 : LispHashTable K V) :
    List (K × V) → Option Bool
  | [] => some true
  | (key, value) :: l => do
    match ← gethashUnbound ops key ht2 with
    | none => some false
    | some valueInOther =>
      if equal value valueInOther then inOther ops equal ht2 l else some false

/-- `hash_table_equal`, with `internal_equal` of two values at the depth it is called at. -/
def hashTableEqual (ops : LispOps K) (equal : V → V → Bool) (ht1 ht2 : HashTable ops V) :
    Option Bool :=
  if ht1.test ≠ ht2.test ∨ ht1.weakness ≠ ht2.weakness ∨ ht1.table.count ≠ ht2.table.count then
    some false
  else
    inOther ops equal ht2.table ((List.range ht1.table.size).filterMap ht1.table.hentries)

/-- Two maps have the same keys, and equal values for each. -/
def SameMap (equal : V → V → Bool) (m m' : K → Option V) : Prop :=
  ∀ key, Option.Rel (fun v v' => equal v v' = true) (m key) (m' key)

/-! ### Entries that have a match -/

section Matching

omit [DecidableEq K]

theorem card_filled_le {n : Nat} {s : Nat → Option (K × V)} {T : Finset Nat}
    (s' : Nat → Option (K × V)) (r : K × V → K × V → Prop)
    (hmatch : ∀ i < n, ∀ a, s i = some a → ∃ j ∈ T, ∃ b, s' j = some b ∧ r a b)
    (honce : ∀ i < n, ∀ i' < n, ∀ a a' b, s i = some a → s i' = some a' → r a b → r a' b →
      i = i') : (filled n s).card ≤ T.card := by
  have hslot : ∀ i ∈ filled n s, ∃ j ∈ T, ∃ a b, s i = some a ∧ s' j = some b ∧ r a b := by
    intro i hi
    obtain ⟨hin, hne⟩ := mem_filled.mp hi
    obtain ⟨a, ha⟩ := Option.ne_none_iff_exists'.mp hne
    obtain ⟨j, hj, b, hb, hab⟩ := hmatch i hin a ha
    exact ⟨j, hj, a, b, ha, hb, hab⟩
  choose! f hf using hslot
  refine Finset.card_le_card_of_injOn f (fun i hi => (hf i hi).1) fun i hi i' hi' heq => ?_
  obtain ⟨-, a, b, ha, hb, hab⟩ := hf i hi
  obtain ⟨-, a', b', ha', hb', hab'⟩ := hf i' hi'
  rw [← heq, hb, Option.some.injEq] at hb'
  exact honce i (mem_filled.mp hi).1 i' (mem_filled.mp hi').1 a a' b ha ha' hab (hb' ▸ hab')

end Matching

variable {ops : LispOps K} {ht ht' : LispHashTable K V}

theorem toMap_eq_of_keysEqualP (h : Compatible ops ht) {key key' : K}
    (hkey : ht.keysEqualP key key' = true) : ht.toMap key = ht.toMap key' := by
  unfold LispHashTable.toMap
  congr 1
  funext i
  split
  · rename_i e _
    have hiff : ht.keysEqualP e.1 key = true ↔ ht.keysEqualP e.1 key' = true :=
      ⟨fun he => h.equiv.trans he hkey, fun he => h.equiv.trans he (h.equiv.symm hkey)⟩
    simp only [hiff]
  · rfl

theorem Valid.toMap_entry (h : Valid ops ht) (hcompat : Compatible ops ht) {a : K × V}
    (ha : Holds ht.size ht.hentries a) : ht.toMap a.1 = some a.2 :=
  (toMap_eq_some_iff hcompat.equiv h.apart).mpr ⟨a, ha, hcompat.equiv.refl a.1, rfl⟩

theorem Valid.count_le (h : Valid ops ht) (h' : Valid ops ht') (hcompat : Compatible ops ht)
    (hall : ∀ a, Holds ht.size ht.hentries a →
      ∃ b, Holds ht'.size ht'.hentries b ∧ ht.keysEqualP b.1 a.1 = true) :
    ht.count ≤ ht'.count ∧ ((∃ b, Holds ht'.size ht'.hentries b ∧
      ∀ a, Holds ht.size ht.hentries a → ht.keysEqualP b.1 a.1 = false) → ht.count < ht'.count) := by
  have honce : ∀ i < ht.size, ∀ i' < ht.size, ∀ a a' b : K × V, ht.hentries i = some a →
      ht.hentries i' = some a' → ht.keysEqualP b.1 a.1 = true → ht.keysEqualP b.1 a'.1 = true →
      i = i' := fun i hi i' hi' a a' b ha ha' hab hab' =>
    h.apart i hi i' hi' a a' ha ha' (hcompat.equiv.trans (hcompat.equiv.symm hab) hab')
  rw [h.count_eq, h'.count_eq]
  constructor
  · refine card_filled_le ht'.hentries (fun a b => ht.keysEqualP b.1 a.1 = true) ?_ honce
    intro i hi a ha
    obtain ⟨b, ⟨j, hj, hb⟩, hab⟩ := hall a ⟨i, hi, ha⟩
    exact ⟨j, mem_filled.mpr ⟨hj, by rw [hb]; simp⟩, b, hb, hab⟩
  · rintro ⟨b₀, ⟨j₀, hj₀, hb₀⟩, hno⟩
    have hmem : j₀ ∈ filled ht'.size ht'.hentries := mem_filled.mpr ⟨hj₀, by rw [hb₀]; simp⟩
    have hle : (filled ht.size ht.hentries).card ≤
        ((filled ht'.size ht'.hentries).erase j₀).card := by
      refine card_filled_le ht'.hentries (fun a b => ht.keysEqualP b.1 a.1 = true) ?_ honce
      intro i hi a ha
      obtain ⟨b, ⟨j, hj, hb⟩, hab⟩ := hall a ⟨i, hi, ha⟩
      refine ⟨j, Finset.mem_erase.mpr ⟨?_, mem_filled.mpr ⟨hj, by rw [hb]; simp⟩⟩, b, hb, hab⟩
      rintro rfl
      rw [hb₀, Option.some.injEq] at hb
      rw [← hb, hno a ⟨i, hi, ha⟩] at hab
      cases hab
    rw [Finset.card_erase_of_mem hmem] at hle
    have hpos := Finset.card_pos.mpr ⟨j₀, hmem⟩
    omega

/-! ### The loop -/

theorem gethashUnbound_eq (h : Valid ops ht) (hcompat : Compatible ops ht) (key : K) :
    gethashUnbound ops key ht = some (ht.toMap key) := by
  obtain ⟨e, hfind, hstop⟩ := h.placed.find key
  rw [gethashUnbound, hfind, Option.map_some, h.placed.toMap_of_find hcompat h.apart hstop]

theorem inOther_spec (h : Valid ops ht) (hcompat : Compatible ops ht) (equal : V → V → Bool)
    (l : List (K × V)) : ∃ b, inOther ops equal ht l = some b ∧
      (b = true ↔ ∀ e ∈ l, ∃ v, ht.toMap e.1 = some v ∧ equal e.2 v = true) := by
  induction l with
  | nil => exact ⟨true, rfl, iff_of_true rfl fun _ he => absurd he List.not_mem_nil⟩
  | cons e l ih =>
    obtain ⟨key, value⟩ := e
    rw [inOther, gethashUnbound_eq h hcompat]
    simp only [Option.bind_eq_bind, Option.bind_some, List.forall_mem_cons]
    cases hv : ht.toMap key with
    | none =>
      refine ⟨false, rfl, iff_of_false Bool.false_ne_true ?_⟩
      rintro ⟨⟨v, hno, -⟩, -⟩
      cases hno
    | some v =>
      obtain ⟨b, hb, hiff⟩ := ih
      cases heq : equal value v with
      | false =>
        simp only [heq]
        refine ⟨false, rfl, iff_of_false Bool.false_ne_true ?_⟩
        rintro ⟨⟨_, ⟨⟩, hne⟩, -⟩
        rw [heq] at hne
        cases hne
      | true =>
        simp only [heq]
        refine ⟨b, hb, hiff.trans ?_⟩
        exact ⟨fun hrest => ⟨⟨v, rfl, heq⟩, hrest⟩, fun hboth => hboth.2⟩

/-- What `hash_table_equal` looks at says that the tables stand for the same map. -/
theorem sameMap_iff (equal : V → V → Bool) (h : Valid ops ht) (h' : Valid ops ht')
    (hcompat : Compatible ops ht) (hcompat' : Compatible ops ht')
    (hkeys : ht'.keysEqualP = ht.keysEqualP) :
    (ht.count = ht'.count ∧ ∀ e, Holds ht.size ht.hentries e →
      ∃ v, ht'.toMap e.1 = some v ∧ equal e.2 v = true) ↔ SameMap equal ht.toMap ht'.toMap := by
  constructor
  · rintro ⟨hcount, hall⟩ key
    have hmatch : ∀ a, Holds ht.size ht.hentries a →
        ∃ b, Holds ht'.size ht'.hentries b ∧ ht.keysEqualP b.1 a.1 = true := by
      intro a ha
      obtain ⟨v, hv, -⟩ := hall a ha
      obtain ⟨b, hb, hba, -⟩ := exists_of_toMap_eq_some hv
      exact ⟨b, hb, hkeys ▸ hba⟩
    cases hv : ht.toMap key with
    | some v =>
      obtain ⟨e, he, hkey, rfl⟩ := exists_of_toMap_eq_some hv
      obtain ⟨v', hv', hequal⟩ := hall e he
      rw [toMap_eq_of_keysEqualP hcompat' (hkeys.symm ▸ hkey)] at hv'
      rw [hv']
      exact .some hequal
    | none =>
      cases hv' : ht'.toMap key with
      | none => exact .none
      | some v' =>
        -- an entry of the other table that matches none would make it larger
        obtain ⟨b, hb, hkey, -⟩ := exists_of_toMap_eq_some hv'
        have hlt := (h.count_le h' hcompat hmatch).2 ⟨b, hb, fun a ha => ?_⟩
        · omega
        · have hne := toMap_eq_none_iff.mp hv a ha
          rw [hkeys] at hkey
          rw [← Bool.not_eq_true] at hne ⊢
          exact fun hba => hne (hcompat.equiv.trans (hcompat.equiv.symm hba) hkey)
  · intro hsame
    have hsome : ∀ e, Holds ht.size ht.hentries e →
        ∃ v, ht'.toMap e.1 = some v ∧ equal e.2 v = true := by
      intro e he
      have hrel := hsame e.1
      rw [h.toMap_entry hcompat he] at hrel
      cases hv : ht'.toMap e.1 with
      | none =>
        rw [hv] at hrel
        cases hrel
      | some v =>
        rw [hv] at hrel
        cases hrel with
        | some hequal => exact ⟨v, rfl, hequal⟩
    refine ⟨Nat.le_antisymm ?_ ?_, hsome⟩
    · refine (h.count_le h' hcompat fun a ha => ?_).1
      obtain ⟨v, hv, -⟩ := hsome a ha
      obtain ⟨b, hb, hba, -⟩ := exists_of_toMap_eq_some hv
      exact ⟨b, hb, hkeys ▸ hba⟩
    · refine (h'.count_le h hcompat' fun a ha => ?_).1
      have hrel := hsame a.1
      rw [h'.toMap_entry hcompat' ha] at hrel
      cases hv : ht.toMap a.1 with
      | none =>
        rw [hv] at hrel
        cases hrel
      | some v =>
        obtain ⟨b, hb, hba, -⟩ := exists_of_toMap_eq_some hv
        exact ⟨b, hb, hkeys.symm ▸ hba⟩

theorem hashTableEqual_spec (equal : V → V → Bool) (ht1 ht2 : HashTable ops V)
    (htest : ht1.test = ht2.test) (hweakness : ht1.weakness = ht2.weakness)
    (h₁ : Valid ops ht1.table) (h₂ : Valid ops ht2.table)
    (hcompat₁ : Compatible ops ht1.table) (hcompat₂ : Compatible ops ht2.table) :
    ∃ b, hashTableEqual ops equal ht1 ht2 = some b ∧
      (b = true ↔ SameMap equal ht1.table.toMap ht2.table.toMap) := by
  have hkeys : ht2.table.keysEqualP = ht1.table.keysEqualP := by
    funext a b
    rw [LispHashTable.keysEqualP, LispHashTable.keysEqualP, ht1.testFunction, ht2.testFunction,
      htest]
  rw [hashTableEqual, ← sameMap_iff equal h₁ h₂ hcompat₁ hcompat₂ hkeys]
  by_cases hcount : ht1.table.count = ht2.table.count
  · rw [if_neg (by simp only [htest, hweakness, hcount, ne_eq, not_true_eq_false, or_self,
      not_false_eq_true])]
    obtain ⟨b, hb, hiff⟩ := inOther_spec h₂ hcompat₂ equal
      ((List.range ht1.table.size).filterMap ht1.table.hentries)
    refine ⟨b, hb, hiff.trans ?_⟩
    rw [and_iff_right hcount]
    refine forall_congr' fun e => imp_congr_left ?_
    rw [List.mem_filterMap]
    simp only [List.mem_range, Holds]
  · rw [if_pos (.inr (.inr hcount))]
    exact ⟨false, rfl, iff_of_false Bool.false_ne_true fun hboth => hcount hboth.1⟩

/-- A world with lists as keys, which all have the hash `hash` now. -/
def listObjects (hash : Nat) : LispOps Nat where
  lispHash n := n
  floatp _ := false
  internalEqual a b := a = b
  internalHash _ := hash

/-- The table of `(make-hash-table :test 'equal)` after `(puthash list nil table)`, when the hash
of the list led to `slot`, seen when it has become `hash`. -/
def oneList (slot hash : Nat) : HashTable (listObjects hash) Unit where
  test := .equal
  weakness := .nonWeak
  table :=
    { size := 29
      count := 1
      rehashCount := 17
      rehashSize := 13 / 10
      rehashThreshold := 6 / 10
      goldenRatio := 2
      hashFunction := some (listObjects hash).internalHash
      testFunction := some (listObjects hash).internalEqual
      hentries := fun i => if i = slot then some (7, ()) else none }
  testFunction := rfl

theorem oneList_compatible (slot hash : Nat) :
    Compatible (listObjects hash) (oneList slot hash).table := by
  have hkeys : ∀ a b, (oneList slot hash).table.keysEqualP a b = true ↔ a = b := by
    intro a b
    simp [LispHashTable.keysEqualP, oneList, listObjects]
  refine ⟨⟨fun a => (hkeys a a).mpr rfl, fun h => ?_, fun h h' => ?_⟩, fun a b _ => rfl⟩
  · exact (hkeys _ _).mpr ((hkeys _ _).mp h).symm
  · exact (hkeys _ _).mpr (((hkeys _ _).mp h).trans ((hkeys _ _).mp h'))

theorem oneList_valid : Valid (listObjects 0) (oneList 0 0).table := by
  have hslot : ∀ {y a}, (oneList 0 0).table.hentries y = some a → y = 0 := by
    intro y a ha
    simp only [oneList] at ha
    split at ha
    · assumption
    · cases ha
  refine ⟨fun y hy a ha j hj hin => ?_, fun i hi j hj a b ha hb _ => ?_, ?_, ?_, ?_⟩
  · have hin : InCyc 0 y j := hin
    rw [hslot ha, inCyc_iff] at hin
    omega
  · rw [hslot ha, hslot hb]
  · decide
  · decide
  · rfl

end XEmacs.Elhash

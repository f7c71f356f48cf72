import XEmacs.Elhash.Table
import Mathlib.Tactic.Linarith

/-!
# Hash tables are finite maps

A hash table represents the map that sends a key to the value of the entry whose key is equal to
it under the table's test (`toMap`). The operations are compared with the operations on maps they
stand for. Two invariants are used.
-/

namespace XEmacs.Elhash

open LinearProbing Function Option

variable {K V : Type} [DecidableEq K]

/-! ## The invariants -/

/-- The part of the invariant that does not depend on the test function. -/
structure Placed (ops : LispOps K) (ht : LispHashTable K V) : Prop where
  probed : Probed ht.size (fun e : K × V => ht.hashCode ops e.1) ht.hentries
  eqApart : PairwiseApart ht.size (fun a b => a.1 = b.1) ht.hentries
  count_eq : ht.count = (filled ht.size ht.hentries).card
  count_lt : ht.count < ht.size
  sentinel : ht.hentries ht.size = none

/-- The invariant of a hash table: each key is reachable from its `HASH_CODE`
slot by a run of occupied slots, keys are pairwise different under the test, and
`count` is the number of occupied slots, less than `size`. -/
structure Valid (ops : LispOps K) (ht : LispHashTable K V) : Prop where
  probed : Probed ht.size (fun e : K × V => ht.hashCode ops e.1) ht.hentries
  apart : PairwiseApart ht.size (fun a b => ht.keysEqualP a.1 b.1 = true) ht.hentries
  count_eq : ht.count = (filled ht.size ht.hentries).card
  count_lt : ht.count < ht.size
  sentinel : ht.hentries ht.size = none

/-- The hash function is compatible with the test, an equivalence. -/
structure Compatible (ops : LispOps K) (ht : LispHashTable K V) : Prop where
  equiv : Equivalence fun a b => ht.keysEqualP a b = true
  hash : ∀ a b, ht.keysEqualP a b = true → ht.rawHash ops a = ht.rawHash ops b

theorem keysEqualP_of_eq (ht : LispHashTable K V) {a b : K} (h : a = b) :
    ht.keysEqualP a b = true := by
  simp [LispHashTable.keysEqualP, h]

theorem Valid.placed {ops : LispOps K} {ht : LispHashTable K V} (h : Valid ops ht) :
    Placed ops ht :=
  { probed := h.probed
    eqApart := fun i hi j hj a b ha hb hab =>
      h.apart i hi j hj a b ha hb (keysEqualP_of_eq ht hab)
    count_eq := h.count_eq
    count_lt := h.count_lt
    sentinel := h.sentinel }

theorem Compatible.hashCode {ops : LispOps K} {ht : LispHashTable K V}
    (h : Compatible ops ht) {a b : K} (hab : ht.keysEqualP a b = true) :
    ht.hashCode ops a = ht.hashCode ops b := by
  rw [LispHashTable.hashCode, LispHashTable.hashCode, h.hash a b hab]

omit [DecidableEq K] in
theorem hashCode_lt (ops : LispOps K) (ht : LispHashTable K V) (hpos : 0 < ht.size)
    (key : K) : ht.hashCode ops key < ht.size :=
  Nat.mod_lt _ hpos

/-! ## The represented map -/

/-- The map a hash table represents. -/
def LispHashTable.toMap (ht : LispHashTable K V) (key : K) : Option V :=
  (List.range ht.size).findSome? fun i =>
    match ht.hentries i with
    | some e => if ht.keysEqualP e.1 key then some e.2 else none
    | none => none

theorem toMap_eq_none_iff {ht : LispHashTable K V} {key : K} :
    ht.toMap key = none ↔
      ∀ e, Holds ht.size ht.hentries e → ht.keysEqualP e.1 key = false := by
  rw [LispHashTable.toMap, List.findSome?_eq_none_iff]
  constructor
  · rintro h e ⟨i, hi, he⟩
    have := h i (List.mem_range.mpr hi)
    rw [he] at this
    simpa using this
  · intro h i hi
    cases he : ht.hentries i with
    | none => rfl
    | some e => simp [h e ⟨i, List.mem_range.mp hi, he⟩]

theorem exists_of_toMap_eq_some {ht : LispHashTable K V} {key : K} {v : V}
    (h : ht.toMap key = some v) :
    ∃ e, Holds ht.size ht.hentries e ∧ ht.keysEqualP e.1 key = true ∧ e.2 = v := by
  obtain ⟨i, hi, hv⟩ := List.exists_of_findSome?_eq_some h
  cases he : ht.hentries i with
  | none => rw [he] at hv; cases hv
  | some e =>
    rw [he] at hv
    by_cases hk : ht.keysEqualP e.1 key = true
    · refine ⟨e, ⟨i, List.mem_range.mp hi, he⟩, hk, ?_⟩
      simpa [hk] using hv
    · simp [hk] at hv

theorem toMap_eq_some_iff {ht : LispHashTable K V}
    (hequiv : Equivalence fun a b => ht.keysEqualP a b = true)
    (hapart : PairwiseApart ht.size (fun a b => ht.keysEqualP a.1 b.1 = true) ht.hentries)
    {key : K} {v : V} :
    ht.toMap key = some v ↔
      ∃ e, Holds ht.size ht.hentries e ∧ ht.keysEqualP e.1 key = true ∧ e.2 = v := by
  refine ⟨exists_of_toMap_eq_some, ?_⟩
  rintro ⟨e, ⟨i, hi, he⟩, hk, rfl⟩
  cases hm : ht.toMap key with
  | none =>
    have := toMap_eq_none_iff.mp hm e ⟨i, hi, he⟩
    rw [this] at hk
    cases hk
  | some w =>
    obtain ⟨e', ⟨i', hi', he'⟩, hk', rfl⟩ := exists_of_toMap_eq_some hm
    -- the two entries have equal keys, so they are in one slot
    have hee : ht.keysEqualP e'.1 e.1 = true := hequiv.trans hk' (hequiv.symm hk)
    have hij := hapart i' hi' i hi e' e he' he hee
    rw [hij, he, Option.some.injEq] at he'
    rw [he']

theorem toMap_congr {ht ht' : LispHashTable K V}
    (hequiv : Equivalence fun a b => ht.keysEqualP a b = true)
    (htest : ht'.keysEqualP = ht.keysEqualP)
    (hapart : PairwiseApart ht.size (fun a b => ht.keysEqualP a.1 b.1 = true) ht.hentries)
    (hapart' : PairwiseApart ht'.size (fun a b => ht'.keysEqualP a.1 b.1 = true)
      ht'.hentries)
    (hholds : ∀ e, Holds ht'.size ht'.hentries e ↔ Holds ht.size ht.hentries e) :
    ht'.toMap = ht.toMap := by
  funext key
  refine Option.ext fun v => ?_
  rw [toMap_eq_some_iff (htest ▸ hequiv) hapart', toMap_eq_some_iff hequiv hapart, htest]
  exact exists_congr fun e => and_congr_left' (hholds e)

/-! ## Lookup -/

/-- The stop condition of `find_hentry`. -/
abbrev LispHashTable.atKey (ht : LispHashTable K V) (key : K) : Nat → Bool :=
  keyAt ht.hentries fun k => ht.keysEqualP k key

theorem Placed.find {ops : LispOps K} {ht : LispHashTable K V} (h : Placed ops ht)
    (key : K) : ∃ e, findHentry ops key ht = some e ∧
      StopsAt (occupied ht.hentries) (ht.atKey key) ht.size (ht.hashCode ops key) e := by
  obtain ⟨c, hc, hclear⟩ := exists_clear (h.count_eq ▸ h.count_lt)
  exact exists_probeLoop _ (occupied_eq_false.mpr h.sentinel) hc
    (occupied_eq_false.mpr hclear) (hashCode_lt ops ht (by omega) key)

theorem Placed.not_keysEqualP_of_find {ops : LispOps K} {ht : LispHashTable K V}
    (h : Placed ops ht) {key : K} {e : Nat}
    (hstop : StopsAt (occupied ht.hentries) (ht.atKey key) ht.size (ht.hashCode ops key) e)
    (hclear : ht.hentries e = none) {b : K × V} (hb : Holds ht.size ht.hentries b)
    (hcode : ht.hashCode ops b.1 = ht.hashCode ops key) :
    ht.keysEqualP b.1 key = false := by
  obtain ⟨y, hy, hyb⟩ := hb
  have he := hstop.lt
  have hye : y ≠ e := fun heq => by rw [heq, hclear] at hyb; cases hyb
  rcases Classical.em (InCyc (ht.hashCode ops key) y e) with hin | hin
  · rw [← hcode] at hin
    exact absurd hclear (h.probed y hy b hyb e he hin)
  · have hin' : InCyc (ht.hashCode ops key) e y := by
      rw [inCyc_iff] at hin ⊢
      omega
    have := (hstop.passed y hy hin').2
    rw [LispHashTable.atKey, keyAt, hyb] at this
    exact this

theorem Placed.toMap_of_find {ops : LispOps K} {ht : LispHashTable K V}
    (h : Placed ops ht) (hcompat : Compatible ops ht)
    (hapart : PairwiseApart ht.size (fun a b => ht.keysEqualP a.1 b.1 = true) ht.hentries)
    {key : K} {e : Nat}
    (hstop : StopsAt (occupied ht.hentries) (ht.atKey key) ht.size (ht.hashCode ops key) e) :
    ht.toMap key = (ht.hentries e).map Prod.snd := by
  cases he : ht.hentries e with
  | none =>
    refine toMap_eq_none_iff.mpr fun b hb => ?_
    by_contra hcon
    rw [Bool.not_eq_false] at hcon
    rw [h.not_keysEqualP_of_find hstop he hb (hcompat.hashCode hcon)] at hcon
    cases hcon
  | some entry =>
    have hk : ht.keysEqualP entry.1 key = true := by
      have := hstop.stops (occupied_iff.mpr (by rw [he]; simp))
      rw [LispHashTable.atKey, keyAt, he] at this
      exact this
    exact (toMap_eq_some_iff hcompat.equiv hapart).mpr
      ⟨entry, ⟨e, hstop.lt, he⟩, hk, rfl⟩

theorem gethash_eq {ops : LispOps K} {ht : LispHashTable K V} (h : Valid ops ht)
    (hcompat : Compatible ops ht) (key : K) (default : V) :
    gethash ops key ht default = some ((ht.toMap key).getD default) := by
  obtain ⟨e, he, hstop⟩ := h.placed.find key
  rw [gethash, he, map_some, h.placed.toMap_of_find hcompat h.apart hstop]
  cases ht.hentries e <;> rfl

/-! ## Re-insertion into a new array -/

omit [DecidableEq K] in
/-- Re-inserting the entries of an array, pairwise apart and fewer than the new
array's slots, ends with an array that holds the same entries, each reachable
from its hash code. The induction is on the old entries already treated. -/
theorem reinsertAll_spec (code : K → Nat) (size oldSize : Nat)
    (old : Nat → Option (K × V)) (hcode : ∀ k, code k < size)
    (hcount : (filled oldSize old).card < size) :
    ∃ entries, reinsertAll code size old oldSize = some entries ∧
      Probed size (fun e => code e.1) entries ∧
      (∀ e, Holds size entries e ↔ Holds oldSize old e) ∧
      (filled size entries).card = (filled oldSize old).card ∧
      entries size = none ∧
      ∀ r : K × V → K × V → Prop, PairwiseApart oldSize r old →
        PairwiseApart size r entries := by
  unfold reinsertAll
  induction oldSize with
  | zero =>
    refine ⟨fun _ => none, rfl, ?_, ?_, ?_, rfl, ?_⟩
    · intro y _ a ha
      cases ha
    · intro e
      simp [Holds]
    · rw [filled, filled, Finset.range_zero, Finset.filter_empty, Finset.card_empty,
        Finset.card_eq_zero, Finset.filter_eq_empty_iff]
      intro j _ hj
      cases hj
    · intro r _ i _ j _ a b ha
      cases ha
  | succ m ih =>
    have hle : (filled m old).card ≤ (filled (m + 1) old).card := by
      rw [filled_succ]
      split
      · exact le_refl _
      · exact Finset.card_le_card (Finset.subset_insert _ _)
    obtain ⟨entries, hfold, hprobed, hholds, hcard, hsent, hapart⟩ := ih (by omega)
    rw [List.range_succ, List.foldlM_append, hfold]
    have hmono : ∀ r : K × V → K × V → Prop, PairwiseApart (m + 1) r old →
        PairwiseApart m r old :=
      fun r hr i hi j hj => hr i (by omega) j (by omega)
    cases he : old m with
    | none =>
      refine ⟨entries, by simp [he], hprobed, fun e => ?_, ?_, hsent,
        fun r hr => hapart r (hmono r hr)⟩
      · rw [hholds, holds_succ, he]
        simp
      · rw [hcard, filled_succ, if_pos he]
    | some e =>
      have hnew : (filled (m + 1) old).card = (filled m old).card + 1 := by
        rw [filled_succ, if_neg (by rw [he]; simp), Finset.card_insert_of_notMem (by simp)]
      -- the new array still has a clear slot
      obtain ⟨c, hc, hclear⟩ := exists_clear (n := size) (s := entries) (by omega)
      obtain ⟨p, hp, hstop⟩ := exists_probeLoop (fun _ => false)
        (occupied_eq_false.mpr hsent) hc (occupied_eq_false.mpr hclear) (hcode e.1)
      have hpclear : entries p = none := by
        by_contra hne
        cases hstop.stops (occupied_iff.mpr hne)
      refine ⟨Function.update entries p (some e), ?_, hprobed.insert hstop, ?_, ?_, ?_, ?_⟩
      · simp [he, reinsert, hp]
      · intro b
        rw [holds_insert hstop.lt hpclear, hholds, holds_succ, he, Option.some.injEq]
        constructor
        · rintro (rfl | hb)
          · exact Or.inr rfl
          · exact Or.inl hb
        · rintro (hb | rfl)
          · exact Or.inr hb
          · exact Or.inl rfl
      · rw [filled_insert hstop.lt, Finset.card_insert_of_notMem (by simp [hpclear]),
          hcard, hnew]
      · rw [update_of_ne (by have := hstop.lt; omega), hsent]
      · intro r hr
        refine (hapart r (hmono r hr)).insert ?_ ?_
        · rintro b hb hrb
          obtain ⟨i, hi, hib⟩ := (hholds b).mp hb
          have := hr m (by omega) i (by omega) e b he hib hrb
          omega
        · rintro b hb hrb
          obtain ⟨i, hi, hib⟩ := (hholds b).mp hb
          have := hr i (by omega) m (by omega) b e hib he hrb
          omega

omit [DecidableEq K] in
theorem resizeHashTable_spec (ops : LispOps K) {ht : LispHashTable K V} {newSize : Nat}
    (hcount : ht.count = (filled ht.size ht.hentries).card) (hroom : ht.count < newSize) :
    ∃ ht', resizeHashTable ops ht newSize = some ht' ∧ ht'.size = newSize ∧
      ht'.count = ht.count ∧ ht'.hashFunction = ht.hashFunction ∧
      ht'.testFunction = ht.testFunction ∧ ht'.rehashSize = ht.rehashSize ∧
      ht'.rehashThreshold = ht.rehashThreshold ∧
      ht'.rehashCount = sizeOfDouble (newSize * ht.rehashThreshold) ∧
      Probed newSize (fun e : K × V => ht'.hashCode ops e.1) ht'.hentries ∧
      (∀ e, Holds newSize ht'.hentries e ↔ Holds ht.size ht.hentries e) ∧
      (filled newSize ht'.hentries).card = ht.count ∧ ht'.hentries newSize = none ∧
      ∀ r : K × V → K × V → Prop, PairwiseApart ht.size r ht.hentries →
        PairwiseApart newSize r ht'.hentries := by
  have hpos : 0 < newSize := by omega
  let ht₁ := computeHashTableDerivedValues { ht with size := newSize }
  obtain ⟨entries, hre, hprobed, hholds, hcard, hsent, hapart⟩ :=
    reinsertAll_spec (ht₁.hashCode ops) newSize ht.size ht.hentries (fun k => Nat.mod_lt _ hpos)
      (by omega)
  refine ⟨{ ht₁ with hentries := entries }, ?_, rfl, rfl, rfl, rfl, rfl, rfl, rfl,
    hprobed, hholds, by rw [hcard, hcount], hsent, hapart⟩
  show Option.map _ (reinsertAll (ht₁.hashCode ops) newSize ht.hentries ht.size) = _
  rw [hre]
  rfl

/-! ## Deletion -/

/-- The body of the `remhash_1` loop: an entry whose walk crosses the hole moves
into it, any other stays. -/
theorem remhashBody_spec {code : K → Nat} {n i x hole e : Nat}
    {s₀ s : Nat → Option (K × V)} (hcode : ∀ k, code k < n)
    (h : Repairing n (fun e => code e.1) i x hole s)
    (htrails : Trails n (fun e => code e.1) i s₀ x hole s)
    (heq : PairwiseApart n (fun a b => a.1 = b.1) s) (hsent : s n = none)
    (hi : i < n) (hx : x < n) (he : e < n) (heclear : s e = none)
    (hei : ¬ InCyc i x e) {a : K × V} (ha : s x = some a) :
    ∃ s' hole', remhashBody code n s x = some s' ∧
      Repairing n (fun e => code e.1) i (next n x) hole' s' ∧
      Trails n (fun e => code e.1) i s₀ (next n x) hole' s' ∧ s' n = none ∧
      (filled n s').card = (filled n s).card ∧ (∀ b, Holds n s' b ↔ Holds n s b) ∧
      (∀ r : K × V → K × V → Prop, PairwiseApart n r s → PairwiseApart n r s') ∧
      s' e = none := by
  have hex : e ≠ x := fun heq => by rw [← heq, heclear] at ha; cases ha
  have hhole := h.hole_lt
  have hxh : x ≠ hole := fun heq => by rw [heq, h.hole_clear] at ha; cases ha
  have hne : e ≠ hole := by
    have := h.hole_in
    exact fun heq => hei (heq ▸ this)
  -- no slot on the walk to `x` stops the inner loop, for want of another `EQ` key
  have hpass : ∀ j < n, InCyc (code a.1) x j → j ≠ hole →
      occupied s j = true ∧ keyAt s (fun k => k = a.1) j = false := by
    intro j hj hin hjh
    have hjn : s j ≠ none := (h.walk x hx a ha j hj hin).resolve_right hjh
    refine ⟨occupied_iff.mpr hjn, ?_⟩
    obtain ⟨b, hb⟩ := ne_none_iff_exists'.mp hjn
    rw [keyAt, hb]
    refine decide_eq_false fun hba => ?_
    have hjx := heq j hj x hx b a hb ha hba
    rw [inCyc_iff] at hin
    omega
  have hloop : ∀ r, StopsAt (occupied s) (keyAt s fun k => k = a.1) n (code a.1) r →
      probeLoop (occupied s) (keyAt s fun k => k = a.1) n (n + 1) (code a.1) = some r :=
    fun r hr => probeLoop_eq (occupied_eq_false.mpr hsent) he
      (occupied_eq_false.mpr heclear) (hcode _) hr
  unfold remhashBody
  simp only [ha]
  by_cases hcross : InCyc (code a.1) x hole
  · have hstop : StopsAt (occupied s) (keyAt s fun k => k = a.1) n (code a.1) hole := by
      refine ⟨hhole, fun ho => ?_, fun j hj hin => hpass j hj ?_ ?_⟩
      · exact absurd h.hole_clear (occupied_iff.mp ho)
      · rw [inCyc_iff] at hcross hin ⊢
        omega
      · rw [inCyc_iff] at hin
        omega
    refine ⟨_, x, ?_, h.move hi hx he hex hei heclear ha hcross,
      htrails.move h hi hx he hex hei ha hcross, ?_, ?_, ?_, ?_, ?_⟩
    · simp [hloop hole hstop, occupied_eq_false.mpr h.hole_clear]
    · rw [update_of_ne (by omega), update_of_ne (by omega), hsent]
    · exact card_filled_move ha h.hole_clear hx hhole
    · exact fun b => holds_move ha h.hole_clear hx hhole
    · exact fun r hr => hr.move ha hx
    · rw [update_of_ne hex, update_of_ne hne, heclear]
  · have hstop : StopsAt (occupied s) (keyAt s fun k => k = a.1) n (code a.1) x := by
      refine ⟨hx, fun _ => ?_, fun j hj hin => hpass j hj hin ?_⟩
      · simp [keyAt, ha]
      · exact fun hjh => hcross (hjh ▸ hin)
    refine ⟨s, hole, ?_, h.stay hi hx he hex hei ha hcross, htrails.stay hi hx he hex hei, hsent,
      rfl, fun _ => Iff.rfl, fun _ hr => hr, heclear⟩
    have hxo : occupied s x = true := occupied_iff.mpr (by rw [ha]; simp)
    simp [hloop x hstop, hxo]

/-- **The `remhash_1` loop** repairs the array: it ends at the clear entry `e`
that closes the cluster, with the same entries, each reachable again. The
induction is on the steps left to `e`; `Repairing` carries it. -/
theorem remhashLoop_spec (code : K → Nat) {n i e : Nat} {s₀ : Nat → Option (K × V)}
    (hcode : ∀ k, code k < n) (hi : i < n) (he : e < n)
    (hprobed₀ : Probed n (fun e => code e.1) s₀) (happart₀ : PairwiseApart n Eq s₀) :
    ∀ (fuel probe hole : Nat) (s : Nat → Option (K × V)), probe ≤ n →
      Repairing n (fun e => code e.1) i (slotOf n probe) hole s →
      Trails n (fun e => code e.1) i s₀ (slotOf n probe) hole s →
      PairwiseApart n (fun a b => a.1 = b.1) s → s n = none → s e = none →
      ¬ InCyc i (slotOf n probe) e → stepsTo n probe e < fuel →
      ∃ s', remhashLoop code n fuel s probe = some s' ∧
        Probed n (fun e => code e.1) s' ∧ s' n = none ∧
        (filled n s').card = (filled n s).card ∧ (∀ b, Holds n s' b ↔ Holds n s b) ∧
        Refills n (fun e => code e.1) i s₀ s' ∧
        ∀ r : K × V → K × V → Prop, PairwiseApart n r s → PairwiseApart n r s' := by
  intro fuel
  induction fuel with
  | zero => intro _ _ _ _ _ _ _ _ _ _ hfuel; omega
  | succ fuel ih =>
    intro probe hole s hprobe h htrails heq hsent heclear hei hfuel
    have hslot : slotOf n probe < n := by unfold slotOf; split <;> omega
    -- one step of the loop, at the slot the probe stands for
    have hstep : ∀ a, s (slotOf n probe) = some a → ∀ probe', probe' ≤ n →
        slotOf n probe' = next n (slotOf n probe) → stepsTo n probe' e < fuel →
        ∃ s', (remhashBody code n s (slotOf n probe)).bind
            (fun s => remhashLoop code n fuel s probe') = some s' ∧
          Probed n (fun e => code e.1) s' ∧ s' n = none ∧
          (filled n s').card = (filled n s).card ∧ (∀ b, Holds n s' b ↔ Holds n s b) ∧
          Refills n (fun e => code e.1) i s₀ s' ∧
          ∀ r : K × V → K × V → Prop, PairwiseApart n r s → PairwiseApart n r s' := by
      intro a ha probe' hprobe' hnext hsteps
      obtain ⟨s₁, hole', hbody, h₁, htrails₁, hsent₁, hcard₁, hholds₁, hapart₁, heclear₁⟩ :=
        remhashBody_spec hcode h htrails heq hsent hi hslot he heclear hei ha
      have hex : e ≠ slotOf n probe := fun heq => by
        rw [← heq, heclear] at ha; cases ha
      have hei₁ : ¬ InCyc i (slotOf n probe') e := by
        rw [hnext]
        rw [inCyc_iff] at hei ⊢
        unfold next
        generalize slotOf n probe = x at hslot hex hei
        unfold slotOf
        split <;> omega
      obtain ⟨s', hs', hprobed, hsent', hcard, hholds, hrefills, hapart⟩ :=
        ih probe' hole' s₁ hprobe' (hnext ▸ h₁) (hnext ▸ htrails₁) (hapart₁ _ heq) hsent₁
          heclear₁ hei₁ hsteps
      refine ⟨s', ?_, hprobed, hsent', hcard.trans hcard₁,
        fun b => (hholds b).trans (hholds₁ b), hrefills,
        fun r hr => hapart r (hapart₁ r hr)⟩
      rw [hbody]
      exact hs'
    -- the end of the loop, at a clear slot
    have hend : s (slotOf n probe) = none →
        ∃ s', some s = some s' ∧
          Probed n (fun e => code e.1) s' ∧ s' n = none ∧
          (filled n s').card = (filled n s).card ∧ (∀ b, Holds n s' b ↔ Holds n s b) ∧
          Refills n (fun e => code e.1) i s₀ s' ∧
          ∀ r : K × V → K × V → Prop, PairwiseApart n r s → PairwiseApart n r s' := by
      intro hclear
      have hxh : slotOf n probe ≠ hole := by
        intro heq
        have := h.hole_in
        rw [← heq, inCyc_iff] at this
        omega
      exact ⟨s, rfl, h.finish hslot hclear hxh, hsent, rfl, fun _ => Iff.rfl,
        htrails.refills hprobed₀ happart₀ h hslot hclear hxh, fun _ hr => hr⟩
    unfold remhashLoop
    by_cases ho : occupied s probe = true
    · have hpn : probe ≠ n := fun heq => occupied_iff.mp ho (heq ▸ hsent)
      have hslotp : slotOf n probe = probe := if_neg hpn
      obtain ⟨a, ha⟩ := ne_none_iff_exists'.mp (occupied_iff.mp ho)
      rw [if_pos ho]
      rw [hslotp] at hstep
      refine hstep a ha (probe + 1) (by omega) rfl ?_
      have hpe : probe ≠ e := fun heq => by rw [heq, heclear] at ha; cases ha
      unfold stepsTo at hfuel ⊢
      split at hfuel <;> split <;> omega
    · rw [if_neg ho]
      by_cases hpn : probe = n
      · subst hpn
        have hslot0 : slotOf probe probe = 0 := if_pos rfl
        rw [if_pos rfl]
        rw [hslot0] at hstep hend
        by_cases h0 : occupied s 0 = true
        · obtain ⟨a, ha⟩ := ne_none_iff_exists'.mp (occupied_iff.mp h0)
          rw [if_pos h0]
          refine hstep a ha 1 (by omega) rfl ?_
          have h0e : 0 ≠ e := fun heq => by rw [heq, heclear] at ha; cases ha
          unfold stepsTo at hfuel ⊢
          split at hfuel <;> split <;> omega
        · rw [if_neg h0]
          exact hend (by simpa [occupied_iff] using h0)
      · have hslotp : slotOf n probe = probe := if_neg hpn
        rw [if_neg hpn]
        rw [hslotp] at hend
        exact hend (by simpa [occupied_iff] using ho)

/-- What `remhash_1` does to the table: the entry at `probe` is gone, the others
stay, and `Refills` says which can get over `probe`. -/
theorem Placed.remhash1 {ops : LispOps K} {ht : LispHashTable K V} (h : Placed ops ht)
    {probe : Nat} (hp : probe < ht.size) {a : K × V} (ha : ht.hentries probe = some a) :
    ∃ entries, remhash1 ops ht probe
        = some { ht with hentries := entries, count := ht.count - 1 } ∧
      Placed ops { ht with hentries := entries, count := ht.count - 1 } ∧
      (∀ b, Holds ht.size entries b ↔
        ∃ j < ht.size, j ≠ probe ∧ ht.hentries j = some b) ∧
      Refills ht.size (fun e => ht.hashCode ops e.1) probe ht.hentries entries ∧
      ∀ r : K × V → K × V → Prop, PairwiseApart ht.size r ht.hentries →
        PairwiseApart ht.size r entries := by
  have hpf : probe ∈ filled ht.size ht.hentries := by simp [hp, ha]
  obtain ⟨e, he, heclear⟩ := exists_clear (h.count_eq ▸ h.count_lt)
  have hep : e ≠ probe := fun heq => by rw [heq, ha] at heclear; cases heclear
  have hn2 : next ht.size probe ≠ probe := by
    unfold next slotOf
    split <;> omega
  set s₀ := Function.update ht.hentries probe none with hs₀
  have hback : ∀ j b, s₀ j = some b → j ≠ probe ∧ ht.hentries j = some b := by
    intro j b hb
    have hjp : j ≠ probe := fun heq => by rw [heq, hs₀, update_self] at hb; cases hb
    rw [hs₀, update_of_ne hjp] at hb
    exact ⟨hjp, hb⟩
  have hapart₀ : ∀ r : K × V → K × V → Prop, PairwiseApart ht.size r ht.hentries →
      PairwiseApart ht.size r s₀ :=
    fun r hr i hi j hj b c hb hc =>
      hr i hi j hj b c (hback i b hb).2 (hback j c hc).2
  have heq : PairwiseApart ht.size Eq ht.hentries := fun i hi j hj a b ha hb hab =>
    h.eqApart i hi j hj a b ha hb (congrArg Prod.fst hab)
  obtain ⟨entries, hloop, hprobed, hsent, hcard, hholds, hrefills, hapart⟩ :=
    remhashLoop_spec (ht.hashCode ops) (i := probe) (e := e)
      (hashCode_lt ops ht (by omega)) hp he h.probed heq (ht.size + 1) (probe + 1) probe s₀
      (by omega) (Repairing.start h.probed hp hn2) (Trails.start hp hn2) (hapart₀ _ h.eqApart)
      (by rw [hs₀, update_of_ne (by omega), h.sentinel])
      (by rw [hs₀, update_of_ne hep, heclear])
      (by
        rw [inCyc_iff]
        unfold slotOf
        split <;> omega)
      (by unfold stepsTo; split <;> omega)
  have hcount : (filled ht.size s₀).card = ht.count - 1 := by
    rw [hs₀, filled_erase, Finset.card_erase_of_mem hpf, h.count_eq]
  refine ⟨entries, ?_, ⟨hprobed, hapart _ (hapart₀ _ h.eqApart), ?_, ?_, hsent⟩, ?_, hrefills,
    fun r hr => hapart r (hapart₀ r hr)⟩
  · rw [Elhash.remhash1, hloop]
    rfl
  · show ht.count - 1 = _
    rw [hcard, hcount]
  · show ht.count - 1 < ht.size
    have := h.count_lt
    omega
  · intro b
    rw [hholds]
    constructor
    · rintro ⟨j, hj, hb⟩
      exact ⟨j, hj, hback j b hb⟩
    · rintro ⟨j, hj, hjp, hb⟩
      exact ⟨j, hj, by rw [hs₀, update_of_ne hjp, hb]⟩

end XEmacs.Elhash

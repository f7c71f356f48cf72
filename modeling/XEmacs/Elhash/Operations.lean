import XEmacs.Elhash.FiniteMap

/-!
# The operations on hash tables

`puthash`, `remhash`, `clrhash`, `resize_hash_table` and `pdump_reorganize_hash_table` against
the maps they stand for: insertion or overwriting, erasure, the empty map and twice the identity.
-/

namespace XEmacs.Elhash

open LinearProbing

variable {K V : Type} [DecidableEq K]

/-! ## Insertion -/

/-- A table with one more entry, at index `e`. -/
def LispHashTable.withEntry (ht : LispHashTable K V) (e : Nat) (key : K) (value : V) :
    LispHashTable K V :=
  { ht with
    hentries := Function.update ht.hentries e (some (key, value))
    count := ht.count + 1 }

theorem puthash_existing {ops : LispOps K} {ht : LispHashTable K V} {key : K} {e : Nat}
    {a : K × V} (hfind : findHentry ops key ht = some e) (ha : ht.hentries e = some a)
    (value : V) : puthash ops key value ht
      = some { ht with hentries := Function.update ht.hentries e (some (a.1, value)) } := by
  simp [puthash, hfind, ha]

theorem puthash_new {ops : LispOps K} {ht : LispHashTable K V} {key : K} {e : Nat}
    (hfind : findHentry ops key ht = some e) (he : ht.hentries e = none) (value : V) :
    puthash ops key value ht
      = if ht.count + 1 ≥ ht.rehashCount then enlargeHashTable ops (ht.withEntry e key value)
        else some (ht.withEntry e key value) := by
  simp [puthash, hfind, he, LispHashTable.withEntry]

section NewEntry

variable {ops : LispOps K} {ht : LispHashTable K V} {key : K} {e : Nat} (value : V)

omit [DecidableEq K] in
theorem Placed.count_withEntry (h : Placed ops ht) (hlt : e < ht.size)
    (he : ht.hentries e = none) (key : K) :
    (ht.withEntry e key value).count
      = (filled ht.size (ht.withEntry e key value).hentries).card := by
  show ht.count + 1 = (filled ht.size (Function.update _ _ _)).card
  rw [filled_insert hlt, Finset.card_insert_of_notMem (by simp [he]), h.count_eq]

omit [DecidableEq K] in
theorem holds_withEntry (hlt : e < ht.size) (he : ht.hentries e = none)
    (key : K) (b : K × V) : Holds ht.size (ht.withEntry e key value).hentries b ↔
      b = (key, value) ∨ Holds ht.size ht.hentries b :=
  holds_insert hlt he

theorem Placed.eqApart_withEntry (h : Placed ops ht)
    (hstop : StopsAt (occupied ht.hentries) (ht.atKey key) ht.size (ht.hashCode ops key) e)
    (he : ht.hentries e = none) :
    PairwiseApart ht.size (fun a b => a.1 = b.1) (ht.withEntry e key value).hentries := by
  have hnot : ∀ b, Holds ht.size ht.hentries b → b.1 ≠ key := by
    intro b hb heq
    have := h.not_keysEqualP_of_find hstop he hb (by rw [heq])
    rw [keysEqualP_of_eq ht heq] at this
    cases this
  exact h.eqApart.insert (fun b hb heq => hnot b hb heq.symm) (fun b hb heq => hnot b hb heq)

theorem Placed.withEntry (h : Placed ops ht)
    (hstop : StopsAt (occupied ht.hentries) (ht.atKey key) ht.size (ht.hashCode ops key) e)
    (he : ht.hentries e = none) (hroom : ht.count + 1 < ht.size) :
    Placed ops (ht.withEntry e key value) := by
  refine ⟨?_, h.eqApart_withEntry value hstop he, h.count_withEntry value hstop.lt he key, hroom, ?_⟩
  · refine h.probed.insert (a := (key, value)) ⟨hstop.lt, fun hocc => ?_, fun j hj hin => ?_⟩
    · exact absurd he (occupied_iff.mp hocc)
    · exact ⟨(hstop.passed j hj hin).1, rfl⟩
  · have := hstop.lt
    show Function.update ht.hentries e (some (key, value)) ht.size = none
    rw [Function.update_of_ne (by omega), h.sentinel]

theorem Valid.apart_withEntry (h : Valid ops ht) (hcompat : Compatible ops ht)
    (hstop : StopsAt (occupied ht.hentries) (ht.atKey key) ht.size (ht.hashCode ops key) e)
    (he : ht.hentries e = none) :
    PairwiseApart ht.size (fun a b => ht.keysEqualP a.1 b.1 = true)
      (ht.withEntry e key value).hentries := by
  have hnot : ∀ b, Holds ht.size ht.hentries b → ht.keysEqualP b.1 key ≠ true := by
    intro b hb hk
    rw [h.placed.not_keysEqualP_of_find hstop he hb (hcompat.hashCode hk)] at hk
    cases hk
  exact h.apart.insert (fun b hb hk => hnot b hb (hcompat.equiv.symm hk))
    (fun b hb hk => hnot b hb hk)

end NewEntry

omit [DecidableEq K] in
theorem Placed.overwrite {ops : LispOps K} {ht : LispHashTable K V} (h : Placed ops ht)
    {e : Nat} (he : e < ht.size) {a : K × V} (ha : ht.hentries e = some a) (value : V) :
    Placed ops { ht with
      hentries := Function.update ht.hentries e (some (a.1, value)) } := by
  refine ⟨h.probed.replace ha rfl,
    h.eqApart.replace ha he (fun _ hc => hc) (fun _ hc => hc), ?_, h.count_lt, ?_⟩
  · show ht.count = (filled ht.size (Function.update _ _ _)).card
    rw [filled_insert he, Finset.insert_eq_of_mem (by simp [ha, he]), h.count_eq]
  · show Function.update ht.hentries e (some (a.1, value)) ht.size = none
    rw [Function.update_of_ne (by omega), h.sentinel]

omit [DecidableEq K] in
theorem Placed.resize (ops : LispOps K) {ht : LispHashTable K V} (newSize : Nat)
    (hcount : ht.count = (filled ht.size ht.hentries).card)
    (hapart : PairwiseApart ht.size (fun a b => a.1 = b.1) ht.hentries)
    (hroom : ht.count < newSize) :
    ∃ ht', resizeHashTable ops ht newSize = some ht' ∧ Placed ops ht' ∧
      ht'.size = newSize ∧ ht'.count = ht.count ∧ ht'.rehashSize = ht.rehashSize ∧
      ht'.rehashThreshold = ht.rehashThreshold ∧
      ht'.rehashCount = sizeOfDouble (newSize * ht.rehashThreshold) := by
  obtain ⟨ht', hres, rfl, hcnt, -, -, hrs, hrt, hrc, hprobed, -, hcard, hsent, hap⟩ :=
    resizeHashTable_spec ops hcount hroom
  exact ⟨ht', hres, ⟨hprobed, hap _ hapart, by rw [hcard, hcnt], by omega, hsent⟩, rfl,
    hcnt, hrs, hrt, hrc⟩

/-! ## The map after a step -/

theorem toMap_put {ht ht' : LispHashTable K V}
    (hequiv : Equivalence fun a b => ht.keysEqualP a b = true)
    (htest : ht'.keysEqualP = ht.keysEqualP)
    (hapart : PairwiseApart ht.size (fun a b => ht.keysEqualP a.1 b.1 = true) ht.hentries)
    (hapart' : PairwiseApart ht'.size (fun a b => ht'.keysEqualP a.1 b.1 = true)
      ht'.hentries) {key key' : K} {value : V} (hkey : ht.keysEqualP key' key = true)
    (hholds : ∀ b, Holds ht'.size ht'.hentries b ↔ b = (key', value) ∨
      (Holds ht.size ht.hentries b ∧ ht.keysEqualP b.1 key = false)) :
    ht'.toMap = fun k => if ht.keysEqualP key k then some value else ht.toMap k := by
  funext k
  refine Option.ext fun v => ?_
  rw [toMap_eq_some_iff (htest ▸ hequiv) hapart', htest]
  by_cases hk : ht.keysEqualP key k = true
  · rw [if_pos hk, Option.some.injEq]
    constructor
    · rintro ⟨b, hb, hbk, rfl⟩
      rcases (hholds b).mp hb with rfl | ⟨-, hne⟩
      · rfl
      · rw [hequiv.trans hbk (hequiv.symm hk)] at hne
        cases hne
    · rintro rfl
      exact ⟨(key', value), (hholds _).mpr (Or.inl rfl), hequiv.trans hkey hk, rfl⟩
  · rw [if_neg hk, toMap_eq_some_iff hequiv hapart]
    constructor
    · rintro ⟨b, hb, hbk, rfl⟩
      rcases (hholds b).mp hb with rfl | ⟨hb, -⟩
      · exact absurd (hequiv.trans (hequiv.symm hkey) hbk) hk
      · exact ⟨b, hb, hbk, rfl⟩
    · rintro ⟨b, hb, hbk, rfl⟩
      refine ⟨b, (hholds b).mpr (Or.inr ⟨hb, ?_⟩), hbk, rfl⟩
      rw [← Bool.not_eq_true]
      exact fun hbkey => hk (hequiv.trans (hequiv.symm hbkey) hbk)

theorem toMap_erase {ht ht' : LispHashTable K V}
    (hequiv : Equivalence fun a b => ht.keysEqualP a b = true)
    (htest : ht'.keysEqualP = ht.keysEqualP)
    (hapart : PairwiseApart ht.size (fun a b => ht.keysEqualP a.1 b.1 = true) ht.hentries)
    (hapart' : PairwiseApart ht'.size (fun a b => ht'.keysEqualP a.1 b.1 = true)
      ht'.hentries) {key : K}
    (hholds : ∀ b, Holds ht'.size ht'.hentries b ↔
      Holds ht.size ht.hentries b ∧ ht.keysEqualP b.1 key = false) :
    ht'.toMap = fun k => if ht.keysEqualP key k then none else ht.toMap k := by
  funext k
  refine Option.ext fun v => ?_
  rw [toMap_eq_some_iff (htest ▸ hequiv) hapart', htest]
  by_cases hk : ht.keysEqualP key k = true
  · rw [if_pos hk]
    refine ⟨?_, fun h => by cases h⟩
    rintro ⟨b, hb, hbk, rfl⟩
    have := ((hholds b).mp hb).2
    rw [hequiv.trans hbk (hequiv.symm hk)] at this
    cases this
  · rw [if_neg hk, toMap_eq_some_iff hequiv hapart]
    constructor
    · rintro ⟨b, hb, hbk, rfl⟩
      exact ⟨b, ((hholds b).mp hb).1, hbk, rfl⟩
    · rintro ⟨b, hb, hbk, rfl⟩
      refine ⟨b, (hholds b).mpr ⟨hb, ?_⟩, hbk, rfl⟩
      rw [← Bool.not_eq_true]
      exact fun hbkey => hk (hequiv.trans (hequiv.symm hbkey) hbk)

theorem Valid.holds_ne_iff {ops : LispOps K} {ht : LispHashTable K V} (h : Valid ops ht)
    (hequiv : Equivalence fun a b => ht.keysEqualP a b = true) {e : Nat}
    (he : e < ht.size) {a : K × V} (ha : ht.hentries e = some a) {key : K}
    (hkey : ht.keysEqualP a.1 key = true) (b : K × V) :
    (∃ j < ht.size, j ≠ e ∧ ht.hentries j = some b) ↔
      Holds ht.size ht.hentries b ∧ ht.keysEqualP b.1 key = false := by
  constructor
  · rintro ⟨j, hj, hje, hb⟩
    refine ⟨⟨j, hj, hb⟩, ?_⟩
    rw [← Bool.not_eq_true]
    exact fun hbk => hje (h.apart j hj e he b a hb ha (hequiv.trans hbk (hequiv.symm hkey)))
  · rintro ⟨⟨j, hj, hb⟩, hbk⟩
    refine ⟨j, hj, fun hje => ?_, hb⟩
    rw [hje, ha, Option.some.injEq] at hb
    rw [← hb, hkey] at hbk
    cases hbk

/-! ## The specification of a step -/

/-- An operation on a hash table. `pdumpReorganize` comes after the table was
loaded from a dump: the address words, and with them the hash function's values,
are other ones than those the entries were placed by. -/
inductive TableOp (K V : Type) where
  | puthash (key : K) (value : V)
  | remhash (key : K)
  | clrhash
  | resize (newSize : Nat)
  | pdumpReorganize (loaded : LispOps K) (hashFunction : Option (K → Nat))

namespace TableOp

/-- The Lisp objects after an operation. -/
def objects (ops : LispOps K) : TableOp K V → LispOps K
  | pdumpReorganize loaded _ => loaded
  | _ => ops

/-- The table an operation starts from. -/
def start (ht : LispHashTable K V) : TableOp K V → LispHashTable K V
  | pdumpReorganize _ hashFunction => { ht with hashFunction := hashFunction }
  | _ => ht

/-- An operation, run. -/
def run (ops : LispOps K) (ht : LispHashTable K V) :
    TableOp K V → Option (LispHashTable K V)
  | puthash key value => Elhash.puthash ops key value ht
  | remhash key => (Elhash.remhash ops key ht).map Prod.snd
  | clrhash => some (Elhash.clrhash ht)
  | resize newSize => resizeHashTable ops ht newSize
  | pdumpReorganize loaded hashFunction =>
    pdumpReorganizeHashTable loaded { ht with hashFunction := hashFunction }

/-- The operation on maps that an operation stands for. -/
def onMap (keysEqualP : K → K → Bool) (m : K → Option V) : TableOp K V → K → Option V
  | puthash key value => fun k => if keysEqualP key k then some value else m k
  | remhash key => fun k => if keysEqualP key k then none else m k
  | clrhash => fun _ => none
  | resize _ => m
  | pdumpReorganize _ _ => m

/-- An operation meets its specification: it ends, keeps the invariant and does
to the represented map what it stands for. -/
def Meets (ops : LispOps K) (ht : LispHashTable K V) (op : TableOp K V) : Prop :=
  ∃ ht', op.run ops ht = some ht' ∧ Valid (op.objects ops) ht' ∧
    Compatible (op.objects ops) ht' ∧ ht'.keysEqualP = ht.keysEqualP ∧
    ht'.toMap = op.onMap ht.keysEqualP ht.toMap

/-- An operation leaves a free entry. -/
def HasRoom (ht : LispHashTable K V) : TableOp K V → Prop
  | puthash key _ => (ht.toMap key).isSome ∨
      if ht.count + 1 ≥ ht.rehashCount then ht.count + 1 < ht.enlargedSize
      else ht.count + 1 < ht.size
  | resize newSize => ht.count < newSize
  | _ => True

end TableOp

/-! ## Each operation meets its specification when there is room -/

section Meets

variable {ops : LispOps K} {ht : LispHashTable K V}

omit [DecidableEq K] in
theorem resizeHashTable_sizes {ht' : LispHashTable K V} {newSize : Nat}
    (h : resizeHashTable ops ht newSize = some ht') :
    ht'.size = newSize ∧ ht'.count = ht.count := by
  rw [resizeHashTable, Option.map_eq_some_iff] at h
  obtain ⟨entries, -, rfl⟩ := h
  exact ⟨rfl, rfl⟩

theorem resize_valid {newSize : Nat} (hcompat : Compatible ops ht)
    (hcount : ht.count = (filled ht.size ht.hentries).card)
    (hapart : PairwiseApart ht.size (fun a b => ht.keysEqualP a.1 b.1 = true) ht.hentries)
    (hroom : ht.count < newSize) :
    ∃ ht', resizeHashTable ops ht newSize = some ht' ∧ Valid ops ht' ∧
      Compatible ops ht' ∧ ht'.keysEqualP = ht.keysEqualP ∧
      ∀ e, Holds ht'.size ht'.hentries e ↔ Holds ht.size ht.hentries e := by
  obtain ⟨ht', hres, rfl, hcnt, hhash, htest, -, -, -, hprobed, hholds, hcard, hsent, hap⟩ :=
    resizeHashTable_spec ops hcount hroom
  have hkeys : ht'.keysEqualP = ht.keysEqualP := by
    funext a b
    rw [LispHashTable.keysEqualP, LispHashTable.keysEqualP, htest]
  have hraw : ht'.rawHash ops = ht.rawHash ops := by
    funext a
    rw [LispHashTable.rawHash, LispHashTable.rawHash, hhash]
  refine ⟨ht', hres, ⟨hprobed, ?_, by rw [hcard, hcnt], by omega, hsent⟩, ⟨?_, ?_⟩, hkeys,
    hholds⟩
  · rw [hkeys]
    exact hap _ hapart
  · rw [hkeys]
    exact hcompat.equiv
  · rw [hkeys, hraw]
    exact hcompat.hash

theorem meets_puthash (h : Valid ops ht) (hcompat : Compatible ops ht) {key : K} {value : V}
    (hroom : (TableOp.puthash key value).HasRoom ht) :
    (TableOp.puthash key value).Meets ops ht := by
  obtain ⟨e, hfind, hstop⟩ := h.placed.find key
  have hmap := h.placed.toMap_of_find hcompat h.apart hstop
  cases he : ht.hentries e with
  | some a =>
    -- the value is overwritten, the old key stays
    have hkey : ht.keysEqualP a.1 key = true := by
      have := hstop.stops (occupied_iff.mpr (by rw [he]; simp))
      rwa [LispHashTable.atKey, keyAt, he] at this
    have hapart := h.apart.replace (b := (a.1, value)) he hstop.lt
      (fun _ hc => hc) (fun _ hc => hc)
    have hplaced := h.placed.overwrite hstop.lt he value
    have hvalid : Valid ops { ht with
        hentries := Function.update ht.hentries e (some (a.1, value)) } :=
      ⟨hplaced.probed, hapart, hplaced.count_eq, hplaced.count_lt, hplaced.sentinel⟩
    refine ⟨_, puthash_existing hfind he value, hvalid, ⟨hcompat.equiv, hcompat.hash⟩, rfl,
      toMap_put hcompat.equiv ?_ h.apart hvalid.apart hkey fun b => ?_⟩
    · rfl
    rw [← h.holds_ne_iff hcompat.equiv hstop.lt he hkey b]
    exact holds_replace hstop.lt
  | none =>
    have hnone : ht.toMap key = none := by rw [hmap, he]; rfl
    have habsent : ∀ b, Holds ht.size ht.hentries b → ht.keysEqualP b.1 key = false :=
      fun b hb => toMap_eq_none_iff.mp hnone b hb
    have hself : ht.keysEqualP key key = true := keysEqualP_of_eq ht rfl
    have hholds : ∀ b, Holds ht.size (ht.withEntry e key value).hentries b ↔
        b = (key, value) ∨
          (Holds ht.size ht.hentries b ∧ ht.keysEqualP b.1 key = false) := by
      intro b
      rw [holds_withEntry value hstop.lt he]
      exact or_congr_right ⟨fun hb => ⟨hb, habsent b hb⟩, fun hb => hb.1⟩
    have hapart := h.apart_withEntry value hcompat hstop he
    have hcount := h.placed.count_withEntry value hstop.lt he key
    have hcompat' : Compatible ops (ht.withEntry e key value) :=
      ⟨hcompat.equiv, hcompat.hash⟩
    simp only [TableOp.HasRoom, hnone, Option.isSome_none, Bool.false_eq_true,
      false_or] at hroom
    unfold TableOp.Meets TableOp.run
    simp only [puthash_new hfind he]
    split at hroom
    · obtain ⟨ht', hres, hvalid, hcompat'', hkeys, hholds'⟩ :=
        resize_valid hcompat' hcount hapart hroom
      refine ⟨ht', by rw [if_pos ‹_›]; exact hres, hvalid, hcompat'', hkeys, ?_⟩
      exact toMap_put hcompat.equiv hkeys h.apart hvalid.apart hself
        fun b => (hholds' b).trans (hholds b)
    · have hplaced := h.placed.withEntry value hstop he hroom
      have hvalid : Valid ops (ht.withEntry e key value) :=
        ⟨hplaced.probed, hapart, hplaced.count_eq, hplaced.count_lt, hplaced.sentinel⟩
      have hkeys : (ht.withEntry e key value).keysEqualP = ht.keysEqualP := rfl
      exact ⟨_, if_neg ‹_›, hvalid, hcompat', hkeys,
        toMap_put hcompat.equiv hkeys h.apart hvalid.apart hself hholds⟩

theorem meets_remhash (h : Valid ops ht) (hcompat : Compatible ops ht) (key : K) :
    (TableOp.remhash (V := V) key).Meets ops ht := by
  obtain ⟨e, hfind, hstop⟩ := h.placed.find key
  have hmap := h.placed.toMap_of_find hcompat h.apart hstop
  cases he : ht.hentries e with
  | none =>
    refine ⟨ht, by simp [TableOp.run, remhash, hfind, he], h, hcompat, rfl, ?_⟩
    funext k
    have hnone : ht.toMap key = none := by rw [hmap, he]; rfl
    show ht.toMap k = if ht.keysEqualP key k then none else ht.toMap k
    split
    · refine toMap_eq_none_iff.mpr fun b hb => ?_
      rw [← Bool.not_eq_true]
      intro hbk
      have := toMap_eq_none_iff.mp hnone b hb
      rw [hcompat.equiv.trans hbk (hcompat.equiv.symm ‹_›)] at this
      cases this
    · rfl
  | some a =>
    have hkey : ht.keysEqualP a.1 key = true := by
      have := hstop.stops (occupied_iff.mpr (by rw [he]; simp))
      rwa [LispHashTable.atKey, keyAt, he] at this
    obtain ⟨entries, hrem, hplaced, hholds, -, hapart⟩ := h.placed.remhash1 hstop.lt he
    have hvalid : Valid ops { ht with hentries := entries, count := ht.count - 1 } :=
      ⟨hplaced.probed, hapart _ h.apart, hplaced.count_eq, hplaced.count_lt,
        hplaced.sentinel⟩
    refine ⟨_, by simp [TableOp.run, remhash, hfind, he, hrem], hvalid,
      ⟨hcompat.equiv, hcompat.hash⟩, rfl,
      toMap_erase hcompat.equiv ?_ h.apart hvalid.apart fun b => ?_⟩
    · rfl
    rw [← h.holds_ne_iff hcompat.equiv hstop.lt he hkey b]
    exact hholds b

omit [DecidableEq K] in
theorem Placed.clrhash (h : Placed ops ht) : Placed ops (clrhash ht) := by
  have hclear : ∀ i < ht.size, (Elhash.clrhash ht).hentries i = none :=
    fun i hi => if_pos hi
  refine ⟨fun y hy a ha => ?_, fun i hi j hj a b ha => ?_, ?_, ?_, ?_⟩
  · rw [hclear y hy] at ha
    cases ha
  · rw [hclear i hi] at ha
    cases ha
  · refine (Finset.card_eq_zero.mpr (Finset.filter_eq_empty_iff.mpr fun j hj hocc => ?_)).symm
    exact occupied_iff.mp hocc (hclear j (Finset.mem_range.mp hj))
  · have := h.count_lt
    show 0 < ht.size
    omega
  · show (if ht.size < ht.size then none else ht.hentries ht.size) = none
    rw [if_neg (lt_irrefl _), h.sentinel]

theorem meets_clrhash (h : Valid ops ht) (hcompat : Compatible ops ht) :
    (TableOp.clrhash : TableOp K V).Meets ops ht := by
  have hclear : ∀ i < ht.size, (Elhash.clrhash ht).hentries i = none :=
    fun i hi => if_pos hi
  have hplaced := h.placed.clrhash
  refine ⟨clrhash ht, rfl, ⟨hplaced.probed, fun i hi j hj a b ha => ?_, hplaced.count_eq,
    hplaced.count_lt, hplaced.sentinel⟩, ⟨hcompat.equiv, hcompat.hash⟩, rfl, ?_⟩
  · rw [hclear i hi] at ha
    cases ha
  · funext k
    refine toMap_eq_none_iff.mpr fun b hb => ?_
    obtain ⟨i, hi, hb⟩ := hb
    rw [hclear i hi] at hb
    cases hb

theorem meets_resize (h : Valid ops ht) (hcompat : Compatible ops ht) {newSize : Nat}
    (hroom : ht.count < newSize) : (TableOp.resize newSize : TableOp K V).Meets ops ht := by
  obtain ⟨ht', hres, hvalid, hcompat', hkeys, hholds⟩ :=
    resize_valid hcompat h.count_eq h.apart hroom
  exact ⟨ht', hres, hvalid, hcompat', hkeys,
    toMap_congr hcompat.equiv hkeys h.apart hvalid.apart hholds⟩

theorem meets_pdumpReorganize (h : Valid ops ht) {loaded : LispOps K}
    {hashFunction : Option (K → Nat)}
    (hcompat : Compatible loaded { ht with hashFunction := hashFunction }) :
    (TableOp.pdumpReorganize (V := V) loaded hashFunction).Meets ops ht := by
  have hpos : 0 < ht.size := by
    have := h.count_lt
    omega
  set ht₀ : LispHashTable K V := { ht with hashFunction := hashFunction } with hht₀
  obtain ⟨entries, hre, hprobed, hholds, hcard, hsent, hapart⟩ :=
    reinsertAll_spec (ht₀.hashCode loaded) ht.size ht.size ht.hentries (fun k => Nat.mod_lt _ hpos)
      (h.count_eq ▸ h.count_lt)
  have hvalid : Valid loaded { ht₀ with hentries := entries } :=
    ⟨hprobed, hapart _ h.apart, h.count_eq.trans hcard.symm, h.count_lt, hsent⟩
  refine ⟨{ ht₀ with hentries := entries }, ?_, hvalid, ⟨hcompat.equiv, hcompat.hash⟩, rfl,
    toMap_congr (hcompat.equiv : Equivalence fun a b => ht.keysEqualP a b = true) ?_ h.apart
      hvalid.apart hholds⟩
  · show Option.map _ (reinsertAll (ht₀.hashCode loaded) ht.size ht.hentries ht.size) = _
    rw [hre]
    rfl
  · rfl

theorem hasRoom_of_meets_puthash (h : Valid ops ht) (hcompat : Compatible ops ht) {key : K}
    {value : V} (hmeets : (TableOp.puthash key value).Meets ops ht) :
    (TableOp.puthash key value).HasRoom ht := by
  obtain ⟨e, hfind, hstop⟩ := h.placed.find key
  obtain ⟨ht', hrun, hvalid, -⟩ := hmeets
  have hmap := h.placed.toMap_of_find hcompat h.apart hstop
  cases he : ht.hentries e with
  | some a =>
    refine Or.inl ?_
    rw [hmap, he]
    rfl
  | none =>
    refine Or.inr ?_
    have hlt : ht'.count < ht'.size := hvalid.count_lt
    rw [TableOp.run, puthash_new hfind he] at hrun
    split at hrun
    · obtain ⟨hsize, hcount⟩ := resizeHashTable_sizes hrun
      rw [hsize, hcount] at hlt
      rw [if_pos ‹_›]
      exact hlt
    · rw [Option.some.injEq] at hrun
      rw [if_neg ‹_›]
      rw [← hrun] at hlt
      exact hlt

end Meets

/-- **Hash tables are finite maps**, as long as an entry stays free: from a table
whose invariant holds, an operation meets its specification if and only if it has
room, and `gethash` returns the map's value or the default. -/
theorem meets_iff_hasRoom (ops : LispOps K) (ht : LispHashTable K V) (h : Valid ops ht)
    (hcompat : Compatible ops ht) :
    (∀ op : TableOp K V, Compatible (op.objects ops) (op.start ht) →
      (op.Meets ops ht ↔ op.HasRoom ht)) ∧
    ∀ key default, gethash ops key ht default = some ((ht.toMap key).getD default) := by
  refine ⟨fun op hcompat' => ?_, fun key default => gethash_eq h hcompat key default⟩
  cases op with
  | puthash key value =>
    exact ⟨hasRoom_of_meets_puthash h hcompat, meets_puthash h hcompat⟩
  | remhash key => exact ⟨fun _ => trivial, fun _ => meets_remhash h hcompat key⟩
  | clrhash => exact ⟨fun _ => trivial, fun _ => meets_clrhash h hcompat⟩
  | resize newSize =>
    refine ⟨?_, meets_resize h hcompat⟩
    rintro ⟨ht', hrun, hvalid, -⟩
    obtain ⟨hsize, hcount⟩ := resizeHashTable_sizes hrun
    have := hvalid.count_lt
    rw [hsize, hcount] at this
    exact this
  | pdumpReorganize loaded hashFunction =>
    exact ⟨fun _ => trivial, fun _ => meets_pdumpReorganize h hcompat'⟩

/-! ## A table that is filled up -/

/-- Fixnums as keys: the address word of `n` is its tagged representation. -/
def fixnumObjects : LispOps Nat where
  lispHash n := 2 * n + 1
  floatp _ := false
  internalEqual a b := a = b
  internalHash n := 2 * n + 1

/-- The table that `(make-hash-table :rehash-size 1.01)` gives after 28 fixnums
were put into it. Only entry 27 is free. -/
def crowded : LispHashTable Nat Unit where
  size := 29
  count := 28
  rehashCount := 17
  rehashSize := 101 / 100
  rehashThreshold := 6 / 10
  goldenRatio := 2
  hashFunction := none
  testFunction := none
  hentries i := if i < 29 ∧ i ≠ 27 then some (22 * (i + 27) % 29, ()) else none

theorem crowded_enlargedSize : crowded.enlargedSize = 29 := by decide +kernel

theorem crowded_compatible : Compatible fixnumObjects crowded := by
  have hkeys : ∀ a b, crowded.keysEqualP a b = true ↔ a = b := by
    intro a b
    simp [LispHashTable.keysEqualP, crowded]
  refine ⟨⟨fun a => (hkeys a a).mpr rfl, fun h => ?_, fun h h' => ?_⟩, fun a b h => ?_⟩
  · exact (hkeys _ _).mpr ((hkeys _ _).mp h).symm
  · exact (hkeys _ _).mpr (((hkeys _ _).mp h).trans ((hkeys _ _).mp h'))
  · rw [(hkeys a b).mp h]

theorem crowded_valid : Valid fixnumObjects crowded := by
  have hslot : ∀ y < 29, crowded.hashCode fixnumObjects (22 * (y + 27) % 29) = y := by
    decide
  have hcode : ∀ y < 29, ∀ a, crowded.hentries y = some a →
      crowded.hashCode fixnumObjects a.1 = y := by
    intro y hy a ha
    simp only [crowded, Option.ite_none_right_eq_some, Option.some.injEq] at ha
    rw [← ha.2]
    exact hslot y hy
  refine ⟨fun y hy a ha j _ hin => ?_, fun i hi j hj a b ha hb hab => ?_, ?_, ?_, ?_⟩
  · have hin : InCyc (crowded.hashCode fixnumObjects a.1) y j := hin
    rw [hcode y hy a ha, inCyc_iff] at hin
    omega
  · rw [← hcode i hi a ha, ← hcode j hj b hb, crowded_compatible.hashCode hab]
  · decide
  · decide
  · rfl

/-- One more fixnum fills the table. -/
theorem crowded_not_meets : Valid fixnumObjects crowded ∧
    Compatible fixnumObjects crowded ∧
    ¬ (TableOp.puthash 28 ()).Meets fixnumObjects crowded := by
  refine ⟨crowded_valid, crowded_compatible, fun hmeets => ?_⟩
  have hroom := hasRoom_of_meets_puthash crowded_valid crowded_compatible hmeets
  have hnone : crowded.toMap 28 = none := by decide
  rw [TableOp.HasRoom, hnone, crowded_enlargedSize] at hroom
  revert hroom
  decide

/-- The specification at the crowded table. -/
theorem crowded_meets_iff : (∀ op : TableOp Nat Unit,
    Compatible (op.objects fixnumObjects) (op.start crowded) →
      (op.Meets fixnumObjects crowded ↔ op.HasRoom crowded)) ∧
    ∀ key default, gethash fixnumObjects key crowded default
      = some ((crowded.toMap key).getD default) :=
  meets_iff_hasRoom fixnumObjects crowded crowded_valid crowded_compatible

end XEmacs.Elhash

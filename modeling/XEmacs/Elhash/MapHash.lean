import XEmacs.Elhash.MapRemhash
import XEmacs.Elhash.Operations

/-!
# Mapping a function that changes the entry it is called with

`maphash` allows FUNCTION to `remhash` or `puthash` the entry being processed, and for that looks
at a slot again when another key is in it after the call.
-/

namespace XEmacs.Elhash

open LinearProbing List Option

variable {K V σ : Type} [DecidableEq K]

/-- What FUNCTION does to the entry it is called with: `puthash`es that overwrite it, then
`remhash`es. After a `remhash`, a `puthash` would not overwrite. -/
structure Changes (V : Type) where
  puthashes : List V
  remhashes : Nat

/-- The changes of FUNCTION to the entry for `key`. -/
def Changes.run (ops : LispOps K) (key : K) (changes : Changes V) (ht : LispHashTable K V) :
    Option (LispHashTable K V) := do
  let ht ← changes.puthashes.foldlM (fun ht value => puthash ops key value ht) ht
  (List.replicate changes.remhashes ()).foldlM (fun ht _ => (remhash ops key ht).map Prod.snd) ht

/-- A call of FUNCTION: the slot the loop is at, the table before the call, the arguments, and
what FUNCTION does. -/
structure Call (K V : Type) where
  slot : Nat
  table : LispHashTable K V
  key : K
  value : V
  changes : Changes V

/-- A run of `maphash`: what else FUNCTION reads and writes, the table, and the calls so far. -/
structure MapState (σ K V : Type) where
  world : σ
  table : LispHashTable K V
  calls : List (Call K V)

/-- The body of the loop of `Fmaphash` at the slot `e`, with its `again:`. -/
def maphashSlot (ops : LispOps K) (function : σ → LispHashTable K V → K → V → σ × Changes V)
    (e : Nat) : Nat → MapState σ K V → Option (MapState σ K V)
  | 0, _ => none
  | fuel + 1, s =>
    match s.table.hentries e with
    | none => some s
    | some (key, value) => do
      let (world, changes) := function s.world s.table key value
      let ht ← changes.run ops key s.table
      let s := ⟨world, ht, s.calls ++ [⟨e, s.table, key, value, changes⟩]⟩
      match ht.hentries e with
      | some entry => if entry.1 ≠ key then maphashSlot ops function e fuel s else some s
      | none => some s

def maphash (ops : LispOps K) (function : σ → LispHashTable K V → K → V → σ × Changes V)
    (ht : LispHashTable K V) (world : σ) : Option (MapState σ K V) :=
  (List.range ht.size).foldlM (fun s e => maphashSlot ops function e (s.table.count + 1) s)
    ⟨world, ht, []⟩

/-! ### The keys of the array -/

/-- The keys of the entries. -/
def keyArray (entries : Nat → Option (K × V)) (j : Nat) : Option K := (entries j).map Prod.fst

omit [DecidableEq K] in
theorem keyArray_eq_some {entries : Nat → Option (K × V)} {j : Nat} {k : K} :
    keyArray entries j = some k ↔ ∃ a, entries j = some a ∧ a.1 = k :=
  map_eq_some_iff

omit [DecidableEq K] in
theorem walked_keyArray {code : K → Nat} {n t : Nat} {entries : Nat → Option (K × V)} :
    Walked n code (keyArray entries) t ↔ Walked n (fun e => code e.1) entries t := by
  constructor
  · rintro ⟨y, hy, k, hk, hin⟩
    obtain ⟨a, ha, rfl⟩ := keyArray_eq_some.mp hk
    exact ⟨y, hy, a, ha, hin⟩
  · rintro ⟨y, hy, a, ha, hin⟩
    exact ⟨y, hy, a.1, keyArray_eq_some.mpr ⟨a, ha, rfl⟩, hin⟩

omit [DecidableEq K] in
theorem holds_keyArray {n : Nat} {entries : Nat → Option (K × V)} {k : K} :
    Holds n (keyArray entries) k ↔ ∃ a, Holds n entries a ∧ a.1 = k := by
  constructor
  · rintro ⟨j, hj, hk⟩
    obtain ⟨a, ha, rfl⟩ := keyArray_eq_some.mp hk
    exact ⟨a, ⟨j, hj, ha⟩, rfl⟩
  · rintro ⟨a, ⟨j, hj, ha⟩, rfl⟩
    exact ⟨j, hj, keyArray_eq_some.mpr ⟨a, ha, rfl⟩⟩

variable {ops : LispOps K} {ht ht' : LispHashTable K V} {e : Nat}

omit [DecidableEq K] in
theorem Placed.slot_unique (h : Placed ops ht) {i j : Nat} (hi : i < ht.size) (hj : j < ht.size)
    {k : K} (hik : keyArray ht.hentries i = some k) (hjk : keyArray ht.hentries j = some k) :
    i = j := by
  obtain ⟨a, ha, rfl⟩ := keyArray_eq_some.mp hik
  obtain ⟨b, hb, hba⟩ := keyArray_eq_some.mp hjk
  exact h.eqApart i hi j hj a b ha hb hba.symm

/-- An array of keys after the deletion of the key in slot `e`. -/
structure Deletes (n e : Nat) (code : K → Nat) (keys keys' : Nat → Option K) (key : K) : Prop where
  holds : ∀ k, Holds n keys' k ↔ Holds n keys k ∧ k ≠ key
  refills : Refills n code e keys keys'

theorem Placed.deletes (h : Placed ops ht) (he : e < ht.size) {a : K × V}
    (ha : ht.hentries e = some a) :
    ∃ entries, Elhash.remhash1 ops ht e = some { ht with hentries := entries, count := ht.count - 1 } ∧
      (∀ r : K × V → K × V → Prop, PairwiseApart ht.size r ht.hentries →
        PairwiseApart ht.size r entries) ∧
      Placed ops { ht with hentries := entries, count := ht.count - 1 } ∧
      Deletes ht.size e (ht.hashCode ops) (keyArray ht.hentries) (keyArray entries) a.1 := by
  obtain ⟨entries, hrem, hplaced, hholds, hrefills, hapart⟩ := h.remhash1 he ha
  have hback : ∀ j < ht.size, ∀ b, entries j = some b → ∃ k < ht.size, k ≠ e ∧
      ht.hentries k = some b := fun j hj b hb => (hholds b).mp ⟨j, hj, hb⟩
  refine ⟨entries, hrem, hapart, hplaced, fun k => ?_, fun j hj k hk => ?_, ?_⟩
  · rw [holds_keyArray, holds_keyArray]
    constructor
    · rintro ⟨b, hb, rfl⟩
      obtain ⟨j, hj, hje, hb⟩ := (hholds b).mp hb
      exact ⟨⟨b, ⟨j, hj, hb⟩, rfl⟩, fun heq => hje (h.eqApart j hj e he b a hb ha heq)⟩
    · rintro ⟨⟨b, ⟨j, hj, hb⟩, rfl⟩, hne⟩
      refine ⟨b, (hholds b).mpr ⟨j, hj, ?_, hb⟩, rfl⟩
      rintro rfl
      rw [ha, Option.some.injEq] at hb
      exact hne (congrArg Prod.fst hb.symm)
  · obtain ⟨b, hb, rfl⟩ := keyArray_eq_some.mp hk
    obtain ⟨i, hi, hib⟩ := hrefills.fromBelow j hj b hb
    exact ⟨i, hi, keyArray_eq_some.mpr ⟨b, hib, rfl⟩⟩
  · simp only [walked_keyArray]
    refine Iff.trans ⟨fun hall j hj hej b hb => ?_, fun hall j hj hej k hk => ?_⟩
      hrefills.fromAbove_iff
    · obtain ⟨i, hi, hei, hik⟩ := hall j hj hej b.1 (keyArray_eq_some.mpr ⟨b, hb, rfl⟩)
      obtain ⟨m, hm, -, hmb⟩ := hback j hj b hb
      obtain rfl := h.slot_unique hi hm hik (keyArray_eq_some.mpr ⟨b, hmb, rfl⟩)
      exact ⟨i, hi, hei, hmb⟩
    · obtain ⟨b, hb, rfl⟩ := keyArray_eq_some.mp hk
      obtain ⟨i, hi, hei, hib⟩ := hall j hj hej b hb
      exact ⟨i, hi, hei, keyArray_eq_some.mpr ⟨b, hib, rfl⟩⟩

/-! ### The changes of a call -/

theorem Valid.find_entry (h : Valid ops ht) (he : e < ht.size) {a : K × V}
    (ha : ht.hentries e = some a) : findHentry ops a.1 ht = some e := by
  obtain ⟨r, hfind, hstop⟩ := h.placed.find a.1
  have hself : StopsAt (occupied ht.hentries) (ht.atKey a.1) ht.size (ht.hashCode ops a.1) e := by
    refine ⟨he, fun _ => ?_, fun j hj hin => ?_⟩
    · rw [LispHashTable.atKey, keyAt, ha]
      exact keysEqualP_of_eq ht rfl
    · have hoccupied := h.probed e he a ha j hj hin
      refine ⟨occupied_iff.mpr hoccupied, ?_⟩
      obtain ⟨b, hb⟩ := ne_none_iff_exists'.mp hoccupied
      rw [LispHashTable.atKey, keyAt, hb, ← Bool.not_eq_true]
      intro hequal
      have hje := h.apart j hj e he b a hb ha hequal
      rw [inCyc_iff] at hin
      omega
  rw [hfind, hstop.unique hself]

theorem Valid.remhash_absent (h : Valid ops ht) {key : K}
    (hno : ∀ b, Holds ht.size ht.hentries b → ht.keysEqualP b.1 key = false) :
    remhash ops key ht = some (false, ht) := by
  obtain ⟨r, hfind, hstop⟩ := h.placed.find key
  have hclear : ht.hentries r = none := by
    by_contra hne
    obtain ⟨b, hb⟩ := ne_none_iff_exists'.mp hne
    have hstops := hstop.stops (occupied_iff.mpr hne)
    rw [LispHashTable.atKey, keyAt, hb] at hstops
    simp only [hno b ⟨r, hstop.lt, hb⟩, Bool.false_eq_true] at hstops
  simp [remhash, hfind, hclear]

theorem Valid.overwrites (h : Valid ops ht) (he : e < ht.size) {key : K}
    (hkey : keyArray ht.hentries e = some key) (values : List V) :
    ∃ ht', values.foldlM (fun ht value => puthash ops key value ht) ht = some ht' ∧
      Valid ops ht' ∧ OtherEntries ht ht' ∧ ht'.count = ht.count ∧
      keyArray ht'.hentries = keyArray ht.hentries := by
  induction values generalizing ht with
  | nil => exact ⟨ht, rfl, h, .refl ht, rfl, rfl⟩
  | cons value values ih =>
    obtain ⟨a, ha, rfl⟩ := keyArray_eq_some.mp hkey
    have hput := puthash_existing (h.find_entry he ha) ha value
    have hplaced := h.placed.overwrite he ha value
    have hkeys : keyArray (Function.update ht.hentries e (some (a.1, value)))
        = keyArray ht.hentries := by
      funext j
      by_cases hje : j = e
      · rw [keyArray, keyArray, hje, Function.update_self, ha]
        rfl
      · rw [keyArray, keyArray, Function.update_of_ne hje]
    have hvalid : Valid ops { ht with
        hentries := Function.update ht.hentries e (some (a.1, value)) } :=
      ⟨hplaced.probed, h.apart.replace ha he (fun _ hc => hc) (fun _ hc => hc),
        hplaced.count_eq, hplaced.count_lt, hplaced.sentinel⟩
    obtain ⟨ht', hrun, hvalid', hother, hcount, hkeys'⟩ := ih hvalid he (hkeys.symm ▸ hkey)
    refine ⟨ht', ?_, hvalid', OtherEntries.trans ⟨_, _, rfl⟩ hother, hcount, hkeys'.trans hkeys⟩
    rw [foldlM_cons, hput]
    exact hrun

theorem Valid.remhashes_absent (h : Valid ops ht) {key : K}
    (hno : ∀ b, Holds ht.size ht.hentries b → ht.keysEqualP b.1 key = false) (m : Nat) :
    (List.replicate m ()).foldlM (fun ht _ => (remhash ops key ht).map Prod.snd) ht = some ht := by
  induction m with
  | zero => rfl
  | succ m ih =>
    rw [replicate_succ, foldlM_cons, h.remhash_absent hno]
    exact ih

/-- What a call at the slot `e` with `key` makes of the table. -/
structure Changed (ops : LispOps K) (e : Nat) (key : K) (remhashes : Nat)
    (ht ht' : LispHashTable K V) : Prop where
  valid : Valid ops ht'
  other : OtherEntries ht ht'
  kept : remhashes = 0 → ht'.count = ht.count ∧ keyArray ht'.hentries = keyArray ht.hentries
  removed : 0 < remhashes → ht'.count + 1 = ht.count ∧
    Deletes ht.size e (ht.hashCode ops) (keyArray ht.hentries) (keyArray ht'.hentries) key

theorem Valid.changes (h : Valid ops ht) (he : e < ht.size) {key : K}
    (hkey : keyArray ht.hentries e = some key) (changes : Changes V) :
    ∃ ht', changes.run ops key ht = some ht' ∧
      Changed ops e key changes.remhashes ht ht' := by
  obtain ⟨ht₁, hputs, hvalid, hother, hcount, hkeys⟩ := h.overwrites he hkey changes.puthashes
  unfold Changes.run
  rw [hputs]
  cases hm : changes.remhashes with
  | zero =>
    refine ⟨ht₁, rfl, hvalid, hother, fun _ => ⟨hcount, hkeys⟩, fun hpos => ?_⟩
    exact absurd hpos (lt_irrefl 0)
  | succ m =>
    obtain ⟨entries₁, count₁, rfl⟩ := hother
    obtain ⟨a, ha, rfl⟩ := keyArray_eq_some.mp (hkeys.symm ▸ hkey)
    have ha : entries₁ e = some a := ha
    have hpos : 0 < count₁ := by
      have hmem : e ∈ filled ht.size entries₁ := mem_filled.mpr ⟨he, by rw [ha]; simp⟩
      have hfilled := hvalid.count_eq
      simp only at hfilled
      rw [hfilled]
      exact Finset.card_pos.mpr ⟨e, hmem⟩
    obtain ⟨entries, hrem, hapart, hplaced, hdeletes⟩ := hvalid.placed.deletes he ha
    have hvalid' : Valid ops { ht with hentries := entries, count := count₁ - 1 } :=
      ⟨hplaced.probed, hapart _ hvalid.apart, hplaced.count_eq, hplaced.count_lt,
        hplaced.sentinel⟩
    have hremhash : remhash ops a.1 { ht with hentries := entries₁, count := count₁ }
        = some (true, { ht with hentries := entries, count := count₁ - 1 }) := by
      simp [remhash, hvalid.find_entry he ha, ha, hrem]
    have hno : ∀ b, Holds ht.size entries b → ht.keysEqualP b.1 a.1 = false := by
      intro b hb
      obtain ⟨⟨j, hj, hjb⟩, hne⟩ :=
        (hdeletes.holds b.1).mp (holds_keyArray.mpr ⟨b, hb, rfl⟩)
      rw [← Bool.not_eq_true]
      intro hequal
      -- of two entries with equal keys, both were in the slot `e`
      obtain ⟨c, hc, hcb⟩ := keyArray_eq_some.mp hjb
      have hc : entries₁ j = some c := hc
      have hequal : ht.keysEqualP c.1 a.1 = true := by
        rw [hcb]
        exact hequal
      have hje := hvalid.apart j hj e he c a hc ha hequal
      rw [hje, ha, Option.some.injEq] at hc
      exact hne (hc ▸ hcb.symm)
    refine ⟨_, ?_, hvalid', ⟨entries, count₁ - 1, rfl⟩, fun hz => absurd hz (Nat.succ_ne_zero m),
      fun _ => ⟨?_, ?_⟩⟩
    · rw [bind_eq_bind, bind_some, replicate_succ, foldlM_cons, hremhash]
      exact hvalid'.remhashes_absent hno m
    · show count₁ - 1 + 1 = ht.count
      simp only at hcount
      omega
    · rw [← hkeys]
      exact hdeletes

/-! ### The calls of a run -/

/-- If the call deletes its entry, the walk to some slot between this one and the end of the
array is broken: no entry comes around to the deleted one. -/
def Call.Stays (ops : LispOps K) (c : Call K V) : Prop :=
  0 < c.changes.remhashes → ∃ t, c.slot ≤ t ∧ t < c.table.size ∧
    ¬ Walked c.table.size (c.table.hashCode ops) (keyArray c.table.hentries) t

/-- A key that a loop at the slot `e` has not come to. -/
def Ahead (n e : Nat) (keys : Nat → Option K) (k : K) : Prop := ∃ j < n, e ≤ j ∧ keys j = some k

open Classical in
/-- The calls with a key, and one more if the key is ahead of the loop. -/
noncomputable def MapState.due (s : MapState σ K V) (e : Nat) (k : K) : Nat :=
  (s.calls.map Call.key).count k +
    if Ahead s.table.size e (keyArray s.table.hentries) k then 1 else 0

/-- What holds when the loop is at the slot `e`, for the table it started on. -/
structure Scan (ops : LispOps K) (ht : LispHashTable K V) (e : Nat) (s : MapState σ K V) :
    Prop where
  valid : Valid ops s.table
  other : OtherEntries ht s.table
  holds : ∀ k, Holds ht.size (keyArray s.table.hentries) k → Holds ht.size (keyArray ht.hentries) k
  least : ∀ k, Holds ht.size (keyArray ht.hentries) k → 1 ≤ s.due e k
  once : (∀ c ∈ s.calls, c.Stays ops) →
    ∀ k, Holds ht.size (keyArray ht.hentries) k → s.due e k = 1
  twice : (∃ c ∈ s.calls, ¬ c.Stays ops) →
    ∃ k, Holds ht.size (keyArray ht.hentries) k ∧ 2 ≤ s.due e k

section Scan

variable {s s' : MapState σ K V} {c : Call K V}

omit [DecidableEq K] in
theorem OtherEntries.size_eq (h : OtherEntries ht ht') : ht'.size = ht.size := by
  obtain ⟨entries, count, rfl⟩ := h
  rfl

theorem Scan.after (h : Scan ops ht e s) {e' : Nat} (hvalid : Valid ops s'.table)
    (hother : OtherEntries s.table s'.table) (hcalls : s'.calls = s.calls ++ [c])
    (hstays : c.Stays ops)
    (hholds : ∀ k, Holds ht.size (keyArray s'.table.hentries) k →
      Holds ht.size (keyArray s.table.hentries) k)
    (hdue : ∀ k, s'.due e' k = s.due e k) : Scan ops ht e' s' where
  valid := hvalid
  other := h.other.trans hother
  holds k hk := h.holds k (hholds k hk)
  least k hk := (hdue k).symm ▸ h.least k hk
  once hall k hk := by
    rw [hdue]
    refine h.once (fun d hd => hall d ?_) k hk
    rw [hcalls]
    exact mem_append_left _ hd
  twice := by
    rintro ⟨d, hd, hnot⟩
    rw [hcalls, mem_append, mem_singleton] at hd
    obtain hd | rfl := hd
    · obtain ⟨k, hk, htwo⟩ := h.twice ⟨d, hd, hnot⟩
      exact ⟨k, hk, (hdue k).symm ▸ htwo⟩
    · exact absurd hstays hnot

theorem Scan.next (h : Scan ops ht e s) (hclear : s.table.hentries e = none) :
    Scan ops ht (e + 1) s := by
  classical
  have hdue : ∀ k, s.due (e + 1) k = s.due e k := by
    intro k
    have hahead : Ahead s.table.size (e + 1) (keyArray s.table.hentries) k ↔
        Ahead s.table.size e (keyArray s.table.hentries) k := by
      refine exists_congr fun j => and_congr_right fun hj => ?_
      refine ⟨fun ⟨hle, hk⟩ => ⟨Nat.le_of_succ_le hle, hk⟩, fun ⟨hle, hk⟩ => ⟨?_, hk⟩⟩
      refine Nat.lt_of_le_of_ne hle ?_
      rintro rfl
      rw [keyArray, hclear] at hk
      cases hk
    simp only [MapState.due, hahead]
  refine ⟨h.valid, h.other, h.holds, fun k hk => ?_, fun hall k hk => ?_, fun hsome => ?_⟩
  · rw [hdue]
    exact h.least k hk
  · rw [hdue]
    exact h.once hall k hk
  · obtain ⟨k, hk, htwo⟩ := h.twice hsome
    exact ⟨k, hk, (hdue k).symm ▸ htwo⟩

theorem due_call (hcalls : s'.calls = s.calls ++ [c]) (e' : Nat) (k : K)
    [Decidable (Ahead s'.table.size e' (keyArray s'.table.hentries) k)] :
    s'.due e' k = (s.calls.map Call.key).count k + (if c.key = k then 1 else 0) +
      if Ahead s'.table.size e' (keyArray s'.table.hentries) k then 1 else 0 := by
  rw [MapState.due, hcalls, map_append, count_append]
  congr 2
  · simp [count_singleton, beq_iff_eq]

theorem Scan.kept (h : Scan ops ht e s) (s' : MapState σ K V) (c : Call K V) (he : e < ht.size)
    (hkey : keyArray s.table.hentries e = some c.key) (hcalls : s'.calls = s.calls ++ [c])
    (hzero : c.changes.remhashes = 0) (hvalid : Valid ops s'.table)
    (hother : OtherEntries s.table s'.table)
    (hkeys : keyArray s'.table.hentries = keyArray s.table.hentries) :
    Scan ops ht (e + 1) s' := by
  classical
  have hsize := h.other.size_eq
  have hsize' := hother.size_eq
  refine h.after hvalid hother hcalls (fun hpos => absurd hzero hpos.ne')
    (fun k hk => hkeys ▸ hk) fun k => ?_
  rw [due_call hcalls, MapState.due, hkeys, hsize']
  by_cases hk : c.key = k
  · subst hk
    have hahead : Ahead s.table.size e (keyArray s.table.hentries) c.key :=
      ⟨e, hsize.symm ▸ he, Nat.le_refl e, hkey⟩
    have hnot : ¬ Ahead s.table.size (e + 1) (keyArray s.table.hentries) c.key := by
      rintro ⟨j, hj, hle, hjk⟩
      have := h.valid.placed.slot_unique hj (hsize.symm ▸ he) hjk hkey
      omega
    rw [if_pos rfl, if_neg hnot, if_pos hahead]
  · have hahead : Ahead s.table.size (e + 1) (keyArray s.table.hentries) k ↔
        Ahead s.table.size e (keyArray s.table.hentries) k := by
      refine exists_congr fun j => and_congr_right fun hj => ?_
      refine ⟨fun ⟨hle, hjk⟩ => ⟨Nat.le_of_succ_le hle, hjk⟩, fun ⟨hle, hjk⟩ => ⟨?_, hjk⟩⟩
      refine Nat.lt_of_le_of_ne hle ?_
      rintro rfl
      rw [hkey, Option.some.injEq] at hjk
      exact hk hjk
    simp only [if_neg hk, hahead, Nat.add_zero]

/-- A call that deletes the entry: the loop looks at the slot again. -/
theorem Scan.removed (h : Scan ops ht e s) (s' : MapState σ K V) (c : Call K V) (he : e < ht.size)
    (hkey : keyArray s.table.hentries e = some c.key) (hcalls : s'.calls = s.calls ++ [c])
    (hslot : c.slot = e) (htable : c.table = s.table) (hpos : 0 < c.changes.remhashes)
    (hvalid : Valid ops s'.table) (hother : OtherEntries s.table s'.table)
    (hdeletes : Deletes s.table.size e (s.table.hashCode ops) (keyArray s.table.hentries)
      (keyArray s'.table.hentries) c.key) : Scan ops ht e s' := by
  classical
  have hsize := h.other.size_eq
  have hsize' := hother.size_eq
  have hes : e < s.table.size := hsize.symm ▸ he
  have hsub : ∀ k, Holds ht.size (keyArray s'.table.hentries) k →
      Holds ht.size (keyArray s.table.hentries) k := by
    intro k hk
    rw [← hsize] at hk ⊢
    exact ((hdeletes.holds k).mp hk).1
  have hkeyAhead : Ahead s.table.size e (keyArray s.table.hentries) c.key :=
    ⟨e, hes, Nat.le_refl e, hkey⟩
  have hkeyGone : ¬ Ahead s.table.size e (keyArray s'.table.hentries) c.key := by
    rintro ⟨j, hj, -, hjk⟩
    exact ((hdeletes.holds c.key).mp ⟨j, hj, hjk⟩).2 rfl
  -- what is ahead stays there
  have hahead : ∀ k, k ≠ c.key → Ahead s.table.size e (keyArray s.table.hentries) k →
      Ahead s.table.size e (keyArray s'.table.hentries) k := by
    rintro k hne ⟨j, hj, hle, hjk⟩
    obtain ⟨m, hm, hmk⟩ := (hdeletes.holds k).mpr ⟨⟨j, hj, hjk⟩, hne⟩
    refine ⟨m, hm, ?_, hmk⟩
    by_contra hlt
    obtain ⟨i, hi, hik⟩ := hdeletes.refills.fromBelow m (Nat.lt_of_not_le hlt) k hmk
    have := h.valid.placed.slot_unique hj (by omega) hjk hik
    omega
  have hmono : ∀ k, s.due e k ≤ s'.due e k := by
    intro k
    rw [due_call hcalls, MapState.due, hsize']
    by_cases hk : c.key = k
    · subst hk
      rw [if_pos hkeyAhead, if_pos rfl]
      exact Nat.le_add_right _ _
    · rw [if_neg hk]
      by_cases ha : Ahead s.table.size e (keyArray s.table.hentries) k
      · rw [if_pos ha, if_pos (hahead k (Ne.symm hk) ha)]
      · rw [if_neg ha]
        omega
  have hstays : c.Stays ops ↔
      FromAbove s.table.size e (keyArray s.table.hentries) (keyArray s'.table.hentries) := by
    rw [hdeletes.refills.fromAbove_iff, Call.Stays, hslot, htable]
    exact ⟨fun hc => hc hpos, fun hc _ => hc⟩
  by_cases hc : c.Stays ops
  · refine h.after hvalid hother hcalls hc hsub fun k => ?_
    rw [due_call hcalls, MapState.due, hsize']
    by_cases hk : c.key = k
    · subst hk
      rw [if_pos rfl, if_neg hkeyGone, if_pos hkeyAhead]
    · have hiff : Ahead s.table.size e (keyArray s'.table.hentries) k ↔
          Ahead s.table.size e (keyArray s.table.hentries) k := by
        refine ⟨?_, hahead k (Ne.symm hk)⟩
        rintro ⟨j, hj, hle, hjk⟩
        exact hstays.mp hc j hj hle k hjk
      simp only [if_neg hk, hiff, Nat.add_zero]
  · -- a key from before the slot is ahead of the loop again
    have hbad : ¬ FromAbove s.table.size e (keyArray s.table.hentries)
        (keyArray s'.table.hentries) := fun hall => hc (hstays.mpr hall)
    unfold FromAbove at hbad
    push Not at hbad
    obtain ⟨j, hj, hle, k, hjk, hnone⟩ := hbad
    have hk := (hdeletes.holds k).mp ⟨j, hj, hjk⟩
    have hk₀ := h.holds k (hsize ▸ hk.1)
    have hnot : ¬ Ahead s.table.size e (keyArray s.table.hentries) k := by
      rintro ⟨i, hi, hei, hik⟩
      exact hnone i hi hei hik
    have hnow : Ahead s.table.size e (keyArray s'.table.hentries) k := ⟨j, hj, hle, hjk⟩
    have htwo : 2 ≤ s'.due e k := by
      have hone := h.least k hk₀
      rw [MapState.due, if_neg hnot] at hone
      rw [due_call hcalls, hsize', if_pos hnow]
      omega
    refine ⟨hvalid, h.other.trans hother, fun k hk => h.holds k (hsub k hk),
      fun k hk => (h.least k hk).trans (hmono k), fun hall => absurd (hall c ?_) hc,
      fun _ => ⟨k, hk₀, htwo⟩⟩
    rw [hcalls]
    exact mem_append_right _ (mem_singleton_self c)

theorem Scan.slot (function : σ → LispHashTable K V → K → V → σ × Changes V)
    (h : Scan ops ht e s) (he : e < ht.size) {fuel : Nat} (hfuel : s.table.count < fuel) :
    ∃ s', maphashSlot ops function e fuel s = some s' ∧ Scan ops ht (e + 1) s' := by
  induction fuel generalizing s with
  | zero => exact absurd hfuel (Nat.not_lt_zero _)
  | succ fuel ih =>
    have hes : e < s.table.size := h.other.size_eq.symm ▸ he
    rw [maphashSlot]
    cases hentry : s.table.hentries e with
    | none => exact ⟨s, rfl, h.next hentry⟩
    | some entry =>
      obtain ⟨key, value⟩ := entry
      have hkey : keyArray s.table.hentries e = some key := keyArray_eq_some.mpr ⟨_, hentry, rfl⟩
      obtain ⟨ht₁, hrun, hvalid, hother, hkept, hremoved⟩ :=
        h.valid.changes hes hkey (function s.world s.table key value).2
      simp only [hrun, bind_eq_bind, bind_some]
      obtain hzero | hpos := Nat.eq_zero_or_pos (function s.world s.table key value).2.remhashes
      · obtain ⟨-, hkeys⟩ := hkept hzero
        have hkept := h.kept ⟨(function s.world s.table key value).1, ht₁, _⟩
          ⟨e, s.table, key, value, _⟩ he hkey rfl hzero hvalid hother hkeys
        obtain ⟨a, ha, hak⟩ := keyArray_eq_some.mp ((congrFun hkeys e).trans hkey)
        rw [ha]
        simp only [hak, ne_eq, not_true_eq_false, if_false]
        exact ⟨_, rfl, hkept⟩
      · obtain ⟨hcount, hdeletes⟩ := hremoved hpos
        have hagain := h.removed ⟨(function s.world s.table key value).1, ht₁, _⟩
          ⟨e, s.table, key, value, _⟩ he hkey rfl rfl rfl hpos hvalid hother hdeletes
        cases hnow : ht₁.hentries e with
        | none => exact ⟨_, rfl, hagain.next hnow⟩
        | some a =>
          have hne : a.1 ≠ key := by
            refine ((hdeletes.holds a.1).mp ⟨e, hes, ?_⟩).2
            exact keyArray_eq_some.mpr ⟨a, hnow, rfl⟩
          simp only [if_pos hne]
          exact ih hagain (by simp only; omega)

end Scan

/-- **`maphash` passes every key once** if and only if no call deletes an entry that an entry
from before it comes around to. -/
theorem maphash_once_iff (ops : LispOps K) (ht : LispHashTable K V) (h : Valid ops ht)
    (function : σ → LispHashTable K V → K → V → σ × Changes V) (world : σ) :
    ∃ s, maphash ops function ht world = some s ∧
      ((∀ b ∈ ht.entryList, (s.calls.map Call.key).count b.1 = 1) ↔
        ∀ c ∈ s.calls, c.Stays ops) := by
  classical
  have hstart : Scan ops ht 0 ⟨world, ht, ([] : List (Call K V))⟩ := by
    have hdue : ∀ k, Holds ht.size (keyArray ht.hentries) k →
        MapState.due ⟨world, ht, ([] : List (Call K V))⟩ 0 k = 1 := by
      rintro k ⟨j, hj, hjk⟩
      rw [MapState.due, if_pos ⟨j, hj, Nat.zero_le j, hjk⟩]
      rfl
    exact ⟨h, .refl ht, fun _ => id, fun k hk => (hdue k hk).ge, fun _ => hdue,
      fun ⟨c, hc, _⟩ => absurd hc List.not_mem_nil⟩
  have hloop : ∀ k ≤ ht.size, ∃ s, (List.range k).foldlM
      (fun s e => maphashSlot ops function e (s.table.count + 1) s)
        (⟨world, ht, []⟩ : MapState σ K V) = some s ∧ Scan ops ht k s := by
    intro k hk
    induction k with
    | zero => exact ⟨_, rfl, hstart⟩
    | succ k ih =>
      obtain ⟨s₁, hrun, h₁⟩ := ih (Nat.le_of_succ_le hk)
      obtain ⟨s₂, hslot, h₂⟩ := h₁.slot function hk (Nat.lt_succ_self _)
      refine ⟨s₂, ?_, h₂⟩
      rw [List.range_succ, List.foldlM_append, hrun]
      simp only [List.foldlM_cons, List.foldlM_nil, bind_pure]
      exact hslot
  obtain ⟨s, hrun, hscan⟩ := hloop ht.size (Nat.le_refl _)
  have hdue : ∀ k, s.due ht.size k = (s.calls.map Call.key).count k := by
    intro k
    refine (congrArg _ (if_neg ?_)).trans (Nat.add_zero _)
    rintro ⟨j, hj, hle, -⟩
    rw [hscan.other.size_eq] at hj
    omega
  have hholds : ∀ k, Holds ht.size (keyArray ht.hentries) k ↔ ∃ b ∈ ht.entryList, b.1 = k := by
    intro k
    rw [holds_keyArray]
    simp only [LispHashTable.mem_entryList]
  refine ⟨s, hrun, fun hall => ?_, fun hall b hb => ?_⟩
  · by_contra hnot
    push Not at hnot
    obtain ⟨k, hk, htwo⟩ := hscan.twice hnot
    obtain ⟨b, hb, rfl⟩ := (hholds k).mp hk
    rw [hdue, hall b hb] at htwo
    omega
  · rw [← hdue]
    exact hscan.once hall b.1 ((hholds b.1).mpr ⟨b, hb, rfl⟩)

/-! ### An entry that comes around -/

/-- The table of `(make-hash-table)` after `(puthash 21 nil table)` and `(puthash 50 nil table)`:
both keys hash to the last slot, and the second has gone on to the first one. -/
def twoRound : LispHashTable Nat Unit where
  size := 29
  count := 2
  rehashCount := 17
  rehashSize := 13 / 10
  rehashThreshold := 6 / 10
  goldenRatio := 2
  hashFunction := none
  testFunction := none
  hentries i := if i = 28 then some (21, ()) else if i = 0 then some (50, ()) else none

/-- `(lambda (key value) (if (eq key 21) (remhash key table)))`. -/
def removes21 (_ : Unit) (_ : LispHashTable Nat Unit) (key : Nat) (_ : Unit) :
    Unit × Changes Unit :=
  ((), ⟨[], if key = 21 then 1 else 0⟩)

theorem twoRound_valid : Valid fixnumObjects twoRound := by
  have hslot : ∀ {y a}, twoRound.hentries y = some a →
      (y = 28 ∧ a = (21, ())) ∨ (y = 0 ∧ a = (50, ())) := by
    intro y a ha
    simp only [twoRound] at ha
    split at ha
    · rename_i hy
      exact .inl ⟨hy, (Option.some.inj ha).symm⟩
    · split at ha
      · rename_i hy
        exact .inr ⟨hy, (Option.some.inj ha).symm⟩
      · cases ha
  have hkeys : ∀ a b, twoRound.keysEqualP a b = true → a = b := by
    intro a b hab
    simpa [LispHashTable.keysEqualP, twoRound] using hab
  refine ⟨fun y hy a ha j hj hin => ?_, fun i hi j hj a b ha hb hab => ?_, ?_, ?_, ?_⟩
  · have hj : j < 29 := hj
    have hin : InCyc 28 y j := by
      obtain ⟨-, rfl⟩ | ⟨-, rfl⟩ := hslot ha
      · exact hin
      · exact hin
    rw [inCyc_iff] at hin
    obtain ⟨rfl, -⟩ | ⟨rfl, -⟩ := hslot ha
    · omega
    · obtain rfl : j = 28 := by omega
      decide
  · have hab := hkeys _ _ hab
    obtain ⟨rfl, rfl⟩ | ⟨rfl, rfl⟩ := hslot ha
    · obtain ⟨rfl, -⟩ | ⟨-, rfl⟩ := hslot hb
      · rfl
      · cases hab
    · obtain ⟨-, rfl⟩ | ⟨rfl, -⟩ := hslot hb
      · cases hab
      · rfl
  · decide
  · decide
  · rfl

/-- The key 50 is passed first, and again when the deletion of 21 has brought it to the last
slot. -/
theorem twoRound_not_once : Valid fixnumObjects twoRound ∧
    (maphash fixnumObjects removes21 twoRound ()).map (fun s => s.calls.map Call.key)
      = some [50, 21, 50] ∧
    ¬ ∃ s, maphash fixnumObjects removes21 twoRound () = some s ∧
      ∀ b ∈ twoRound.entryList, (s.calls.map Call.key).count b.1 = 1 := by
  have hrun : (maphash fixnumObjects removes21 twoRound ()).map (fun s => s.calls.map Call.key)
      = some [50, 21, 50] := by
    decide
  refine ⟨twoRound_valid, hrun, ?_⟩
  rintro ⟨s, hs, hall⟩
  rw [hs, Option.map_some, Option.some.injEq] at hrun
  have htwo := hall (50, ()) (by decide)
  rw [hrun] at htwo
  exact absurd htwo (by decide)

theorem twoRound_once_iff : ∃ s, maphash fixnumObjects removes21 twoRound () = some s ∧
    ((∀ b ∈ twoRound.entryList, (s.calls.map Call.key).count b.1 = 1) ↔
      ∀ c ∈ s.calls, c.Stays fixnumObjects) :=
  maphash_once_iff fixnumObjects twoRound twoRound_valid removes21 ()

end XEmacs.Elhash

import XEmacs.Keymap.Keymaps

/-!
# What a store changes

`keymap_store_internal` fills caches while it checks for a loop, then edits one table
and one inverse table. Whatever the inverse tables hold, it changes one binding or
nothing.
-/

namespace XEmacs.Keymap

open Commands ConsLists

/-- Two states differ in inverse tables and conses only. -/
structure SameTables (s s' : Keymaps) : Prop where
  next : s'.next = s.next
  parents : ∀ m, (s'.map m).parents = (s.map m).parents
  table : ∀ m, (s'.map m).table = (s.map m).table
  cache : ∀ m, (s'.map m).subMapsCache = (s.map m).subMapsCache

theorem SameTables.refl (s : Keymaps) : SameTables s s :=
  ⟨rfl, fun _ => rfl, fun _ => rfl, fun _ => rfl⟩

theorem SameTables.trans {s s' s'' : Keymaps} (h : SameTables s s')
    (h' : SameTables s' s'') : SameTables s s'' where
  next := h'.next.trans h.next
  parents m := (h'.parents m).trans (h.parents m)
  table m := (h'.table m).trans (h.table m)
  cache m := (h'.cache m).trans (h.cache m)

theorem SameTables.update {s : Keymaps} (c : Cells Key) (m : Nat)
    (f : LispKeymap → LispKeymap) (hp : ∀ k, (f k).parents = k.parents)
    (ht : ∀ k, (f k).table = k.table) (hc : ∀ k, (f k).subMapsCache = k.subMapsCache) :
    SameTables s ((s.setCells c).update m f) := by
  refine ⟨rfl, fun x => ?_, fun x => ?_, fun x => ?_⟩ <;> rw [Keymaps.map_update] <;>
    split
  · next h => rw [hp, h, Keymaps.map_setCells]
  · rfl
  · next h => rw [ht, h, Keymaps.map_setCells]
  · rfl
  · next h => rw [hc, h, Keymaps.map_setCells]
  · rfl

theorem SameTables.putInverse (s : Keymaps) (c : Cells Key) (m : Nat) (d : Def)
    (r : Ref Key) : SameTables s ((s.setCells c).putInverse m d r) :=
  SameTables.update c m _ (fun _ => rfl) (fun _ => rfl) (fun _ => rfl)

theorem SameTables.remInverse (s : Keymaps) (c : Cells Key) (m : Nat) (d : Def) :
    SameTables s ((s.setCells c).remInverse m d) :=
  SameTables.update c m _ (fun _ => rfl) (fun _ => rfl) (fun _ => rfl)

/-! ### One binding -/

/-- A table after `key` has been bound to `d`, or unbound. -/
def bound (t : AList fun _ : Key => Def) (k : Key) (d : Def) : AList fun _ : Key => Def :=
  if d = .nil then t.erase k else t.insert k d

theorem lookup_bound_self (t : AList fun _ : Key => Def) (k : Key) (d : Def) :
    (bound t k d).lookup k = if d = .nil then none else some d := by
  unfold bound
  split
  · exact AList.lookup_erase k t
  · exact AList.lookup_insert t

theorem lookup_bound_of_ne (t : AList fun _ : Key => Def) {k k' : Key} (d : Def)
    (h : k' ≠ k) : (bound t k d).lookup k' = t.lookup k' := by
  unfold bound
  split
  · exact AList.lookup_erase_ne h
  · exact AList.lookup_insert_ne h

/-- A store has bound `k` in the keymap `m`; it may have filled caches. -/
structure Binds (s s' : Keymaps) (m : Nat) (k : Key) (d : Def) : Prop where
  next : s'.next = s.next
  parents : ∀ x, (s'.map x).parents = (s.map x).parents
  table_self : (s'.map m).table = bound (s.map m).table k d
  table_other : ∀ x, x ≠ m → (s'.map x).table = (s.map x).table
  cache : ∀ x, (s'.map x).subMapsCache = (s.map x).subMapsCache ∨
    (s.map x).subMapsCache = none ∧ ∃ maps, (s'.map x).subMapsCache = some maps ∧
      maps.Perm (submapEntries (s.map x).table)
  cache_self : (s'.map m).subMapsCache = (s.map m).subMapsCache

theorem Binds.of_bound {s : Keymaps} {m : Nat} {k : Key} {d : Def} :
    Binds s (s.update m fun x => { x with table := bound x.table k d }) m k d := by
  refine ⟨rfl, fun x => ?_, ?_, fun x hx => ?_, fun x => .inl ?_, ?_⟩
  · rw [Keymaps.map_update]
    split
    · next h => rw [h]
    · rfl
  · rw [Keymaps.map_update, if_pos rfl]
  · rw [Keymaps.map_update, if_neg hx]
  · rw [Keymaps.map_update]
    split
    · next h => rw [h]
    · rfl
  · rw [Keymaps.map_update, if_pos rfl]

theorem Binds.same {s s' s'' : Keymaps} {m : Nat} {k : Key} {d : Def}
    (h : Binds s s' m k d) (h' : SameTables s' s'') : Binds s s'' m k d where
  next := h'.next.trans h.next
  parents x := (h'.parents x).trans (h.parents x)
  table_self := (h'.table m).trans h.table_self
  table_other x hx := (h'.table x).trans (h.table_other x hx)
  cache x := by
    rw [h'.cache x]
    exact h.cache x
  cache_self := (h'.cache m).trans h.cache_self

theorem SameTables.binds {s s' s'' : Keymaps} {m : Nat} {k : Key} {d : Def}
    (h : SameTables s s') (h' : Binds s' s'' m k d) : Binds s s'' m k d where
  next := h'.next.trans h.next
  parents x := (h'.parents x).trans (h.parents x)
  table_self := by rw [h'.table_self, h.table m]
  table_other x hx := (h'.table_other x hx).trans (h.table x)
  cache x := by
    rw [← h.cache x, ← h.table x]
    exact h'.cache x
  cache_self := h'.cache_self.trans (h.cache m)

theorem Filled.binds {s s' s'' : Keymaps} {m : Nat} {k : Key} {d : Def}
    (h : Filled s s') (hself : (s'.map m).subMapsCache = (s.map m).subMapsCache)
    (h' : Binds s' s'' m k d) : Binds s s'' m k d where
  cache_self := h'.cache_self.trans hself
  next := h'.next.trans h.next
  parents x := (h'.parents x).trans (h.parents x)
  table_self := by rw [h'.table_self, h.table m]
  table_other x hx := (h'.table_other x hx).trans (h.table x)
  cache x := by
    rcases h.cache x with heq | ⟨hnone, maps, hmaps, hperm⟩
    · rw [← heq, ← h.table x]
      exact h'.cache x
    · refine .inr ⟨hnone, maps, ?_, hperm⟩
      rcases h'.cache x with heq' | ⟨hnone', -⟩
      · exact heq'.trans hmaps
      · rw [hmaps] at hnone'
        cases hnone'

theorem Binds.lookup_self {s s' : Keymaps} {m : Nat} {k : Key} {d : Def}
    (h : Binds s s' m k d) :
    (s'.map m).table.lookup k = if d = .nil then none else some d := by
  rw [h.table_self, lookup_bound_self]

theorem Binds.lookup_of_ne {s s' : Keymaps} {m : Nat} {k : Key} {d : Def}
    (h : Binds s s' m k d) (x : Nat) {k' : Key} (hk : k' ≠ k) :
    (s'.map x).table.lookup k' = (s.map x).table.lookup k' := by
  by_cases hx : x = m
  · rw [hx, h.table_self, lookup_bound_of_ne _ _ hk]
  · rw [h.table_other x hx]

/-! ### Well-formed states -/

/-- The keymaps a binding refers to exist. -/
def Def.live (next : Nat) : Def → Bool
  | .keymap k => k < next
  | .item _ d => d.live next
  | _ => true

theorem Def.live_mono {n n' : Nat} (h : n ≤ n') {d : Def} (hd : d.live n = true) :
    d.live n' = true := by
  induction d with
  | nil => rfl
  | command i => rfl
  | keymap k => exact decide_eq_true (Nat.lt_of_lt_of_le (of_decide_eq_true hd) h)
  | item i d ih => exact ih hd

/-- What refers to keymaps refers to keymaps that exist; no key is bound to nil, and
keymaps that do not exist are empty. -/
structure WellFormed (s : Keymaps) : Prop where
  live : ∀ m k d, (s.map m).table.lookup k = some d → d.live s.next = true
  parents : ∀ m, ∀ p ∈ (s.map m).parents, p < s.next
  bound : ∀ m k, (s.map m).table.lookup k ≠ some .nil
  fresh : ∀ m, s.next ≤ m → (s.map m).table = ∅

theorem WellFormed.filled {s s' : Keymaps} (h : WellFormed s) (hs : Filled s s') :
    WellFormed s' where
  live m k d hk := by
    rw [hs.table m] at hk
    rw [hs.next]
    exact h.live m k d hk
  parents m p hp := by
    rw [hs.parents m] at hp
    rw [hs.next]
    exact h.parents m p hp
  bound m k := by
    rw [hs.table m]
    exact h.bound m k
  fresh m hm := by
    rw [hs.next] at hm
    rw [hs.table m]
    exact h.fresh m hm

theorem WellFormed.same {s s' : Keymaps} (h : WellFormed s) (hs : SameTables s s') :
    WellFormed s' where
  live m k d hk := by
    rw [hs.table m] at hk
    rw [hs.next]
    exact h.live m k d hk
  parents m p hp := by
    rw [hs.parents m] at hp
    rw [hs.next]
    exact h.parents m p hp
  bound m k := by
    rw [hs.table m]
    exact h.bound m k
  fresh m hm := by
    rw [hs.next] at hm
    rw [hs.table m]
    exact h.fresh m hm

theorem WellFormed.binds {s s' : Keymaps} {m : Nat} {k : Key} {d : Def}
    (h : WellFormed s) (hs : Binds s s' m k d) (hm : m < s.next)
    (hd : d.live s.next = true) : WellFormed s' where
  live x k' d' hk := by
    rw [hs.next]
    by_cases hkk : k' = k
    · by_cases hx : x = m
      · rw [hkk, hx, hs.lookup_self] at hk
        split at hk
        · cases hk
        · cases hk
          exact hd
      · rw [hs.table_other x hx] at hk
        exact h.live x k' d' hk
    · rw [hs.lookup_of_ne x hkk] at hk
      exact h.live x k' d' hk
  parents x p hp := by
    rw [hs.parents x] at hp
    rw [hs.next]
    exact h.parents x p hp
  bound x k' hk := by
    by_cases hkk : k' = k
    · by_cases hx : x = m
      · rw [hkk, hx, hs.lookup_self] at hk
        split at hk
        · cases hk
        · next hd' => exact hd' (Option.some.inj hk)
      · rw [hs.table_other x hx] at hk
        exact h.bound x k' hk
    · rw [hs.lookup_of_ne x hkk] at hk
      exact h.bound x k' hk
  fresh x hx := by
    rw [hs.next] at hx
    rw [hs.table_other x (fun h => absurd hm (Nat.not_lt.mpr (h ▸ hx)))]
    exact h.fresh x hx

theorem WellFormed.newKeymap {s : Keymaps} (h : WellFormed s) :
    WellFormed (s.add emptyKeymap) where
  live x k d hk := by
    rw [Keymaps.map_add] at hk
    split at hk
    · cases hk
    · exact Def.live_mono (Nat.le_succ _) (h.live x k d hk)
  parents x p hp := by
    rw [Keymaps.map_add] at hp
    split at hp
    · cases hp
    · exact Nat.lt_succ_of_lt (h.parents x p hp)
  bound x k hk := by
    rw [Keymaps.map_add] at hk
    split at hk
    · cases hk
    · exact h.bound x k hk
  fresh x hx := by
    rw [Keymaps.map_add]
    split
    · rfl
    · exact h.fresh x (Nat.le_of_succ_le hx)

theorem WellFormed.setCache {s : Keymaps} (h : WellFormed s) (m : Nat)
    (cache : Option (List (Key × Nat))) : WellFormed (s.setCache m cache) := by
  have hmap : ∀ x, ((s.setCache m cache).map x).table = (s.map x).table ∧
      ((s.setCache m cache).map x).parents = (s.map x).parents := by
    intro x
    rw [Keymaps.setCache, Keymaps.map_update]
    split
    · next hx => rw [hx]; exact ⟨rfl, rfl⟩
    · exact ⟨rfl, rfl⟩
  refine ⟨fun x k d hk => ?_, fun x p hp => ?_, fun x k hk => ?_, fun x hx => ?_⟩
  · rw [(hmap x).1] at hk
    exact h.live x k d hk
  · rw [(hmap x).2] at hp
    exact h.parents x p hp
  · rw [(hmap x).1] at hk
    exact h.bound x k hk
  · rw [(hmap x).1]
    exact h.fresh x hx

theorem WellFormed.setParents {s : Keymaps} (h : WellFormed s) (m : Nat) {ps : List Nat}
    (hps : ∀ p ∈ ps, p < s.next) :
    WellFormed (s.update m fun k => { k with parents := ps }) := by
  refine ⟨fun x k d hk => ?_, fun x p hp => ?_, fun x k hk => ?_, fun x hx => ?_⟩
  · rw [Keymaps.map_update] at hk
    split at hk
    · exact h.live m k d hk
    · exact h.live x k d hk
  · rw [Keymaps.map_update] at hp
    split at hp
    · exact hps p hp
    · exact h.parents x p hp
  · rw [Keymaps.map_update] at hk
    split at hk
    · exact h.bound m k hk
    · exact h.bound x k hk
  · rw [Keymaps.map_update]
    split
    · next hxm => exact h.fresh m (hxm ▸ hx)
    · exact h.fresh x hx

theorem gethash_eq_iff {s : Keymaps} (m : Nat) (k : Key) {d : Def}
    (hd : d ≠ .nil) : (s.map m).gethash k = d ↔ (s.map m).table.lookup k = some d := by
  unfold LispKeymap.gethash
  cases (s.map m).table.lookup k with
  | none => exact iff_of_false (fun h => hd h.symm) nofun
  | some d' => exact ⟨fun h => congrArg some h, fun h => Option.some.inj h⟩

section store

variable {before : Key → Key → Bool} {fuel : Nat} {s : Keymaps}

theorem keymapStoreInternal_of_eq {k : Key} {m : Nat} {d : Def}
    (h : (s.map m).gethash k = d) :
    keymapStoreInternal before fuel k m d s = .returns () s := by
  rw [keymapStoreInternal, bind_of_returns (state_apply s)]
  exact congrFun (if_pos h) s

theorem keymapStoreInternal_of_ne {k : Key} {m : Nat} {d : Def}
    (h : (s.map m).gethash k ≠ d) :
    keymapStoreInternal before fuel k m d s =
      (do
        checkKeymapDefinitionLoop before fuel d m
        deletePrevDef m k ((s.map m).gethash k)
        storeDef m k d : Command Keymaps Unit) s := by
  rw [keymapStoreInternal, bind_of_returns (state_apply s)]
  exact congrFun (if_neg h) s

end store

theorem keymapStoreInverseInternal_same (E : Keymaps → Prop) (s : Keymaps) (m : Nat)
    (k : Key) (d : Def) : Triple True (SameTables s) (keymapStoreInverseInternal m k d)
      (fun _ => SameTables s) E := by
  refine Triple.state_bind fun s' hs' => ?_
  have hput : ∀ c r, SameTables s ((s'.setCells c).putInverse m d r) := fun c r =>
    hs'.trans (SameTables.putInverse s' c m d r)
  split
  · rintro _ rfl
    exact hput _ (.atom k)
  · rintro _ rfl
    exact hput _ _
  · split
    · exact Triple.diverge
    · rintro _ rfl
      exact hs'.trans ⟨rfl, fun _ => rfl, fun _ => rfl, fun _ => rfl⟩

theorem keymapDeleteInverseInternal_same (E : Keymaps → Prop) (s : Keymaps) (m : Nat)
    (k : Key) (d : Def) : Triple True (SameTables s) (keymapDeleteInverseInternal m k d)
      (fun _ => SameTables s) E := by
  refine Triple.state_bind fun s' hs' => ?_
  split
  · exact Triple.abort trivial
  · split
    · exact Triple.diverge
    · exact Triple.abort trivial
    · split
      · rintro _ rfl
        exact hs'.trans (SameTables.remInverse _ _ m d)
      · split
        · rintro _ rfl
          exact hs'.trans (SameTables.putInverse _ _ m d _)
        · rintro _ rfl
          exact hs'.trans ⟨rfl, fun _ => rfl, fun _ => rfl, fun _ => rfl⟩

theorem deletePrevDef_same (E : Keymaps → Prop) (s : Keymaps) (m : Nat) (k : Key)
    (d : Def) : Triple True (SameTables s) (deletePrevDef m k d)
      (fun _ => SameTables s) E := by
  unfold deletePrevDef
  split
  · exact keymapDeleteInverseInternal_same E s m k d
  · exact Triple.pure fun _ h => h

theorem storeDef_binds (E : Keymaps → Prop) (s : Keymaps) (m : Nat) (k : Key) (d : Def) :
    Triple True (· = s) (storeDef m k d) (fun _ s' => Binds s s' m k d) E := by
  rintro s rfl
  have hbinds := Binds.of_bound (s := s) (m := m) (k := k) (d := d)
  by_cases hnil : d = .nil
  · simp only [bound, if_pos hnil] at hbinds
    rw [storeDef, if_pos hnil]
    exact hbinds
  · simp only [bound, if_neg hnil] at hbinds
    rw [storeDef, if_neg hnil, bind_of_returns (modify_apply s _)]
    exact Triple.conseq (keymapStoreInverseInternal_same E (s.putTable m k d) m k d)
      (fun _ h => h) (fun _ _ hsame => hbinds.same hsame) (fun _ h => h) _ (.refl _)

/-- **A store changes one binding**, if it does not signal a loop. -/
theorem keymapStoreInternal_binds (before : Key → Key → Bool) (fuel : Nat) (s : Keymaps)
    (k : Key) (m : Nat) (d : Def) :
    (keymapStoreInternal before fuel k m d s).Meets True
      (fun _ s' => (s.map m).gethash k = d ∧ s' = s ∨ Binds s s' m k d) (Filled s) := by
  by_cases hd : (s.map m).gethash k = d
  · rw [keymapStoreInternal_of_eq hd]
    exact .inl ⟨hd, rfl⟩
  · rw [keymapStoreInternal_of_ne hd]
    have hrest : ∀ s₁, Filled s s₁ → (s₁.map m).subMapsCache = (s.map m).subMapsCache →
        Triple True (SameTables s₁) (storeDef m k d) (fun _ s' => Binds s s' m k d)
          (Filled s) := fun s₁ hfill hself s₂ hsame =>
      Triple.conseq (storeDef_binds (Filled s) s₂ m k d) (fun _ h => h)
        (fun _ _ hbinds => hfill.binds hself (hsame.binds hbinds)) (fun _ h => h) s₂ rfl
    refine Triple.conseq (Triple.bind
      ((checkKeymapDefinitionLoop_filled before True s fuel d m).conseq (fun _ h => h)
        (fun _ _ h => h) (fun _ h => h.1)) fun _ => ?_)
      (fun s' hs' => hs') (fun _ s' hs' => .inr hs') (fun _ h => h) s ⟨.refl s, rfl⟩
    rintro s₁ ⟨hfill, hself⟩
    exact Triple.bind (deletePrevDef_same (Filled s) s₁ m k _)
      (fun _ => hrest s₁ hfill hself) s₁ (.refl s₁)

/-! ### Copying one keymap -/

/-- What `copy_keymap_internal` makes of the keymaps. -/
def copied (s : Keymaps) (m : Nat) : Keymaps :=
  s.add { s.map m with subMapsCache := some [] }

theorem wellFormed_copied {s : Keymaps} (h : WellFormed s) (m : Nat) : WellFormed (copied s m) where
  live x k d hk := by
    have hmono := Nat.le_succ s.next
    rw [copied, Keymaps.map_add] at hk
    split at hk
    · exact Def.live_mono hmono (h.live m k d hk)
    · exact Def.live_mono hmono (h.live x k d hk)
  parents x p hp := by
    rw [copied, Keymaps.map_add] at hp
    split at hp
    · exact Nat.lt_succ_of_lt (h.parents m p hp)
    · exact Nat.lt_succ_of_lt (h.parents x p hp)
  bound x k := by
    rw [copied, Keymaps.map_add]
    split
    · exact h.bound m k
    · exact h.bound x k
  fresh x hx := by
    have hx : s.next + 1 ≤ x := hx
    rw [copied, Keymaps.map_add, if_neg (Nat.ne_of_gt hx)]
    exact h.fresh x (Nat.le_of_succ_le hx)

theorem copyKeymapInverseMapper_same (E : Keymaps → Prop) (s : Keymaps) (m : Nat)
    (e : Sigma fun _ : Def => Ref Key) : Triple True (SameTables s)
      (copyKeymapInverseMapper m e) (fun _ => SameTables s) E := by
  refine Triple.state_bind fun s' hs' => ?_
  split
  · exact Triple.diverge
  · rintro _ rfl
    exact hs'.trans (SameTables.putInverse _ _ m e.1 _)

theorem copyKeymapInternal_same (E : Keymaps → Prop) (s : Keymaps) (m : Nat) :
    Triple True (· = s) (copyKeymapInternal m)
      (fun n s' => n = s.next ∧ SameTables (copied s m) s') E := by
  rintro s rfl
  have hloop : Triple True (SameTables (copied s m))
      ((s.map m).inverseTable.entries.forM (copyKeymapInverseMapper m))
      (fun _ => SameTables (copied s m)) E :=
    Triple.forM (I := fun _ => SameTables (copied s m))
      (fun e _ => copyKeymapInverseMapper_same E (copied s m) m e) _
  have hrun : copyKeymapInternal m s =
      (do
        (s.map m).inverseTable.entries.forM (copyKeymapInverseMapper m)
        pure s.next : Command Keymaps Nat) (copied s m) := rfl
  rw [hrun]
  exact Triple.bind hloop (fun _ => Triple.pure fun s' hs' => ⟨rfl, hs'⟩) _ (.refl _)

end XEmacs.Keymap

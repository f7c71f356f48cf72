import XEmacs.Keymap.MapKeymap

/-!
# What stores keep

A store in a keymap can make submaps for modifiers. It makes them where `keymap_store` looks for
them and without bindings, so the submaps stay nested, and those that are there stay
(`Stores.kept`).
-/

namespace XEmacs.Keymap

open Commands

/-! ## Submaps for modifiers -/

/-- What the walk through a keymap and its submaps for modifiers rests on. -/
structure Walkable (s : Keymaps) (m : Nat) : Prop where
  wellFormed : WellFormed s
  lt : m < s.next
  nested : Nested s m

/-- The submaps of `m` for modifiers are still there. -/
structure Kept (m : Nat) (s s' : Keymaps) : Prop where
  next_le : s.next ≤ s'.next
  top : ∀ mods k, s.under m mods = some (.keymap k) → s'.under m mods = some (.keymap k)
  inMeta : ∀ k, s.under m .onlyMeta = some (.keymap k) → ∀ mods k',
    s.under k mods = some (.keymap k') → s'.under k mods = some (.keymap k')

section kept

variable {m k n : Nat} {mods : Modifiers} {s s' s'' : Keymaps}

theorem Kept.refl (s : Keymaps) : Kept m s s :=
  ⟨Nat.le_refl _, fun _ _ h => h, fun _ _ _ _ h => h⟩

theorem Kept.trans (h : Kept m s s') (h' : Kept m s' s'') : Kept m s s'' :=
  ⟨h.next_le.trans h'.next_le, fun mods k hk => h'.top mods k (h.top mods k hk),
    fun k hk mods k' hk' => h'.inMeta k (h.top _ k hk) mods k' (h.inMeta k hk mods k' hk')⟩

theorem Kept.of_under_eq (hnext : s.next ≤ s'.next)
    (h : ∀ x mods, s'.under x mods = s.under x mods) :
    Kept m s s' :=
  ⟨hnext, fun mods _ hk => (h m mods).trans hk, fun k _ mods _ hk' => (h k mods).trans hk'⟩

theorem Nested.of_under_eq (hs : Nested s m) (h : ∀ x mods, s'.under x mods = s.under x mods) :
    Nested s' m := by
  refine ⟨fun mods d => ?_, fun k => ?_, fun mods k hmods => ?_, fun k => ?_⟩
  · rw [h]
    exact hs.top mods d
  · simp only [h]
    exact hs.inMeta k
  · simp only [h]
    exact hs.inOthers mods k hmods
  · simp only [h]
    exact hs.inMetaOthers k

theorem onlyMeta_not_others : ¬ Modifiers.onlyMeta.Others :=
  fun h => Bool.noConfusion h.1

/-- Where `keymap_store` makes a submap for modifiers. -/
def Place (s : Keymaps) (m k : Nat) (mods : Modifiers) : Prop :=
  k = m ∧ (mods = .onlyMeta ∨ mods.Others) ∨ s.under m .onlyMeta = some (.keymap k) ∧ mods.Others

/-- **A new submap** without bindings, in its place. -/
theorem Nested.create (hs : Nested s m) (hplace : Place s m k mods)
    (hfresh : ∀ x μ, s.under x μ ≠ some (.keymap n)) (hempty : ∀ μ, s.under n μ = none)
    (hkn : k ≠ n)
    (h : ∀ x μ, s'.under x μ = if x = k ∧ μ = mods then some (.keymap n) else s.under x μ) :
    Nested s' m := by
  -- the meta submap is another keymap
  have hself : s.under m .onlyMeta ≠ some (.keymap m) := fun hm =>
    onlyMeta_not_others (hs.inMeta m hm _ _ hm).2
  obtain ⟨rfl, hmods⟩ | ⟨hk, hmods⟩ := hplace
  · refine ⟨fun μ d hd => ?_, fun k₀ hk₀ μ d hd => ?_, fun μ k₀ hμ hk₀ => ?_,
      fun k₀ hk₀ μ k₁ hk₁ => ?_⟩
    · rw [h] at hd
      split at hd
      · rename_i heq
        cases hd
        exact ⟨⟨n, rfl⟩, heq.2 ▸ hmods⟩
      · exact hs.top μ d hd
    · have := hs.inMeta k₀
      grind
    · have := hs.inOthers μ k₀ hμ
      have := onlyMeta_not_others
      grind
    · have := hs.inMetaOthers k₀
      grind
  · refine ⟨fun μ d hd => ?_, fun k₀ hk₀ μ d hd => ?_, fun μ k₀ hμ hk₀ => ?_,
      fun k₀ hk₀ μ k₁ hk₁ => ?_⟩
    · have := hs.top μ d
      grind
    · have := hs.inMeta k₀
      grind
    · have := hs.inOthers μ k₀ hμ
      grind
    · have := hs.inMetaOthers k₀
      grind

theorem Kept.create (hnext : s.next ≤ s'.next) (hnone : s.under k mods = none)
    (h : ∀ x μ, s'.under x μ = if x = k ∧ μ = mods then some (.keymap n) else s.under x μ) :
    Kept m s s' := by
  have hkeep : ∀ x μ d, s.under x μ = some d → s'.under x μ = some d := by
    intro x μ d hd
    rw [h, if_neg, hd]
    rintro ⟨rfl, rfl⟩
    rw [hnone] at hd
    cases hd
  exact ⟨hnext, fun _ _ hk => hkeep _ _ _ hk, fun _ _ _ _ hk' => hkeep _ _ _ hk'⟩

theorem Place.lt (hplace : Place s m k mods) (hs : Walkable s m) : k < s.next := by
  obtain ⟨rfl, -⟩ | ⟨hk, -⟩ := hplace
  · exact hs.lt
  · exact hs.wellFormed.bucky_lt (bucky_eq_some.mpr hk)

/-- The keymaps with a new one, whose cache is forgotten. -/
def withSubmap (s : Keymaps) (k : Nat) : Keymaps :=
  (s.add emptyKeymap).setCache k none

theorem WellFormed.withSubmap (hs : WellFormed s) (k : Nat) : WellFormed (withSubmap s k) :=
  hs.newKeymap.setCache k none

theorem table_setCache (s : Keymaps) (k x : Nat) (cache : Option (List (Key × Nat))) :
    ((s.setCache k cache).map x).table = (s.map x).table := by
  rw [Keymaps.setCache, Keymaps.map_update]
  split
  · rename_i heq
    rw [heq]
  · rfl

theorem under_withSubmap (hs : WellFormed s) (k x : Nat) (mods : Modifiers) :
    (withSubmap s k).under x mods = s.under x mods := by
  rw [Keymaps.under, withSubmap, table_setCache, Keymaps.map_add]
  split
  · rename_i heq
    rw [Keymaps.under, hs.fresh x (Nat.le_of_eq heq.symm)]
    rfl
  · rfl

variable {before : Key → Key → Bool} {fuel : Nat}

theorem createBuckySubmap_kept (hs : Walkable s m) (hplace : Place s m k mods)
    (hnone : s.under k mods = none) :
    (createBuckySubmap (keymapStoreInternal before fuel) k mods s).Meets True
      (fun n s' => Walkable s' m ∧ Kept m s s' ∧ s'.under k mods = some (.keymap n))
      (fun s' => Walkable s' m ∧ Kept m s s') := by
  have hk := hplace.lt hs
  have hwf := hs.wellFormed.withSubmap k
  have hunder := under_withSubmap hs.wellFormed k
  have hlive : (Def.keymap s.next).live (withSubmap s k).next = true :=
    decide_eq_true (Nat.lt_succ_self s.next)
  have hrun : createBuckySubmap (keymapStoreInternal before fuel) k mods s =
      (do
        keymapStoreInternal before fuel (.modifiers mods) k (.keymap s.next)
        pure s.next : Command Keymaps Nat) (withSubmap s k) := rfl
  rw [hrun, bind_apply]
  have hmeets := keymapStoreInternal_binds before fuel (withSubmap s k) (.modifiers mods) k
    (.keymap s.next)
  cases hstore : keymapStoreInternal before fuel (.modifiers mods) k (.keymap s.next)
      (withSubmap s k) with
  | diverges => trivial
  | aborts => trivial
  | signals s' =>
    rw [hstore] at hmeets
    have hfilled : Filled (withSubmap s k) s' := hmeets
    have hsame : ∀ x μ, s'.under x μ = s.under x μ := fun x μ => by
      rw [← hunder, Keymaps.under, hfilled.table]
      rfl
    have hnext : s.next ≤ s'.next := hfilled.next ▸ Nat.le_succ s.next
    exact ⟨⟨hwf.filled hfilled, hs.lt.trans_le hnext, hs.nested.of_under_eq hsame⟩,
      .of_under_eq hnext hsame⟩
  | returns u s' =>
    rw [hstore] at hmeets
    have hbinds : Binds (withSubmap s k) s' k (.modifiers mods) (.keymap s.next) := by
      obtain ⟨hfound, -⟩ | hbinds := hmeets
      · rw [gethash_eq_iff _ _ (fun h => by cases h)] at hfound
        have hnone' := (hunder k mods).trans hnone
        rw [Keymaps.under, hfound] at hnone'
        cases hnone'
      · exact hbinds
    have hself : s'.under k mods = some (.keymap s.next) := hbinds.lookup_self
    have hunder' : ∀ x μ, s'.under x μ =
        if x = k ∧ μ = mods then some (.keymap s.next) else s.under x μ := by
      intro x μ
      split
      · rename_i heq
        rw [heq.1, heq.2, hself]
      · rename_i hne
        rw [← hunder]
        by_cases hμ : μ = mods
        · have hx : x ≠ k := fun hx => hne ⟨hx, hμ⟩
          rw [Keymaps.under, hbinds.table_other x hx]
          rfl
        · exact hbinds.lookup_of_ne x fun h => hμ (Key.modifiers.inj h)
    have hfresh : ∀ x μ, s.under x μ ≠ some (.keymap s.next) := fun x μ h =>
      Nat.lt_irrefl s.next (of_decide_eq_true (hs.wellFormed.live x _ _ h))
    have hempty : ∀ μ, s.under s.next μ = none := fun μ => by
      rw [Keymaps.under, hs.wellFormed.fresh s.next (Nat.le_refl _)]
      rfl
    have hnext : s.next ≤ s'.next := hbinds.next ▸ Nat.le_succ s.next
    exact ⟨⟨hwf.binds hbinds (hk.trans (Nat.lt_succ_self _)) hlive, hs.lt.trans_le hnext,
      hs.nested.create hplace hfresh hempty (Nat.ne_of_lt hk) hunder'⟩,
      .create hnext hnone hunder', hself⟩

theorem keymapStoreInternal_kept (hs : Walkable s m) (hk : k < s.next) {keysym : Keysym}
    {d : Def} (hd : d.live s.next) :
    (keymapStoreInternal before fuel (.keysym keysym) k d s).Meets True
      (fun _ s' => Walkable s' m ∧ Kept m s s') (fun s' => Walkable s' m ∧ Kept m s s') := by
  have hmeets := keymapStoreInternal_binds before fuel s (.keysym keysym) k d
  cases hstore : keymapStoreInternal before fuel (.keysym keysym) k d s with
  | diverges => trivial
  | aborts => trivial
  | signals s' =>
    rw [hstore] at hmeets
    have hfilled : Filled s s' := hmeets
    have hsame : ∀ x μ, s'.under x μ = s.under x μ := fun x μ => by
      rw [Keymaps.under, hfilled.table]
      rfl
    exact ⟨⟨hs.wellFormed.filled hfilled, hfilled.next ▸ hs.lt, hs.nested.of_under_eq hsame⟩,
      .of_under_eq (Nat.le_of_eq hfilled.next.symm) hsame⟩
  | returns u s' =>
    rw [hstore] at hmeets
    obtain ⟨-, rfl⟩ | hbinds := hmeets
    · exact ⟨hs, .refl _⟩
    · have hsame : ∀ x μ, s'.under x μ = s.under x μ := fun x μ =>
        hbinds.lookup_of_ne x (fun h => by cases h)
      exact ⟨⟨hs.wellFormed.binds hbinds hk hd, hbinds.next ▸ hs.lt,
        hs.nested.of_under_eq hsame⟩, .of_under_eq (Nat.le_of_eq hbinds.next.symm) hsame⟩

theorem ensureBuckySubmap_kept {wanted : Bool} (hs : Walkable s m) (hk : k < s.next)
    (hplace : wanted = true → Place s m k mods) :
    (ensureBuckySubmap (keymapStoreInternal before fuel) wanted k mods s).Meets True
      (fun n s' => Walkable s' m ∧ Kept m s s' ∧ n < s'.next ∧
        if wanted then s'.under k mods = some (.keymap n) else n = k)
      (fun s' => Walkable s' m ∧ Kept m s s') := by
  rw [ensureBuckySubmap, bind_apply, state_apply]
  cases wanted with
  | false => exact ⟨hs, .refl s, hk, rfl⟩
  | true =>
    have hplace := hplace rfl
    cases hbucky : s.bucky k mods with
    | some n =>
      simp only [if_true, hbucky]
      exact ⟨hs, .refl s, hs.wellFormed.bucky_lt hbucky, bucky_eq_some.mp hbucky⟩
    | none =>
      have hkeymap : ∀ d, s.under k mods = some d → ∃ n, d = .keymap n := by
        intro d hd
        obtain ⟨rfl, -⟩ | ⟨hmeta, -⟩ := hplace
        · exact (hs.nested.top mods d hd).1
        · exact (hs.nested.inMeta k hmeta mods d hd).1
      have hnone : s.under k mods = none := by
        cases hunder : s.under k mods with
        | none => rfl
        | some d =>
          obtain ⟨n, rfl⟩ := hkeymap d hunder
          rw [bucky_eq_some.mpr hunder] at hbucky
          cases hbucky
      simp only [if_true, hbucky]
      exact (createBuckySubmap_kept hs hplace hnone).imp
        (fun n s' h => ⟨h.1, h.2.1, h.1.wellFormed.bucky_lt (bucky_eq_some.mpr h.2.2), h.2.2⟩)
        fun s' h => h

/-- **One store** in the keymap `m`. -/
theorem keymapStore_kept (hs : Walkable s m) (key : KeyData) {d : Def} (hd : d.live s.next) :
    (keymapStore (keymapStoreInternal before fuel) m key d s).Meets True
      (fun _ s' => Walkable s' m ∧ Kept m s s') (fun s' => Walkable s' m ∧ Kept m s s') := by
  have hE : ∀ {s₁ s₂ : Keymaps}, Kept m s s₁ → Walkable s₂ m ∧ Kept m s₁ s₂ →
      Walkable s₂ m ∧ Kept m s s₂ := fun h h' => ⟨h'.1, h.trans h'.2⟩
  have hothers : ∀ mods : Modifiers, mods.sansButtons.sansMeta ≠ .none →
      mods.sansButtons.sansMeta.Others := fun mods hne => ⟨rfl, rfl, hne⟩
  refine Triple.bind (P := (· = s)) (Q := fun k₁ s₁ => Walkable s₁ m ∧ Kept m s s₁ ∧
    k₁ < s₁.next ∧ if key.modifiers.sansButtons.modMeta then
      s₁.under m .onlyMeta = some (.keymap k₁) else k₁ = m) ?_ (fun k₁ => ?_) s rfl
  · rintro _ rfl
    exact ensureBuckySubmap_kept hs hs.lt fun _ => .inl ⟨rfl, .inl rfl⟩
  refine Triple.bind (Q := fun k₂ s₂ => Walkable s₂ m ∧ Kept m s s₂ ∧ k₂ < s₂.next) ?_
    fun k₂ => ?_
  · rintro s₁ ⟨hs₁, hkept, hk₁, hwanted⟩
    refine (ensureBuckySubmap_kept hs₁ hk₁ fun hw => ?_).imp
      (fun k₂ s₂ h => ⟨h.1, hkept.trans h.2.1, h.2.2.1⟩) fun s₂ h => hE hkept h
    have hne := hothers _ (of_decide_eq_true hw)
    split at hwanted
    · exact .inr ⟨hwanted, hne⟩
    · exact .inl ⟨hwanted, .inr hne⟩
  · rintro s₂ ⟨hs₂, hkept, hk₂⟩
    have hunder : ∀ x μ, (s₂.setCache k₂ none).under x μ = s₂.under x μ := fun x μ => by
      rw [Keymaps.under, table_setCache]
      rfl
    have hs₃ : Walkable (s₂.setCache k₂ none) m :=
      ⟨hs₂.wellFormed.setCache k₂ none, hs₂.lt, hs₂.nested.of_under_eq hunder⟩
    have hkept₃ : Kept m s (s₂.setCache k₂ none) :=
      hkept.trans (.of_under_eq (Nat.le_refl _) hunder)
    rw [bind_of_returns (modify_apply s₂ _)]
    exact (keymapStoreInternal_kept hs₃ hk₂ (Def.live_mono hkept.next_le hd)).imp
      (fun _ s₄ h => hE hkept₃ h) fun s₄ h => hE hkept₃ h

/-- **Stores in a keymap** leave its submaps for modifiers where they are. -/
theorem Stores.kept (h : Stores m s s') (hs : Walkable s m) : Walkable s' m ∧ Kept m s s' := by
  induction h with
  | refl => exact ⟨hs, .refl s⟩
  | @store s₁ s₂ before fuel key value hvalue h hstore ih =>
    obtain ⟨hs₁, hkept⟩ := ih
    have hstep : Triple True (· = s₁) (keymapStore (keymapStoreInternal before fuel) m key value)
        (fun _ t => Walkable t m ∧ Kept m s₁ t) (fun t => Walkable t m ∧ Kept m s₁ t) := by
      rintro _ rfl
      exact keymapStore_kept hs₁ key hvalue
    have hs₂ := hstep.of_state? rfl hstore
    exact ⟨hs₂.1, hkept.trans hs₂.2⟩

end kept

end XEmacs.Keymap

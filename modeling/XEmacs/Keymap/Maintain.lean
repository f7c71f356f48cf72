import XEmacs.Keymap.DefineKey

/-!
# What building keymaps maintains

An invariant of the keymaps that survives new keymaps, filled and forgotten caches and single
stores survives `define-key`: the walk down a key sequence does nothing else.
-/

namespace XEmacs.Keymap

open Commands

/-- The invariant `I` survives what keymaps are built with. -/
structure Maintains (A : Prop) (store : Key → Nat → Def → Command Keymaps Unit)
    (I : Keymaps → Prop) : Prop where
  wellFormed : ∀ s, I s → WellFormed s
  filled : ∀ s s', I s → Filled s s' → I s'
  unknown : ∀ s m, I s → I (s.setCache m none)
  newKeymap : ∀ s, I s → I (s.add emptyKeymap)
  store : ∀ k m d s, I s → m < s.next → d.live s.next = true →
    (s.map m).subMapsCache = none →
    (store k m d s).Meets A (fun _ s' => I s' ∧ s'.next = s.next) I

/-- The invariant, where at least `n` keymaps exist. -/
def Holds (I : Keymaps → Prop) (n : Nat) (s : Keymaps) : Prop :=
  I s ∧ n ≤ s.next

theorem Def.live_getKeyelt {n : Nat} {d : Def} (h : d.live n = true) :
    (getKeyelt d).live n = true := by
  induction d with
  | nil => rfl
  | command i => rfl
  | keymap k => exact h
  | item i d ih => exact ih h

theorem WellFormed.live_gethash {s : Keymaps} (h : WellFormed s) (m : Nat) (k : Key) :
    ((s.map m).gethash k).live s.next = true := by
  unfold LispKeymap.gethash
  cases hk : (s.map m).table.lookup k with
  | none => rfl
  | some d => exact h.live m k d hk

theorem WellFormed.bucky_lt {s : Keymaps} (h : WellFormed s) {m k : Nat}
    {mods : Modifiers} (hk : s.bucky m mods = some k) : k < s.next := by
  have hlive := h.live_gethash m (.modifiers mods)
  unfold Keymaps.bucky at hk
  split at hk
  · next heq =>
    rw [heq] at hlive
    cases hk
    exact of_decide_eq_true hlive
  · cases hk

theorem WellFormed.live_lookup1 {s : Keymaps} (h : WellFormed s) (m : Nat)
    (key : KeyData) : (keymapLookup1 s m key).live s.next = true := by
  refine Def.live_getKeyelt ?_
  unfold keymapLookupDirectly
  dsimp only
  split
  · rfl
  · exact h.live_gethash _ _

section maintains

variable {A : Prop} {store : Key → Nat → Def → Command Keymaps Unit}
  {I : Keymaps → Prop}

theorem Maintains.forget_store (h : Maintains A store I) {n k : Nat} (key : Key) {d : Def} :
    Triple A (fun s => Holds I n s ∧ k < s.next ∧ d.live s.next = true)
      (Command.modify (fun s => s.setCache k none) >>= fun _ => store key k d)
      (fun _ s => Holds I n s ∧ k < s.next) I := by
  rintro s ⟨⟨hI, hn⟩, hk, hd⟩
  rw [bind_of_returns (modify_apply s _)]
  have hcache : ((s.setCache k none).map k).subMapsCache = none := by
    rw [Keymaps.setCache, Keymaps.map_update, if_pos rfl]
  have hstore := h.store key k d (s.setCache k none) (h.unknown s k hI) hk hd hcache
  cases hrun : store key k d (s.setCache k none) with
  | diverges => trivial
  | aborts =>
    rw [hrun] at hstore
    exact hstore
  | signals s' =>
    rw [hrun] at hstore
    exact hstore
  | returns u s' =>
    rw [hrun] at hstore
    obtain ⟨hI', hnext⟩ := hstore
    have hnext : s'.next = s.next := hnext
    exact ⟨⟨hI', by rw [hnext]; exact hn⟩, by rw [hnext]; exact hk⟩

theorem Maintains.createBuckySubmap (h : Maintains A store I) {n k : Nat}
    (mods : Modifiers) :
    Triple A (fun s => Holds I n s ∧ k < s.next) (createBuckySubmap store k mods)
      (fun submap s => Holds I n s ∧ submap < s.next) I := by
  rintro s ⟨⟨hI, hn⟩, hk⟩
  have hnew : Holds I (s.next + 1) (s.add emptyKeymap) ∧ k < (s.add emptyKeymap).next ∧
      (Def.keymap s.next).live (s.add emptyKeymap).next = true :=
    ⟨⟨h.newKeymap s hI, Nat.le_refl _⟩, Nat.lt_succ_of_lt hk,
      decide_eq_true (Nat.lt_succ_self _)⟩
  refine Triple.bind (A := A) (E := I) (P := (· = s.add emptyKeymap))
    (Q := fun _ s' => Holds I (s.next + 1) s') (x := do
      Command.modify fun s => s.setCache k none
      store (.modifiers mods) k (.keymap s.next)) ?_ (f := fun _ => pure s.next)
      (fun _ => Triple.pure fun s' hs' => ?_) (s.add emptyKeymap) rfl
  · rintro _ rfl
    exact (h.forget_store (.modifiers mods)).conseq (fun _ h => h) (fun _ _ h => h.1)
      (fun _ h => h) _ hnew
  · exact ⟨⟨hs'.1, Nat.le_trans hn (Nat.le_of_succ_le hs'.2)⟩, hs'.2⟩

theorem Maintains.ensureBuckySubmap (h : Maintains A store I) {n k : Nat} (wanted : Bool)
    (mods : Modifiers) :
    Triple A (fun s => Holds I n s ∧ k < s.next) (ensureBuckySubmap store wanted k mods)
      (fun submap s => Holds I n s ∧ submap < s.next) I := by
  refine Triple.state_bind fun s hs => ?_
  split
  · split
    · next submap hsub =>
      rintro s rfl
      exact ⟨hs.1, (h.wellFormed s hs.1.1).bucky_lt hsub⟩
    · rintro s rfl
      exact h.createBuckySubmap mods s hs
  · rintro s rfl
    exact hs

theorem Maintains.keymapStore (h : Maintains A store I) {n m : Nat} (key : KeyData)
    {d : Def} : Triple A (fun s => Holds I n s ∧ m < s.next ∧ d.live s.next = true)
      (keymapStore store m key d) (fun _ => Holds I n) I := by
  rintro s ⟨⟨hI, hn⟩, hm, hd⟩
  -- what exists now will exist when the binding is stored
  refine Triple.conseq (P := fun s' => Holds I s.next s' ∧ m < s'.next)
    (Q := fun _ => Holds I s.next) ?_ (fun _ h => h)
    (fun _ s' hs' => ⟨hs'.1, Nat.le_trans hn hs'.2⟩) (fun _ h => h) s
    ⟨⟨hI, Nat.le_refl _⟩, hm⟩
  refine Triple.bind (h.ensureBuckySubmap _ _) fun k₁ => ?_
  refine Triple.bind (h.ensureBuckySubmap _ _) fun k₂ => ?_
  exact (h.forget_store (.keysym key.keysym.charCode)).conseq
    (fun s' hs' => ⟨hs'.1, hs'.2, Def.live_mono hs'.1.2 hd⟩) (fun _ _ h => h.1)
    (fun _ h => h)

theorem Maintains.keymapSubmaps (h : Maintains A store I) (n m : Nat)
    (before : Key → Key → Bool) (E : Keymaps → Prop) :
    Triple A (Holds I n) (keymapSubmaps before m) (fun _ => Holds I n) E := by
  intro s hs
  obtain ⟨maps, s', hrun, hfill, -⟩ := keymapSubmaps_spec before m s
  rw [hrun]
  exact ⟨h.filled s s' hs.1 hfill, by rw [hfill.next]; exact hs.2⟩

theorem Maintains.keymapFullness (h : Maintains A store I) (n : Nat)
    (before : Key → Key → Bool) (E : Keymaps → Prop) (rounds m : Nat) :
    Triple A (Holds I n) (keymapFullness before rounds m) (fun _ => Holds I n) E := by
  induction rounds generalizing m with
  | zero => exact Triple.diverge
  | succ rounds ih =>
    refine Triple.bind (Triple.state (Q := fun _ => Holds I n) fun s hs => hs) fun s => ?_
    refine Triple.bind (h.keymapSubmaps n m before E) fun maps => ?_
    refine Triple.foldlM (fun fullness e => ?_) _ maps
    split
    · split
      · exact Triple.pure fun _ hs => hs
      · exact Triple.bind (ih e.2) fun inner => Triple.pure fun _ hs => hs
    · exact Triple.pure fun _ hs => hs

theorem Maintains.checkMetaBindings (h : Maintains A store I) (n m : Nat)
    (before : Key → Key → Bool) (fuel : Nat) :
    Triple A (Holds I n) (checkMetaBindings before fuel m) (fun _ => Holds I n) I := by
  refine Triple.bind (Triple.state (Q := fun _ => Holds I n) fun s hs => hs) fun s => ?_
  split
  · exact Triple.pure fun _ hs => hs
  · refine Triple.bind (h.keymapFullness n before I fuel _) fun fullness => ?_
    split
    · exact Triple.signal fun _ hs => hs.1
    · exact Triple.pure fun _ hs => hs

theorem ensureMetaPrefixCharKeymapp_keeps (env : KeyEnv) (n m : Nat) :
    Triple A (Holds I n) (ensureMetaPrefixCharKeymapp env m) (fun _ => Holds I n) I := by
  refine Triple.bind (Triple.state (Q := fun _ => Holds I n) fun s hs => hs) fun s => ?_
  split
  · exact Triple.pure fun _ hs => hs
  · dsimp only
    split
    · exact Triple.pure fun _ hs => hs
    · exact Triple.signal fun _ hs => hs.1

theorem Maintains.prefixBinding (h : Maintains A store I) {n m : Nat} (hm : m < n)
    (raw : KeyData) : Triple A (Holds I n) (prefixBinding store m raw)
      (fun cmd s => Holds I n s ∧ cmd.live s.next = true) I := by
  refine Triple.state_bind fun s hs => ?_
  dsimp only
  split
  · rintro s rfl
    have hnew : Holds I (s.next + 1) (s.add emptyKeymap) :=
      ⟨h.newKeymap s hs.1, Nat.le_refl _⟩
    have hlive : ∀ {s' : Keymaps}, s.next + 1 ≤ s'.next →
        (Def.keymap s.next).live s'.next = true := fun hle => decide_eq_true hle
    refine Triple.bind (A := A) (E := I) (P := Holds I (s.next + 1))
      (Q := fun _ => Holds I (s.next + 1)) ?_ (f := fun _ => pure (Def.keymap s.next))
      (fun _ => Triple.pure fun s' hs' => ?_) (s.add emptyKeymap) hnew
    · exact (h.keymapStore raw).conseq (fun s' hs' => ⟨hs',
        Nat.lt_of_lt_of_le (Nat.lt_of_lt_of_le hm hs.2) (Nat.le_of_succ_le hs'.2),
        hlive hs'.2⟩) (fun _ _ h => h) (fun _ h => h)
    · exact ⟨⟨hs'.1, Nat.le_trans hs.2 (Nat.le_of_succ_le hs'.2)⟩, hlive hs'.2⟩
  · rintro s rfl
    exact ⟨hs, (h.wellFormed s hs.1).live_lookup1 m raw⟩

theorem Maintains.storeAlternate (h : Maintains A store I) {n m : Nat}
    (raw2 : Option KeyData) {d : Def} :
    Triple A (fun s => Holds I n s ∧ m < s.next ∧ d.live s.next = true)
      (storeAlternate store m raw2 d) (fun _ => Holds I n) I := by
  unfold Keymap.storeAlternate
  split
  · exact Triple.pure fun _ hs => hs.1
  · exact h.keymapStore _

theorem Maintains.storeAlternatePrefix (h : Maintains A store I) {n m : Nat}
    (raw2 : Option KeyData) {cmd : Def} :
    Triple A (fun s => Holds I n s ∧ m < s.next ∧ cmd.live s.next = true)
      (storeAlternatePrefix store m raw2 cmd) (fun _ => Holds I n) I := by
  refine Triple.state_bind fun s hs => ?_
  split
  · rintro s rfl
    exact hs.1
  · split
    · rintro s rfl
      exact h.keymapStore _ s hs
    · rintro s rfl
      exact hs.1

variable (env : KeyEnv) (before : Key → Key → Bool) (fuel : Nat)

theorem Maintains.defineLast (h : Maintains A store I) (asciiHack metized : Bool)
    (raw : KeyData) {n m : Nat} (hm : m < n) {d : Def} (hd : d.live n = true) :
    Triple A (Holds I n) (defineLast env before fuel store asciiHack metized raw m d)
      (fun _ => Holds I n) I := by
  have hlive : ∀ s : Keymaps, Holds I n s → Holds I n s ∧ m < s.next ∧
      d.live s.next = true := fun s hs =>
    ⟨hs, Nat.lt_of_lt_of_le hm hs.2, Def.live_mono hs.2 hd⟩
  refine Triple.bind (Triple.when (h.checkMetaBindings n m before fuel)) fun _ => ?_
  refine Triple.bind (Triple.when (ensureMetaPrefixCharKeymapp_keeps env n m)) fun _ => ?_
  refine Triple.bind ((h.keymapStore _).conseq hlive (fun _ _ h => h) fun _ h => h)
    fun _ => ?_
  exact (h.storeAlternate _).conseq hlive (fun _ _ h => h) fun _ h => h

theorem Maintains.definePrefix (h : Maintains A store I) (asciiHack metized : Bool)
    (raw : KeyData) {n m : Nat} (hm : m < n) :
    Triple A (Holds I n) (definePrefix env store asciiHack metized raw m)
      (fun k s => Holds I n s ∧ k < s.next) I := by
  refine Triple.bind (Triple.when (ensureMetaPrefixCharKeymapp_keeps env n m)) fun _ => ?_
  refine Triple.bind (h.prefixBinding hm _) fun cmd => ?_
  cases cmd with
  | keymap k =>
    rintro s ⟨hs, hk⟩
    refine Triple.bind (A := A) (E := I) (P := Holds I s.next)
      (Q := fun _ => Holds I s.next) ?_ (f := fun _ => pure k)
      (fun _ => Triple.pure fun s' hs' => ?_) s ⟨hs.1, Nat.le_refl _⟩
    · exact (h.storeAlternatePrefix _).conseq (fun s' hs' => ⟨hs',
        Nat.lt_of_lt_of_le (Nat.lt_of_lt_of_le hm hs.2) hs'.2,
        Def.live_mono hs'.2 hk⟩) (fun _ _ h => h) (fun _ h => h)
    · exact ⟨⟨hs'.1, Nat.le_trans hs.2 hs'.2⟩,
        Nat.lt_of_lt_of_le (of_decide_eq_true hk) hs'.2⟩
  | nil => exact Triple.signal fun _ hs => hs.1.1
  | command i => exact Triple.signal fun _ hs => hs.1.1
  | item i d => exact Triple.signal fun _ hs => hs.1.1

theorem Maintains.defineKeys (h : Maintains A store I) (asciiHack : Bool) {d : Def}
    (keys : List (Option KeyData)) (metized : Bool) {n m : Nat} (hm : m < n)
    (hd : d.live n = true) :
    Triple A (Holds I n) (defineKeys env before fuel store asciiHack d keys metized m)
      (fun _ => Holds I n) I := by
  induction keys generalizing metized n m with
  | nil => exact Triple.pure fun _ hs => hs
  | cons spec rest ih =>
    cases spec with
    | none => exact Triple.signal fun _ hs => hs.1
    | some raw =>
      cases rest with
      | nil => exact h.defineLast env before fuel asciiHack metized raw hm hd
      | cons spec' rest' =>
        rw [Keymap.defineKeys]
        · split
          · exact ih true hm hd
          · refine Triple.bind (h.definePrefix env asciiHack metized raw hm) fun k => ?_
            rintro s ⟨hs, hk⟩
            exact Triple.conseq (ih false hk (Def.live_mono hs.2 hd)) (fun _ h => h)
              (fun _ s' hs' => ⟨hs'.1, Nat.le_trans hs.2 hs'.2⟩) (fun _ h => h) s
              ⟨hs.1, Nat.le_refl _⟩
        · exact nofun

/-- **`define-key` maintains** what single stores maintain. -/
theorem Maintains.defineKeyWith (h : Maintains A store I) (keys : KeySequence) {d : Def}
    {m : Nat} :
    Triple A (fun s => I s ∧ m < s.next ∧ d.live s.next = true)
      (defineKeyWith env before fuel store m keys d) (fun _ => I) I := by
  rintro s ⟨hI, hm, hd⟩
  exact Triple.conseq (h.defineKeys env before fuel keys.isString keys.parse false hm hd)
    (fun _ h => h) (fun _ _ h => h.1) (fun _ h => h) s ⟨hI, Nat.le_refl _⟩

end maintains

/-- **The walk through the parents** that only looks changes nothing. -/
theorem traverseNoop_keeps {A : Prop} (s : Keymaps) (start fuel : Nat) (t : Traversal) :
    Triple A (· = s) (traverseFrom id traverseNoop start fuel t) (fun _ => (· = s)) (· = s) := by
  induction fuel generalizing t with
  | zero => exact Triple.diverge
  | succ fuel ih =>
    refine Triple.bind (Q := fun r s' => r = none ∧ s' = s) (fun s' hs' => ⟨rfl, hs'⟩)
      fun r => ?_
    cases r with
    | some a =>
      rintro s' ⟨hr, -⟩
      cases hr
    | none =>
      refine Triple.state_bind fun s' hs' => ?_
      split
      · rintro _ rfl
        exact hs'.2
      · split
        · rintro _ rfl
          exact hs'.2
        · exact (ih _).conseq (fun _ h => h.trans hs'.2) (fun _ _ h => h) (fun _ h => h)

end XEmacs.Keymap

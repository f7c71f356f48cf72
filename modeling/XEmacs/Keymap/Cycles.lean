import XEmacs.Keymap.ListsEnd
import XEmacs.Keymap.Maintain
import XEmacs.Lib.Acyclic
import XEmacs.Lib.Runs

/-!
# Cycles of keymaps

A keymap leads to its submaps and to its parents. `keymap_store_internal` looks for the keymap it
stores into among the submaps that the caches list, `set-keymap-parents` among the parents that
its walk comes to.
-/

namespace XEmacs.Keymap

open Acyclic Commands Relation

/-! ### Links -/

/-- A keymap leads to its submaps and to its parents. -/
def Link (s : Keymaps) (a b : Nat) : Prop :=
  (∃ k, (s.map a).table.lookup k = some (.keymap b)) ∨ b ∈ (s.map a).parents

/-- What `keymap_submaps` goes by. -/
def Keymaps.listed (s : Keymaps) (m : Nat) : List (Key × Nat) :=
  (s.map m).subMapsCache.getD (submapEntries (s.map m).table)

/-- The submaps that the check for a definition loop sees. -/
def Listed (s : Keymaps) (a b : Nat) : Prop :=
  b ∈ (s.listed a).map Prod.snd

/-- The caches list submaps only. -/
def CachesSound (s : Keymaps) : Prop :=
  ∀ m maps, (s.map m).subMapsCache = some maps →
    maps.Subperm (submapEntries (s.map m).table)

/-- The invariant: what refers to keymaps is right, and there is no cycle. -/
structure Sound (s : Keymaps) : Prop where
  wellFormed : WellFormed s
  caches : CachesSound s
  fresh : ∀ m, s.next ≤ m → (s.map m).parents = []
  lists : ListsEnd s
  noCycle : NoCycle (Link s)

variable {s s' : Keymaps} {m : Nat}

theorem mem_submapEntries {t : AList fun _ : Key => Def} {k : Key} {b : Nat} :
    (k, b) ∈ submapEntries t ↔ t.lookup k = some (.keymap b) := by
  rw [← Option.mem_def, AList.mem_lookup_iff, submapEntries, List.mem_filterMap]
  constructor
  · rintro ⟨⟨k', d⟩, hmem, heq⟩
    cases d with
    | keymap b' =>
      cases heq
      exact hmem
    | nil => cases heq
    | command i => cases heq
    | item i d => cases heq
  · exact fun hmem => ⟨⟨k, .keymap b⟩, hmem, rfl⟩

theorem link_iff {a b : Nat} : Link s a b ↔
    b ∈ (submapEntries (s.map a).table).map Prod.snd ∨ b ∈ (s.map a).parents := by
  refine or_congr ?_ Iff.rfl
  rw [List.mem_map]
  constructor
  · rintro ⟨k, hk⟩
    exact ⟨(k, b), mem_submapEntries.mpr hk, rfl⟩
  · rintro ⟨⟨k, b'⟩, hmem, rfl⟩
    exact ⟨k, mem_submapEntries.mp hmem⟩

theorem link_congr (htable : ∀ m, (s'.map m).table = (s.map m).table)
    (hparents : ∀ m, (s'.map m).parents = (s.map m).parents) : Link s' = Link s := by
  funext a b
  unfold Link
  rw [htable, hparents]

theorem Filled.link (h : Filled s s') : Link s' = Link s :=
  link_congr h.table h.parents

theorem Filled.listed (h : Filled s s') (m : Nat) : (s'.listed m).Perm (s.listed m) := by
  unfold Keymaps.listed
  obtain heq | ⟨hnone, maps, hmaps, hperm⟩ := h.cache m
  · rw [heq, h.table m]
  · rw [hmaps, hnone, Option.getD_some, Option.getD_none]
    exact hperm

theorem CachesSound.listed (h : CachesSound s) (m : Nat) :
    (s.listed m).Subperm (submapEntries (s.map m).table) := by
  unfold Keymaps.listed
  cases hcache : (s.map m).subMapsCache with
  | none => exact .refl _
  | some maps => exact h m maps hcache

theorem CachesSound.filled (h : CachesSound s) (hs : Filled s s') : CachesSound s' := by
  intro m maps hm
  have hlisted : s'.listed m = maps := by rw [Keymaps.listed, hm, Option.getD_some]
  rw [← hlisted, hs.table m]
  exact (hs.listed m).subperm.trans (h.listed m)

theorem WellFormed.link_lt (h : WellFormed s) {a b : Nat} (hab : Link s a b) : b < s.next := by
  obtain ⟨k, hk⟩ | hp := hab
  · exact of_decide_eq_true (h.live a k _ hk)
  · exact h.parents a b hp

theorem Sound.filled (h : Sound s) (hs : Filled s s') : Sound s' where
  wellFormed := h.wellFormed.filled hs
  caches := h.caches.filled hs
  fresh m hm := by
    rw [hs.parents m]
    exact h.fresh m (hs.next ▸ hm)
  lists := h.lists.filled hs
  noCycle := by
    rw [hs.link]
    exact h.noCycle

/-! ### The check for a definition loop -/

variable (before : Key → Key → Bool)

theorem keymapSubmaps_listed (m : Nat) (s : Keymaps) :
    ∃ maps s', keymapSubmaps before m s = .returns maps s' ∧ Filled s s' ∧
      maps.Perm (s.listed m) := by
  obtain ⟨maps, s', hrun, hfill, -, hcache⟩ := keymapSubmaps_spec before m s
  have hlisted : s'.listed m = maps := by rw [Keymaps.listed, hcache, Option.getD_some]
  exact ⟨maps, s', hrun, hfill, hlisted ▸ hfill.listed m⟩

/-- **The check** comes to all submaps that are listed: it returns only where none of them is the
keymap it looks for. -/
theorem checkKeymapDefinitionLoop_looks (s : Keymaps) (fuel : Nat) (d m : Nat) :
    Triple True (Filled s) (checkKeymapDefinitionLoop before fuel (.keymap d) m)
      (fun _ s' => Filled s s' ∧ ¬ ReflTransGen (Listed s) d m) (Filled s) := by
  induction fuel generalizing d with
  | zero => exact Triple.diverge
  | succ fuel ih =>
    rw [checkKeymapDefinitionLoop]
    split
    · exact Triple.signal fun s' h => h
    · rename_i hd
      rintro s₁ hs₁
      obtain ⟨maps, s₂, hrun, hfill, hperm⟩ := keymapSubmaps_listed before d s₁
      rw [bind_of_returns hrun]
      have hmem : ∀ e, e ∈ maps ↔ e ∈ s.listed d := fun e =>
        (hperm.trans (hs₁.listed d)).mem_iff
      -- what has been looked through does not lead to `m`
      refine Triple.conseq (Triple.forM (I := fun l s' => Filled s s' ∧
        ∀ e ∈ maps, e ∈ l ∨ ¬ ReflTransGen (Listed s) e.2 m) (fun e l => ?_) maps)
        (C := (· = s₂)) (fun s' hs' => ?_) (fun _ s' hs' => ?_) (fun _ h => h) s₂ rfl
      · rintro s' ⟨hs', hall⟩
        have hlook := ih e.2 s' hs'
        cases hout : checkKeymapDefinitionLoop before fuel (.keymap e.2) m s' with
        | diverges => trivial
        | aborts => trivial
        | signals t =>
          rw [hout] at hlook
          exact hlook
        | returns u t =>
          rw [hout] at hlook
          obtain ⟨hfilled, hnot⟩ := hlook
          refine ⟨hfilled, fun e' he' => ?_⟩
          obtain hmem' | hdone := hall e' he'
          · obtain rfl | hmem' := List.mem_cons.mp hmem'
            · exact .inr hnot
            · exact .inl hmem'
          · exact .inr hdone
      · rw [hs']
        exact ⟨hs₁.trans hfill, fun e he => .inl he⟩
      · obtain ⟨hfilled, hall⟩ := hs'
        refine ⟨hfilled, fun hreach => ?_⟩
        obtain rfl | ⟨b, hb, hbm⟩ := hreach.cases_head
        · exact hd rfl
        · obtain ⟨e, he, rfl⟩ := List.mem_map.mp hb
          exact (hall e ((hmem e).mpr he)).resolve_left List.not_mem_nil hbm

/-! ### Storing -/

/-- Where the definition is a keymap that leads to `m`, it does so through listed submaps. -/
def StoreSees (s : Keymaps) (m : Nat) (d : Def) : Prop :=
  ∀ x, d = .keymap x → ReflTransGen (Link s) x m → ReflTransGen (Listed s) x m

theorem Binds.link {k : Key} {d : Def} (h : Binds s s' m k d) {a b : Nat} (hab : Link s' a b) :
    Link s a b ∨ a = m ∧ d = .keymap b := by
  obtain ⟨k', hk'⟩ | hp := hab
  · by_cases hkk : k' = k
    · by_cases ham : a = m
      · rw [hkk, ham, h.lookup_self] at hk'
        split at hk'
        · cases hk'
        · exact .inr ⟨ham, Option.some.inj hk'⟩
      · rw [h.table_other a ham] at hk'
        exact .inl (.inl ⟨k', hk'⟩)
    · rw [h.lookup_of_ne a hkk] at hk'
      exact .inl (.inl ⟨k', hk'⟩)
  · rw [h.parents a] at hp
    exact .inl (.inr hp)

theorem CachesSound.binds {k : Key} {d : Def} (h : CachesSound s) (hs : Binds s s' m k d)
    (hm : ∀ maps, (s.map m).subMapsCache = some maps → maps = []) : CachesSound s' := by
  intro x maps hx
  by_cases hxm : x = m
  · rw [hxm, hs.cache_self] at hx
    rw [hm maps hx]
    exact List.nil_subperm
  · rw [hs.table_other x hxm]
    obtain heq | ⟨hnone, maps', hmaps', hperm⟩ := hs.cache x
    · rw [heq] at hx
      exact h x maps hx
    · rw [hmaps'] at hx
      cases hx
      exact hperm.subperm

/-- **A store** makes no cycle, if the check sees the one it might make. -/
theorem keymapStoreInternal_sound (fuel : Nat) (h : Sound s) {k : Key} {d : Def}
    (hm : m < s.next) (hd : d.live s.next = true)
    (hcache : ∀ maps, (s.map m).subMapsCache = some maps → maps = []) (hsees : StoreSees s m d) :
    (keymapStoreInternal before fuel k m d s).Meets True
      (fun _ s' => Sound s' ∧ (s' = s ∨ Binds s s' m k d)) Sound := by
  have hbinds := keymapStoreInternal_binds before fuel s k m d
  have hends := keymapStoreInternal_ends before fuel k m d s h.lists
  have hnot : ∀ s', keymapStoreInternal before fuel k m d s = .returns () s' →
      s' = s ∨ ∀ x, d = .keymap x → ¬ ReflTransGen (Listed s) x m := by
    intro s' hrun
    by_cases heq : (s.map m).gethash k = d
    · rw [keymapStoreInternal_of_eq heq] at hrun
      cases hrun
      exact .inl rfl
    · right
      rintro x rfl
      rw [keymapStoreInternal_of_ne heq] at hrun
      have hlooks := checkKeymapDefinitionLoop_looks before s fuel x m s (.refl s)
      rw [bind_apply] at hrun
      cases hout : checkKeymapDefinitionLoop before fuel (.keymap x) m s with
      | diverges =>
        rw [hout] at hrun
        cases hrun
      | aborts =>
        rw [hout] at hrun
        cases hrun
      | signals t =>
        rw [hout] at hrun
        cases hrun
      | returns u t =>
        rw [hout] at hlooks
        exact hlooks.2
  cases hrun : keymapStoreInternal before fuel k m d s with
  | diverges => trivial
  | aborts => trivial
  | signals s' =>
    rw [hrun] at hbinds
    exact h.filled hbinds
  | returns u s' =>
    rw [hrun] at hbinds hends
    obtain ⟨-, rfl⟩ | hbinds := hbinds
    · exact ⟨h, .inl rfl⟩
    · obtain rfl | hnot := hnot s' hrun
      · exact ⟨h, .inl rfl⟩
      · refine ⟨⟨h.wellFormed.binds hbinds hm hd, h.caches.binds hbinds hcache, fun x hx => ?_,
          hends, ?_⟩, .inr hbinds⟩
        · rw [hbinds.parents x]
          exact h.fresh x (hbinds.next ▸ hx)
        -- a keymap that leads to `m` would have been found
        · exact h.noCycle.link (fun b hb hreach => hnot b hb (hsees b hb hreach))
            fun a b hab => hbinds.link hab

theorem Sound.newKeymap (h : Sound s) : Sound (s.add emptyKeymap) where
  wellFormed := h.wellFormed.newKeymap
  caches x maps hx := by
    rw [Keymaps.map_add] at hx ⊢
    split
    · rename_i hxn
      rw [if_pos hxn] at hx
      cases hx
      exact List.nil_subperm
    · rename_i hxn
      rw [if_neg hxn] at hx
      exact h.caches x maps hx
  fresh x hx := by
    rw [Keymaps.map_add]
    split
    · rfl
    · exact h.fresh x (Nat.le_of_succ_le hx)
  lists := h.lists.newKeymap fun d r hr => by cases hr
  noCycle := by
    refine h.noCycle.mono fun a b hab => ?_
    unfold Link at hab
    rw [Keymaps.map_add] at hab
    split at hab
    · obtain ⟨k, hk⟩ | hp := hab
      · cases hk
      · cases hp
    · exact hab

theorem link_setCache (s : Keymaps) (m : Nat) (cache : Option (List (Key × Nat))) :
    Link (s.setCache m cache) = Link s := by
  refine link_congr (fun x => ?_) (fun x => ?_)
  · rw [Keymaps.setCache, Keymaps.map_update]
    split
    · rename_i hx
      rw [hx]
    · rfl
  · rw [Keymaps.setCache, Keymaps.map_update]
    split
    · rename_i hx
      rw [hx]
    · rfl

theorem Sound.unknown (h : Sound s) (m : Nat) : Sound (s.setCache m none) where
  wellFormed := h.wellFormed.setCache m none
  caches x maps hx := by
    rw [Keymaps.setCache, Keymaps.map_update] at hx ⊢
    split at hx
    · cases hx
    · rename_i hxm
      rw [if_neg hxm]
      exact h.caches x maps hx
  fresh x hx := by
    rw [Keymaps.setCache, Keymaps.map_update]
    split
    · rename_i hxm
      exact hxm ▸ h.fresh x hx
    · exact h.fresh x hx
  lists := h.lists.update fun _ _ hr => .inl hr
  noCycle := by
    rw [link_setCache]
    exact h.noCycle

/-! ### `define-key` -/

open Classical in
/-- `keymap_store_internal`, stopped before a store that might make a cycle unseen. -/
noncomputable def assertedStore (fuel : Nat) (k : Key) (m : Nat) (d : Def) :
    Command Keymaps Unit := fun s =>
  if StoreSees s m d then keymapStoreInternal before fuel k m d s else .aborts

theorem sound_maintains (fuel : Nat) : Maintains True (assertedStore before fuel) Sound where
  wellFormed _ h := h.wellFormed
  filled _ _ h hs := h.filled hs
  unknown _ m h := h.unknown m
  newKeymap _ h := h.newKeymap
  store k m d s h hm hd hcache := by
    unfold assertedStore
    split
    · rename_i hsees
      have hempty : ∀ maps, (s.map m).subMapsCache = some maps → maps = [] := by
        intro maps hmaps
        rw [hcache] at hmaps
        cases hmaps
      have hsound := keymapStoreInternal_sound before fuel h (k := k) hm hd hempty hsees
      cases hrun : keymapStoreInternal before fuel k m d s with
      | diverges => trivial
      | aborts => trivial
      | signals s' =>
        rw [hrun] at hsound
        exact hsound
      | returns u s' =>
        rw [hrun] at hsound
        obtain ⟨hsound, rfl | hbinds⟩ := hsound
        · exact ⟨hsound, rfl⟩
        · exact ⟨hsound, hbinds.next⟩
    · trivial

/-! ### `set-keymap-parents` -/

/-- The walk through the parents comes back to its start. -/
inductive Comes (s : Keymaps) (start : Nat) : Traversal → Prop
  | here {t t' : Traversal} : t.next s = some t' → t'.keymap = start → Comes s start t
  | later {t t' : Traversal} : t.next s = some t' → Comes s start t' → Comes s start t

/-- Where one of the parents leads to `m`, the walk from them comes to `m`. -/
def ParentsSee (s : Keymaps) (m : Nat) (parents : List Nat) : Prop :=
  (∃ p ∈ parents, ReflTransGen (Link s) p m) → Comes s m (.init s m parents)

theorem traverseNoop_looks (s : Keymaps) (start fuel : Nat) (t : Traversal) :
    Triple True (· = s) (traverseFrom id traverseNoop start fuel t)
      (fun _ s' => s' = s ∧ ¬ Comes s start t) (· = s) := by
  induction fuel generalizing t with
  | zero => exact Triple.diverge
  | succ fuel ih =>
    refine Triple.bind (Q := fun r s' => r = none ∧ s' = s) (fun s' hs' => ⟨rfl, hs'⟩)
      fun r => ?_
    cases r with
    | some a =>
      rintro s' ⟨hr, -⟩
      cases hr
    | none =>
      refine Triple.state_bind fun s' hs' => ?_
      obtain ⟨-, rfl⟩ := hs'
      cases hnext : t.next s' with
      | none =>
        simp only [id, hnext]
        refine Triple.pure fun _ h => ⟨h, fun hcomes => ?_⟩
        cases hcomes with
        | here heq _ =>
          rw [hnext] at heq
          cases heq
        | later heq _ =>
          rw [hnext] at heq
          cases heq
      | some t' =>
        simp only [id, hnext]
        split
        · exact Triple.signal fun _ h => h
        · rename_i hne
          refine (ih t').conseq (fun _ h => h) (fun _ _ h => ⟨h.1, fun hcomes => ?_⟩)
            (fun _ h => h)
          cases hcomes with
          | here heq hstart =>
            rw [hnext] at heq
            cases heq
            exact hne hstart
          | later heq hlater =>
            rw [hnext] at heq
            cases heq
            exact h.2 hlater

theorem Sound.setParents (h : Sound s) {parents : List Nat} (hm : m < s.next)
    (hps : ∀ p ∈ parents, p < s.next)
    (hnot : ∀ p ∈ parents, ¬ ReflTransGen (Link s) p m) :
    Sound (s.update m fun k => { k with parents := parents }) where
  wellFormed := h.wellFormed.setParents m hps
  caches x maps hx := by
    rw [Keymaps.map_update] at hx ⊢
    split
    · rename_i hxm
      rw [if_pos hxm] at hx
      exact h.caches m maps hx
    · rename_i hxm
      rw [if_neg hxm] at hx
      exact h.caches x maps hx
  fresh x hx := by
    rw [Keymaps.map_update]
    split
    · rename_i hxm
      exact absurd hm (Nat.not_lt.mpr (hxm ▸ hx))
    · exact h.fresh x hx
  lists := h.lists.update fun _ _ hr => .inl hr
  noCycle := by
    refine h.noCycle.link (m := m) hnot fun a b hab => ?_
    unfold Link at hab
    rw [Keymaps.map_update] at hab
    split at hab
    · rename_i ham
      obtain hk | hp := hab
      · exact .inl (.inl (ham ▸ hk))
      · exact .inr ⟨ham, hp⟩
    · exact .inl hab

/-- **New parents** make no cycle, if the walk sees the one they might make. -/
theorem setKeymapParents_sound (fuel : Nat) (h : Sound s) {parents : List Nat}
    (hm : m < s.next) (hps : ∀ p ∈ parents, p < s.next) (hsee : ParentsSee s m parents) :
    (setKeymapParents fuel m parents s).Meets True (fun _ => Sound) Sound := by
  refine Triple.bind (A := True) (P := (· = s))
    (Q := fun _ s' => s' = s ∧ ¬ Comes s m (.init s m parents)) ?_
    (fun _ => Triple.modify fun s' hs' => ?_) s rfl
  · refine Triple.state_bind fun s' hs' => ?_
    obtain rfl := hs'
    exact (traverseNoop_looks s' m fuel _).conseq (fun _ h => h) (fun _ _ h => h)
      (fun s'' hs'' => by rw [hs'']; exact h)
  · obtain ⟨rfl, hnot⟩ := hs'
    exact h.setParents hm hps fun p hp hreach => hnot (hsee ⟨p, hp, hreach⟩)

/-! ### Copying -/

/-- A keymap has been copied: old keymaps lead where they did, and what is new leads to keymaps
below `c` or to what is newer. -/
structure Grown (c : Nat) (s s' : Keymaps) : Prop where
  sound : Sound s'
  le : s.next ≤ s'.next
  old (a b : Nat) : a < s.next → (Link s' a b ↔ Link s a b)
  new (a b : Nat) : s.next ≤ a → Link s' a b → b < c ∨ a < b
  cache (x : Nat) : x < s.next → (s'.map x).subMapsCache = (s.map x).subMapsCache ∨
    (s.map x).subMapsCache = none

theorem Grown.trans {c : Nat} {s s' s'' : Keymaps} (h : Grown c s s') (h' : Grown c s' s'') :
    Grown c s s'' where
  sound := h'.sound
  le := h.le.trans h'.le
  old a b ha := (h'.old a b (ha.trans_le h.le)).trans (h.old a b ha)
  new a b ha hab := by
    by_cases ha' : a < s'.next
    · exact h.new a b ha ((h'.old a b ha').mp hab)
    · exact h'.new a b (Nat.not_lt.mp ha') hab
  cache x hx := by
    obtain heq | hnone := h.cache x hx
    · rw [← heq]
      exact h'.cache x (hx.trans_le h.le)
    · exact .inr hnone

/-- The keymaps below `c` lead only to each other. -/
def Closed (c : Nat) (s : Keymaps) : Prop :=
  ∀ a b, a < c → Link s a b → b < c

theorem Grown.closed {c : Nat} (h : Grown c s s') (hc : Closed c s) (hle : c ≤ s.next) :
    Closed c s' := fun a b ha hab => hc a b ha ((h.old a b (ha.trans_le hle)).mp hab)

theorem Grown.reach {c : Nat} (h : Grown c s s') (hc : Closed c s') {a x : Nat}
    (ha : s.next ≤ a) (hreach : ReflTransGen (Link s') a x) : x < c ∨ a ≤ x := by
  induction hreach with
  | refl => exact .inr (Nat.le_refl a)
  | @tail y z _ hyz ih =>
    obtain hy | hy := ih
    · exact .inl (hc y z hy hyz)
    · obtain hz | hz := h.new y z (ha.trans hy) hyz
      · exact .inl hz
      · exact .inr (hy.trans hz.le)

theorem Grown.binds {c n x : Nat} {k : Key} {s'' : Keymaps} (h : Grown c s s') (hn : s.next ≤ n)
    (hnx : n < x) (hs : Binds s' s'' n k (.keymap x)) (hsound : Sound s'') : Grown c s s'' where
  sound := hsound
  le := by
    rw [hs.next]
    exact h.le
  old a b ha := by
    refine Iff.trans ?_ (h.old a b ha)
    unfold Link
    rw [hs.table_other a (Nat.ne_of_lt (ha.trans_le hn)), hs.parents a]
  new a b ha hab := by
    obtain hab | ⟨rfl, heq⟩ := hs.link hab
    · exact h.new a b ha hab
    · cases heq
      exact .inr hnx
  cache y hy := by
    obtain heq | ⟨hnone, -⟩ := hs.cache y
    · rw [heq]
      exact h.cache y hy
    · obtain heq | hnone' := h.cache y hy
      · exact .inr (heq ▸ hnone)
      · exact .inr hnone'

theorem Sound.grown_copied (h : Sound s) {c : Nat} (hm : m < c) (hc : Closed c s)
    {s₁ : Keymaps} (hsame : SameTables (copied s m) s₁) (hlists : ListsEnd s₁) : Grown c s s₁ := by
  have hlink : Link s₁ = Link (copied s m) := link_congr hsame.table hsame.parents
  have hmap : ∀ x, x ≠ s.next → (copied s m).map x = s.map x := by
    intro x hx
    rw [copied, Keymaps.map_add, if_neg hx]
  have hnew : ∀ b, Link (copied s m) s.next b → Link s m b := by
    intro b hb
    unfold Link copied at hb
    rw [Keymaps.map_add, if_pos rfl] at hb
    exact hb
  have hold : ∀ a b, a ≠ s.next → (Link (copied s m) a b ↔ Link s a b) := by
    intro a b ha
    unfold Link
    rw [hmap a ha]
  have hcaches : CachesSound (copied s m) := by
    intro x maps hx
    by_cases hxn : x = s.next
    · rw [copied, Keymaps.map_add, if_pos hxn] at hx
      cases hx
      exact List.nil_subperm
    · rw [hmap x hxn] at hx ⊢
      exact h.caches x maps hx
  have hcycle : NoCycle (Link (copied s m)) := by
    refine h.noCycle.link (m := s.next) (D := Link s m) (fun b hb hreach => ?_)
      fun a b hab => ?_
    · -- nothing leads to a keymap that does not exist yet
      obtain rfl | ⟨y, -, hy⟩ := hreach.cases_tail
      · exact Nat.lt_irrefl _ (h.wellFormed.link_lt hb)
      · exact Nat.lt_irrefl _ (h.wellFormed.link_lt hy)
    · by_cases ha : a = s.next
      · exact .inr ⟨ha, hnew b (ha ▸ hab)⟩
      · exact .inl ((hold a b ha).mp hab)
  constructor
  · refine ⟨(wellFormed_copied h.wellFormed m).same hsame, fun x maps hx => ?_, fun x hx => ?_,
      hlists, hlink ▸ hcycle⟩
    · rw [hsame.cache x] at hx
      rw [hsame.table x]
      exact hcaches x maps hx
    · rw [hsame.next] at hx
      have hx : s.next + 1 ≤ x := hx
      rw [hsame.parents x, hmap x (Nat.ne_of_gt hx)]
      exact h.fresh x (Nat.le_of_succ_le hx)
  · rw [hsame.next]
    exact Nat.le_succ _
  · intro a b ha
    rw [hlink]
    exact hold a b (Nat.ne_of_lt ha)
  · intro a b ha hab
    rw [hlink] at hab
    by_cases han : a = s.next
    · exact .inl (hc m b hm (hnew b (han ▸ hab)))
    · obtain ⟨k, hk⟩ | hp := (hold a b han).mp hab
      · rw [h.wellFormed.fresh a ha] at hk
        cases hk
      · rw [h.fresh a ha] at hp
        cases hp
  · intro x hx
    left
    rw [hsame.cache x, hmap x (Nat.ne_of_lt hx)]

/-- The loop over the submaps, for the copy `n` of a keymap: the entries still to come lead to keymaps
below `c`. -/
structure CopiesInto (c n : Nat) (s : Keymaps) (l : List (Sigma fun _ : Key => Def))
    (s' : Keymaps) : Prop where
  grown : Grown c s s'
  lt : n < s'.next
  cache : (s'.map n).subMapsCache = some []
  entries : ∀ e ∈ l, ∀ o, e.2 = .keymap o → o < c

/-- **Copying** makes no cycle. -/
theorem copyKeymap_grows (fuel rounds : Nat) {c : Nat} (h : Sound s) (hc : Closed c s)
    (hle : c ≤ s.next) (hm : m < c) :
    (copyKeymap before fuel rounds m s).Meets True
      (fun n s' => n = s.next ∧ n < s'.next ∧ Grown c s s') Sound := by
  induction rounds generalizing s m with
  | zero => trivial
  | succ rounds ih =>
    have hinternal := (copyKeymapInternal_same Sound s m).and
      ((copyKeymapInternal_ends Sound m).conseq (C := (· = s))
        (fun _ hs => by rw [hs]; exact h.lists) (fun _ _ hs => hs) (fun _ hs => hs))
    refine Triple.bind (hinternal.conseq (fun _ hs => hs) (fun _ _ hs => hs) fun _ hs => hs.1)
      (fun n => ?_) s rfl
    refine Triple.state_bind fun s₁ hs₁ => ?_
    obtain ⟨⟨rfl, hsame⟩, hlists⟩ := hs₁
    have hgrown := h.grown_copied hm hc hsame hlists
    have hmap : (copied s m).map s.next = { s.map m with subMapsCache := some [] } := by
      rw [copied, Keymaps.map_add, if_pos rfl]
    have hstart : CopiesInto c s.next s (s₁.map s.next).table.entries s₁ := by
      refine ⟨hgrown, ?_, ?_, fun e he o heo => ?_⟩
      · rw [hsame.next]
        exact Nat.lt_succ_self _
      · rw [hsame.cache, hmap]
      · rw [hsame.table, hmap] at he
        have hlookup : (s.map m).table.lookup e.1 = some (.keymap o) := by
          rw [← Option.mem_def, AList.mem_lookup_iff, ← heo]
          exact he
        exact hc m o hm (.inl ⟨e.1, hlookup⟩)
    rintro s₁ rfl
    refine Triple.bind (Triple.forM (I := CopiesInto c s.next s) (fun e l => ?_) _)
      (fun _ => Triple.pure fun s' hs' => ⟨rfl, hs'.lt, hs'.grown⟩) s₁ hstart
    rintro s₂ hs₂
    have hrest := fun e' he' => hs₂.entries e' (List.mem_cons_of_mem e he')
    obtain ⟨k, d⟩ := e
    cases d with
    | nil => exact ⟨hs₂.grown, hs₂.lt, hs₂.cache, hrest⟩
    | command i => exact ⟨hs₂.grown, hs₂.lt, hs₂.cache, hrest⟩
    | item i d => exact ⟨hs₂.grown, hs₂.lt, hs₂.cache, hrest⟩
    | keymap o =>
      have ho := hs₂.entries _ (List.mem_cons_self ..) o rfl
      have hclosed := hs₂.grown.closed hc hle
      have hcopy := ih hs₂.grown.sound hclosed (hle.trans hs₂.grown.le) ho
      refine Triple.bind (A := True) (P := (· = s₂)) (Q := fun n s' => n = s₂.next ∧ n < s'.next ∧
        Grown c s₂ s') (fun _ hs => by rw [hs]; exact hcopy) (fun copy => ?_) s₂ rfl
      rintro s₃ ⟨rfl, hlt, hgrown₃⟩
      have hcache : (s₃.map s.next).subMapsCache = some [] := by
        obtain heq | hnone := hgrown₃.cache s.next hs₂.lt
        · exact heq.trans hs₂.cache
        · rw [hs₂.cache] at hnone
          cases hnone
      have hclosed₃ := hgrown₃.closed hclosed (hle.trans hs₂.grown.le)
      -- the copy does not lead back to the keymap it goes into
      have hsees : StoreSees s₃ s.next (.keymap s₂.next) := by
        rintro x hx hreach
        cases hx
        obtain hlow | hhigh := hgrown₃.reach hclosed₃ (Nat.le_refl _) hreach
        · exact absurd hle (Nat.not_le.mpr hlow)
        · exact absurd hs₂.lt (Nat.not_lt.mpr hhigh)
      have hempty : ∀ maps, (s₃.map s.next).subMapsCache = some maps → maps = [] := by
        intro maps hmaps
        rw [hcache] at hmaps
        cases hmaps
        rfl
      have hlive : (Def.keymap s₂.next).live s₃.next = true := decide_eq_true hlt
      have hstore := keymapStoreInternal_sound before fuel hgrown₃.sound (k := k)
        (hs₂.lt.trans_le hgrown₃.le) hlive hempty hsees
      cases hrun : keymapStoreInternal before fuel k s.next (.keymap s₂.next) s₃ with
      | diverges => trivial
      | aborts => trivial
      | signals s₄ =>
        rw [hrun] at hstore
        exact hstore
      | returns u s₄ =>
        rw [hrun] at hstore
        have hall := hs₂.grown.trans hgrown₃
        obtain ⟨hsound, rfl | hbinds⟩ := hstore
        · exact ⟨hall, hs₂.lt.trans_le hgrown₃.le, hcache, hrest⟩
        · refine ⟨hall.binds (Nat.le_refl _) hs₂.lt hbinds hsound, ?_, ?_, hrest⟩
          · rw [hbinds.next]
            exact hs₂.lt.trans_le hgrown₃.le
          · rw [hbinds.cache_self]
            exact hcache

/-! ### The operations -/

/-- Where an operation might make a cycle the code sees it: each store of `define-key` meets
`StoreSees`, so that stopping before those that do not makes no difference. -/
def MapOp.Sees (env : KeyEnv) (fuel : Nat) (s : Keymaps) : MapOp → Prop
  | .defineKey m keys d => m < s.next → d.live s.next = true →
    defineKeyWith env before fuel (assertedStore before fuel) m keys d s
      = Keymap.defineKey env before fuel m keys d s
  | .setKeymapParents m parents => ParentsSee s m parents
  | _ => True

/-- **Each operation** keeps keymaps without cycles, if it sees the cycle it might make. -/
theorem MapOp.exec_sound (env : KeyEnv) (fuel : Nat) (h : Sound s) (op : MapOp)
    (hsees : op.Sees before env fuel s) :
    (op.exec env before fuel s).Meets True (fun _ => Sound) Sound := by
  cases op with
  | makeKeymap => exact h.newKeymap
  | defineKey m keys d =>
    rw [exec, bind_of_returns (state_apply s)]
    split
    · rename_i hlive
      rw [← hsees hlive.1 hlive.2]
      exact (sound_maintains before fuel).defineKeyWith env before fuel keys s ⟨h, hlive⟩
    · exact h
  | setKeymapParents m parents =>
    rw [exec, bind_of_returns (state_apply s)]
    split
    · rename_i hlive
      exact setKeymapParents_sound fuel h hlive.1 hlive.2 hsees
    · exact h
  | copyKeymap m =>
    rw [exec, bind_of_returns (state_apply s)]
    split
    · rename_i hlt
      have hclosed : Closed s.next s := fun _ _ _ hab => h.wellFormed.link_lt hab
      have hcopy := copyKeymap_grows before fuel fuel h hclosed (Nat.le_refl _) hlt
      refine Triple.bind (P := (· = s)) (Q := fun _ => Sound) (fun s' hs' => ?_)
        (fun _ => Triple.pure fun _ h => h) s rfl
      rw [hs']
      cases hrun : Keymap.copyKeymap before fuel fuel m s with
      | diverges => trivial
      | aborts => trivial
      | signals t =>
        rw [hrun] at hcopy
        exact hcopy
      | returns n t =>
        rw [hrun] at hcopy
        exact hcopy.2.2.sound
    · exact h
  | keymapSubmaps m =>
    rw [exec, bind_of_returns (state_apply s)]
    split
    · obtain ⟨maps, s', hrun, hfill, -⟩ := keymapSubmaps_spec before m s
      rw [bind_of_returns hrun]
      exact h.filled hfill
    · exact h

theorem sound_noKeymaps : Sound noKeymaps where
  wellFormed := by
    refine ⟨fun m k d h => ?_, fun m p h => ?_, fun m k h => ?_, fun _ _ => rfl⟩
    · cases h
    · cases h
    · cases h
  caches _ _ h := by
    cases h
    exact List.nil_subperm
  fresh _ _ := rfl
  lists := by
    refine ⟨⟨fun _ => 0, fun h => ?_, fun h => ?_⟩, fun _ _ _ h => ?_⟩
    · cases h
    · cases h
    · cases h
  noCycle := by
    intro a ha
    obtain ⟨b, hab, -⟩ := TransGen.head'_iff.mp ha
    obtain ⟨k, hk⟩ | hp := hab
    · cases hk
    · cases hp

/-- **In every run** whose operations see the cycles they might make there is no cycle. -/
theorem sound_of_run (env : KeyEnv) (fuel : Nat) {ops : List MapOp}
    (h : Runs.StepsMeet (MapOp.step env before fuel)
      (fun s op => op.Sees before env fuel s) noKeymaps ops)
    (hs : Runs.after (MapOp.step env before fuel) noKeymaps ops = some s) : Sound s :=
  h.after_of_step (fun s op _ hsound hsees hstep =>
    Triple.of_state? (P := (· = s))
      (fun _ ht => ht ▸ MapOp.exec_sound before env fuel hsound op hsees) rfl hstep)
    sound_noKeymaps hs

end XEmacs.Keymap

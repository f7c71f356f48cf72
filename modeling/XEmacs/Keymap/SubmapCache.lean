import XEmacs.Keymap.Maintain
import XEmacs.Lib.Runs

/-!
# The cache of submaps

Whoever stores a binding forgets the cache of the keymap first, so a cache that is known lists
the entries that are keymaps. `copy-keymap` is the exception.
-/

namespace XEmacs.Keymap

open Commands

/-- A cache that is known lists exactly the entries of the table whose value is a
keymap. -/
def CachesExact (s : Keymaps) : Prop :=
  ∀ m maps, (s.map m).subMapsCache = some maps →
    maps.Perm (submapEntries (s.map m).table)

namespace CachesExact

variable {s s' : Keymaps}

theorem filled (h : CachesExact s) (hs : Filled s s') : CachesExact s' := by
  intro m maps hm
  rw [hs.table m]
  rcases hs.cache m with heq | ⟨-, maps', hmaps', hperm⟩
  · rw [heq] at hm
    exact h m maps hm
  · rw [hmaps'] at hm
    cases hm
    exact hperm

theorem binds {m : Nat} {k : Key} {d : Def} (h : CachesExact s)
    (hs : Binds s s' m k d) (hm : (s.map m).subMapsCache = none) : CachesExact s' := by
  intro x maps hx
  by_cases hxm : x = m
  · rw [hxm, hs.cache_self, hm] at hx
    cases hx
  · rw [hs.table_other x hxm]
    rcases hs.cache x with heq | ⟨-, maps', hmaps', hperm⟩
    · rw [heq] at hx
      exact h x maps hx
    · rw [hmaps'] at hx
      cases hx
      exact hperm

theorem same (h : CachesExact s) (hs : SameTables s s') : CachesExact s' := by
  intro m maps hm
  rw [hs.cache m] at hm
  rw [hs.table m]
  exact h m maps hm

theorem unknown (h : CachesExact s) (m : Nat) : CachesExact (s.setCache m none) := by
  intro x maps hx
  rw [Keymaps.setCache, Keymaps.map_update] at hx ⊢
  split at hx
  · cases hx
  · next hxm =>
    rw [if_neg hxm]
    exact h x maps hx

theorem add (h : CachesExact s) {k : LispKeymap}
    (hk : ∀ maps, k.subMapsCache = some maps → maps.Perm (submapEntries k.table)) :
    CachesExact (s.add k) := by
  intro m maps hm
  rw [Keymaps.map_add] at hm ⊢
  split
  · next hmn =>
    rw [if_pos hmn] at hm
    exact hk maps hm
  · next hmn =>
    rw [if_neg hmn] at hm
    exact h m maps hm

theorem setParents (h : CachesExact s) (m : Nat) (ps : List Nat) :
    CachesExact (s.update m fun k => { k with parents := ps }) := by
  intro x maps hx
  rw [Keymaps.map_update] at hx ⊢
  split
  · next hxm =>
    rw [if_pos hxm] at hx
    exact h m maps hx
  · next hxm =>
    rw [if_neg hxm] at hx
    exact h x maps hx

end CachesExact

variable (env : KeyEnv) (before : Key → Key → Bool) (fuel : Nat)

/-- The states this module is about. -/
def Cached (s : Keymaps) : Prop :=
  WellFormed s ∧ CachesExact s

theorem cached_maintains : Maintains True (keymapStoreInternal before fuel) Cached where
  wellFormed _ h := h.1
  filled _ _ h hs := ⟨h.1.filled hs, h.2.filled hs⟩
  unknown _ m h := ⟨h.1.setCache m none, h.2.unknown m⟩
  newKeymap _ h := ⟨h.1.newKeymap, h.2.add fun maps hmaps => by cases hmaps; exact .nil⟩
  store k m d s h hm hd hcache := by
    have hbinds := keymapStoreInternal_binds before fuel s k m d
    cases hrun : keymapStoreInternal before fuel k m d s with
    | diverges => trivial
    | aborts => trivial
    | signals s' =>
      rw [hrun] at hbinds
      exact ⟨h.1.filled hbinds, h.2.filled hbinds⟩
    | returns u s' =>
      rw [hrun] at hbinds
      rcases hbinds with ⟨-, rfl⟩ | hbinds
      · exact ⟨h, rfl⟩
      · exact ⟨⟨h.1.binds hbinds hm hd, h.2.binds hbinds hcache⟩, hbinds.next⟩

/-- **Copying a keymap without submaps** keeps the caches. -/
theorem copyKeymap_cached (rounds : Nat) {m : Nat} {s : Keymaps} (h : Cached s)
    (hm : submapEntries (s.map m).table = []) :
    (copyKeymap before fuel rounds m s).Meets True (fun _ => Cached) Cached := by
  cases rounds with
  | zero => trivial
  | succ rounds =>
    have hcopied : Cached (copied s m) := ⟨wellFormed_copied h.1 m, h.2.add fun maps hmaps =>
      by cases hmaps; rw [hm]⟩
    refine Triple.bind (copyKeymapInternal_same Cached s m) (fun n => ?_) s rfl
    refine Triple.state_bind fun s' hs' => ?_
    obtain ⟨rfl, hsame⟩ := hs'
    have htable : (s'.map s.next).table = (s.map m).table := by
      rw [hsame.table, copied, Keymaps.map_add, if_pos rfl]
    have hentries : ∀ e ∈ (s'.map s.next).table.entries, ∀ o, e.2 ≠ .keymap o := by
      intro e he o heo
      rw [htable] at he
      have hmem : (e.1, o) ∈ submapEntries (s.map m).table :=
        List.mem_filterMap.mpr ⟨e, he, by rw [heo]⟩
      rw [hm] at hmem
      exact List.not_mem_nil hmem
    rintro s' rfl
    refine Triple.bind (Triple.forM (I := fun l s => (∀ e ∈ l, ∀ o, e.2 ≠ .keymap o) ∧
      Cached s) (fun e l => ?_) _) (fun _ => Triple.pure fun _ h => h.2) s'
      ⟨hentries, hcopied.1.same hsame, hcopied.2.same hsame⟩
    rintro s₁ ⟨hl, hs₁⟩
    have hrest := fun e' he' => hl e' (List.mem_cons_of_mem e he')
    obtain ⟨k, d⟩ := e
    cases d with
    | keymap o => exact absurd rfl (hl _ (List.mem_cons_self ..) o)
    | nil => exact ⟨hrest, hs₁⟩
    | command i => exact ⟨hrest, hs₁⟩
    | item i d => exact ⟨hrest, hs₁⟩

/-- A copied keymap has no submap. -/
def MapOp.CopiesNoSubmap (s : Keymaps) : MapOp → Prop
  | .copyKeymap m => submapEntries (s.map m).table = []
  | _ => True

/-- **Each operation** but the copy of a keymap with submaps keeps the caches. -/
theorem MapOp.exec_cached {s : Keymaps} (h : Cached s) (op : MapOp)
    (hop : op.CopiesNoSubmap s) :
    (op.exec env before fuel s).Meets True (fun _ => Cached) Cached := by
  have hmaintains := cached_maintains before fuel
  cases op with
  | makeKeymap => exact hmaintains.newKeymap s h
  | defineKey m keys d =>
    rw [exec, bind_of_returns (state_apply s)]
    split
    · next hlive => exact hmaintains.defineKeyWith env before fuel keys s ⟨h, hlive⟩
    · exact h
  | setKeymapParents m parents =>
    rw [exec, bind_of_returns (state_apply s)]
    split
    · next hlive =>
      refine Triple.bind (A := True) (P := (· = s)) (Q := fun _ => (· = s)) ?_
        (fun _ => Triple.modify fun s' hs' => ?_) s rfl
      · refine Triple.state_bind fun s' hs' => ?_
        exact (traverseNoop_keeps s' m fuel _).conseq (fun _ h => h)
          (fun _ _ h => h.trans hs') (fun s'' h'' => by rw [h'', hs']; exact h)
      · rw [hs']
        exact ⟨h.1.setParents m hlive.2, h.2.setParents m parents⟩
    · exact h
  | copyKeymap m =>
    rw [exec, bind_of_returns (state_apply s)]
    split
    · exact Triple.bind (P := (· = s)) (Q := fun _ => Cached)
        (fun s' hs' => by rw [hs']; exact copyKeymap_cached before fuel fuel h hop)
        (fun _ => Triple.pure fun _ h => h) s rfl
    · exact h
  | keymapSubmaps m =>
    rw [exec, bind_of_returns (state_apply s)]
    split
    · obtain ⟨maps, s', hrun, hfill, -⟩ := keymapSubmaps_spec before m s
      rw [bind_of_returns hrun]
      exact ⟨h.1.filled hfill, h.2.filled hfill⟩
    · exact h

theorem cached_noKeymaps : Cached noKeymaps :=
  ⟨⟨nofun, nofun, nofun, fun _ _ => rfl⟩, fun _ _ h => by cases h; exact .nil⟩

/-- **In every run** in which no keymap with submaps is copied, in every state reached
a known cache lists exactly the submaps, and so does `keymap_submaps`. -/
theorem caches_exact (ops : List MapOp)
    (h : Runs.StepsMeet (MapOp.step env before fuel) (fun s op => op.CopiesNoSubmap s)
      noKeymaps ops) (s : Keymaps)
    (hs : Runs.after (MapOp.step env before fuel) noKeymaps ops = some s) :
    CachesExact s ∧ ∀ m, ∃ maps s', keymapSubmaps before m s = .returns maps s' ∧
      maps.Perm (submapEntries (s.map m).table) := by
  have hstep : ∀ s op, Cached s → op.CopiesNoSubmap s → True ∧
      ∀ s', MapOp.step env before fuel s op = some s' → Cached s' :=
    fun s op hc hop => ⟨trivial, fun s' hs' => Triple.of_state? (P := (· = s))
      (fun t ht => ht ▸ MapOp.exec_cached env before fuel hc op hop) rfl hs'⟩
  obtain ⟨hwf, hex⟩ := (h.keeps hstep cached_noKeymaps).2 s hs
  refine ⟨hex, fun m => ?_⟩
  obtain ⟨maps, s', hrun, hfill, -, hcache⟩ := keymapSubmaps_spec before m s
  have hperm := hex.filled hfill m maps hcache
  rw [hfill.table m] at hperm
  exact ⟨maps, s', hrun, hperm⟩

/-- No keysym has an ASCII code, and `meta-prefix-char` is the escape character. -/
def plainEnv : KeyEnv where
  asciiCharacter := fun _ => none
  metaPrefixChar := .char 27

/-- The key order of the examples. -/
def keyOrder : Key → Key → Bool :=
  fun _ _ => true

/-- A keymap with a prefix key `a`. -/
def onePrefix : List MapOp :=
  [.makeKeymap, .makeKeymap,
    .defineKey 0 (.vector [some ⟨.char 97, .none⟩]) (.keymap 1)]

theorem onePrefix_cached : ∃ s, Runs.after (MapOp.step plainEnv keyOrder 5) noKeymaps
    (onePrefix ++ [.keymapSubmaps 0, .copyKeymap 1]) = some s ∧ CachesExact s := by
  refine ⟨_, rfl, (caches_exact plainEnv keyOrder 5
    (onePrefix ++ [.keymapSubmaps 0, .copyKeymap 1]) ?_ _ rfl).1⟩
  refine ⟨trivial, fun s₁ h₁ => ⟨trivial, fun s₂ h₂ => ⟨trivial, fun s₃ h₃ => ⟨trivial,
    fun s₄ h₄ => ⟨?_, fun _ _ => trivial⟩⟩⟩⟩⟩
  obtain rfl := Option.some.inj h₁
  obtain rfl := Option.some.inj h₂
  obtain rfl := Option.some.inj h₃
  obtain rfl := Option.some.inj h₄
  rfl

/-- The copy of a keymap with a prefix key says that it has no submaps. -/
theorem caches_not_exact : ¬ ∀ ops s,
    Runs.after (MapOp.step plainEnv keyOrder 5) noKeymaps ops = some s →
    CachesExact s := by
  intro h
  have hrun : ∃ s, Runs.after (MapOp.step plainEnv keyOrder 5) noKeymaps
      (onePrefix ++ [.copyKeymap 0]) = some s ∧ (s.map 2).subMapsCache = some [] ∧
      submapEntries (s.map 2).table = [(.keysym (.char 97), 3)] := ⟨_, rfl, rfl, rfl⟩
  obtain ⟨s, hs, hcache, hentries⟩ := hrun
  have hperm := h _ s hs 2 [] hcache
  rw [hentries] at hperm
  exact absurd hperm.length_eq (by decide)

end XEmacs.Keymap

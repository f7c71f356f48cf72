import XEmacs.Keymap.KeyLists

/-!
# A store and the inverse table

An entry of an inverse table is exact if it lists the keys that have the binding, each once. A
store keeps the entries exact unless it takes away a key that a list of several keys keeps as its
last cdr.
-/

namespace XEmacs.Keymap

open Commands ConsLists List Function

variable (before : Key → Key → Bool) (fuel : Nat)

/-! ### One store -/

section store

variable {before fuel} {s : Keymaps} {fp : Nat × Def → List Nat}
  {view : Nat × Def → Option KeyList}

/-- The key lists after the binding `prev` of `k` is gone. -/
def unbindView (view : Nat × Def → Option KeyList) (m : Nat) (k : Key) (prev : Def) :
    Nat × Def → Option KeyList :=
  if prev = .nil then view
  else Function.update view (m, prev) ((view (m, prev)).bind (deleteKey k))

/-- The key lists after `k` has got the binding `d`. -/
def bindView (view : Nat × Def → Option KeyList) (m : Nat) (k : Key) (d : Def) :
    Nat × Def → Option KeyList :=
  if d = .nil then view
  else Function.update view (m, d) (some (addKey k (view (m, d))))

theorem storeDef_reads (h : Reads s fp view) (m : Nat) (k : Key) (d : Def) :
    ∃ s' fp', storeDef m k d s = .returns () s' ∧
      Binds s s' m k d ∧ Reads s' fp' (bindView view m k d) := by
  have hentry : ∀ (f : LispKeymap → LispKeymap), (∀ x, (f x).inverseTable = x.inverseTable) →
      ∀ i, (s.update m f).entry i = s.entry i := by
    intro f hf i
    rw [Keymaps.entry, Keymaps.entry, Keymaps.map_update]
    split
    · next hi => rw [hf, hi]
    · rfl
  by_cases hd : d = .nil
  · have hbinds := Binds.of_bound (s := s) (m := m) (k := k) (d := d)
    simp only [bound, if_pos hd] at hbinds
    rw [storeDef, if_pos hd, bindView, if_pos hd]
    refine ⟨s.remTable m k, fp, rfl, hbinds, h.congr rfl fun i _ =>
      hentry (fun x => { x with table := x.table.erase k }) (fun _ => rfl) i⟩
  · have hbinds := Binds.of_bound (s := s) (m := m) (k := k) (d := d)
    simp only [bound, if_neg hd] at hbinds
    have hput : Reads (s.putTable m k d) fp view := h.congr rfl fun i _ =>
      hentry (fun x => { x with table := x.table.insert k d }) (fun _ => rfl) i
    obtain ⟨s', fp', hrun, hsame, hreads⟩ := keymapStoreInverseInternal_reads hput m k d
    rw [storeDef, if_neg hd, bindView, if_neg hd]
    exact ⟨s', fp', (bind_of_returns (modify_apply s _)).trans hrun, hbinds.same hsame,
      hreads⟩

/-- **A store** whose check for a loop passes: the key is bound, and the key lists are
edited. -/
theorem keymapStoreInternal_reads (h : Reads s fp view) {k : Key} {m : Nat} {d : Def}
    {s₁ : Keymaps} (hne : (s.map m).gethash k ≠ d)
    (hcheck : checkKeymapDefinitionLoop before fuel d m s = .returns () s₁)
    (hprev : (s.map m).gethash k ≠ .nil → ∃ e, view (m, (s.map m).gethash k) = some e ∧
      (k ∈ e.1 ∨ k = e.2)) :
    ∃ s' fp', keymapStoreInternal before fuel k m d s = .returns () s' ∧
      Binds s s' m k d ∧
      Reads s' fp' (bindView (unbindView view m k ((s.map m).gethash k)) m k d) := by
  have hfill : Filled s s₁ ∧ (s₁.map m).subMapsCache = (s.map m).subMapsCache := by
    have := checkKeymapDefinitionLoop_filled before False s fuel d m s ⟨.refl s, rfl⟩
    rwa [hcheck] at this
  have hreads₁ := h.filled hfill.1
  rw [keymapStoreInternal_of_ne hne, bind_of_returns hcheck]
  by_cases hp : (s.map m).gethash k = .nil
  · obtain ⟨s', fp', hrun, hbinds, hreads⟩ := storeDef_reads hreads₁ m k d
    refine ⟨s', fp', ?_, hfill.1.binds hfill.2 hbinds, ?_⟩
    · rw [deletePrevDef, if_neg (not_not.mpr hp), bind_of_returns (pure_apply s₁ ())]
      exact hrun
    · rwa [unbindView, if_pos hp]
  · obtain ⟨e, he, hk⟩ := hprev hp
    obtain ⟨s₂, fp₂, hdel, hsame, hreads₂⟩ :=
      keymapDeleteInverseInternal_reads hreads₁ he hk
    obtain ⟨s', fp', hrun, hbinds, hreads⟩ := storeDef_reads hreads₂ m k d
    refine ⟨s', fp', ?_, hfill.1.binds hfill.2 (hsame.binds hbinds), ?_⟩
    · rw [deletePrevDef, if_pos hp, bind_of_returns hdel]
      exact hrun
    · rwa [unbindView, if_neg hp, he, Option.bind_some]

theorem bindView_self (view : Nat × Def → Option KeyList) (m : Nat) (k : Key) {d : Def}
    (hd : d ≠ .nil) : bindView view m k d (m, d) = some (addKey k (view (m, d))) := by
  rw [bindView, if_neg hd, update_self]

theorem bindView_of_ne (view : Nat × Def → Option KeyList) (m : Nat) (k : Key) {d : Def}
    {i : Nat × Def} (hi : i ≠ (m, d)) : bindView view m k d i = view i := by
  unfold bindView
  split
  · rfl
  · exact update_of_ne hi _ _

theorem unbindView_self (view : Nat × Def → Option KeyList) (m : Nat) (k : Key)
    {d : Def} (hd : d ≠ .nil) :
    unbindView view m k d (m, d) = (view (m, d)).bind (deleteKey k) := by
  rw [unbindView, if_neg hd, update_self]

theorem unbindView_of_ne (view : Nat × Def → Option KeyList) (m : Nat) (k : Key)
    {d : Def} {i : Nat × Def} (hi : i ≠ (m, d)) : unbindView view m k d i = view i := by
  unfold unbindView
  split
  · rfl
  · exact update_of_ne hi _ _

end store

/-! ### Exact entries -/

/-- An entry lists exactly the keys that have the binding, each once; there is none
where no key has it. -/
def ExactEntry (t : AList fun _ : Key => Def) (d : Def) : Option KeyList → Prop
  | none => ∀ k, t.lookup k ≠ some d
  | some e => (e.1 ++ [e.2]).Nodup ∧ ∀ k, k ∈ e.1 ++ [e.2] ↔ t.lookup k = some d

/-- An entry that a copy is about to empty: exact, or with the last key gone and nil
in its place. -/
def WaningEntry (t : AList fun _ : Key => Def) (d : Def) : Option KeyList → Prop
  | none => ∀ k, t.lookup k ≠ some d
  | some e => ExactEntry t d (some e) ∧ (e.1 = [] ∨ e.2 ≠ .nil) ∨
      e.2 = .nil ∧ e.1 ≠ [] ∧ e.1.Nodup ∧ ∀ k, k ∈ e.1 ↔ t.lookup k = some d

/-- A key may go: it is the only one, or it is not the last one and what stays is more
than a lone nil. -/
def MayGo (k : Key) (e : KeyList) : Prop :=
  e.1 = [] ∨ k ∈ e.1 ∧ ¬ (e.1 = [k] ∧ e.2 = .nil)

section exact

variable {t t' : AList fun _ : Key => Def} {d : Def} {e : Option KeyList} {k : Key}

theorem ExactEntry.congr (h : ExactEntry t d e)
    (ht : ∀ k, t'.lookup k = some d ↔ t.lookup k = some d) : ExactEntry t' d e := by
  cases e with
  | none => exact fun k hk => h k ((ht k).mp hk)
  | some e => exact ⟨h.1, fun k => (h.2 k).trans (ht k).symm⟩

theorem WaningEntry.congr (h : WaningEntry t d e)
    (ht : ∀ k, t'.lookup k = some d ↔ t.lookup k = some d) : WaningEntry t' d e := by
  cases e with
  | none => exact fun k hk => h k ((ht k).mp hk)
  | some e =>
    rcases h with ⟨hex, hlast⟩ | ⟨hz, hne, hnd, hmem⟩
    · exact .inl ⟨hex.congr ht, hlast⟩
    · exact .inr ⟨hz, hne, hnd, fun k => (hmem k).trans (ht k).symm⟩

theorem ExactEntry.exists_of_lookup (h : ExactEntry t d e) (hk : t.lookup k = some d) :
    ∃ l, e = some l ∧ (k ∈ l.1 ∨ k = l.2) := by
  cases e with
  | none => exact absurd hk (h k)
  | some l =>
    have hmem := (h.2 k).mpr hk
    rw [mem_append, mem_singleton] at hmem
    exact ⟨l, rfl, hmem⟩

theorem WaningEntry.exists_of_lookup (h : WaningEntry t d e) (hk : t.lookup k = some d) :
    ∃ l, e = some l ∧ (k ∈ l.1 ∨ k = l.2) := by
  cases e with
  | none => exact absurd hk (h k)
  | some l =>
    rcases h with ⟨hex, -⟩ | ⟨-, -, -, hmem⟩
    · exact hex.exists_of_lookup hk
    · exact ⟨l, rfl, .inl ((hmem k).mpr hk)⟩

theorem ExactEntry.eq_none (h : ExactEntry t d e) (ht : ∀ k, t.lookup k ≠ some d) :
    e = none := by
  cases e with
  | none => rfl
  | some l =>
    exact absurd ((h.2 l.2).mp (mem_append_right _ (mem_singleton_self _)))
      (ht l.2)

theorem WaningEntry.eq_none (h : WaningEntry t d e) (ht : ∀ k, t.lookup k ≠ some d) :
    e = none := by
  cases e with
  | none => rfl
  | some l =>
    rcases h with ⟨hex, -⟩ | ⟨-, hne, -, hmem⟩
    · exact hex.eq_none ht
    · obtain ⟨a, as, ha⟩ := exists_cons_of_ne_nil hne
      exact absurd ((hmem a).mp (ha ▸ mem_cons_self ..)) (ht a)

theorem ExactEntry.add (h : ExactEntry t d e) (hk : t.lookup k ≠ some d)
    (hk' : t'.lookup k = some d) (ht : ∀ k' ≠ k, t'.lookup k' = t.lookup k') :
    ExactEntry t' d (some (addKey k e)) := by
  cases e with
  | none =>
    refine ⟨nodup_singleton _, fun k' => ?_⟩
    by_cases hkk : k' = k
    · rw [hkk]
      exact iff_of_true (mem_singleton_self _) hk'
    · rw [ht k' hkk]
      exact iff_of_false (fun hmem => hkk (List.mem_singleton.mp hmem)) (h k')
  | some l =>
    have hnew : k ∉ l.1 ++ [l.2] := fun hmem => hk ((h.2 k).mp hmem)
    refine ⟨h.1.append (nodup_singleton _) fun a ha ha' => ?_, fun k' => ?_⟩
    · rw [List.mem_singleton.mp ha'] at ha
      exact hnew ha
    · show k' ∈ (l.1 ++ [l.2]) ++ [k] ↔ _
      rw [mem_append, mem_singleton]
      by_cases hkk : k' = k
      · rw [hkk]
        exact iff_of_true (.inr rfl) hk'
      · rw [ht k' hkk, ← h.2 k']
        exact ⟨fun hmem => hmem.resolve_right hkk, .inl⟩

theorem eq_singleton_of_erase {ks : List Key} (hk : k ∈ ks) (h : ks.erase k = []) :
    ks = [k] := by
  have hperm := perm_cons_erase hk
  rw [h] at hperm
  exact List.perm_singleton.mp hperm

theorem deleteKey_of_mem {ks : List Key} {z : Key} (hk : k ∈ ks)
    (h : ¬ (ks = [k] ∧ z = .nil)) : deleteKey k (ks, z) = some (ks.erase k, z) := by
  have hrem : remaining Key.nil k ks z = (ks.erase k, z) := if_pos hk
  rw [deleteKey, hrem]
  refine if_neg fun heq => h ?_
  rw [Prod.mk.injEq] at heq
  exact ⟨eq_singleton_of_erase hk heq.1, heq.2⟩

theorem deleteKey_single (z : Key) : deleteKey k ([], z) = none := by
  have hrem : remaining Key.nil k [] z = ([], .nil) := if_neg not_mem_nil
  rw [deleteKey, hrem]
  exact if_pos rfl

theorem ExactEntry.delete {l : KeyList} (h : ExactEntry t d (some l))
    (hgo : MayGo k l) (hk : t.lookup k = some d) (hk' : t'.lookup k ≠ some d)
    (ht : ∀ k' ≠ k, t'.lookup k' = t.lookup k') : ExactEntry t' d (deleteKey k l) := by
  obtain ⟨ks, z⟩ := l
  obtain ⟨hnd, hmem⟩ := h
  have hkmem := (hmem k).mpr hk
  rcases hgo with hks | ⟨hin, hno⟩
  · simp only at hks
    subst hks
    obtain rfl : k = z := List.mem_singleton.mp hkmem
    rw [deleteKey_single]
    intro k' hlook
    by_cases hkk : k' = k
    · exact hk' (hkk ▸ hlook)
    · rw [ht k' hkk] at hlook
      exact hkk (List.mem_singleton.mp ((hmem k').mpr hlook))
  · rw [deleteKey_of_mem hin hno]
    have hkz : k ≠ z := fun heq =>
      (List.nodup_append.mp hnd).2.2 k hin z (mem_singleton_self z) heq
    refine ⟨hnd.sublist ((erase_sublist ..).append_right [z]), fun k' => ?_⟩
    by_cases hkk : k' = k
    · subst hkk
      refine iff_of_false (fun hmem' => ?_) hk'
      rcases List.mem_append.mp hmem' with hmem' | hmem'
      · exact ((List.Nodup.mem_erase_iff (List.nodup_append.mp hnd).1).mp hmem').1 rfl
      · exact hkz (List.mem_singleton.mp hmem')
    · rw [ht k' hkk, ← hmem k', mem_append, mem_append,
        mem_erase_of_ne hkk]

theorem WaningEntry.delete {l : KeyList} (h : WaningEntry t d (some l))
    (hk : t.lookup k = some d) (hk' : t'.lookup k ≠ some d)
    (ht : ∀ k' ≠ k, t'.lookup k' = t.lookup k') : WaningEntry t' d (deleteKey k l) := by
  obtain ⟨ks, z⟩ := l
  rcases h with ⟨hex, hlast⟩ | ⟨hz, hne, hnd, hmem⟩
  · by_cases hgo : MayGo k (ks, z)
    · have hdel := hex.delete hgo hk hk' ht
      rcases hgo with hks | ⟨hin, hno⟩
      · simp only at hks
        subst hks
        rw [deleteKey_single] at hdel ⊢
        exact hdel
      · rw [deleteKey_of_mem hin hno] at hdel ⊢
        exact .inl ⟨hdel, .inr (hlast.resolve_left (ne_nil_of_mem hin))⟩
    · -- the last key goes
      have hks : ks ≠ [] := fun heq => hgo (.inl heq)
      have hz : z ≠ .nil := hlast.resolve_left hks
      have hnot : k ∉ ks := fun hin => hgo (.inr ⟨hin, fun hc => hz hc.2⟩)
      obtain ⟨hnd, hmem⟩ := hex
      have hkz : k = z := by
        have hkmem := (hmem k).mpr hk
        rw [mem_append, mem_singleton] at hkmem
        exact hkmem.resolve_left hnot
      have hdel : deleteKey k (ks, z) = some (ks, .nil) := by
        have hrem : remaining Key.nil k ks z = (ks, .nil) := if_neg hnot
        rw [deleteKey, hrem]
        exact if_neg fun heq => hks (Prod.mk.inj heq).1
      rw [hdel]
      refine .inr ⟨rfl, hks, (List.nodup_append.mp hnd).1, fun k' => ?_⟩
      by_cases hkk : k' = k
      · rw [hkk]
        exact iff_of_false hnot hk'
      · rw [ht k' hkk, ← hmem k', mem_append, mem_singleton, ← hkz]
        exact ⟨.inl, fun h => h.resolve_right hkk⟩
  · have hin : k ∈ ks := (hmem k).mpr hk
    have hleft : ∀ k', k' ∈ ks.erase k ↔ t'.lookup k' = some d := by
      intro k'
      by_cases hkk : k' = k
      · rw [hkk]
        exact iff_of_false (fun hc => ((List.Nodup.mem_erase_iff hnd).mp hc).1 rfl) hk'
      · rw [ht k' hkk, ← hmem k', mem_erase_of_ne hkk]
    simp only at hz
    subst hz
    by_cases hone : ks = [k]
    · subst hone
      have hdel : deleteKey k ([k], Key.nil) = none :=
        if_pos (remaining_cons_self Key.nil k [] .nil)
      rw [hdel]
      intro k' hlook
      have := (hleft k').mpr hlook
      rw [erase_cons_head] at this
      exact not_mem_nil this
    · rw [deleteKey_of_mem hin fun hc => hone hc.1]
      exact .inr ⟨rfl, fun hc => hone (eq_singleton_of_erase hin hc), hnd.erase k, hleft⟩

end exact

/-! ### A store keeps the entries exact -/

/-- Every entry of every inverse table is exact. -/
structure Exact (s : Keymaps) (fp : Nat × Def → List Nat)
    (view : Nat × Def → Option KeyList) : Prop where
  wellFormed : WellFormed s
  reads : Reads s fp view
  exact : ∀ m d, ExactEntry (s.map m).table d (view (m, d))

section store

variable {before fuel} {s : Keymaps} {fp : Nat × Def → List Nat}
  {view : Nat × Def → Option KeyList}

theorem Binds.lookup_iff {s' : Keymaps} {m : Nat} {k : Key} {d d' : Def}
    (h : Binds s s' m k d) (hwf : WellFormed s)
    (hd : d' ≠ d) (hprev : d' ≠ (s.map m).gethash k) (k' : Key) :
    (s'.map m).table.lookup k' = some d' ↔ (s.map m).table.lookup k' = some d' := by
  by_cases hk : k' = k
  · rw [hk, h.lookup_self]
    refine iff_of_false ?_ fun hk' => ?_
    · split
      · exact nofun
      · exact fun hc => hd (Option.some.inj hc).symm
    · have hne : d' ≠ .nil := fun hc => hwf.bound m k (hc ▸ hk')
      exact hprev ((gethash_eq_iff m k hne).mpr hk').symm
  · rw [h.lookup_of_ne m hk]

theorem Exact.filled {s' : Keymaps} (h : Exact s fp view) (hs : Filled s s') :
    Exact s' fp view where
  wellFormed := h.wellFormed.filled hs
  reads := h.reads.filled hs
  exact m d := by
    rw [hs.table m]
    exact h.exact m d

theorem stored_exact {s' : Keymaps} {m : Nat} {k : Key} {d : Def}
    (hbinds : Binds s s' m k d) (hwf : WellFormed s) (hne : (s.map m).gethash k ≠ d)
    {d' : Def} (hd' : d' ≠ (s.map m).gethash k)
    (hex : ExactEntry (s.map m).table d' (view (m, d'))) :
    ExactEntry (s'.map m).table d'
      (bindView (unbindView view m k ((s.map m).gethash k)) m k d (m, d')) := by
  have hun : unbindView view m k ((s.map m).gethash k) (m, d') = view (m, d') :=
    unbindView_of_ne view m k fun h => hd' (Prod.mk.inj h).2
  by_cases hdd : d' = d
  · subst hdd
    by_cases hnil : d' = .nil
    · rw [bindView, if_pos hnil, hun]
      refine hex.congr fun k' => ?_
      subst hnil
      by_cases hk : k' = k
      · rw [hk, hbinds.lookup_self, if_pos rfl]
        exact iff_of_false nofun (hwf.bound m k)
      · rw [hbinds.lookup_of_ne m hk]
    · rw [bindView_self _ m k hnil, hun]
      refine hex.add (fun hk => hne ((gethash_eq_iff m k hnil).mpr hk)) ?_
        fun k' hk => hbinds.lookup_of_ne m hk
      rw [hbinds.lookup_self, if_neg hnil]
  · rw [bindView_of_ne _ m k fun h => hdd (Prod.mk.inj h).2, hun]
    exact hex.congr (hbinds.lookup_iff hwf hdd hd')

theorem stored_other {m : Nat} {k : Key} {d prev : Def} {x : Nat} (hx : x ≠ m)
    (d' : Def) : bindView (unbindView view m k prev) m k d (x, d') = view (x, d') := by
  rw [bindView_of_ne _ m k fun h => hx (Prod.mk.inj h).1,
    unbindView_of_ne _ m k fun h => hx (Prod.mk.inj h).1]

variable (before fuel) in
/-- A store that takes a key from the entry of its binding takes one that may go. -/
def StoreMeets (s : Keymaps) (k : Key) (m : Nat) (d : Def) : Prop :=
  ∀ s₁, checkKeymapDefinitionLoop before fuel d m s = .returns () s₁ →
    (s.map m).gethash k ≠ d →
    ∀ ps e, Entry s.cells (s.entry (m, (s.map m).gethash k)) ps (some e) → MayGo k e

/-- **A store** keeps the entries exact, and does not abort. -/
theorem keymapStoreInternal_exact (h : Exact s fp view) {k : Key} {m : Nat} {d : Def}
    (hm : m < s.next) (hd : d.live s.next = true)
    (hmeets : StoreMeets before fuel s k m d) :
    (keymapStoreInternal before fuel k m d s).Meets False
      (fun _ s' => ∃ fp' view', Exact s' fp' view')
      (fun s' => ∃ fp' view', Exact s' fp' view') := by
  by_cases hne : (s.map m).gethash k = d
  · rw [keymapStoreInternal_of_eq hne]
    exact ⟨fp, view, h⟩
  · have hcheck := checkKeymapDefinitionLoop_filled before False s fuel d m s ⟨.refl s, rfl⟩
    cases hrun : checkKeymapDefinitionLoop before fuel d m s with
    | diverges =>
      rw [keymapStoreInternal_of_ne hne, bind_apply, hrun]
      trivial
    | aborts =>
      rw [hrun] at hcheck
      exact hcheck.elim
    | signals s₁ =>
      rw [hrun] at hcheck
      rw [keymapStoreInternal_of_ne hne, bind_apply, hrun]
      exact ⟨fp, view, h.filled hcheck.1⟩
    | returns u s₁ =>
      have hprev : (s.map m).gethash k ≠ .nil →
          ∃ e, view (m, (s.map m).gethash k) = some e ∧ (k ∈ e.1 ∨ k = e.2) := fun hnil =>
        (h.exact m _).exists_of_lookup ((gethash_eq_iff m k hnil).mp rfl)
      obtain ⟨s', fp', hstore, hbinds, hreads⟩ :=
        keymapStoreInternal_reads h.reads hne hrun hprev
      rw [hstore]
      refine ⟨fp', _, h.wellFormed.binds hbinds hm hd, hreads, fun x d' => ?_⟩
      by_cases hx : x = m
      · subst hx
        by_cases hd' : d' = (s.map x).gethash k
        · -- the binding the key had
          subst hd'
          rw [bindView_of_ne _ x k fun hc => hne (Prod.mk.inj hc).2]
          by_cases hnil : (s.map x).gethash k = .nil
          · rw [unbindView, if_pos hnil]
            refine (h.exact x _).congr fun k' => ?_
            rw [hnil] at hne ⊢
            refine iff_of_false (fun hk' => ?_) (h.wellFormed.bound x k')
            exact (h.wellFormed.binds hbinds hm hd).bound x k' hk'
          · obtain ⟨e, he, hk⟩ := hprev hnil
            have hex := h.exact x ((s.map x).gethash k)
            have hentry := h.reads.entry (x, (s.map x).gethash k) (Set.mem_univ _)
            rw [he] at hex hentry
            rw [unbindView_self _ x k hnil, he, Option.bind_some]
            refine hex.delete (hmeets s₁ hrun hne _ e hentry)
              ((gethash_eq_iff x k hnil).mp rfl) ?_ fun k' hkk => hbinds.lookup_of_ne x hkk
            rw [hbinds.lookup_self]
            split
            · exact nofun
            · exact fun hc => hne (Option.some.inj hc).symm
        · exact stored_exact hbinds h.wellFormed hne hd' (h.exact x d')
      · rw [stored_other hx d', hbinds.table_other x hx]
        exact h.exact x d'

end store

end XEmacs.Keymap

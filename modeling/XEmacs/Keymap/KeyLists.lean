import XEmacs.Keymap.Stores

/-!
# The key lists of the inverse tables

Each entry of an inverse table spells a list of keys; the lists of different entries, of one
keymap or of two, share no cons cell.
-/

namespace XEmacs.Keymap

open Commands ConsLists Function

/-- The keys an entry spells, the last one apart. -/
abbrev KeyList := List Key × Key

/-- What the entry of a binding spells after one more key has been bound to it. -/
def addKey (k : Key) : Option KeyList → KeyList
  | none => ([], k)
  | some (ks, z) => (ks ++ [z], k)

/-- What is left of an entry: the last key gives way to nil, and there is no entry
that is nil. -/
def deleteKey (k : Key) (e : KeyList) : Option KeyList :=
  let left := remaining .nil k e.1 e.2
  if left = ([], .nil) then none else some left

/-- The entry of a binding, through the cells `ps`. -/
inductive Entry (c : Cells Key) : Option (Ref Key) → List Nat → Option KeyList → Prop
  | none : Entry c none [] none
  | some {r : Ref Key} {ps : List Nat} {ks : List Key} {z : Key}
      (h : Dotted c r ps ks z) : Entry c (some r) ps (some (ks, z))

theorem Entry.frame {c c' : Cells Key} {r : Option (Ref Key)} {ps : List Nat}
    {e : Option KeyList} (h : Entry c r ps e) (hc : c.Agree c' ps) : Entry c' r ps e := by
  cases h with
  | none => exact .none
  | some h => exact .some (h.frame hc)

namespace Keymaps

/-- The entry of a binding in the inverse table of a keymap. -/
def entry (s : Keymaps) (i : Nat × Def) : Option (Ref Key) :=
  (s.map i.1).inverseTable.lookup i.2

end Keymaps

/-- The entries in `A` spell the key lists of `view` through the cells `fp`, each in
its own. -/
structure ReadsOn (A : Set (Nat × Def)) (s : Keymaps) (fp : Nat × Def → List Nat)
    (view : Nat × Def → Option KeyList) : Prop where
  entry : ∀ i ∈ A, Entry s.cells (s.entry i) (fp i) (view i)
  below : ∀ i ∈ A, ∀ p ∈ fp i, p < s.cells.next
  nodup : ∀ i ∈ A, (fp i).Nodup
  apart : ∀ i ∈ A, ∀ j ∈ A, ∀ p ∈ fp i, p ∈ fp j → i = j

/-- All entries do. -/
abbrev Reads (s : Keymaps) (fp : Nat × Def → List Nat)
    (view : Nat × Def → Option KeyList) : Prop :=
  ReadsOn Set.univ s fp view

section change

variable {A : Set (Nat × Def)} {s s' : Keymaps} {fp : Nat × Def → List Nat}
  {view : Nat × Def → Option KeyList}

/-- **One entry changes**: it may take cells of its own or new ones, and no cell of
another entry changes. -/
theorem ReadsOn.change (h : ReadsOn A s fp view) {i : Nat × Def} {ps : List Nat}
    {e : Option KeyList} (hentry : Entry s'.cells (s'.entry i) ps e)
    (hother : ∀ j ∈ A, j ≠ i → s'.entry j = s.entry j ∧ s.cells.Agree s'.cells (fp j))
    (hnext : s.cells.next ≤ s'.cells.next) (hnd : ps.Nodup)
    (hlt : ∀ p ∈ ps, p < s'.cells.next)
    (hapart : ∀ p ∈ ps, ∀ j ∈ A, j ≠ i → p ∉ fp j) :
    ReadsOn (insert i A) s' (Function.update fp i ps) (Function.update view i e) where
  entry j hj := by
    by_cases hji : j = i
    · subst hji
      simpa only [update_self] using hentry
    · have hjA : j ∈ A := hj.resolve_left hji
      obtain ⟨heq, hagree⟩ := hother j hjA hji
      simp only [update_of_ne hji, heq]
      exact (h.entry j hjA).frame hagree
  below j hj p hp := by
    by_cases hji : j = i
    · subst hji
      rw [update_self] at hp
      exact hlt p hp
    · rw [update_of_ne hji] at hp
      exact Nat.lt_of_lt_of_le (h.below j (hj.resolve_left hji) p hp) hnext
  nodup j hj := by
    by_cases hji : j = i
    · subst hji
      rwa [update_self]
    · rw [update_of_ne hji]
      exact h.nodup j (hj.resolve_left hji)
  apart j hj j' hj' p hp hp' := by
    by_cases hji : j = i <;> by_cases hji' : j' = i
    · rw [hji, hji']
    · rw [hji, update_self] at hp
      rw [update_of_ne hji'] at hp'
      exact absurd hp' (hapart p hp j' (hj'.resolve_left hji') hji')
    · rw [hji', update_self] at hp'
      rw [update_of_ne hji] at hp
      exact absurd hp (hapart p hp' j (hj.resolve_left hji) hji)
    · rw [update_of_ne hji] at hp
      rw [update_of_ne hji'] at hp'
      exact h.apart j (hj.resolve_left hji) j' (hj'.resolve_left hji') p hp hp'

theorem ReadsOn.congr (h : ReadsOn A s fp view) (hcells : s'.cells = s.cells)
    (hentry : ∀ i ∈ A, s'.entry i = s.entry i) : ReadsOn A s' fp view where
  entry i hi := by
    rw [hcells, hentry i hi]
    exact h.entry i hi
  below i hi p hp := by
    rw [hcells]
    exact h.below i hi p hp
  nodup := h.nodup
  apart := h.apart

theorem ReadsOn.filled (h : ReadsOn A s fp view) (hs : Filled s s') :
    ReadsOn A s' fp view :=
  h.congr hs.cells fun i _ => by
    rw [Keymaps.entry, hs.inverseTable i.1]
    rfl

end change

namespace Keymaps

variable (s : Keymaps)

theorem entry_putInverse (m : Nat) (d : Def) (r : Ref Key) (i : Nat × Def) :
    (s.putInverse m d r).entry i = if i = (m, d) then some r else s.entry i := by
  obtain ⟨m', d'⟩ := i
  simp only [entry, putInverse, map_update, Prod.mk.injEq]
  by_cases hm : m' = m
  · subst hm
    by_cases hd : d' = d
    · subst hd
      simp only [if_true, and_self, AList.lookup_insert]
    · simp only [if_true, true_and, if_neg hd, AList.lookup_insert_ne hd]
  · simp only [hm, if_false, false_and]

theorem entry_remInverse (m : Nat) (d : Def) (i : Nat × Def) :
    (s.remInverse m d).entry i = if i = (m, d) then none else s.entry i := by
  obtain ⟨m', d'⟩ := i
  simp only [entry, remInverse, map_update, Prod.mk.injEq]
  by_cases hm : m' = m
  · subst hm
    by_cases hd : d' = d
    · subst hd
      simp only [if_true, and_self, AList.lookup_erase]
    · simp only [if_true, true_and, if_neg hd, AList.lookup_erase_ne hd]
  · simp only [hm, if_false, false_and]

end Keymaps

section edits

variable {s : Keymaps} {fp : Nat × Def → List Nat} {view : Nat × Def → Option KeyList}

private theorem univ_change {i : Nat × Def} {s' : Keymaps} {fp' : Nat × Def → List Nat}
    {view' : Nat × Def → Option KeyList} (h : ReadsOn (insert i Set.univ) s' fp' view') :
    Reads s' fp' view' := by
  rwa [Set.insert_eq_of_mem (Set.mem_univ i)] at h

theorem ReadsOn.not_mem {A : Set (Nat × Def)} (h : ReadsOn A s fp view)
    {i j : Nat × Def} (hi : i ∈ A) (hj : j ∈ A) (hji : j ≠ i) {p : Nat} (hp : p ∈ fp i) :
    p ∉ fp j :=
  fun hpj => hji (h.apart j hj i hi p hpj hp)

/-- **Storing in the inverse table** adds the key to the entry of the binding. -/
theorem keymapStoreInverseInternal_reads (h : Reads s fp view) (m : Nat) (k : Key)
    (d : Def) :
    ∃ s' fp', keymapStoreInverseInternal m k d s = .returns () s' ∧ SameTables s s' ∧
      Reads s' fp' (Function.update view (m, d) (some (addKey k (view (m, d))))) := by
  have hentry := h.entry (m, d) (Set.mem_univ _)
  have hrun : keymapStoreInverseInternal m k d s = _ :=
    bind_of_returns (state_apply s)
  cases hlook : s.entry (m, d) with
  | none =>
    rw [hlook] at hentry
    generalize hfp : fp (m, d) = ps at hentry
    generalize hview : view (m, d) = e at hentry
    cases hentry
    refine ⟨s.putInverse m d (.atom k), Function.update fp (m, d) [], ?_,
      SameTables.putInverse s s.cells m d (.atom k),
      univ_change (h.change ?_ (fun j _ hj => ⟨?_, fun _ _ => ⟨rfl, rfl⟩⟩)
        (Nat.le_refl _) List.nodup_nil nofun nofun)⟩
    · rw [hrun, show (s.map m).inverseTable.lookup d = none from hlook]
      rfl
    · rw [Keymaps.entry_putInverse, if_pos rfl]
      exact .some (.atom k)
    · rw [Keymaps.entry_putInverse, if_neg hj]
  | some r =>
    rw [hlook] at hentry
    generalize hfp : fp (m, d) = ps at hentry
    generalize hview : view (m, d) = e at hentry
    cases hentry with
    | @some r ps ks z hdot =>
      have hnd : ps.Nodup := hfp ▸ h.nodup (m, d) (Set.mem_univ _)
      have hlt : ∀ p ∈ ps, p < s.cells.next := hfp ▸ h.below (m, d) (Set.mem_univ _)
      cases r with
      | atom keys =>
        obtain ⟨rfl, rfl, rfl⟩ := hdot.of_atom
        refine ⟨_, Function.update fp (m, d) [s.cells.next],
          hrun.trans (by rw [show (s.map m).inverseTable.lookup d = _ from hlook]; rfl),
          SameTables.putInverse s (s.cells.cons z (.atom k)) m d (.cell s.cells.next),
          univ_change (h.change ?_ (fun j hj hne => ⟨?_, ?_⟩) (Nat.le_succ _)
            (List.nodup_singleton _) ?_ ?_)⟩
        · rw [Keymaps.entry_putInverse, if_pos rfl]
          exact .some (Cells.Dotted_cons s.cells z k)
        · rw [Keymaps.entry_putInverse, if_neg hne]
          rfl
        · exact Cells.cons_agree (h.below j hj)
        · intro p hp
          rw [List.mem_singleton.mp hp]
          exact Nat.lt_succ_self _
        · intro p hp j hj _ hmem
          rw [List.mem_singleton.mp hp] at hmem
          exact absurd (h.below j hj _ hmem) (Nat.lt_irrefl _)
      | cell p =>
        obtain ⟨l, hl, hlast, hext⟩ := hdot.extend k hnd hlt p rfl
        have hlast := hlast s.cells.next (length_le_of_nodup hnd hlt)
        refine ⟨s.setCells (s.cells.extend l z k),
          Function.update fp (m, d) (ps ++ [s.cells.next]),
          hrun.trans (by rw [show (s.map m).inverseTable.lookup d = _ from hlook]
                         simp only [hlast]
                         rfl),
          ⟨rfl, fun _ => rfl, fun _ => rfl, fun _ => rfl⟩,
          univ_change (h.change ?_ (fun j hj hne => ⟨rfl, ?_⟩) (Nat.le_succ _) ?_ ?_ ?_)⟩
        · rw [show (s.setCells (s.cells.extend l z k)).entry (m, d) = _ from hlook]
          exact .some hext
        · refine Cells.extend_agree (fun hmem => ?_) (h.below j hj)
          exact h.not_mem (Set.mem_univ _) hj hne (hfp ▸ hl) hmem
        · refine hnd.append (List.nodup_singleton _) fun p hp hp' => ?_
          rw [List.mem_singleton.mp hp'] at hp
          exact absurd (hlt _ hp) (Nat.lt_irrefl _)
        · intro p hp
          rcases List.mem_append.mp hp with hp | hp
          · exact Nat.lt_succ_of_lt (hlt p hp)
          · rw [List.mem_singleton.mp hp]
            exact Nat.lt_succ_self _
        · intro p hp j hj hne
          rcases List.mem_append.mp hp with hp | hp
          · exact h.not_mem (Set.mem_univ _) hj hne (hfp ▸ hp)
          · rw [List.mem_singleton.mp hp]
            exact fun hmem => absurd (h.below j hj _ hmem) (Nat.lt_irrefl _)

/-- **Deleting from the inverse table** a key its entry spells reaches no other atom,
and takes the key out of the entry. -/
theorem keymapDeleteInverseInternal_reads (h : Reads s fp view) {m : Nat} {k : Key}
    {d : Def} {e : KeyList} (he : view (m, d) = some e) (hk : k ∈ e.1 ∨ k = e.2) :
    ∃ s' fp', keymapDeleteInverseInternal m k d s = .returns () s' ∧ SameTables s s' ∧
      Reads s' fp' (Function.update view (m, d) (deleteKey k e)) := by
  have hentry := h.entry (m, d) (Set.mem_univ _)
  have hrun : keymapDeleteInverseInternal m k d s = _ :=
    bind_of_returns (state_apply s)
  rw [he] at hentry
  generalize hfp : fp (m, d) = ps at hentry
  generalize hlook : s.entry (m, d) = r at hentry
  cases hentry with
  | @some r ps ks z hdot =>
    have hnd : ps.Nodup := hfp ▸ h.nodup (m, d) (Set.mem_univ _)
    have hlt : ∀ p ∈ ps, p < s.cells.next := hfp ▸ h.below (m, d) (Set.mem_univ _)
    obtain ⟨r', c', ps', hdel, hdot', hsub, hnext, hframe⟩ :=
      hdot.delete Key.nil hnd hk (Nat.lt_succ_of_le (length_le_of_nodup hnd hlt))
    rw [show (s.map m).inverseTable.lookup d = _ from hlook] at hrun
    simp only [hdel] at hrun
    have hother : ∀ j ∈ Set.univ, j ≠ (m, d) → s.cells.Agree c' (fp j) :=
      fun j hj hne => hframe _ fun q hq hmem =>
        h.not_mem (Set.mem_univ _) hj hne (hfp ▸ hmem) hq
    have hlt' : ∀ p ∈ ps', p < c'.next := fun p hp => hnext ▸ hlt p (hsub.subset hp)
    have hapart : ∀ p ∈ ps', ∀ j ∈ Set.univ, j ≠ (m, d) → p ∉ fp j := fun p hp j hj hne =>
      h.not_mem (Set.mem_univ _) hj hne (hfp ▸ hsub.subset hp)
    by_cases hnil : r' = .atom .nil
    · subst hnil
      obtain ⟨rfl, hks, hz⟩ := hdot'.of_atom
      rw [if_pos rfl] at hrun
      refine ⟨_, Function.update fp (m, d) [], hrun,
        SameTables.remInverse s c' m d,
        univ_change (h.change ?_ (fun j hj hne => ⟨?_, hother j hj hne⟩) hnext.ge
          List.nodup_nil nofun nofun)⟩
      · have hdk : deleteKey k (ks, z) = none := if_pos (Prod.ext hks hz)
        rw [Keymaps.entry_remInverse, if_pos rfl, hdk]
        exact .none
      · rw [Keymaps.entry_remInverse, if_neg hne]
        rfl
    · have hdk : deleteKey k (ks, z) = some (remaining .nil k ks z) := by
        refine if_neg fun heq => hnil ?_
        rw [heq] at hdot'
        cases hdot' with
        | atom => rfl
      rw [hdk]
      rw [if_neg hnil] at hrun
      by_cases hne : r ≠ r'
      · rw [if_pos hne] at hrun
        refine ⟨_, Function.update fp (m, d) ps', hrun,
          SameTables.putInverse s c' m d r',
          univ_change (h.change ?_ (fun j hj hji => ⟨?_, hother j hj hji⟩) hnext.ge
            (hnd.sublist hsub) hlt' hapart)⟩
        · rw [Keymaps.entry_putInverse, if_pos rfl]
          exact .some hdot'
        · rw [Keymaps.entry_putInverse, if_neg hji]
          rfl
      · rw [if_neg hne] at hrun
        rw [not_not] at hne
        subst hne
        refine ⟨_, Function.update fp (m, d) ps', hrun,
          ⟨rfl, fun _ => rfl, fun _ => rfl, fun _ => rfl⟩,
          univ_change (h.change ?_ (fun j hj hji => ⟨rfl, hother j hj hji⟩) hnext.ge
            (hnd.sublist hsub) hlt' hapart)⟩
        rw [show (s.setCells c').entry (m, d) = _ from hlook]
        exact .some hdot'

end edits

end XEmacs.Keymap

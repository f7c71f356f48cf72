import XEmacs.Keymap.Stores

/-!
# The lists of keys end

The lists in the inverse tables may share conses and may hold wrong keys, but each of them ends:
a new cons goes to the end, deletion only goes on to a later cons, and a copy follows its
original.
-/

namespace XEmacs.Keymap

open Commands ConsLists

/-- The lists of keys of the inverse tables are in conses in use, and end. -/
structure ListsEnd (s : Keymaps) : Prop where
  ends : ∃ rank, Ends s.cells rank
  live : ∀ m d r, (s.map m).inverseTable.lookup d = some r → r.Live s.cells.next

variable {s s' : Keymaps} {m : Nat}

theorem ListsEnd.filled (h : ListsEnd s) (hs : Filled s s') : ListsEnd s' where
  ends := by
    rw [hs.cells]
    exact h.ends
  live x d r hr := by
    rw [hs.inverseTable x] at hr
    rw [hs.cells]
    exact h.live x d r hr

theorem ListsEnd.update {f : LispKeymap → LispKeymap} (h : ListsEnd s)
    (hf : ∀ d r, (f (s.map m)).inverseTable.lookup d = some r →
      (s.map m).inverseTable.lookup d = some r ∨ r.Live s.cells.next) :
    ListsEnd (s.update m f) where
  ends := h.ends
  live x d r hr := by
    rw [Keymaps.map_update] at hr
    split at hr
    · obtain hold | hlive := hf d r hr
      · exact h.live m d r hold
      · exact hlive
    · exact h.live x d r hr

theorem ListsEnd.putInverse (h : ListsEnd s) {d : Def} {r : Ref Key}
    (hr : r.Live s.cells.next) : ListsEnd (s.putInverse m d r) := by
  refine h.update fun d' r' hr' => ?_
  by_cases hd : d' = d
  · have hsome : ((s.map m).inverseTable.insert d r).lookup d = some r := AList.lookup_insert _
    rw [hd, hsome] at hr'
    cases hr'
    exact .inr hr
  · exact .inl ((AList.lookup_insert_ne hd).symm.trans hr')

theorem ListsEnd.remInverse (h : ListsEnd s) (d : Def) : ListsEnd (s.remInverse m d) := by
  refine h.update fun d' r' hr' => .inl ?_
  by_cases hd : d' = d
  · have hnone : ((s.map m).inverseTable.erase d).lookup d = none := AList.lookup_erase _ _
    rw [hd, hnone] at hr'
    cases hr'
  · exact (AList.lookup_erase_ne hd).symm.trans hr'

theorem ListsEnd.setCells (h : ListsEnd s) {c : Cells Key} {rank : Nat → Nat}
    (hc : Ends c rank) (hle : s.cells.next ≤ c.next) : ListsEnd (s.setCells c) where
  ends := ⟨rank, hc⟩
  live x d r hr p hp := (h.live x d r hr p hp).trans_le hle

theorem ListsEnd.newKeymap (h : ListsEnd s) {k : LispKeymap}
    (hk : ∀ d r, k.inverseTable.lookup d = some r → r.Live s.cells.next) :
    ListsEnd (s.add k) where
  ends := h.ends
  live x d r hr := by
    rw [Keymaps.map_add] at hr
    split at hr
    · exact hk d r hr
    · exact h.live x d r hr

theorem keymapStoreInverseInternal_ends (E : Keymaps → Prop) (m : Nat) (k : Key) (d : Def) :
    Triple True ListsEnd (keymapStoreInverseInternal m k d) (fun _ => ListsEnd) E := by
  refine Triple.state_bind fun s h => ?_
  obtain ⟨rank, hends⟩ := h.ends
  split
  · rintro _ rfl
    exact h.putInverse fun p hp => by cases hp
  · rename_i keys hkeys
    rintro s rfl
    have hcons : ListsEnd (s.setCells (s.cells.cons keys (.atom k))) :=
      h.setCells (hends.cons keys k) (Nat.le_succ _)
    refine hcons.putInverse fun p hp => ?_
    cases hp
    exact Nat.lt_succ_self _
  · rename_i p hp
    split
    · exact Triple.diverge
    · rename_i last z hlast
      rintro _ rfl
      have hlt := hends.lastCell_lt (h.live m d _ hp p rfl) hlast
      obtain ⟨rank', hextended⟩ := hends.extend hlt z k
      exact h.setCells hextended (Nat.le_succ _)

theorem keymapDeleteInverseInternal_ends (E : Keymaps → Prop) (m : Nat) (k : Key) (d : Def) :
    Triple True ListsEnd (keymapDeleteInverseInternal m k d) (fun _ => ListsEnd) E := by
  refine Triple.state_bind fun s h => ?_
  obtain ⟨rank, hends⟩ := h.ends
  split
  · exact Triple.abort trivial
  · rename_i keys hkeys
    split
    · exact Triple.diverge
    · exact Triple.abort trivial
    · rename_i newKeys cells hdelete
      obtain ⟨hends', hlive, hnext⟩ := hends.delete (h.live m d keys hkeys) hdelete
      have hcells : ListsEnd (s.setCells cells) := h.setCells hends' (Nat.le_of_eq hnext.symm)
      split
      · rintro _ rfl
        exact hcells.remInverse d
      · split
        · rintro _ rfl
          exact hcells.putInverse hlive
        · rintro _ rfl
          exact hcells

theorem keymapStoreInternal_ends (before : Key → Key → Bool) (fuel : Nat) (k : Key) (m : Nat)
    (d : Def) : Triple True ListsEnd (keymapStoreInternal before fuel k m d) (fun _ => ListsEnd)
      ListsEnd := by
  intro s h
  by_cases hd : (s.map m).gethash k = d
  · rw [keymapStoreInternal_of_eq hd]
    exact h
  · rw [keymapStoreInternal_of_ne hd]
    have hcheck := (checkKeymapDefinitionLoop_filled before True s fuel d m).conseq
      (fun _ hs => hs) (fun _ s' hs => h.filled hs.1) (fun s' hs => h.filled hs.1)
    refine Triple.bind hcheck (fun _ => ?_) s ⟨.refl s, rfl⟩
    refine Triple.bind (Q := fun _ => ListsEnd) ?_ fun _ => ?_
    · unfold deletePrevDef
      split
      · exact keymapDeleteInverseInternal_ends ListsEnd m k _
      · exact Triple.pure fun _ hs => hs
    · unfold storeDef
      split
      · exact Triple.modify fun s' hs' => hs'.update fun _ _ hr => .inl hr
      · refine Triple.bind (Triple.modify (Q := fun _ => ListsEnd) fun s' hs' =>
          hs'.update fun _ _ hr => .inl hr) fun _ => ?_
        exact keymapStoreInverseInternal_ends ListsEnd m k d

theorem copyKeymapInternal_ends (E : Keymaps → Prop) (m : Nat) :
    Triple True ListsEnd (copyKeymapInternal m) (fun _ => ListsEnd) E := by
  refine Triple.state_bind fun s h => ?_
  refine Triple.bind (Q := fun _ s' => ListsEnd s' ∧ s.cells.next ≤ s'.cells.next) ?_
    fun n => ?_
  · rintro _ rfl
    exact ⟨h.newKeymap fun d r hr => h.live m d r hr, Nat.le_refl _⟩
  · -- the originals stay in use
    have hlive : ∀ e ∈ (s.map m).inverseTable.entries, e.2.Live s.cells.next := by
      intro e he
      refine h.live m e.1 e.2 ?_
      rw [← Option.mem_def, AList.mem_lookup_iff]
      exact he
    refine Triple.bind (Q := fun _ => ListsEnd) ?_ fun _ => Triple.pure fun _ hs => hs
    refine Triple.conseq (Triple.forM (I := fun l s' => (∀ e ∈ l, e.2.Live s.cells.next) ∧
      ListsEnd s' ∧ s.cells.next ≤ s'.cells.next) (fun e l => ?_) _)
      (fun s' hs' => ⟨hlive, hs'⟩) (fun _ _ hs' => hs'.2.1) (fun _ hs' => hs')
    refine Triple.state_bind fun s' hs' => ?_
    obtain ⟨hl, hend, hle⟩ := hs'
    split
    · exact Triple.diverge
    · rename_i value cells hcopy
      rintro s' rfl
      obtain ⟨rank, hends⟩ := hend.ends
      have he : e.2.Live s'.cells.next := fun p hp =>
        (hl e (List.mem_cons_self ..) p hp).trans_le hle
      obtain ⟨rank', hends', hle', -, hvalue, -⟩ := hends.copyList he hcopy
      exact ⟨fun e' he' => hl e' (List.mem_cons_of_mem e he'),
        (hend.setCells hends' hle').putInverse hvalue, hle.trans hle'⟩

end XEmacs.Keymap

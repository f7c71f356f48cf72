import XEmacs.Keymap.Inverse
import XEmacs.Lib.Runs

/-!
# The inverse table of a keymap is the inverse of its table

After any sequence of stores and copies the entry of a binding lists the keys that have it, each
once, unless a store has taken away a key that may not go.
-/

namespace XEmacs.Keymap

open Commands ConsLists List

variable (before : Key → Key → Bool) (fuel : Nat)

/-! ### Copying the inverse table -/

theorem ReadsOn.mono {A B : Set (Nat × Def)} {s : Keymaps} {fp : Nat × Def → List Nat}
    {view : Nat × Def → Option KeyList} (h : ReadsOn A s fp view) (hBA : B ⊆ A) :
    ReadsOn B s fp view where
  entry i hi := h.entry i (hBA hi)
  below i hi := h.below i (hBA hi)
  nodup i hi := h.nodup i (hBA hi)
  apart i hi j hj := h.apart i (hBA hi) j (hBA hj)

section copy

variable {s : Keymaps} {fp : Nat × Def → List Nat} {view : Nat × Def → Option KeyList}

/-- The key lists when the keymap `n` has got those of `m`. -/
def copyView (view : Nat × Def → Option KeyList) (m n : Nat) (i : Nat × Def) :
    Option KeyList :=
  if i.1 = n then view (m, i.2) else view i

/-- The entries that have their conses to themselves while `m` still has to be given
copies of those in `l`. -/
def owners (m : Nat) (l : List (Sigma fun _ : Def => Ref Key)) : Set (Nat × Def) :=
  { i | ¬ (i.1 = m ∧ ∃ e ∈ l, e.1 = i.2) }

/-- While the old keymap `m` and the copy `n` share the lists in `l`, those of the copy
count as the copy's. -/
def Sharing (s₀ : Keymaps) (view : Nat × Def → Option KeyList) (m n : Nat)
    (l : List (Sigma fun _ : Def => Ref Key)) (s : Keymaps) : Prop :=
  SameTables s₀ s ∧ (l.map Sigma.fst).Nodup ∧
    (∀ e ∈ l, s.entry (m, e.1) = some e.2 ∧ s.entry (n, e.1) = some e.2) ∧
    ∃ fp, ReadsOn (owners m l) s fp (copyView view m n)

/-- **One list is copied**: the old keymap gets the new conses. -/
theorem copyKeymapInverseMapper_sharing {s₀ : Keymaps} {m n : Nat} (hmn : m ≠ n)
    (e : Sigma fun _ : Def => Ref Key) (l : List (Sigma fun _ : Def => Ref Key)) :
    Triple False (Sharing s₀ view m n (e :: l)) (copyKeymapInverseMapper m e)
      (fun _ => Sharing s₀ view m n l) (fun _ => False) := by
  refine Triple.state_bind fun s hs => ?_
  obtain ⟨hsame, hnd, hshare, fp, h⟩ := hs
  obtain ⟨hnotin, hnd⟩ := List.nodup_cons.mp hnd
  obtain ⟨hm, hn⟩ := hshare e (mem_cons_self ..)
  have hown : (n, e.1) ∈ owners m (e :: l) := fun hc => hmn hc.1.symm
  have hentry := h.entry _ hown
  rw [hn] at hentry
  have hview : copyView view m n (m, e.1) = copyView view m n (n, e.1) := by
    rw [copyView, copyView, if_neg hmn, if_pos rfl]
  generalize hfp : fp (n, e.1) = ps at hentry
  generalize hlist : copyView view m n (n, e.1) = v at hentry hview
  cases hentry with
  | @some r ps ks z hdot =>
    have hlt : ∀ p ∈ ps, p < s.cells.next := hfp ▸ h.below _ hown
    have hpsnd : ps.Nodup := hfp ▸ h.nodup _ hown
    obtain ⟨r', c', ps', hcopy, hdot', hnd', hnew, hle, hold⟩ :=
      hdot.copyList (fun _ _ => ⟨rfl, rfl⟩) hlt
        (length_le_of_nodup hpsnd hlt)
    rw [hcopy]
    rintro s rfl
    refine ⟨hsame.trans (SameTables.putInverse s c' m e.1 r'), hnd, fun e' he' => ?_, ?_⟩
    · obtain ⟨hm', hn'⟩ := hshare e' (mem_cons_of_mem e he')
      have hne : e'.1 ≠ e.1 := fun hc => hnotin (hc ▸ mem_map_of_mem he')
      rw [Keymaps.entry_putInverse, Keymaps.entry_putInverse,
        if_neg fun hc => hne (Prod.mk.inj hc).2, if_neg fun hc => hne (Prod.mk.inj hc).2]
      exact ⟨hm', hn'⟩
    · refine ⟨Function.update fp (m, e.1) ps', ?_⟩
      have hchange : ReadsOn _ ((s.setCells c').putInverse m e.1 r') (Function.update fp (m, e.1) ps')
          (Function.update (copyView view m n) (m, e.1) (some (ks, z))) :=
        h.change ?_ ?_ hle hnd' (fun p hp => (hnew p hp).2) ?_
      · have hself : Function.update (copyView view m n) (m, e.1) (some (ks, z)) =
            copyView view m n := by
          rw [← hview]
          exact Function.update_eq_self ..
        rw [hself] at hchange
        refine hchange.mono fun i hi => ?_
        by_cases hie : i = (m, e.1)
        · exact .inl hie
        · refine .inr fun hc => ?_
          obtain ⟨him, e', he', hei⟩ := hc
          rcases List.mem_cons.mp he' with heq | he'
          · exact hie (Prod.ext him (heq ▸ hei.symm))
          · exact hi ⟨him, e', he', hei⟩
      · rw [Keymaps.entry_putInverse, if_pos rfl]
        exact .some hdot'
      · intro j hj hji
        rw [Keymaps.entry_putInverse, if_neg hji]
        exact ⟨rfl, fun p hp => hold p (h.below j hj p hp)⟩
      · intro p hp j hj _ hmem
        exact absurd (h.below j hj p hmem) (Nat.not_lt.mpr (hnew p hp).1)

theorem entry_copied (s : Keymaps) (m : Nat) (i : Nat × Def) :
    (copied s m).entry i = if i.1 = s.next then s.entry (m, i.2) else s.entry i := by
  rw [copied, Keymaps.entry, Keymaps.map_add]
  split
  · rfl
  · rfl

/-- Before the loop, the lists of the old keymap belong to the copy. -/
theorem sharing_copied (h : Reads s fp view) {m : Nat} (hm : m < s.next) :
    Sharing (copied s m) view m s.next (s.map m).inverseTable.entries (copied s m) := by
  have hmn : m ≠ s.next := Nat.ne_of_lt hm
  have hlook : ∀ e ∈ (s.map m).inverseTable.entries, s.entry (m, e.1) = some e.2 :=
    fun e he => AList.mem_lookup_iff.mpr he
  refine ⟨.refl _, (s.map m).inverseTable.nodupKeys, fun e he => ?_,
    fun i => if i.1 = s.next then fp (m, i.2) else fp i, ?_⟩
  · rw [entry_copied, entry_copied, if_neg hmn, if_pos rfl]
    exact ⟨hlook e he, hlook e he⟩
  -- who owns a cell of the old keymap's lists is the copy
  have hnone : ∀ d, (m, d) ∈ owners m (s.map m).inverseTable.entries → fp (m, d) = [] := by
    intro d hd
    have hentry := h.entry (m, d) (Set.mem_univ _)
    cases hr : s.entry (m, d) with
    | none =>
      rw [hr] at hentry
      generalize fp (m, d) = ps at hentry
      generalize view (m, d) = v at hentry
      cases hentry
      rfl
    | some r =>
      exact absurd ⟨rfl, ⟨d, r⟩, AList.mem_lookup_iff.mp hr, rfl⟩ hd
  refine ⟨fun i _ => ?_, fun i _ => ?_, fun i _ => ?_, fun i hi j hj p hp hp' => ?_⟩
  · rw [entry_copied, copyView]
    by_cases hin : i.1 = s.next
    · simp only [if_pos hin]
      exact h.entry (m, i.2) (Set.mem_univ _)
    · simp only [if_neg hin]
      exact h.entry i (Set.mem_univ _)
  · by_cases hin : i.1 = s.next
    · simp only [if_pos hin]
      exact h.below (m, i.2) (Set.mem_univ _)
    · simp only [if_neg hin]
      exact h.below i (Set.mem_univ _)
  · by_cases hin : i.1 = s.next
    · simp only [if_pos hin]
      exact h.nodup (m, i.2) (Set.mem_univ _)
    · simp only [if_neg hin]
      exact h.nodup i (Set.mem_univ _)
  · have hclash : ∀ {i j : Nat × Def}, j ∈ owners m (s.map m).inverseTable.entries →
        p ∈ fp (m, i.2) → p ∈ fp j → False := by
      intro i j hj hp hp'
      have heq := h.apart (m, i.2) (Set.mem_univ _) j (Set.mem_univ _) p hp hp'
      rw [← heq] at hj
      rw [hnone i.2 hj] at hp
      exact not_mem_nil hp
    by_cases hin : i.1 = s.next <;> by_cases hjn : j.1 = s.next
    · simp only [if_pos hin] at hp
      simp only [if_pos hjn] at hp'
      have heq := h.apart _ (Set.mem_univ _) _ (Set.mem_univ _) p hp hp'
      exact Prod.ext (hin.trans hjn.symm) (Prod.mk.inj heq).2
    · simp only [if_pos hin] at hp
      simp only [if_neg hjn] at hp'
      exact (hclash hj hp hp').elim
    · simp only [if_neg hin] at hp
      simp only [if_pos hjn] at hp'
      exact (hclash hi hp' hp).elim
    · simp only [if_neg hin] at hp
      simp only [if_neg hjn] at hp'
      exact h.apart _ (Set.mem_univ _) _ (Set.mem_univ _) p hp hp'

/-- **Copying one keymap**: the copy has the table and the key lists of the old one. -/
theorem copyKeymapInternal_reads (h : Reads s fp view) {m : Nat} (hm : m < s.next) :
    (copyKeymapInternal m s).Meets False
      (fun n s' => n = s.next ∧ SameTables (copied s m) s' ∧
        ∃ fp', Reads s' fp' (copyView view m s.next)) (fun _ => False) := by
  have hloop : Triple False (Sharing (copied s m) view m s.next
      (s.map m).inverseTable.entries)
      ((s.map m).inverseTable.entries.forM (copyKeymapInverseMapper m))
      (fun _ => Sharing (copied s m) view m s.next []) (fun _ => False) :=
    Triple.forM (fun e l => copyKeymapInverseMapper_sharing (Nat.ne_of_lt hm) e l) _
  have hrun : copyKeymapInternal m s =
      (do
        (s.map m).inverseTable.entries.forM (copyKeymapInverseMapper m)
        pure s.next : Command Keymaps Nat) (copied s m) := rfl
  rw [hrun]
  refine Triple.bind hloop (fun _ => Triple.pure fun s' hs' => ?_) _ (sharing_copied h hm)
  obtain ⟨hsame, -, -, fp', hreads⟩ := hs'
  exact ⟨rfl, hsame, fp', hreads.mono fun i _ hc => by
    obtain ⟨-, e, he, -⟩ := hc
    exact not_mem_nil he⟩

end copy

/-! ### Copying a keymap with its submaps -/

/-- The keymaps in `S` can be copied: their entries are exact, and none of a submap
ends in the key nil. -/
structure Copyable (S : Set Nat) (s : Keymaps) (view : Nat × Def → Option KeyList) :
    Prop where
  lt : ∀ x ∈ S, x < s.next
  closed : ∀ x ∈ S, ∀ k y, (s.map x).table.lookup k = some (.keymap y) → y ∈ S
  exact : ∀ x ∈ S, ∀ d, ExactEntry (s.map x).table d (view (x, d))
  last : ∀ x ∈ S, ∀ o e, view (x, .keymap o) = some e → e.1 = [] ∨ e.2 ≠ .nil

/-- What a copy leaves of the state: the old keymaps keep their tables and key lists,
the new ones have exact entries. -/
structure Copied (s : Keymaps) (view : Nat × Def → Option KeyList) (n : Nat)
    (s' : Keymaps) : Prop where
  eq : n = s.next
  lt : s.next < s'.next
  wellFormed : WellFormed s'
  cache : (s'.map s.next).subMapsCache = some []
  kept : ∀ x < s.next, (s'.map x).table = (s.map x).table ∧
    ∀ c, (s.map x).subMapsCache = some c → (s'.map x).subMapsCache = some c
  reads : ∃ fp' view', Reads s' fp' view' ∧
    (∀ x < s.next, ∀ d, view' (x, d) = view (x, d)) ∧
    ∀ x, s.next ≤ x → ∀ d, ExactEntry (s'.map x).table d (view' (x, d))

/-- While the submaps in `l` are still to be copied: the entries of the copy are exact
but for those of old submaps, which only lose keys. -/
structure Copying (S : Set Nat) (s : Keymaps) (view : Nat × Def → Option KeyList)
    (l : List (Sigma fun _ : Key => Def)) (s₁ : Keymaps) : Prop where
  wellFormed : WellFormed s₁
  lt : s.next < s₁.next
  cache : (s₁.map s.next).subMapsCache = some []
  kept : ∀ x < s.next, (s₁.map x).table = (s.map x).table ∧
    ∀ c, (s.map x).subMapsCache = some c → (s₁.map x).subMapsCache = some c
  reads : ∃ fp₁ view₁, Reads s₁ fp₁ view₁ ∧
    (∀ x < s.next, ∀ d, view₁ (x, d) = view (x, d)) ∧
    (∀ x, s.next < x → ∀ d, ExactEntry (s₁.map x).table d (view₁ (x, d))) ∧
    (∀ d, (∀ o, d = .keymap o → s.next ≤ o) →
      ExactEntry (s₁.map s.next).table d (view₁ (s.next, d))) ∧
    ∀ o < s.next, WaningEntry (s₁.map s.next).table (.keymap o) (view₁ (s.next, .keymap o))
  left : ∀ k o, (s₁.map s.next).table.lookup k = some (.keymap o) → o < s.next →
    ⟨k, .keymap o⟩ ∈ l
  todo : ∀ e ∈ l, (s₁.map s.next).table.lookup e.1 = some e.2
  among : ∀ e ∈ l, ∀ o, e.2 = .keymap o → o ∈ S
  nodup : (l.map Sigma.fst).Nodup

section copying

variable {S : Set Nat} {s s₁ : Keymaps} {view : Nat × Def → Option KeyList}
  {l : List (Sigma fun _ : Key => Def)}

theorem Copying.copied (h : Copying S s view [] s₁) : Copied s view s.next s₁ where
  eq := rfl
  lt := h.lt
  wellFormed := h.wellFormed
  cache := h.cache
  kept := h.kept
  reads := by
    obtain ⟨fp₁, view₁, hreads, hold, hnew, hself, hwaning⟩ := h.reads
    refine ⟨fp₁, view₁, hreads, hold, fun x hx d => ?_⟩
    rcases Nat.lt_or_eq_of_le hx with hx | rfl
    · exact hnew x hx d
    · by_cases hd : ∃ o < s.next, d = .keymap o
      · obtain ⟨o, ho, rfl⟩ := hd
        have hnone : ∀ k, (s₁.map s.next).table.lookup k ≠ some (.keymap o) :=
          fun k hk => not_mem_nil (h.left k o hk ho)
        rw [(hwaning o ho).eq_none hnone]
        exact hnone
      · exact hself d fun o ho => Nat.not_lt.mp fun hlt => hd ⟨o, hlt, ho⟩

theorem Copying.skip {e : Sigma fun _ : Key => Def} (h : Copying S s view (e :: l) s₁)
    (he : ∀ o, e.2 ≠ .keymap o) : Copying S s view l s₁ where
  wellFormed := h.wellFormed
  lt := h.lt
  cache := h.cache
  kept := h.kept
  reads := h.reads
  left k o hk ho := by
    refine (List.mem_cons.mp (h.left k o hk ho)).resolve_left fun heq => ?_
    exact he o (heq ▸ rfl)
  todo e' he' := h.todo e' (mem_cons_of_mem e he')
  among e' he' := h.among e' (mem_cons_of_mem e he')
  nodup := (List.nodup_cons.mp h.nodup).2

theorem check_of_cache_nil {c m : Nat} (hc : (s.map c).subMapsCache = some [])
    (hcm : c ≠ m) (n : Nat) :
    checkKeymapDefinitionLoop before (n + 1) (.keymap c) m s = .returns () s := by
  rw [checkKeymapDefinitionLoop, if_neg hcm]
  have hsub : keymapSubmaps before c s = .returns [] s := by
    rw [keymapSubmaps, bind_of_returns (state_apply s), hc]
    rfl
  rw [bind_of_returns hsub]
  rfl

/-- **One submap is replaced** by its copy `c`: the state `s₁` before the copy of it,
`s₂` after. -/
theorem Copying.replace {k : Key} {o c : Nat} {s₂ : Keymaps}
    {view₁ : Nat × Def → Option KeyList}
    (h : Copying S s view (⟨k, .keymap o⟩ :: l) s₁) (hS : ∀ x ∈ S, x < s.next)
    (hold : ∀ x < s.next, ∀ d, view₁ (x, d) = view (x, d))
    (hnew : ∀ x, s.next < x → ∀ d, ExactEntry (s₁.map x).table d (view₁ (x, d)))
    (hself : ∀ d, (∀ o, d = .keymap o → s.next ≤ o) →
      ExactEntry (s₁.map s.next).table d (view₁ (s.next, d)))
    (hwaning : ∀ o < s.next,
      WaningEntry (s₁.map s.next).table (.keymap o) (view₁ (s.next, .keymap o)))
    (hc : Copied s₁ view₁ c s₂) :
    (keymapStoreInternal before fuel k s.next (.keymap c) s₂).Meets False
      (fun _ s₃ => Copying S s view l s₃) (fun _ => False) := by
  obtain ⟨fp₂, view₂, hreads₂, hold₂, hnew₂⟩ := hc.reads
  have hn₁ : s.next < s₁.next := h.lt
  have hcn : s.next < c := hc.eq ▸ hn₁
  have ho : o < s.next := hS o (h.among _ (mem_cons_self ..) o rfl)
  -- the copy of the submap has left the keymap alone
  obtain ⟨htable₂, hcache₂⟩ := hc.kept s.next hn₁
  have hlook₂ : (s₂.map s.next).table.lookup k = some (.keymap o) := by
    rw [htable₂]
    exact h.todo _ (mem_cons_self ..)
  have hget : (s₂.map s.next).gethash k = .keymap o :=
    (gethash_eq_iff (d := .keymap o) s.next k nofun).mpr hlook₂
  have hne : (s₂.map s.next).gethash k ≠ .keymap c := by
    rw [hget]
    intro heq
    exact absurd (Def.keymap.inj heq) (Nat.ne_of_lt (Nat.lt_trans ho hcn))
  cases fuel with
  | zero =>
    rw [keymapStoreInternal_of_ne hne]
    trivial
  | succ fuel =>
    have hcheck : checkKeymapDefinitionLoop before (fuel + 1) (.keymap c) s.next s₂ =
        .returns () s₂ :=
      check_of_cache_nil before (hc.eq ▸ hc.cache) (Nat.ne_of_gt hcn) fuel
    have hwaning₂ : ∀ o < s.next,
        WaningEntry (s₂.map s.next).table (.keymap o) (view₂ (s.next, .keymap o)) := by
      intro o ho
      rw [htable₂, hold₂ s.next hn₁]
      exact hwaning o ho
    obtain ⟨e, he, hk⟩ := (hwaning₂ o ho).exists_of_lookup hlook₂
    obtain ⟨s₃, fp₃, hrun, hbinds, hreads₃⟩ := keymapStoreInternal_reads
      hreads₂ hne hcheck (by rw [hget]; exact fun _ => ⟨e, he, hk⟩)
    rw [hrun]
    have hn₂ : s.next < s₂.next := Nat.lt_trans hn₁ hc.lt
    refine ⟨hc.wellFormed.binds hbinds hn₂ (decide_eq_true (hc.eq ▸ hc.lt)), ?_, ?_,
      fun x hx => ?_, ⟨fp₃, _, hreads₃, fun x hx d => ?_, fun x hx d => ?_, fun d hd => ?_,
      fun o' ho' => ?_⟩, fun k' o' hk' ho' => ?_, fun e' he' => ?_, fun e' he' =>
      h.among e' (mem_cons_of_mem _ he'), (List.nodup_cons.mp h.nodup).2⟩
    · rw [hbinds.next]
      exact hn₂
    · rcases hbinds.cache s.next with heq | ⟨hnone, -⟩
      · rw [heq]
        exact hcache₂ _ h.cache
      · rw [hcache₂ _ h.cache] at hnone
        cases hnone
    · obtain ⟨ht₁, hc₁⟩ := h.kept x hx
      obtain ⟨ht₂, hc₂⟩ := hc.kept x (Nat.lt_trans hx hn₁)
      refine ⟨?_, fun cache hcache => ?_⟩
      · rw [hbinds.table_other x (Nat.ne_of_lt hx), ht₂, ht₁]
      · rcases hbinds.cache x with heq | ⟨hnone, -⟩
        · rw [heq]
          exact hc₂ _ (hc₁ _ hcache)
        · rw [hc₂ _ (hc₁ _ hcache)] at hnone
          cases hnone
    · -- the old keymaps
      rw [stored_other (Nat.ne_of_lt hx) d, hold₂ x (Nat.lt_trans hx hn₁)]
      exact hold x hx d
    · -- the other new keymaps
      rw [stored_other (Nat.ne_of_gt hx) d, hbinds.table_other x (Nat.ne_of_gt hx)]
      by_cases hx₁ : x < s₁.next
      · rw [(hc.kept x hx₁).1, hold₂ x hx₁]
        exact hnew x hx d
      · exact hnew₂ x (Nat.not_lt.mp hx₁) d
    · refine stored_exact hbinds hc.wellFormed hne (fun heq => ?_) ?_
      · rw [hget] at heq
        exact absurd (hd o heq) (Nat.not_le.mpr ho)
      · rw [htable₂, hold₂ s.next hn₁]
        exact hself d hd
    · have hd' : Def.keymap o' ≠ .keymap c := fun heq =>
        absurd (Def.keymap.inj heq) (Nat.ne_of_lt (Nat.lt_trans ho' hcn))
      rw [bindView_of_ne _ _ _ fun heq => hd' (Prod.mk.inj heq).2, hget]
      by_cases hoo : o' = o
      · subst hoo
        have hlist := hwaning₂ o' ho'
        rw [he] at hlist
        have hnil : Def.keymap o' ≠ .nil := nofun
        rw [unbindView_self _ _ _ hnil, he, Option.bind_some]
        refine hlist.delete hlook₂ ?_ fun k' hkk => hbinds.lookup_of_ne _ hkk
        rw [hbinds.lookup_self, if_neg nofun]
        exact fun heq => hd' (Option.some.inj heq).symm
      · have hprev : Def.keymap o' ≠ .keymap o := fun heq => hoo (Def.keymap.inj heq)
        rw [unbindView_of_ne _ _ _ fun heq => hprev (Prod.mk.inj heq).2]
        exact (hwaning₂ o' ho').congr
          (hbinds.lookup_iff hc.wellFormed hd' (by rw [hget]; exact hprev))
    · by_cases hkk : k' = k
      · rw [hkk, hbinds.lookup_self, if_neg nofun] at hk'
        have heq := Def.keymap.inj (Option.some.inj hk')
        exact absurd (heq ▸ ho') (Nat.not_lt.mpr (Nat.le_of_lt hcn))
      · rw [hbinds.lookup_of_ne _ hkk, htable₂] at hk'
        refine (List.mem_cons.mp (h.left k' o' hk' ho')).resolve_left fun heq => hkk ?_
        exact congrArg Sigma.fst heq
    · have hmem : e'.1 ∈ l.map Sigma.fst := mem_map_of_mem he'
      have hkk : e'.1 ≠ k := fun heq =>
        (List.nodup_cons.mp h.nodup).1 (heq ▸ hmem)
      rw [hbinds.lookup_of_ne _ hkk, htable₂]
      exact h.todo e' (mem_cons_of_mem _ he')

end copying

section copyKeymap

variable {S : Set Nat} {s : Keymaps} {view : Nat × Def → Option KeyList}

theorem copying_start {s₁ : Keymaps} {m : Nat} (hm : m ∈ S) (hwf : WellFormed s)
    (hS : Copyable S s view) (hfresh : ∀ x, s.next ≤ x → ∀ d, view (x, d) = none)
    (hsame : SameTables (copied s m) s₁) {fp₁ : Nat × Def → List Nat}
    (hreads : Reads s₁ fp₁ (copyView view m s.next)) :
    Copying S s view (s₁.map s.next).table.entries s₁ := by
  have hnew : (copied s m).map s.next = { s.map m with subMapsCache := some [] } := by
    rw [copied, Keymaps.map_add, if_pos rfl]
  have hother : ∀ x, x ≠ s.next → (copied s m).map x = s.map x := fun x hx => by
    rw [copied, Keymaps.map_add, if_neg hx]
  have htable : (s₁.map s.next).table = (s.map m).table := by
    rw [hsame.table, hnew]
  refine ⟨(wellFormed_copied hwf m).same hsame, ?_, ?_, fun x hx => ?_,
    ⟨fp₁, _, hreads, fun x hx d => ?_, fun x hx d => ?_, fun d _ => ?_, fun o ho => ?_⟩,
    fun k o hk _ => AList.mem_lookup_iff.mp hk, fun e he => AList.mem_lookup_iff.mpr he,
    fun e he o heo => ?_, (s₁.map s.next).table.nodupKeys⟩
  · rw [hsame.next]
    exact Nat.lt_succ_self _
  · rw [hsame.cache, hnew]
  · rw [hsame.table, hsame.cache, hother x (Nat.ne_of_lt hx)]
    exact ⟨rfl, fun _ h => h⟩
  · rw [copyView, if_neg (Nat.ne_of_lt hx)]
  · rw [copyView, if_neg (Nat.ne_of_gt hx), hfresh x (Nat.le_of_lt hx), hsame.table,
      hother x (Nat.ne_of_gt hx), hwf.fresh x (Nat.le_of_lt hx)]
    intro k hk
    cases hk
  · rw [htable, copyView, if_pos rfl]
    exact hS.exact m hm d
  · rw [htable, copyView, if_pos rfl]
    have hex := hS.exact m hm (.keymap o)
    have hlast := hS.last m hm o
    cases hv : view (m, .keymap o) with
    | none =>
      rw [hv] at hex
      exact hex
    | some e =>
      rw [hv] at hex
      exact .inl ⟨hex, hlast e hv⟩
  · rw [htable] at he
    refine hS.closed m hm e.1 o ?_
    rw [← heo]
    exact AList.mem_lookup_iff.mpr he

/-- **A copy** of keymaps that can be copied does not abort, and leaves exact
entries. -/
theorem copyKeymap_copied (rounds : Nat) {m : Nat} {fp : Nat × Def → List Nat}
    (hm : m ∈ S) (hwf : WellFormed s) (hreads : Reads s fp view)
    (hS : Copyable S s view) (hfresh : ∀ x, s.next ≤ x → ∀ d, view (x, d) = none) :
    (copyKeymap before fuel rounds m s).Meets False (fun n s' => Copied s view n s')
      (fun _ => False) := by
  induction rounds generalizing s m fp view with
  | zero => trivial
  | succ rounds ih =>
    have hcopy := copyKeymapInternal_reads hreads (hS.lt m hm)
    rw [copyKeymap, bind_apply]
    cases hrun : copyKeymapInternal m s with
    | diverges => trivial
    | aborts =>
      rw [hrun] at hcopy
      exact hcopy
    | signals s₁ =>
      rw [hrun] at hcopy
      exact hcopy
    | returns n s₁ =>
      rw [hrun] at hcopy
      obtain ⟨rfl, hsame, fp₁, hreads₁⟩ := hcopy
      show Outcome.Meets False _ _ ((Command.state >>= _) s₁)
      rw [bind_of_returns (state_apply s₁)]
      refine Triple.bind (Triple.forM (I := Copying S s view) (fun e l => ?_) _)
        (fun _ => Triple.pure fun s' h => h.copied) s₁
        (copying_start hm hwf hS hfresh hsame hreads₁)
      intro s₂ h₂
      obtain ⟨k, d⟩ := e
      cases d with
      | nil => exact h₂.skip nofun
      | command i => exact h₂.skip nofun
      | item i d => exact h₂.skip nofun
      | keymap o =>
        obtain ⟨fp₂, view₂, hreads₂, hold, hnew, hself, hwaning⟩ := h₂.reads
        have hoS : o ∈ S := h₂.among _ (mem_cons_self ..) o rfl
        have hS₂ : Copyable S s₂ view₂ := by
          refine ⟨fun x hx => Nat.lt_trans (hS.lt x hx) h₂.lt, fun x hx k y hk => ?_,
            fun x hx d => ?_, fun x hx o e he => ?_⟩
          · rw [(h₂.kept x (hS.lt x hx)).1] at hk
            exact hS.closed x hx k y hk
          · rw [(h₂.kept x (hS.lt x hx)).1, hold x (hS.lt x hx)]
            exact hS.exact x hx d
          · rw [hold x (hS.lt x hx)] at he
            exact hS.last x hx o e he
        have hrec := ih hoS h₂.wellFormed hreads₂ hS₂ fun x hx d => by
          refine (hnew x (Nat.lt_of_lt_of_le h₂.lt hx) d).eq_none fun k hk => ?_
          rw [h₂.wellFormed.fresh x hx] at hk
          cases hk
        show Outcome.Meets False _ _ ((copyKeymap before fuel rounds o >>= _) s₂)
        rw [bind_apply]
        cases hcopy : copyKeymap before fuel rounds o s₂ with
        | diverges => trivial
        | aborts =>
          rw [hcopy] at hrec
          exact hrec
        | signals s₃ =>
          rw [hcopy] at hrec
          exact hrec
        | returns c s₃ =>
          rw [hcopy] at hrec
          exact h₂.replace before fuel hS.lt hold hnew hself hwaning hrec

end copyKeymap

/-! ### Sequences of stores and copies -/

/-- The operations on keymaps that touch the inverse tables. -/
inductive StoreOp
  | makeKeymap
  | storeInternal (k : Key) (m : Nat) (d : Def)
  | copyKeymap (m : Nat)

/-- An argument that is no keymap is an error. -/
def StoreOp.exec : StoreOp → Command Keymaps Unit
  | .makeKeymap => do
    let _ ← newKeymap emptyKeymap
    pure ()
  | .storeInternal k m d => do
    let s ← Command.state
    if m < s.next ∧ d.live s.next then keymapStoreInternal before fuel k m d
    else Command.signal
  | .copyKeymap m => do
    let s ← Command.state
    if m < s.next then do
      let _ ← Keymap.copyKeymap before fuel fuel m
      pure ()
    else Command.signal

/-- The keymaps after an operation that ends. -/
def StoreOp.step (s : Keymaps) (op : StoreOp) : Option Keymaps :=
  (op.exec before fuel s).state?

/-- `b` is the binding of a key in `a`. -/
def Submap (s : Keymaps) (a b : Nat) : Prop :=
  ∃ k, (s.map a).table.lookup k = some (.keymap b)

/-- A store takes away a key that may go; what is copied has no submap whose keys end
in the key nil. -/
def StoreOp.Meets (s : Keymaps) : StoreOp → Prop
  | .makeKeymap => True
  | .storeInternal k m d => StoreMeets before fuel s k m d
  | .copyKeymap m => ∀ x, Relation.ReflTransGen (Submap s) m x → ∀ o ps e,
      Entry s.cells (s.entry (x, .keymap o)) ps (some e) → e.1 = [] ∨ e.2 ≠ .nil

/-- The inverse table of every keymap is the inverse of its table: what an entry
spells is exactly the keys with the binding. -/
def InverseExact (s : Keymaps) : Prop :=
  ∀ m d, ∃ ps e, Entry s.cells (s.entry (m, d)) ps e ∧ ExactEntry (s.map m).table d e

theorem Exact.inverseExact {s : Keymaps} {fp : Nat × Def → List Nat}
    {view : Nat × Def → Option KeyList} (h : Exact s fp view) : InverseExact s :=
  fun m d => ⟨_, _, h.reads.entry (m, d) (Set.mem_univ _), h.exact m d⟩

theorem Exact.view_fresh {s : Keymaps} {fp : Nat × Def → List Nat}
    {view : Nat × Def → Option KeyList} (h : Exact s fp view) {x : Nat} (hx : s.next ≤ x)
    (d : Def) : view (x, d) = none := by
  refine (h.exact x d).eq_none fun k hk => ?_
  rw [h.wellFormed.fresh x hx] at hk
  cases hk

theorem Exact.newKeymap {s : Keymaps} {fp : Nat × Def → List Nat}
    {view : Nat × Def → Option KeyList} (h : Exact s fp view) :
    Exact (s.add emptyKeymap) fp view where
  wellFormed := h.wellFormed.newKeymap
  reads := by
    refine h.reads.congr rfl fun i _ => ?_
    rw [Keymaps.entry, Keymaps.map_add]
    split
    · next hi =>
      have hentry := h.reads.entry i (Set.mem_univ _)
      rw [show view i = none from h.view_fresh (Nat.le_of_eq hi.symm) i.2] at hentry
      generalize s.entry i = r at hentry
      generalize fp i = ps at hentry
      cases hentry
      rfl
    · rfl
  exact x d := by
    rw [Keymaps.map_add]
    split
    · next hx =>
      rw [h.view_fresh (Nat.le_of_eq hx.symm)]
      intro k hk
      cases hk
    · exact h.exact x d

/-- **Each operation** whose condition is met keeps the entries exact, and does not
abort. -/
theorem StoreOp.exec_exact {s : Keymaps} {fp : Nat × Def → List Nat}
    {view : Nat × Def → Option KeyList} (h : Exact s fp view) (op : StoreOp)
    (hmeets : op.Meets before fuel s) :
    (op.exec before fuel s).Meets False (fun _ s' => ∃ fp' view', Exact s' fp' view')
      (fun s' => ∃ fp' view', Exact s' fp' view') := by
  cases op with
  | makeKeymap => exact ⟨fp, view, h.newKeymap⟩
  | storeInternal k m d =>
    rw [exec, bind_of_returns (state_apply s)]
    split
    · next hlive => exact keymapStoreInternal_exact h hlive.1 hlive.2 hmeets
    · exact ⟨fp, view, h⟩
  | copyKeymap m =>
    rw [exec, bind_of_returns (state_apply s)]
    split
    case isFalse => exact ⟨fp, view, h⟩
    case isTrue hm =>
      have hS : Copyable { x | Relation.ReflTransGen (Submap s) m x } s view := by
        refine ⟨fun x hx => ?_, fun x hx k y hk => hx.tail ⟨k, hk⟩,
          fun x _ d => h.exact x d, fun x hx o e he => ?_⟩
        · rcases Relation.ReflTransGen.cases_tail hx with rfl | ⟨y, -, k, hk⟩
          · exact hm
          · exact of_decide_eq_true (h.wellFormed.live y k _ hk)
        · refine hmeets x hx o (fp (x, .keymap o)) e ?_
          rw [← he]
          exact h.reads.entry _ (Set.mem_univ _)
      have hcopy := copyKeymap_copied before fuel fuel (m := m) Relation.ReflTransGen.refl
        h.wellFormed h.reads hS fun x hx d => h.view_fresh hx d
      rw [bind_apply]
      cases hrun : Keymap.copyKeymap before fuel fuel m s with
      | diverges => trivial
      | aborts =>
        rw [hrun] at hcopy
        exact hcopy
      | signals s' =>
        rw [hrun] at hcopy
        exact hcopy.elim
      | returns n s' =>
        rw [hrun] at hcopy
        obtain ⟨fp', view', hreads, hold, hnew⟩ := hcopy.reads
        refine ⟨fp', view', hcopy.wellFormed, hreads, fun x d => ?_⟩
        by_cases hx : x < s.next
        · rw [(hcopy.kept x hx).1, hold x hx]
          exact h.exact x d
        · exact hnew x (Nat.not_lt.mp hx) d

theorem exact_noKeymaps : Exact noKeymaps (fun _ => []) (fun _ => none) where
  wellFormed := ⟨nofun, nofun, nofun, fun _ _ => rfl⟩
  reads := ⟨fun _ _ => .none, nofun, fun _ _ => nodup_nil, nofun⟩
  exact _ _ := fun _ hk => nomatch hk

/-- A key order that tells no two keys apart. -/
def anyOrder : Key → Key → Bool :=
  fun _ _ => true

/-- `a` and `b` get the same command in one keymap. -/
def twoKeys : List StoreOp :=
  [.makeKeymap, .storeInternal (.keysym (.char 97)) 0 (.command 0),
    .storeInternal (.keysym (.char 98)) 0 (.command 0)]

theorem entry_of_pair {c : Cells Key} {p : Nat} {z : Key} {ps : List Nat} {e : KeyList}
    (h : Entry c (some (.cell p)) ps (some e)) (hz : c.cdr p = .atom z) :
    e = ([c.car p], z) := by
  cases h with
  | some h =>
    cases h with
    | cell h =>
      rw [hz] at h
      obtain ⟨-, rfl, rfl⟩ := h.of_atom
      rfl

end XEmacs.Keymap

import XEmacs.Keymap.Traversals

/-!
# Walks through parents

A walk of `traverse_keymaps` that no mapper ends visits a keymap and then, in an order of its
own, keymaps that it inherits from.
-/

namespace XEmacs.Keymap

open Commands Relation List

/-- What a walk visits, in order. -/
inductive Walk (s : Keymaps) : Traversal → List Nat → Prop
  | last {t : Traversal} (h : t.next s = none) : Walk s t [t.keymap]
  | step {t t' : Traversal} {l : List Nat} (h : t.next s = some t') (hl : Walk s t' l) :
    Walk s t (t.keymap :: l)

/-- The walk from `m` visits `k`, after `pre`. -/
def Inherits (s : Keymaps) (m : Nat) (pre : List Nat) (k : Nat) : Prop :=
  ∃ post, Walk s (.init s m []) (pre ++ k :: post)

/-- `R` holds of an element before which `L` holds of none. -/
def FirstIn (L R : Nat → Prop) (l : List Nat) : Prop :=
  ∃ pre k post, l = pre ++ k :: post ∧ (∀ p ∈ pre, ¬ L p) ∧ R k

section first

variable {L R : Nat → Prop} {k : Nat} {l : List Nat}

theorem firstIn_nil : ¬ FirstIn L R [] := by
  rintro ⟨pre, k, post, hl, -⟩
  exact append_ne_nil_of_right_ne_nil pre (cons_ne_nil k post) hl.symm

theorem firstIn_cons : FirstIn L R (k :: l) ↔ R k ∨ ¬ L k ∧ FirstIn L R l := by
  constructor
  · rintro ⟨pre, x, post, hl, hpre, hx⟩
    cases pre with
    | nil =>
      cases hl
      exact .inl hx
    | cons p pre =>
      cases hl
      have hrest := fun q hq => hpre q (mem_cons_of_mem k hq)
      exact .inr ⟨hpre k (mem_cons_self ..), pre, x, post, rfl, hrest, hx⟩
  · rintro (hk | ⟨hk, pre, x, post, rfl, hpre, hx⟩)
    · exact ⟨[], k, l, rfl, fun p hp => absurd hp not_mem_nil, hk⟩
    · refine ⟨k :: pre, x, post, rfl, fun p hp => ?_, hx⟩
      obtain rfl | hp := List.mem_cons.mp hp
      · exact hk
      · exact hpre p hp

theorem FirstIn.mono {R' : Nat → Prop} (h : FirstIn L R l) (hR : ∀ k ∈ l, R k → R' k) :
    FirstIn L R' l := by
  obtain ⟨pre, k, post, rfl, hpre, hk⟩ := h
  exact ⟨pre, k, post, rfl, hpre, hR k (mem_append_right _ (mem_cons_self ..)) hk⟩

theorem FirstIn.exists_mem (h : FirstIn L R l) : ∃ k ∈ l, R k := by
  obtain ⟨pre, k, post, rfl, -, hk⟩ := h
  exact ⟨k, mem_append_right _ (mem_cons_self ..), hk⟩

theorem firstIn_of_mem (hk : k ∈ l) (hL : L k) : FirstIn L L l := by
  induction l with
  | nil => exact absurd hk not_mem_nil
  | cons x l ih =>
    rw [firstIn_cons]
    by_cases hx : L x
    · exact .inl hx
    · obtain rfl | hk := List.mem_cons.mp hk
      · exact absurd hL hx
      · exact .inr ⟨hx, ih hk⟩

theorem FirstIn.and {R' : Nat → Prop} (h : FirstIn L R l) (h' : FirstIn L R' l)
    (hR : ∀ k ∈ l, R k → L k) (hR' : ∀ k ∈ l, R' k → L k) :
    FirstIn L (fun k => R k ∧ R' k) l := by
  induction l with
  | nil => exact absurd h firstIn_nil
  | cons x l ih =>
    have hx := mem_cons_self (a := x) (l := l)
    rw [firstIn_cons] at h h' ⊢
    obtain h | ⟨hL, h⟩ := h
    · obtain h' | ⟨hL', -⟩ := h'
      · exact .inl ⟨h, h'⟩
      · exact absurd (hR x hx h) hL'
    · obtain h' | ⟨-, h'⟩ := h'
      · exact absurd (hR' x hx h') hL
      · exact .inr ⟨hL, ih h h' (fun k hk => hR k (mem_cons_of_mem x hk))
          fun k hk => hR' k (mem_cons_of_mem x hk)⟩

end first

section walk

variable {s : Keymaps} {t t' : Traversal} {l l' : List Nat} {m k : Nat}

theorem Walk.unique (h : Walk s t l) (h' : Walk s t l') : l = l' := by
  induction h generalizing l' with
  | last h =>
    cases h' with
    | last _ => rfl
    | step h' _ =>
      rw [h] at h'
      cases h'
  | step h _ ih =>
    cases h' with
    | last h' =>
      rw [h] at h'
      cases h'
    | step h' hl' =>
      rw [h] at h'
      cases h'
      rw [ih hl']

theorem Walk.firstIn_iff {L R : Nat → Prop} (h : Walk s (.init s m []) l) :
    FirstIn L R l ↔ ∃ pre k, Inherits s m pre k ∧ (∀ p ∈ pre, ¬ L p) ∧ R k := by
  constructor
  · rintro ⟨pre, k, post, rfl, hpre, hk⟩
    exact ⟨pre, k, ⟨post, h⟩, hpre, hk⟩
  · rintro ⟨pre, k, ⟨post, h'⟩, hpre, hk⟩
    exact ⟨pre, k, post, h.unique h', hpre, hk⟩

/-! ### What a walk comes to -/

/-- All that a walk still has to visit is so. -/
structure Traversal.Pending (Q : Nat → Prop) (t : Traversal) : Prop where
  tail : ∀ k ∈ t.tail, Q k
  bites : ∀ l ∈ t.mallocBites, ∀ k ∈ l, Q k
  sucks : ∀ l ∈ t.mallocSucks, ∀ k ∈ l, Q k

theorem Traversal.Pending.push {Q : Nat → Prop} (h : t.Pending Q) {rest : List Nat}
    (hrest : ∀ k ∈ rest, Q k) : (t.push rest).Pending Q := by
  have hcons : ∀ ls : List (List Nat), (∀ l ∈ ls, ∀ k ∈ l, Q k) →
      ∀ l ∈ rest :: ls, ∀ k ∈ l, Q k := by
    rintro ls hls l (_ | ⟨_, hl⟩)
    · exact hrest
    · exact hls l hl
  unfold Traversal.push
  split
  · exact ⟨h.tail, hcons _ h.bites, h.sucks⟩
  · split
    · exact ⟨h.tail, h.bites, hcons _ h.sucks⟩
    · exact ⟨h.tail, h.sucks, fun l hl => absurd hl not_mem_nil⟩

/-- **One step** comes to something that was to be visited. -/
theorem Traversal.Pending.next {Q : Nat → Prop} (h : t.Pending Q)
    (hparents : ∀ k, Q k → ∀ p ∈ (s.map k).parents, Q p) (hnext : t.next s = some t') :
    Q t'.keymap ∧ t'.Pending Q := by
  have hcons : ∀ {k : Nat} {tail : List Nat}, (∀ x ∈ k :: tail, Q x) → Q k ∧ ∀ x ∈ tail, Q x :=
    fun hall => ⟨hall _ (mem_cons_self ..), fun x hx => hall x (mem_cons_of_mem _ hx)⟩
  unfold Traversal.next at hnext
  split at hnext
  · split at hnext
    · cases hnext
    · split at hnext
      · rename_i hbites
        cases hnext
        obtain ⟨hk, htail⟩ := hcons (h.bites _ (hbites ▸ mem_cons_self ..))
        exact ⟨hk, htail, fun l hl => h.bites l (hbites ▸ mem_cons_of_mem _ hl), h.sucks⟩
      · rename_i hsucks
        cases hnext
        obtain ⟨hk, htail⟩ := hcons (h.sucks _ (hsucks ▸ mem_cons_self ..))
        exact ⟨hk, htail, h.bites, fun l hl => h.sucks l (hsucks ▸ mem_cons_of_mem _ hl)⟩
      · cases hnext
  · rename_i htail
    obtain ⟨hk, hrest⟩ := hcons fun x hx => h.tail x (htail ▸ hx)
    split at hnext
    · cases hnext
      exact ⟨hk, hrest, h.bites, h.sucks⟩
    · split at hnext
      · cases hnext
        exact ⟨hk, hparents _ hk, h.bites, h.sucks⟩
      · cases hnext
        have hpush := h.push hrest
        exact ⟨hk, hparents _ hk, hpush.bites, hpush.sucks⟩

theorem Walk.forall_tail {Q : Nat → Prop} (h : Walk s t l) (ht : t.Pending Q)
    (hparents : ∀ k, Q k → ∀ p ∈ (s.map k).parents, Q p) : ∀ k ∈ l.tail, Q k := by
  induction h with
  | last h => exact fun k hk => absurd hk not_mem_nil
  | step h hl ih =>
    obtain ⟨hk, ht'⟩ := ht.next hparents h
    cases hl with
    | last _ =>
      intro k hk'
      rwa [List.mem_singleton.mp hk']
    | step _ _ =>
      intro k hk'
      obtain rfl | hk' := List.mem_cons.mp hk'
      · exact hk
      · exact ih ht' k hk'

theorem Weight.exists_walk_from {w : Nat → Nat} (h : Weight s w) {b : Nat} (n : Nat)
    (ht : t.Within w b) (hn : t.pending w < n) : ∃ l, Walk s t l ∧ l.length ≤ n := by
  induction n generalizing t with
  | zero => exact absurd hn (Nat.not_lt_zero _)
  | succ n ih =>
    cases hnext : t.next s with
    | none => exact ⟨_, .last hnext, Nat.le_add_left 1 n⟩
    | some t' =>
      obtain ⟨hspent, ht'⟩ := h.next ht hnext
      obtain ⟨l, hl, hlen⟩ := ih ht' (by omega)
      exact ⟨_, .step hnext hl, Nat.succ_le_succ hlen⟩

/-- **The walk from a keymap** visits it and then keymaps that it leads to. -/
theorem Weight.exists_walk {w : Nat → Nat} (h : Weight s w) (m : Nat) :
    ∃ l, Walk s (.init s m []) (m :: l) ∧ (m :: l).length ≤ w m ∧
      ∀ k ∈ l, w k < w m ∧ ReflTransGen (Link s) m k := by
  have hw := h m
  have htail : (Traversal.init s m []).tail = (s.map m).parents := rfl
  have hpending : (Traversal.init s m []).pending w = ((s.map m).parents.map w).sum := rfl
  have hwithin : (Traversal.init s m []).Within w (w m) :=
    ⟨Nat.le_refl _, fun k hk => (h.parent_lt (htail ▸ hk)).le,
      fun l hl => absurd hl not_mem_nil, fun l hl => absurd hl not_mem_nil⟩
  obtain ⟨l, hl, hlen⟩ := h.exists_walk_from (w m) hwithin (by omega)
  have hall := hl.forall_tail (Q := fun k => w k < w m ∧ ReflTransGen (Link s) m k)
    ⟨fun k hk => ⟨h.parent_lt (htail ▸ hk), .single (.inr (htail ▸ hk))⟩,
      fun l hl => absurd hl not_mem_nil, fun l hl => absurd hl not_mem_nil⟩
    fun k hk p hp => ⟨(h.parent_lt hp).trans hk.1, hk.2.tail (.inr hp)⟩
  cases hl with
  | last hnone => exact ⟨[], .last hnone, hlen, hall⟩
  | step hnext hl => exact ⟨_, .step hnext hl, hlen, hall⟩

theorem Inherits.link {w : Nat → Nat} (h : Weight s w) {pre : List Nat}
    (hk : Inherits s m pre k) : ReflTransGen (Link s) m k ∧ w k ≤ w m := by
  obtain ⟨l, hl, -, hall⟩ := h.exists_walk m
  obtain ⟨post, hwalk⟩ := hk
  have hmem : k ∈ m :: l := by
    rw [hl.unique hwalk]
    exact mem_append_right _ (mem_cons_self ..)
  obtain rfl | hmem := List.mem_cons.mp hmem
  · exact ⟨.refl, Nat.le_refl _⟩
  · exact ⟨(hall k hmem).2, (hall k hmem).1.le⟩

/-! ### Looking for something -/

theorem Traversal.next_congr {s s' : Keymaps}
    (h : ∀ m, (s'.map m).parents = (s.map m).parents) (t : Traversal) : t.next s' = t.next s := by
  unfold Traversal.next
  simp only [h]

/-- What a mapper finds in a keymap: something, if `L` holds of it. -/
def Finds {α : Type} (L : Nat → Prop) (S : Nat → α → Prop) (k : Nat) : Option α → Prop
  | none => ¬ L k
  | some a => L k ∧ S k a

/-- What is found by the mapper is from the first keymap where it finds something. -/
def FindsFirst {α : Type} (L : Nat → Prop) (S : Nat → α → Prop) (l : List Nat) :
    Option α → Prop
  | none => ∀ k ∈ l, ¬ L k
  | some a => FirstIn L (fun k => L k ∧ S k a) l

variable {α : Type} {mapper : Nat → Command Keymaps (Option α)} {I : Keymaps → Prop}
  {D L : Nat → Prop} {S : Nat → α → Prop}

theorem traverseFrom_first (hI : ∀ s', I s' → ∀ m, (s'.map m).parents = (s.map m).parents)
    {start fuel : Nat} (hl : Walk s t l) (hstart : ∀ k ∈ l.tail, k ≠ start)
    (hmapper : ∀ k ∈ l, Total (D k) I (mapper k) (fun r s' => I s' ∧ ¬ D k ∧ Finds L S k r)
      fun _ => False)
    (hfuel : l.length ≤ fuel) :
    Total (FirstIn L D l) I (traverseFrom id mapper start fuel t)
      (fun r s' => I s' ∧ ¬ FirstIn L D l ∧ FindsFirst L S l r) fun _ => False := by
  induction hl generalizing fuel with
  | @last t hnext =>
    cases fuel with
    | zero => exact absurd hfuel (by simp)
    | succ fuel =>
      have hone : FirstIn L D [t.keymap] ↔ D t.keymap := by
        rw [firstIn_cons]
        exact ⟨fun h => h.elim id fun h => absurd h.2 firstIn_nil, .inl⟩
      rw [hone]
      refine Total.bind (hmapper t.keymap (mem_singleton_self _)) fun r => ?_
      cases r with
      | some a =>
        refine Total.pure fun s' ⟨hI', hD, hL, hS⟩ => ⟨hI', hD, ?_⟩
        exact firstIn_cons.mpr (.inl ⟨hL, hS⟩)
      | none =>
        refine Total.state_bind fun s' ⟨hI', hD, hL⟩ => ?_
        rw [id, Traversal.next_congr (hI s' hI'), hnext]
        refine Total.pure fun x hx => ?_
        rw [hx]
        refine ⟨hI', hD, fun k hk => ?_⟩
        rw [List.mem_singleton.mp hk]
        exact hL
  | @step t t' l hnext hl ih =>
    cases fuel with
    | zero => exact absurd hfuel (by simp)
    | succ fuel =>
      have hself := hmapper t.keymap (mem_cons_self ..)
      rw [firstIn_cons]
      refine Total.bind (hself.abort_mono .inl) fun r => ?_
      cases r with
      | some a =>
        refine Total.pure fun s' ⟨hI', hD, hL, hS⟩ => ⟨hI', ?_, ?_⟩
        · rintro (h | ⟨h, -⟩)
          · exact hD h
          · exact h hL
        · exact firstIn_cons.mpr (.inl ⟨hL, hS⟩)
      | none =>
        refine Total.state_bind fun s' ⟨hI', hD, hL⟩ => ?_
        have hne : t'.keymap ≠ start := by
          cases hl with
          | last _ => exact hstart _ (mem_cons_self ..)
          | step _ _ => exact hstart _ (mem_cons_self ..)
        have hrest : ∀ k ∈ l.tail, k ≠ start := fun k hk => hstart k (mem_of_mem_tail hk)
        have hwalk := ih hrest (fun k hk => hmapper k (mem_cons_of_mem _ hk))
          (Nat.le_of_succ_le_succ hfuel)
        simp only [id, Traversal.next_congr (hI s' hI'), hnext, if_neg hne]
        refine ((hwalk.abort_mono fun h => .inr ⟨hL, h⟩).conseq (fun x hx => hx ▸ hI') ?_
          fun _ h => h)
        rintro r s'' ⟨hI'', hno, hfound⟩
        refine ⟨hI'', ?_, ?_⟩
        · rintro (h | ⟨-, h⟩)
          · exact hD h
          · exact hno h
        · cases r with
          | none =>
            intro k hk
            obtain rfl | hk := List.mem_cons.mp hk
            · exact hL
            · exact hfound k hk
          | some a => exact firstIn_cons.mpr (.inr ⟨hL, hfound⟩)

/-- **A walk with a mapper** that aborts where `D` holds, and otherwise finds something where `L`
does. -/
theorem traverseKeymaps_first {w : Nat → Nat} (h : Weight s w)
    (hI : ∀ s', I s' → ∀ m, (s'.map m).parents = (s.map m).parents) {m fuel : Nat}
    (hl : Walk s (.init s m []) l) (hfuel : w m ≤ fuel)
    (hmapper : ∀ k, ReflTransGen (Link s) m k → w k ≤ w m →
      Total (D k) I (mapper k) (fun r s' => I s' ∧ ¬ D k ∧ Finds L S k r) fun _ => False) :
    Total (FirstIn L D l) I (traverseKeymaps id mapper fuel m [])
      (fun r s' => I s' ∧ ¬ FirstIn L D l ∧ FindsFirst L S l r) fun _ => False := by
  obtain ⟨l', hl', hlen, hall⟩ := h.exists_walk m
  obtain rfl := hl.unique hl'
  refine Total.state_bind fun s' hs' => ?_
  have hinit : Traversal.init s' m [] = .init s m [] := by
    simp only [Traversal.init, hI s' hs']
  rw [id, hinit]
  refine (traverseFrom_first hI hl (fun k hk heq => ?_) (fun k hk => ?_)
    (hlen.trans hfuel)).conseq (fun x hx => hx ▸ hs') (fun _ _ h => h) fun _ h => h
  · rw [heq] at hk
    exact Nat.lt_irrefl _ (hall m hk).1
  · obtain rfl | hk := List.mem_cons.mp hk
    · exact hmapper _ .refl (Nat.le_refl _)
    · exact hmapper k (hall k hk).2 (hall k hk).1.le

end walk

end XEmacs.Keymap

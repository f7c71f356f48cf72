import Mathlib.Algebra.Order.BigOperators.Group.List
import Mathlib.Algebra.Order.Ring.Nat
import XEmacs.Keymap.Cycles
import XEmacs.Keymap.SubmapCache
import XEmacs.Keymap.Lookup

/-!
# Traversals of keymaps end

Without cycles each keymap has a weight, one more than that of all it leads to (`Weight`).
-/

namespace XEmacs.Keymap

open Acyclic Commands ConsLists Relation

/-- The weight of the submaps in a table. -/
def submapsWeight (w : Nat → Nat) (k : LispKeymap) : Nat :=
  ((submapEntries k.table).map fun e => w e.2).sum

/-- A keymap weighs one more than all that it leads to. -/
def Weight (s : Keymaps) (w : Nat → Nat) : Prop :=
  ∀ a, w a = submapsWeight w (s.map a) + ((s.map a).parents.map w).sum + 1

theorem Sound.exists_weight {s : Keymaps} (h : Sound s) : ∃ w, Weight s w := by
  have hfin : {a | ∃ b, Link s a b}.Finite := by
    refine (Set.finite_lt_nat s.next).subset fun a ⟨b, hab⟩ => ?_
    by_contra hge
    have hge : s.next ≤ a := Nat.not_lt.mp hge
    obtain ⟨k, hk⟩ | hp := hab
    · rw [h.wellFormed.fresh a hge] at hk
      cases hk
    · rw [h.fresh a hge] at hp
      cases hp
  have hwf : WellFounded fun b a => b ∈
      (submapEntries (s.map a).table).map Prod.snd ++ (s.map a).parents := by
    have heq : (fun b a => b ∈ (submapEntries (s.map a).table).map Prod.snd ++
        (s.map a).parents) = fun b a => Link s a b := by
      funext b a
      rw [List.mem_append, ← link_iff]
    rw [heq]
    exact h.noCycle.wellFounded hfin
  obtain ⟨w, hw⟩ := Acyclic.exists_weight hwf
  refine ⟨w, fun a => ?_⟩
  rw [hw a, List.map_append, List.sum_append, List.map_map]
  rfl

section weight

variable {s s' : Keymaps} {w : Nat → Nat}

theorem Weight.filled (h : Weight s w) (hs : Filled s s') : Weight s' w := by
  intro a
  rw [submapsWeight, hs.table a, hs.parents a]
  exact h a

theorem Weight.parent_lt (h : Weight s w) {a p : Nat} (hp : p ∈ (s.map a).parents) :
    w p < w a := by
  have hle : w p ≤ ((s.map a).parents.map w).sum :=
    List.single_le_sum (fun _ _ => Nat.zero_le _) _ (List.mem_map_of_mem hp)
  have ha := h a
  omega

theorem Weight.listed_le (hc : CachesSound s) (a : Nat) {maps : List (Key × Nat)}
    (hmaps : maps.Perm (s.listed a)) :
    (maps.map fun e => w e.2).sum ≤ submapsWeight w (s.map a) := by
  obtain ⟨l, hl, hsub⟩ := hc.listed a
  rw [((hmaps.trans hl.symm).map fun e => w e.2).sum_eq]
  exact (hsub.map fun e => w e.2).sum_le_sum fun _ _ => Nat.zero_le _

theorem Weight.submap_lt (h : Weight s w) (hc : CachesSound s) {a : Nat}
    {maps : List (Key × Nat)} (hmaps : maps.Perm (s.listed a)) {e : Key × Nat} (he : e ∈ maps) :
    w e.2 < w a := by
  have hle : w e.2 ≤ (maps.map fun e => w e.2).sum :=
    List.single_le_sum (fun _ _ => Nat.zero_le _) _ (List.mem_map_of_mem he)
  have hsum := Weight.listed_le (w := w) hc a hmaps
  have ha := h a
  omega

/-! ### The check for a definition loop -/

variable (before : Key → Key → Bool)

theorem keymapSubmaps_total {A : Prop} {E : Keymaps → Prop} (m : Nat) :
    Total A (Filled s) (keymapSubmaps before m)
      (fun maps s' => Filled s s' ∧ maps.Perm (s.listed m)) E := by
  refine Total.of_returns fun s' hs' => ?_
  obtain ⟨maps, s'', hrun, hfill, hperm⟩ := keymapSubmaps_listed before m s'
  exact ⟨maps, s'', hrun, hs'.trans hfill, hperm.trans (hs'.listed m)⟩

theorem checkKeymapDefinitionLoop_total (h : Weight s w) (hc : CachesSound s) {fuel d : Nat}
    (m : Nat) (hfuel : w d ≤ fuel) :
    Total True (Filled s) (checkKeymapDefinitionLoop before fuel (.keymap d) m)
      (fun _ => Filled s) (Filled s) := by
  induction fuel generalizing d with
  | zero =>
    have hd := h d
    omega
  | succ fuel ih =>
    rw [checkKeymapDefinitionLoop]
    split
    · exact Total.signal fun _ hs => hs
    · refine Total.bind (keymapSubmaps_total before d) fun maps => Total.of_and fun hperm => ?_
      refine Total.forM (I := fun _ => Filled s) fun e he _ => ih ?_
      have hlt := h.submap_lt hc hperm he
      omega

/-! ### Walks through parents -/

/-- The weight of what a walk still has to visit. -/
def Traversal.pending (w : Nat → Nat) (t : Traversal) : Nat :=
  (t.tail.map w).sum + (t.mallocBites.map fun l => (l.map w).sum).sum +
    (t.mallocSucks.map fun l => (l.map w).sum).sum

/-- All that a walk visits weighs at most `b`. -/
structure Traversal.Within (w : Nat → Nat) (b : Nat) (t : Traversal) : Prop where
  keymap : w t.keymap ≤ b
  tail : ∀ k ∈ t.tail, w k ≤ b
  bites : ∀ l ∈ t.mallocBites, ∀ k ∈ l, w k ≤ b
  sucks : ∀ l ∈ t.mallocSucks, ∀ k ∈ l, w k ≤ b

theorem Traversal.pending_push (w : Nat → Nat) (t : Traversal) (rest : List Nat) :
    (t.push rest).pending w ≤ (rest.map w).sum + t.pending w := by
  unfold Traversal.push
  split
  · simp only [Traversal.pending, List.map_cons, List.sum_cons]
    omega
  · rename_i hbites
    have hnil : t.mallocBites = [] := not_not.mp hbites
    split
    · simp only [Traversal.pending, List.map_cons, List.sum_cons]
      omega
    · simp only [Traversal.pending, hnil, List.map_nil, List.sum_nil]
      omega

theorem Traversal.Within.push {w : Nat → Nat} {b : Nat} {t : Traversal} (h : t.Within w b)
    {rest : List Nat} (hrest : ∀ k ∈ rest, w k ≤ b) : (t.push rest).Within w b := by
  have hcons : ∀ ls : List (List Nat), (∀ l ∈ ls, ∀ k ∈ l, w k ≤ b) →
      ∀ l ∈ rest :: ls, ∀ k ∈ l, w k ≤ b := by
    rintro ls hls l (_ | ⟨_, hl⟩)
    · exact hrest
    · exact hls l hl
  unfold Traversal.push
  split
  · exact ⟨h.keymap, h.tail, hcons _ h.bites, h.sucks⟩
  · split
    · exact ⟨h.keymap, h.tail, h.bites, hcons _ h.sucks⟩
    · exact ⟨h.keymap, h.tail, h.sucks, fun l hl => absurd hl List.not_mem_nil⟩

/-- **One step of a walk** spends at least the weight of the submaps of the keymap it comes to,
and one more. -/
theorem Weight.next (h : Weight s w) {t t' : Traversal} {b : Nat} (ht : t.Within w b)
    (hnext : t.next s = some t') :
    submapsWeight w (s.map t'.keymap) + t'.pending w + 1 ≤ t.pending w ∧ t'.Within w b := by
  unfold Traversal.next at hnext
  cases htail : t.tail with
  | nil =>
    simp only [htail] at hnext
    split at hnext
    · cases hnext
    · cases hbites : t.mallocBites with
      | cons l bites =>
        cases l with
        | nil =>
          simp only [hbites] at hnext
          cases hnext
        | cons k tail =>
          simp only [hbites] at hnext
          cases hnext
          have hk := h k
          have hall := ht.bites _ (hbites ▸ List.mem_cons_self ..)
          refine ⟨?_, hall k (List.mem_cons_self ..),
            fun x hx => hall x (List.mem_cons_of_mem k hx), fun l hl => ht.bites l ?_, ht.sucks⟩
          · simp only [Traversal.pending, htail, hbites, List.map_nil, List.sum_nil, List.map_cons,
              List.sum_cons]
            omega
          · rw [hbites]
            exact List.mem_cons_of_mem _ hl
      | nil =>
        cases hsucks : t.mallocSucks with
        | nil =>
          simp only [hbites, hsucks] at hnext
          cases hnext
        | cons l sucks =>
          cases l with
          | nil =>
            simp only [hbites, hsucks] at hnext
            cases hnext
          | cons k tail =>
            simp only [hbites, hsucks] at hnext
            cases hnext
            have hk := h k
            have hall := ht.sucks _ (hsucks ▸ List.mem_cons_self ..)
            refine ⟨?_, hall k (List.mem_cons_self ..),
              fun x hx => hall x (List.mem_cons_of_mem k hx),
              fun l hl => absurd hl List.not_mem_nil,
              fun l hl => ht.sucks l ?_⟩
            · simp only [Traversal.pending, htail, hbites, hsucks, List.map_nil, List.sum_nil,
                List.map_cons, List.sum_cons]
              omega
            · rw [hsucks]
              exact List.mem_cons_of_mem _ hl
  | cons k tail =>
    simp only [htail] at hnext
    have hk := h k
    have hkb : w k ≤ b := ht.tail k (htail ▸ List.mem_cons_self ..)
    have htailb : ∀ x ∈ tail, w x ≤ b := fun x hx =>
      ht.tail x (htail ▸ List.mem_cons_of_mem k hx)
    have hparents : ∀ p ∈ (s.map k).parents, w p ≤ b := fun p hp =>
      (h.parent_lt hp).le.trans hkb
    split at hnext
    · cases hnext
      refine ⟨?_, hkb, htailb, ht.bites, ht.sucks⟩
      simp only [Traversal.pending, htail, List.map_cons, List.sum_cons]
      omega
    · split at hnext
      · cases hnext
        refine ⟨?_, hkb, hparents, ht.bites, ht.sucks⟩
        simp only [Traversal.pending, htail, List.map_cons, List.sum_cons]
        omega
      · cases hnext
        have hpushed : (t.push tail).Within w b := ht.push htailb
        refine ⟨?_, hkb, hparents, hpushed.bites, hpushed.sucks⟩
        have hpush := t.pending_push w tail
        have hsame : (t.push tail).tail = t.tail := by
          unfold Traversal.push
          split
          · rfl
          · split
            · rfl
            · rfl
        simp only [Traversal.pending, hsame, htail, List.map_cons, List.sum_cons] at hpush ⊢
        omega

/-- **A walk ends.** The mapper may spend, of what `budget` says, the weight of the submaps of the
keymap it is at; the walk from `start` spends less than the weight of `start`. -/
theorem traverseKeymaps_total {σ α : Type} (h : Weight s w) (keymaps : σ → Keymaps)
    (mapper : Nat → Command σ (Option α)) (base : σ → Prop) (budget : σ → Nat) {b N : Nat}
    (hbase : ∀ x, base x → Filled s (keymaps x))
    (hmapper : ∀ k r, w k ≤ b → Total True
      (fun x => base x ∧ budget x + submapsWeight w (s.map k) + r ≤ N) (mapper k)
      (fun _ x => base x ∧ budget x + r ≤ N) base)
    {fuel start : Nat} (hstart : w start ≤ b) (hfuel : w start ≤ fuel) :
    Total True (fun x => base x ∧ budget x + w start ≤ N)
      (traverseKeymaps keymaps mapper fuel start [])
      (fun _ x => base x ∧ budget x + 1 ≤ N) base := by
  have hwalk : ∀ fuel (t : Traversal), t.Within w b → t.pending w < fuel →
      Total True (fun x => base x ∧
          budget x + submapsWeight w (s.map t.keymap) + (t.pending w + 1) ≤ N)
        (traverseFrom keymaps mapper start fuel t) (fun _ x => base x ∧ budget x + 1 ≤ N) base := by
    intro fuel
    induction fuel with
    | zero => exact fun t _ hlt => absurd hlt (Nat.not_lt_zero _)
    | succ fuel ih =>
      intro t ht hlt
      refine Total.bind (hmapper t.keymap (t.pending w + 1) ht.keymap) fun result => ?_
      cases result with
      | some a => exact Total.pure fun x hx => ⟨hx.1, by omega⟩
      | none =>
        refine Total.state_bind fun x hx => ?_
        cases hnext : t.next (keymaps x) with
        | none => exact Total.pure fun y hy => by rw [hy]; exact ⟨hx.1, by omega⟩
        | some t' =>
          obtain ⟨hspent, ht'⟩ := (h.filled (hbase x hx.1)).next ht hnext
          rw [submapsWeight, (hbase x hx.1).table] at hspent
          have hspent' : submapsWeight w (s.map t'.keymap) + t'.pending w + 1 ≤ t.pending w :=
            hspent
          simp only
          split
          · exact Total.signal fun y hy => by rw [hy]; exact hx.1
          · refine (ih t' ht' (by omega)).conseq (fun y hy => ?_) (fun _ _ hy => hy)
              (fun _ hy => hy)
            rw [hy]
            exact ⟨hx.1, by omega⟩
  have hw := h start
  refine Total.state_bind fun x hx => ?_
  have hfill := hbase x hx.1
  have hinit : (Traversal.init (keymaps x) start []).tail = (s.map start).parents :=
    hfill.parents start
  have hpending : (Traversal.init (keymaps x) start []).pending w
      = ((s.map start).parents.map w).sum := by
    rw [Traversal.pending, hinit]
    rfl
  refine (hwalk fuel _ ⟨hstart, fun k hk => ?_, fun l hl => absurd hl List.not_mem_nil,
    fun l hl => absurd hl List.not_mem_nil⟩ (by omega)).conseq (fun y hy => ?_) (fun _ _ hy => hy)
    (fun _ hy => hy)
  · rw [hinit] at hk
    exact (h.parent_lt hk).le.trans hstart
  · rw [hy, hpending]
    refine ⟨hx.1, ?_⟩
    change budget x + submapsWeight w (s.map start) + _ ≤ N
    omega

/-! ### `accessible-keymaps` -/

/-- The keymaps have only got their caches filled, and the list has an element at work. -/
def Accessible.Base (s : Keymaps) (x : Accessible) : Prop :=
  Filled s x.keymaps ∧ x.tail ≠ []

/-- The weight of the elements after the one at work. -/
def Accessible.budget (w : Nat → Nat) (x : Accessible) : Nat :=
  (x.tail.tail.map fun e => w e.2).sum

theorem onKeymaps_submaps_total (m : Nat) (C : List (List KeyData × Nat) → Prop) :
    Total True (fun x => x.Base s ∧ C x.tail) (onKeymaps (keymapSubmaps before m))
      (fun maps x => (x.Base s ∧ C x.tail) ∧ maps.Perm (s.listed m)) (Accessible.Base s) := by
  refine Total.of_returns fun x hx => ?_
  obtain ⟨maps, s', hrun, hfill, hperm⟩ := keymapSubmaps_listed before m x.keymaps
  refine ⟨maps, { x with keymaps := s' }, ?_, ⟨⟨hx.1.1.trans hfill, hx.1.2⟩, hx.2⟩,
    hperm.trans (hx.1.1.listed m)⟩
  rw [onKeymaps, hrun]

theorem accessible_forM {f : Key × Nat → Command Accessible PUnit} {l : List (Key × Nat)}
    {r N : Nat} (hf : ∀ e ∈ l, ∀ r, Total True (fun x => x.Base s ∧ x.budget w + w e.2 + r ≤ N)
      (f e) (fun _ x => x.Base s ∧ x.budget w + r ≤ N) (Accessible.Base s)) :
    Total True (fun x => x.Base s ∧ x.budget w + (l.map fun e => w e.2).sum + r ≤ N) (l.forM f)
      (fun _ x => x.Base s ∧ x.budget w + r ≤ N) (Accessible.Base s) := by
  refine (Total.forM (I := fun l x => x.Base s ∧
    x.budget w + (l.map fun e => w e.2).sum + r ≤ N) (fun e he l => ?_)).conseq
    (fun _ hx => hx) (fun _ x hx => ⟨hx.1, ?_⟩) (fun _ hx => hx)
  · refine (hf e he ((l.map fun e => w e.2).sum + r)).conseq (fun x hx => ⟨hx.1, ?_⟩)
      (fun _ x hx => ⟨hx.1, ?_⟩) (fun _ hx => hx)
    · have hsum := hx.2
      rw [List.map_cons, List.sum_cons] at hsum
      omega
    · have hsum := hx.2
      omega
  · simpa only [List.map_nil, List.sum_nil, Nat.add_zero] using hx.2

theorem accessibleKeymapsMapper1_total (h : Weight s w) (hc : CachesSound s) {fuel N : Nat}
    {e : Key × Nat} (modifiers : Modifiers) (r : Nat) (hfuel : w e.2 ≤ fuel) :
    Total True (fun x => x.Base s ∧ x.budget w + w e.2 + r ≤ N)
      (accessibleKeymapsMapper1 before fuel e modifiers)
      (fun _ x => x.Base s ∧ x.budget w + r ≤ N) (Accessible.Base s) := by
  induction fuel generalizing e modifiers r with
  | zero =>
    have he := h e.2
    omega
  | succ fuel ih =>
    obtain ⟨key, contents⟩ := e
    have hcontents := h contents
    cases key with
    | keysym k =>
      refine Total.modify fun x hx => ?_
      obtain ⟨⟨hfill, hne⟩, hle⟩ := hx
      refine ⟨⟨hfill, by simp⟩, ?_⟩
      obtain ⟨a, l, htail⟩ := List.exists_cons_of_ne_nil hne
      simp only [Accessible.budget, htail, List.cons_append, List.tail_cons, List.map_append,
        List.map_cons, List.map_nil, List.sum_append, List.sum_cons, List.sum_nil] at hle ⊢
      omega
    | modifiers subbits =>
      refine Total.bind (onKeymaps_submaps_total before contents fun l =>
        (l.tail.map fun e => w e.2).sum + w contents + r ≤ N) fun maps =>
        Total.of_and fun hperm => ?_
      have hmaps := Weight.listed_le (w := w) hc contents hperm
      refine (accessible_forM (fun a ha r' => ?_)).conseq (fun x hx => ⟨hx.1, ?_⟩)
        (fun _ _ hx => hx) (fun _ hx => hx)
      · have hlt := h.submap_lt hc hperm ha
        have hle : w contents ≤ fuel + 1 := hfuel
        exact ih (subbits.or modifiers) r' (by omega)
      · have hle : x.budget w + w contents + r ≤ N := hx.2
        omega

theorem accessibleKeymapsKeymapMapper_total (h : Weight s w) (hc : CachesSound s) {fuel N : Nat}
    {m : Nat} (r : Nat) (hfuel : w m ≤ fuel) :
    Total True (fun x => x.Base s ∧ x.budget w + submapsWeight w (s.map m) + r ≤ N)
      (accessibleKeymapsKeymapMapper before fuel m)
      (fun _ x => x.Base s ∧ x.budget w + r ≤ N) (Accessible.Base s) := by
  refine Total.bind (onKeymaps_submaps_total before m fun l =>
    (l.tail.map fun e => w e.2).sum + submapsWeight w (s.map m) + r ≤ N) fun maps =>
    Total.of_and fun hperm => ?_
  have hmaps := Weight.listed_le (w := w) hc m hperm
  refine Total.bind (Q := fun _ x => x.Base s ∧ x.budget w + r ≤ N)
    ((accessible_forM (fun a ha r' => ?_)).conseq (fun x hx => ⟨hx.1, ?_⟩)
      (fun _ _ hx => hx) (fun _ hx => hx)) fun _ => Total.pure fun _ hx => hx
  · have hlt := h.submap_lt hc hperm ha
    exact accessibleKeymapsMapper1_total before h hc .none r' (hlt.le.trans hfuel)
  · have hle : x.budget w + submapsWeight w (s.map m) + r ≤ N := hx.2
    omega

theorem accessibleLoop_total (h : Weight s w) (hc : CachesSound s) {fuel : Nat} (rounds : Nat)
    (hrounds : rounds ≤ fuel + 1) :
    Total True (fun x => Filled s x.keymaps ∧ (x.tail.map fun e => w e.2).sum < rounds)
      (accessibleLoop before fuel rounds) (fun _ x => Filled s x.keymaps)
      (fun x => Filled s x.keymaps) := by
  induction rounds with
  | zero => exact ⟨fun x hx => absurd hx.2 (Nat.not_lt_zero _), fun x hx =>
      absurd hx.2 (Nat.not_lt_zero _)⟩
  | succ rounds ih =>
    refine Total.state_bind fun x hx => ?_
    obtain ⟨hfill, hlt⟩ := hx
    split
    · exact Total.pure fun y hy => by rw [hy]; exact hfill
    · rename_i keys m l htail
      have hlt : w m + (l.map fun e => w e.2).sum < rounds + 1 := by
        rwa [htail, List.map_cons, List.sum_cons] at hlt
      have hm : w m ≤ fuel := by omega
      have hbudget : x.budget w = (l.map fun e => w e.2).sum := by
        rw [Accessible.budget, htail, List.tail_cons]
      have hwalk := traverseKeymaps_total h Accessible.keymaps
        (accessibleKeymapsKeymapMapper before fuel) (Accessible.Base s) (Accessible.budget w)
        (N := x.budget w + w m) (fun y hy => hy.1)
        (fun k r hk => accessibleKeymapsKeymapMapper_total before h hc r (hk.trans hm))
        (Nat.le_refl (w m)) hm
      refine Total.bind (hwalk.conseq (fun y hy => ?_) (fun _ _ hy => hy) (fun _ hy => hy.1))
        fun _ => ?_
      · rw [hy]
        refine ⟨⟨hfill, ?_⟩, Nat.le_refl _⟩
        rw [htail]
        exact List.cons_ne_nil _ _
      · refine Total.bind (Total.modify fun y hy => ?_) fun _ => ih (by omega)
        refine ⟨hy.1.1, ?_⟩
        have hle : (y.tail.tail.map fun e => w e.2).sum + 1 ≤ x.budget w + w m := hy.2
        change (y.tail.tail.map fun e => w e.2).sum < rounds
        omega

/-- **`accessible-keymaps` ends.** -/
theorem accessibleKeymaps_ends (h : Weight s w) (hc : CachesSound s) {fuel m : Nat}
    (hfuel : w m < fuel) : accessibleKeymaps before fuel m s ≠ .diverges := by
  have hloop := (accessibleLoop_total before h hc fuel (Nat.le_succ fuel)).2
    ⟨s, [], [([], m)]⟩ ⟨.refl s, by simpa using hfuel⟩
  unfold accessibleKeymaps
  cases hrun : accessibleLoop before fuel fuel ⟨s, [], [([], m)]⟩ with
  | diverges => exact absurd hrun hloop
  | aborts => exact fun h => by cases h
  | signals a => exact fun h => by cases h
  | returns u a => exact fun h => by cases h

/-! ### `where-is-internal` -/

theorem traverseKeymaps_filled {α : Type} (h : Weight s w)
    {mapper : Nat → Command Keymaps (Option α)} {fuel start : Nat}
    (hmapper : ∀ k, w k ≤ w start →
      Total True (Filled s) (mapper k) (fun _ => Filled s) (Filled s))
    (hfuel : w start ≤ fuel) :
    Total True (Filled s) (traverseKeymaps id mapper fuel start []) (fun _ => Filled s)
      (Filled s) := by
  refine (traverseKeymaps_total h id mapper (Filled s) (fun _ => 0) (N := w start)
    (fun _ hs => hs) (fun k r hk => ?_) (Nat.le_refl _) hfuel).conseq
    (fun _ hs => ⟨hs, by omega⟩) (fun _ _ hs => hs.1) (fun _ hs => hs)
  by_cases hr : r ≤ w start
  · exact (hmapper k hk).conseq (fun _ hs => hs.1) (fun _ _ hs => ⟨hs, by omega⟩) (fun _ hs => hs)
  · refine ⟨fun x hx => absurd hx.2 ?_, fun x hx => absurd hx.2 ?_⟩
    · omega
    · omega

theorem WellFormed.live_lookupRaw (hwf : WellFormed s) {m k : Nat} {key : RawKey}
    (hk : keymapLookupRaw s m key = .keymap k) : k < s.next := by
  have hlive : (keymapLookupRaw s m key).live s.next = true := by
    unfold keymapLookupRaw
    split
    · exact hwf.live_lookup1 m _
    · split
      · rfl
      · exact Def.live_getKeyelt (hwf.live_gethash _ _)
  rw [hk] at hlive
  exact of_decide_eq_true hlive

variable (env : KeyEnv)

/-- **A lookup ends.** The induction is on the length of the key sequence; each keymap that a key
leads to is walked through with its parents. -/
theorem rawLookupKey_total (h : Weight s w) (hwf : WellFormed s) (acceptDefault : Bool)
    {fuel : Nat} (hfuel : ∀ x < s.next, w x ≤ fuel) (keys : List RawKey) (keysSoFar m : Nat)
    (hm : m < s.next) :
    Total True (Filled s) (rawLookupKey env acceptDefault fuel keys keysSoFar m)
      (fun _ => Filled s) (Filled s) := by
  induction hlen : keys.length using Nat.strong_induction_on generalizing keys keysSoFar m with
  | _ n ih =>
    subst hlen
    have hlookup : ∀ {s' : Keymaps}, Filled s s' → ∀ {k k' : Nat} {key : RawKey},
        keymapLookupRaw s' k key = .keymap k' → k' < s.next := by
      intro s' hs' k k' key hk
      rw [← hs'.next]
      exact (hwf.filled hs').live_lookupRaw hk
    have hpure : ∀ {s' : Keymaps}, Filled s s' → ∀ b : Binding,
        Total True (· = s') (pure b : Command Keymaps Binding) (fun _ => Filled s) (Filled s) :=
      fun hs' b => Total.pure fun x hx => by rw [hx]; exact hs'
    cases keys with
    | nil => exact Total.pure fun _ hs => hs
    | cons key keys =>
      cases keys with
      | nil =>
        rw [rawLookupKey]
        refine Total.bind (traverseKeymaps_filled h (fun k hk => ?_) (hfuel m hm)) fun found =>
          Total.pure fun _ hs => hs
        refine Total.state_bind fun s' hs' => ?_
        exact Total.pure fun x hx => by rw [hx]; exact hs'
      | cons next rest =>
        rw [rawLookupKey]
        refine Total.bind (traverseKeymaps_filled h (fun k hk => ?_) (hfuel m hm)) fun found =>
          Total.pure fun _ hs => hs
        refine Total.state_bind fun s' hs' => ?_
        have hrec : ∀ keys n k, keys.length < (key :: next :: rest).length → k < s.next →
            Total True (· = s') (rawLookupKey env acceptDefault fuel keys n k)
              (fun _ => Filled s) (Filled s) := by
          intro keys n k hlt hk
          exact (ih keys.length hlt keys n k hk rfl).conseq (fun x hx => by rw [hx]; exact hs')
            (fun _ _ hs => hs) (fun _ hs => hs)
        refine Total.bind (Q := fun _ => Filled s) ?_ fun cmd => Total.pure fun _ hs => hs
        split
        · split
          · rename_i cmd hcmd
            exact hrec _ _ _ (by simp only [List.length_cons]; omega) (hlookup hs' hcmd)
          · split
            · exact hpure hs' _
            · split
              · exact hpure hs' _
              · dsimp only
                split
                · rename_i cmd hcmd
                  exact hrec _ _ _ (by simp only [List.length_cons]; omega) (hlookup hs' hcmd)
                · exact hpure hs' _
        · split
          · exact hpure hs' _
          · rename_i cmd hcmd
            exact hrec _ _ _ (by simp) (hlookup hs' hcmd)
          · exact hpure hs' _

section whereIs

variable (charp : Def → Bool) (definition : Def) (firstonly : Bool)

theorem isShadowed_total (h : Weight s w) (hwf : WellFormed s) {fuel : Nat}
    (hfuel : ∀ x < s.next, w x ≤ fuel) (keys : List RawKey) {shadow : List Nat}
    (hshadow : ∀ m ∈ shadow, m < s.next) :
    Total True (Filled s) (isShadowed env fuel charp definition keys shadow) (fun _ => Filled s)
      (Filled s) := by
  induction shadow with
  | nil => exact Total.pure fun _ hs => hs
  | cons m shadow ih =>
    have hm := hshadow m (List.mem_cons_self ..)
    refine Total.bind (rawLookupKey_total env h hwf true hfuel keys 0 m hm) fun shadowed => ?_
    split
    · exact ih fun x hx => hshadow x (List.mem_cons_of_mem m hx)
    · exact Total.pure fun _ hs => hs

theorem matchingKeys_total (h : Weight s w) (hwf : WellFormed s) {fuel : Nat}
    (hfuel : ∀ x < s.next, w x ≤ fuel) {shadow : List Nat} (hshadow : ∀ m ∈ shadow, m < s.next)
    (keysSoFar : List RawKey) (modifiersSoFar : Modifiers) (keys : List Key)
    (result : List (List RawKey)) :
    Total True (Filled s) (matchingKeys env fuel charp definition firstonly shadow keysSoFar
      modifiersSoFar keys result) (fun _ => Filled s) (Filled s) := by
  induction keys generalizing result with
  | nil => exact Total.pure fun _ hs => hs
  | cons k keys ih =>
    refine Total.bind (isShadowed_total env charp definition h hwf hfuel _ hshadow)
      fun shadowed => ?_
    split
    · exact ih result
    · split
      · exact Total.pure fun _ hs => hs
      · exact ih _

theorem collect_total {α : Type} {f : α → Command Keymaps (List (List RawKey))} {l : List α}
    (hf : ∀ a ∈ l, Total True (Filled s) (f a) (fun _ => Filled s) (Filled s))
    (result : List (List RawKey)) :
    Total True (Filled s) (collect firstonly f l result) (fun _ => Filled s) (Filled s) := by
  induction l generalizing result with
  | nil => exact Total.pure fun _ hs => hs
  | cons a l ih =>
    have hl := fun b hb => hf b (List.mem_cons_of_mem a hb)
    refine Total.bind (hf a (List.mem_cons_self ..)) fun lower => ?_
    split
    · exact ih hl _
    · split
      · exact Total.pure fun _ hs => hs
      · exact ih hl _

theorem whereIsKeys_total (h : Weight s w) (hsound : Sound s) {fuel : Nat}
    (hfuel : ∀ x < s.next, w x ≤ fuel) (hcells : s.cells.next < fuel) {shadow : List Nat}
    (hshadow : ∀ m ∈ shadow, m < s.next) (keysSoFar : List RawKey) (modifiersSoFar : Modifiers)
    (m : Nat) : Total True (Filled s) (whereIsKeys env fuel charp definition firstonly shadow
      keysSoFar modifiersSoFar m) (fun _ => Filled s) (Filled s) := by
  refine Total.state_bind fun s' hs' => ?_
  split
  · exact Total.pure fun x hx => by rw [hx]; exact hs'
  · rename_i keys hkeys
    split
    · rename_i hnone
      obtain ⟨rank, hends⟩ := (hsound.lists.filled hs').ends
      rw [← hs'.cells] at hcells
      exact absurd hnone (Cells.spell_ne_none hends hcells keys)
    · exact (matchingKeys_total env charp definition firstonly h hsound.wellFormed hfuel hshadow
        keysSoFar modifiersSoFar _ []).conseq (fun x hx => by rw [hx]; exact hs')
        (fun _ _ hs => hs) (fun _ hs => hs)

theorem whereIsRecursiveMapper_total (h : Weight s w) (hsound : Sound s) {fuel : Nat}
    (hfuel : ∀ x < s.next, w x ≤ fuel) (hcells : s.cells.next < fuel) {shadow : List Nat}
    (hshadow : ∀ m ∈ shadow, m < s.next) {rounds m : Nat} (keysSoFar : List RawKey)
    (modifiersSoFar : Modifiers) (hrounds : w m ≤ rounds) (hle : rounds ≤ fuel) :
    Total True (Filled s) (whereIsRecursiveMapper env before fuel charp definition firstonly
      shadow rounds keysSoFar modifiersSoFar m) (fun _ => Filled s) (Filled s) := by
  induction rounds generalizing m keysSoFar modifiersSoFar with
  | zero =>
    have hm := h m
    omega
  | succ rounds ih =>
    refine Total.bind (whereIsKeys_total env charp definition firstonly h hsound hfuel hcells
      hshadow keysSoFar modifiersSoFar m) fun found => ?_
    split
    · exact Total.pure fun _ hs => hs
    · refine Total.bind (keymapSubmaps_total before m) fun maps => Total.of_and fun hperm => ?_
      refine Total.bind (collect_total firstonly (fun e he => ?_) found) fun result =>
        Total.pure fun _ hs => hs
      obtain ⟨key, submap⟩ := e
      have hlt : w submap < w m := h.submap_lt hsound.caches hperm he
      dsimp only
      split
      · exact Total.pure fun _ hs => hs
      · split
        · exact Total.abort trivial
        · refine Total.bind (traverseKeymaps_filled h (fun k hk => ?_) ?_) fun lower =>
            Total.pure fun _ hs => hs
          · exact ih _ _ (by omega) (by omega)
          · omega

theorem whereIsLoop_total (h : Weight s w) (hsound : Sound s) {fuel : Nat}
    (hfuel : ∀ x < s.next, w x ≤ fuel) (hcells : s.cells.next < fuel) {shadow maps : List Nat}
    (hshadow : ∀ m ∈ shadow, m < s.next) (hmaps : ∀ m ∈ maps, m < s.next)
    (result : List (List RawKey)) :
    Total True (Filled s)
      (whereIsLoop env before fuel charp definition firstonly shadow maps result)
      (fun _ => Filled s) (Filled s) := by
  induction maps generalizing shadow result with
  | nil => exact Total.pure fun _ hs => hs
  | cons m maps ih =>
    have hm := hmaps m (List.mem_cons_self ..)
    have hrest := fun x hx => hmaps x (List.mem_cons_of_mem m hx)
    have hshadow' : ∀ x ∈ shadow ++ [m], x < s.next := by
      intro x hx
      obtain hx | hx := List.mem_append.mp hx
      · exact hshadow x hx
      · rw [List.mem_singleton.mp hx]
        exact hm
    refine Total.bind (traverseKeymaps_filled h (fun k hk => ?_) (hfuel m hm)) fun found => ?_
    · exact whereIsRecursiveMapper_total before env charp definition firstonly h hsound hfuel
        hcells hshadow [] .none (hk.trans (hfuel m hm)) (Nat.le_refl _)
    · dsimp only
      split
      · split
        · exact Total.pure fun _ hs => hs
        · exact ih hshadow' hrest _
      · exact ih hshadow' hrest _

/-- **`where-is-internal` ends.** -/
theorem whereIsInternal_ends (h : Weight s w) (hsound : Sound s) {fuel : Nat}
    (hfuel : ∀ x < s.next, w x ≤ fuel) (hcells : s.cells.next < fuel) {maps : List Nat}
    (hmaps : ∀ m ∈ maps, m < s.next) :
    whereIsInternal env before fuel charp definition firstonly maps s ≠ .diverges := by
  have hloop := whereIsLoop_total before env charp definition firstonly h hsound hfuel hcells
    (fun m hm => absurd hm List.not_mem_nil) hmaps []
  exact (Total.bind hloop fun _ => Total.pure (Q := fun _ => Filled s) fun _ hs => hs).2 s
    (.refl s)

end whereIs

end weight

/-! ### Every run -/

/-- With enough rounds the traversals of all keymaps end. -/
def TraversalsEnd (env : KeyEnv) (before : Key → Key → Bool) (charp : Def → Bool)
    (s : Keymaps) : Prop :=
  ∃ n, ∀ fuel, n ≤ fuel →
    (∀ d m, d < s.next →
      checkKeymapDefinitionLoop before fuel (.keymap d) m s ≠ .diverges) ∧
    (∀ m < s.next, accessibleKeymaps before fuel m s ≠ .diverges) ∧
    ∀ definition firstonly maps, (∀ m ∈ maps, m < s.next) →
      whereIsInternal env before fuel charp definition firstonly maps s ≠ .diverges

theorem Sound.traversalsEnd {s : Keymaps} (h : Sound s) (env : KeyEnv)
    (before : Key → Key → Bool) (charp : Def → Bool) : TraversalsEnd env before charp s := by
  obtain ⟨w, hw⟩ := h.exists_weight
  have hmax : ∃ n, ∀ x < s.next, w x ≤ n :=
    ⟨((List.range s.next).map w).sum, fun x hx => List.single_le_sum
      (fun _ _ => Nat.zero_le _) _ (List.mem_map_of_mem (List.mem_range.mpr hx))⟩
  obtain ⟨n, hn⟩ := hmax
  refine ⟨n + s.cells.next + 1, fun fuel hfuel => ?_⟩
  have hall : ∀ x < s.next, w x ≤ fuel := fun x hx => by
    have hx := hn x hx
    omega
  refine ⟨fun d m hd => ?_, fun m hm => ?_, fun definition firstonly maps hmaps => ?_⟩
  · exact (checkKeymapDefinitionLoop_total before hw h.caches m (hall d hd)).2 s (.refl s)
  · have hm := hn m hm
    exact accessibleKeymaps_ends before hw h.caches (by omega)
  · exact whereIsInternal_ends before env charp definition firstonly hw h hall (by omega) hmaps

end XEmacs.Keymap

import XEmacs.Keymap.Walks

/-!
# The order of a walk through parents

`traverse_keymaps` is to search a keymap and then, for each of its parents in order, what the
parent and its parents lead to. It has a loop in the place of the recursion.
-/

namespace XEmacs.Keymap

open Commands Relation List

/-- The keymap `k` inherits from `p`. -/
def InheritsFrom (s : Keymaps) (p k : Nat) : Prop :=
  p ∈ (s.map k).parents

/-- What the recursive walk through a list of keymaps visits. -/
inductive Preorder (s : Keymaps) : List Nat → List Nat → Prop
  | nil : Preorder s [] []
  | cons {k : Nat} {rest up l : List Nat} (hup : Preorder s (s.map k).parents up)
    (hrest : Preorder s rest l) : Preorder s (k :: rest) (k :: (up ++ l))

/-- The keymaps are searched in order, up to the first one where the mapper finds something. -/
def searchList {σ α : Type} (mapper : Nat → Command σ (Option α)) :
    List Nat → Command σ (Option α)
  | [] => pure none
  | k :: l => do
    let result ← mapper k
    match result with
    | some a => pure (some a)
    | none => searchList mapper l

/-- Whatever the mapper does, it leaves the parents of keymaps alone. -/
def KeepsParents {σ α : Type} (keymaps : σ → Keymaps) (mapper : Nat → Command σ (Option α)) :
    Prop :=
  ∀ k x r x', mapper k x = .returns r x' →
    ∀ m, ((keymaps x').map m).parents = ((keymaps x).map m).parents

/-- `traverse_keymaps` is the recursive walk: with any mapper that leaves parents alone, it does
what searching the keymaps in order does. -/
def TraversesPreorder (s : Keymaps) (start : Nat) (startParents : List Nat) : Prop :=
  ∃ l, Preorder s (Traversal.init s start startParents).tail l ∧
    ∀ (σ α : Type) (keymaps : σ → Keymaps) (mapper : Nat → Command σ (Option α)),
      KeepsParents keymaps mapper →
      ∀ x, (∀ m, ((keymaps x).map m).parents = (s.map m).parents) →
      ∀ fuel, l.length < fuel →
        traverseKeymaps keymaps mapper fuel start startParents x
          = searchList mapper (start :: l) x

/-- A list whose walk, with `d` rests pending, puts off no eleventh rest and none that begins with
a keymap that has parents. -/
inductive Straight (s : Keymaps) : Nat → List Nat → Prop
  | nil {d : Nat} : Straight s d []
  | leaf {d k : Nat} {rest : List Nat} (hk : (s.map k).parents = [])
    (hrest : Straight s d rest) : Straight s d (k :: rest)
  | last {d k : Nat} (hk : Straight s d (s.map k).parents) : Straight s d [k]
  | fork {d k k' : Nat} {rest : List Nat} (hd : d < 10) (hk : (s.map k).parents ≠ [])
    (hup : Straight s (d + 1) (s.map k).parents) (hk' : (s.map k').parents = [])
    (hrest : Straight s d rest) : Straight s d (k :: k' :: rest)

/-! ## The recursive walk -/

section preorder

variable {s : Keymaps} {l l' ks ks' : List Nat} {k : Nat}

theorem Preorder.unique (h : Preorder s ks l) (h' : Preorder s ks l') : l = l' := by
  induction h generalizing l' with
  | nil =>
    cases h'
    rfl
  | cons _ _ ihup ihrest =>
    cases h' with
    | cons hup hrest => rw [ihup hup, ihrest hrest]

theorem Preorder.append (h : Preorder s ks l) (h' : Preorder s ks' l') :
    Preorder s (ks ++ ks') (l ++ l') := by
  induction h with
  | nil => exact h'
  | cons hup _ _ ih =>
    rw [cons_append, cons_append, append_assoc]
    exact .cons hup ih

theorem Preorder.of_append (h : Preorder s (ks ++ ks') l) :
    ∃ l₁ l₂, Preorder s ks l₁ ∧ Preorder s ks' l₂ ∧ l = l₁ ++ l₂ := by
  induction ks generalizing l with
  | nil => exact ⟨[], l, .nil, h, rfl⟩
  | cons k ks ih =>
    cases h with
    | cons hup hrest =>
      obtain ⟨l₁, l₂, h₁, h₂, rfl⟩ := ih hrest
      exact ⟨_, l₂, .cons hup h₁, h₂, by rw [cons_append, append_assoc]⟩

theorem Preorder.length_le (h : Preorder s ks l) : ks.length ≤ l.length := by
  induction h with
  | nil => exact Nat.le_refl 0
  | cons _ _ _ ih =>
    simp only [length_cons, length_append]
    omega

theorem Preorder.eq_nil (h : Preorder s [] l) : l = [] := by
  cases h
  rfl

theorem exists_preorder (hacyclic : WellFounded (InheritsFrom s)) (ks : List Nat) :
    ∃ l, Preorder s ks l := by
  have hlist : ∀ ks : List Nat, (∀ k ∈ ks, ∃ l, Preorder s (s.map k).parents l) →
      ∃ l, Preorder s ks l := by
    intro ks
    induction ks with
    | nil => exact fun _ => ⟨[], .nil⟩
    | cons k ks ih =>
      intro hks
      obtain ⟨up, hup⟩ := hks k (mem_cons_self ..)
      obtain ⟨l, hl⟩ := ih fun k' hk' => hks k' (mem_cons_of_mem k hk')
      exact ⟨_, .cons hup hl⟩
  have hup : ∀ k, ∃ l, Preorder s (s.map k).parents l :=
    fun k => hacyclic.induction (C := fun k => ∃ l, Preorder s (s.map k).parents l) k
      fun k ih => hlist _ ih
  exact hlist ks fun k _ => hup k

end preorder

/-! ## What a step leaves out -/

/-- The keymaps that a walk still has to come to, in order. -/
def Traversal.waiting (t : Traversal) : List Nat :=
  t.tail ++ (t.mallocBites ++ t.mallocSucks).flatten

section steps

variable {s : Keymaps} {t t' : Traversal} {l : List Nat} {k : Nat} {rest : List Nat}

theorem Traversal.waiting_push (t : Traversal) (ups : List Nat)
    (h : Preorder s (ups ++ (rest ++ (t.mallocBites ++ t.mallocSucks).flatten)) l) :
    ∃ l', Preorder s (Traversal.waiting { t.push rest with tail := ups }) l' ∧
      l'.length ≤ l.length := by
  unfold Traversal.push Traversal.waiting
  split
  · exact ⟨l, by simpa using h, Nat.le_refl _⟩
  · rename_i hbites
    rw [not_not] at hbites
    rw [hbites] at h ⊢
    split
    · exact ⟨l, by simpa using h, Nat.le_refl _⟩
    · obtain ⟨l₁, l₂, h₁, h₂, rfl⟩ := h.of_append
      obtain ⟨l₃, l₄, h₃, h₄, rfl⟩ := h₂.of_append
      refine ⟨l₁ ++ l₄, by simpa using h₁.append h₄, ?_⟩
      simp only [length_append]
      omega

/-- **One step** visits a keymap that was waiting. -/
theorem Traversal.next_waiting (h : Preorder s t.waiting l) (hnext : t.next s = some t') :
    ∃ l', Preorder s t'.waiting l' ∧ l'.length < l.length := by
  -- a rest that is taken up again without the parents of its first keymap
  have hpop : ∀ {k : Nat} {tail : List Nat} {ls : List (List Nat)},
      Preorder s ((k :: tail) ++ ls.flatten) l →
      ∃ l', Preorder s (tail ++ ls.flatten) l' ∧ l'.length < l.length := by
    rintro k tail ls h
    cases h with
    | @cons _ _ up l _ hrest =>
      refine ⟨l, hrest, ?_⟩
      simp only [length_cons, length_append]
      omega
  unfold Traversal.next at hnext
  split at hnext
  · rename_i htail
    rw [Traversal.waiting, htail, nil_append] at h
    split at hnext
    · cases hnext
    · split at hnext
      · rename_i hbites
        cases hnext
        rw [hbites, cons_append, flatten_cons] at h
        exact hpop h
      · rename_i hbites hsucks
        cases hnext
        rw [hbites, hsucks, nil_append, flatten_cons] at h
        rw [Traversal.waiting]
        simp only [hbites, nil_append]
        exact hpop h
      · cases hnext
  · rename_i htail
    rw [Traversal.waiting, htail] at h
    cases h with
    | @cons k _ up l hup hrest =>
      simp only [length_cons, length_append]
      split at hnext
      · cases hnext
        exact ⟨l, hrest, by omega⟩
      · split at hnext
        · rename_i hnil
          cases hnext
          subst hnil
          refine ⟨up ++ l, hup.append hrest, ?_⟩
          rw [length_append]
          omega
        · cases hnext
          obtain ⟨l', hl', hle⟩ := t.waiting_push _ (hup.append hrest)
          refine ⟨l', hl', ?_⟩
          rw [length_append] at hle
          omega

theorem exists_walk_le (h : Preorder s t.waiting l) :
    ∃ w, Walk s t (t.keymap :: w) ∧ w.length ≤ l.length := by
  generalize hn : l.length = n
  induction n using Nat.strong_induction_on generalizing t l with
  | _ n ih =>
    cases hnext : t.next s with
    | none => exact ⟨[], .last hnext, Nat.zero_le _⟩
    | some t' =>
      obtain ⟨l', hl', hlt⟩ := Traversal.next_waiting h hnext
      obtain ⟨w, hw, hle⟩ := ih l'.length (hn ▸ hlt) hl' rfl
      exact ⟨_, .step hnext hw, by rw [length_cons]; omega⟩

/-! ## A walk that leaves nothing out -/

/-- Rests that are pending, the latest first: each begins with a keymap without parents, and what
follows it is straight. -/
def Straights (s : Keymaps) : List (List Nat) → Prop
  | [] => True
  | [] :: _ => False
  | (k :: rest) :: rests =>
    (s.map k).parents = [] ∧ Straight s rests.length rest ∧ Straights s rests

/-- A walk whose slots have not been full, at each rest that is put off. -/
structure Traversal.Slots (t : Traversal) : Prop where
  bites : t.mallocBites = []
  depth : t.stackDepth = t.mallocSucks.length
  le : t.stackDepth ≤ 10
  ne_nil : ∀ rest ∈ t.mallocSucks, rest ≠ []

/-- All that the walk still has to come to is straight. -/
def Traversal.Straight (s : Keymaps) (t : Traversal) : Prop :=
  Keymap.Straight s t.stackDepth t.tail ∧ Straights s t.mallocSucks

theorem straight_leaf_iff {d : Nat} (hk : (s.map k).parents = []) :
    Straight s d (k :: rest) ↔ Straight s d rest := by
  refine ⟨fun h => ?_, .leaf hk⟩
  cases h with
  | leaf _ hrest => exact hrest
  | last _ => exact .nil
  | fork _ hne => exact absurd hk hne

theorem straight_last_iff {d : Nat} : Straight s d [k] ↔ Straight s d (s.map k).parents := by
  refine ⟨fun h => ?_, .last⟩
  cases h with
  | leaf hk _ =>
    rw [hk]
    exact .nil
  | last h => exact h

theorem straight_fork_iff {d k' : Nat} (hk : (s.map k).parents ≠ []) :
    Straight s d (k :: k' :: rest) ↔
      d < 10 ∧ Straight s (d + 1) (s.map k).parents ∧ (s.map k').parents = [] ∧
        Straight s d rest := by
  refine ⟨fun h => ?_, fun ⟨hd, hup, hk', hrest⟩ => .fork hd hk hup hk' hrest⟩
  cases h with
  | leaf hnil _ => exact absurd hnil hk
  | fork hd _ hup hk' hrest => exact ⟨hd, hup, hk', hrest⟩

theorem walk_step (hnext : t.next s = some t') {P R : Prop} {l' : List Nat}
    (hlen : l.length = l'.length + 1 ↔ R ) (hle : l'.length < l.length)
    (hl : R → l = t'.keymap :: l') (hP : P ↔ R ∧ t'.Straight s)
    (h : ∃ w, Walk s t' (t'.keymap :: w) ∧ w.length ≤ l'.length ∧
      (w.length = l'.length ↔ t'.Straight s) ∧ (t'.Straight s → w = l')) :
    ∃ w, Walk s t (t.keymap :: w) ∧ w.length ≤ l.length ∧ (w.length = l.length ↔ P) ∧
      (P → w = l) := by
  obtain ⟨w, hw, hwle, hiff, heq⟩ := h
  refine ⟨t'.keymap :: w, .step hnext hw, by rw [length_cons]; omega, ?_, fun hp => ?_⟩
  · rw [length_cons, hP, ← hlen, ← hiff]
    omega
  · obtain ⟨hp', hstraight⟩ := hP.mp hp
    rw [hl hp', heq hstraight]

/-- **A walk visits what the recursive one does** if and only if what it has to come to is
straight; otherwise it visits less. -/
theorem Traversal.Slots.walk (ht : t.Slots) (h : Preorder s t.waiting l) :
    ∃ w, Walk s t (t.keymap :: w) ∧ w.length ≤ l.length ∧
      (w.length = l.length ↔ t.Straight s) ∧ (t.Straight s → w = l) := by
  generalize hn : l.length = n
  induction n using Nat.strong_induction_on generalizing t l with
  | _ n ih =>
    subst hn
    obtain ⟨hbites, hdepth, hle, hnil⟩ := ht
    rw [Traversal.waiting, hbites, nil_append] at h
    cases htail : t.tail with
    | nil =>
      rw [htail, nil_append] at h
      cases hsucks : t.mallocSucks with
      | nil =>
        rw [hsucks, length_nil] at hdepth
        rw [hsucks] at h
        obtain rfl := h.eq_nil
        have hstraight : t.Straight s := by
          rw [Traversal.Straight, htail, hsucks]
          exact ⟨.nil, trivial⟩
        refine ⟨[], .last ?_, Nat.le_refl 0, iff_of_true rfl hstraight, fun _ => rfl⟩
        simp only [Traversal.next, htail, hdepth, if_true]
      | cons rest rests =>
        rw [hsucks, length_cons] at hdepth
        obtain ⟨k, tail, rfl⟩ := exists_cons_of_ne_nil
          (hnil rest (hsucks ▸ mem_cons_self ..))
        rw [hsucks, flatten_cons] at h
        cases h with
        | @cons _ _ up l hup hrest =>
          -- the parents of the keymap that begins the rest are left out
          have hnext : t.next s = some { t with
              keymap := k, tail := tail, mallocSucks := rests,
              stackDepth := t.stackDepth - 1 } := by
            simp only [Traversal.next, htail, hbites, hsucks]
            rw [if_neg (by omega)]
          refine walk_step (R := (s.map k).parents = []) hnext ?_ ?_ (fun hk => ?_) ?_
            (ih l.length (by simp only [length_cons, length_append]; omega)
              ⟨hbites, by show t.stackDepth - 1 = rests.length; omega,
                by show t.stackDepth - 1 ≤ 10; omega,
                fun r hr => hnil r (hsucks ▸ mem_cons_of_mem _ hr)⟩
              (by rw [Traversal.waiting, hbites]; exact hrest) rfl)
          · simp only [length_cons, length_append]
            refine ⟨fun hlen => ?_, fun hk => ?_⟩
            · have hzero := hup.length_le
              exact eq_nil_of_length_eq_zero (by omega)
            · rw [hk] at hup
              rw [hup.eq_nil, length_nil]
              omega
          · simp only [length_cons, length_append]
            omega
          · rw [hk] at hup
            rw [hup.eq_nil]
            rfl
          · rw [Traversal.Straight, Traversal.Straight, htail, hsucks]
            show Keymap.Straight s _ [] ∧ _ ∧ _ ∧ _ ↔
              _ ∧ Keymap.Straight s (t.stackDepth - 1) tail ∧ Straights s rests
            rw [show t.stackDepth - 1 = rests.length by omega]
            exact ⟨fun h => h.2, fun h => ⟨.nil, h⟩⟩
    | cons k tail =>
      rw [htail] at h
      cases h with
      | @cons _ _ up l hup hrest =>
        have hlen : (k :: (up ++ l)).length = (up ++ l).length + 1 := length_cons
        by_cases hk : (s.map k).parents = []
        · -- no parents: the list is gone on with
          have hnext : t.next s = some { t with keymap := k, tail := tail } := by
            simp only [Traversal.next, htail, if_pos hk]
          rw [hk] at hup
          obtain rfl := hup.eq_nil
          refine walk_step (R := True) hnext (iff_of_true rfl trivial) (Nat.lt_succ_self _)
            (fun _ => rfl) ?_ (ih _ (Nat.lt_succ_self _) ⟨hbites, hdepth, hle, hnil⟩
              (by rw [Traversal.waiting, hbites]; exact hrest) rfl)
          rw [Traversal.Straight, Traversal.Straight, htail, straight_leaf_iff hk, true_and]
        cases tail with
        | nil =>
          -- the last of a list: its parents take the place of the list
          have hnext : t.next s = some { t with keymap := k, tail := (s.map k).parents } := by
            simp only [Traversal.next, htail, if_neg hk, if_true]
          have hwalk := ih (up ++ l).length (by omega)
            (t := { t with keymap := k, tail := (s.map k).parents }) ⟨hbites, hdepth, hle, hnil⟩
            (by rw [Traversal.waiting, hbites]; exact hup.append hrest) rfl
          refine walk_step (R := True) hnext (iff_of_true hlen trivial) (by omega)
            (fun _ => rfl) ?_ hwalk
          rw [Traversal.Straight, Traversal.Straight, htail, straight_last_iff, true_and]
        | cons k' rest =>
          by_cases hd : t.stackDepth < 10
          · -- the rest of the list is put off
            have hnext : t.next s = some { t with
                keymap := k, tail := (s.map k).parents,
                mallocSucks := (k' :: rest) :: t.mallocSucks,
                stackDepth := t.stackDepth + 1 } := by
              simp only [Traversal.next, Traversal.push, htail, hbites, if_neg hk, if_pos hd,
                ne_eq, not_true_eq_false, reduceCtorEq, if_false]
            have hslots : Traversal.Slots { t with
                keymap := k, tail := (s.map k).parents,
                mallocSucks := (k' :: rest) :: t.mallocSucks,
                stackDepth := t.stackDepth + 1 } := by
              refine ⟨hbites, congrArg (· + 1) hdepth, hd, fun r hr => ?_⟩
              obtain rfl | hr := List.mem_cons.mp hr
              · exact cons_ne_nil k' rest
              · exact hnil r hr
            have hwalk := ih (up ++ l).length (by omega) hslots
              (by rw [Traversal.waiting, hbites]; exact hup.append hrest) rfl
            refine walk_step (R := True) hnext (iff_of_true hlen trivial) (by omega)
              (fun _ => rfl) ?_ hwalk
            rw [Traversal.Straight, Traversal.Straight, htail, straight_fork_iff hk, true_and]
            show _ ↔ Keymap.Straight s (t.stackDepth + 1) _ ∧ _ ∧
              Keymap.Straight s t.mallocSucks.length rest ∧ _
            rw [← hdepth]
            exact ⟨fun ⟨⟨_, hup, hk', hrest⟩, hrests⟩ => ⟨hup, hk', hrest, hrests⟩,
              fun ⟨hup, hk', hrest, hrests⟩ => ⟨⟨hd, hup, hk', hrest⟩, hrests⟩⟩
          · -- the eleventh rest: it is put nowhere
            have hnext : t.next s = some { t with
                keymap := k, tail := (s.map k).parents,
                mallocBites := t.mallocSucks, mallocSucks := [] } := by
              simp only [Traversal.next, Traversal.push, htail, hbites, if_neg hk, if_neg hd,
                ne_eq, not_true_eq_false, reduceCtorEq, if_false]
            obtain ⟨l₁, l₂, h₁, h₂, rfl⟩ :=
              (show Preorder s ((k' :: rest) ++ t.mallocSucks.flatten) l from hrest).of_append
            obtain ⟨w, hw, hwle⟩ := exists_walk_le (l := up ++ l₂) (t := { t with
                keymap := k, tail := (s.map k).parents,
                mallocBites := t.mallocSucks, mallocSucks := [] })
              (by rw [Traversal.waiting, append_nil]; exact hup.append h₂)
            have hone : 1 ≤ l₁.length := (Nat.le_add_left 1 rest.length).trans h₁.length_le
            have hbent : ¬ t.Straight s := by
              rw [Traversal.Straight, htail, straight_fork_iff hk]
              exact fun h => hd h.1.1
            simp only [length_append] at hwle
            simp only [length_cons, length_append]
            refine ⟨k :: w, .step hnext hw, by rw [length_cons]; omega,
              iff_of_false ?_ hbent, fun h => absurd h hbent⟩
            rw [length_cons]
            omega

end steps

/-! ## What the mapper is called on -/

section search

variable {s : Keymaps} {t : Traversal} {l : List Nat} {σ α : Type} {keymaps : σ → Keymaps}
  {mapper : Nat → Command σ (Option α)}

theorem Walk.traverseFrom (h : Walk s t l) (hmapper : KeepsParents keymaps mapper) {start : Nat}
    (hstart : start ∉ l.tail) {fuel : Nat} (hfuel : l.length ≤ fuel) {x : σ}
    (hx : ∀ m, ((keymaps x).map m).parents = (s.map m).parents) :
    Keymap.traverseFrom keymaps mapper start fuel t x = searchList mapper l x := by
  induction h generalizing fuel x with
  | @last t hnext =>
    obtain ⟨fuel, rfl⟩ := Nat.exists_eq_add_one_of_ne_zero (Nat.ne_of_gt hfuel)
    rw [Keymap.traverseFrom, searchList, bind_apply, bind_apply]
    cases hr : mapper t.keymap x with
    | returns r x' =>
      cases r with
      | some a => rfl
      | none =>
        have hx' : ∀ m, ((keymaps x').map m).parents = (s.map m).parents :=
          fun m => (hmapper _ _ _ _ hr m).trans (hx m)
        simp only [bind_apply, state_apply, Traversal.next_congr hx', hnext, searchList]
    | signals x' => rfl
    | aborts => rfl
    | diverges => rfl
  | @step t t' l hnext hl ih =>
    obtain ⟨fuel, rfl⟩ := Nat.exists_eq_add_one_of_ne_zero
      (Nat.ne_of_gt (Nat.lt_of_lt_of_le (Nat.succ_pos _) hfuel))
    rw [Keymap.traverseFrom, searchList, bind_apply, bind_apply]
    cases hr : mapper t.keymap x with
    | returns r x' =>
      cases r with
      | some a => rfl
      | none =>
        have hx' : ∀ m, ((keymaps x').map m).parents = (s.map m).parents :=
          fun m => (hmapper _ _ _ _ hr m).trans (hx m)
        have hne : t'.keymap ≠ start := by
          rintro rfl
          cases hl with
          | last _ => exact hstart (mem_cons_self ..)
          | step _ _ => exact hstart (mem_cons_self ..)
        simp only [bind_apply, state_apply, Traversal.next_congr hx', hnext, if_neg hne]
        exact ih (fun h => hstart (mem_of_mem_tail h)) (Nat.le_of_succ_le_succ hfuel) hx'
    | signals x' => rfl
    | aborts => rfl
    | diverges => rfl

/-- A mapper that finds nothing and keeps a list of what it is called on. -/
def logKeymap (k : Nat) : Command (Keymaps × List Nat) (Option Unit) :=
  fun x => .returns none (x.1, x.2 ++ [k])

theorem logKeymap_keepsParents : KeepsParents Prod.fst logKeymap := by
  intro k x r x' h m
  cases h
  rfl

theorem searchList_logKeymap (l : List Nat) (x : Keymaps × List Nat) :
    searchList logKeymap l x = .returns none (x.1, x.2 ++ l) := by
  induction l generalizing x with
  | nil => rw [searchList, pure_apply, append_nil]
  | cons k l ih =>
    have hlog : logKeymap k x = .returns none (x.1, x.2 ++ [k]) := rfl
    rw [searchList, bind_apply, hlog]
    simp only [ih, append_assoc, singleton_append]

/-- **`traverse_keymaps` is the recursive walk** through an acyclic graph of keymaps exactly where
no rest of a list of parents is put off that begins with a keymap with parents, and no eleventh
one. -/
theorem traverseKeymaps_preorder_iff {s : Keymaps} {start : Nat} {startParents : List Nat}
    (hacyclic : WellFounded (InheritsFrom s))
    (hstart : ∀ p ∈ startParents, ¬ ReflTransGen (fun k p => InheritsFrom s p k) p start) :
    TraversesPreorder s start startParents ↔
      Straight s 0 (Traversal.init s start startParents).tail := by
  -- the parents of the start do not lead back to it
  have hback : ∀ p ∈ (Traversal.init s start startParents).tail,
      ¬ ReflTransGen (fun k p => InheritsFrom s p k) p start := by
    intro p hp hreach
    by_cases hnil : startParents ≠ []
    · exact hstart p (by rwa [Traversal.init, if_pos hnil] at hp) hreach
    · have hedge : InheritsFrom s p start := by rwa [Traversal.init, if_neg hnil] at hp
      have hloop : TransGen (InheritsFrom s) start start :=
        (transGen_swap.mp (.head' hedge hreach))
      exact hacyclic.transGen.irrefl.irrefl start hloop
  obtain ⟨l, hl⟩ := exists_preorder hacyclic (Traversal.init s start startParents).tail
  have hslots : (Traversal.init s start startParents).Slots :=
    ⟨rfl, rfl, Nat.zero_le 10, fun r hr => absurd hr List.not_mem_nil⟩
  obtain ⟨w, hw, hle, hiff, heq⟩ := hslots.walk (l := l) (by
    rw [Traversal.waiting]
    simpa [Traversal.init] using hl)
  have hnot : start ∉ w := by
    intro hmem
    have hreach := hw.forall_tail (Q := fun k => ∃ p ∈ (Traversal.init s start startParents).tail,
        ReflTransGen (fun k p => InheritsFrom s p k) p k)
      ⟨fun k hk => ⟨k, hk, .refl⟩, fun l hl => absurd hl List.not_mem_nil,
        fun l hl => absurd hl List.not_mem_nil⟩
      (fun k hk q hq => hk.imp fun p hp => ⟨hp.1, hp.2.tail hq⟩) start hmem
    obtain ⟨p, hp, hreach⟩ := hreach
    exact hback p hp hreach
  have hsearch : ∀ (σ α : Type) (keymaps : σ → Keymaps) (mapper : Nat → Command σ (Option α)),
      KeepsParents keymaps mapper → ∀ x, (∀ m, ((keymaps x).map m).parents = (s.map m).parents) →
      ∀ fuel, w.length < fuel → traverseKeymaps keymaps mapper fuel start startParents x
        = searchList mapper (start :: w) x := by
    intro σ α keymaps mapper hmapper x hx fuel hfuel
    have hinit : Traversal.init (keymaps x) start startParents = .init s start startParents := by
      simp only [Traversal.init, hx]
    rw [traverseKeymaps, bind_apply, state_apply]
    simp only [hinit]
    exact hw.traverseFrom hmapper hnot hfuel hx
  constructor
  · -- a mapper that finds nothing tells the keymaps apart
    rintro ⟨l', hl', hall⟩
    obtain rfl := hl.unique hl'
    have hpre := hall _ _ _ _ logKeymap_keepsParents (s, []) (fun _ => rfl) _ (Nat.lt_succ_self _)
    rw [hsearch _ _ _ _ logKeymap_keepsParents (s, []) (fun _ => rfl) _ (Nat.lt_succ_of_le hle),
      searchList_logKeymap, searchList_logKeymap] at hpre
    simp only [Outcome.returns.injEq, Prod.mk.injEq, true_and, List.nil_append,
      List.cons.injEq] at hpre
    exact (hiff.mp (congrArg List.length hpre)).1
  · intro hstraight
    have hwl := heq ⟨hstraight, trivial⟩
    subst hwl
    exact ⟨w, hl, hsearch⟩

/-- A keymap with two parents that have a parent each. -/
def twoParents : Keymaps where
  map
    | 0 => { emptyKeymap with parents := [1, 2] }
    | 1 => { emptyKeymap with parents := [3] }
    | 2 => { emptyKeymap with parents := [4] }
    | _ => emptyKeymap
  next := 5
  cells := noKeymaps.cells

theorem twoParents_lt {p k : Nat} (h : InheritsFrom twoParents p k) : k < p ∧ p < 5 := by
  match k with
  | 0 | 1 | 2 =>
    simp only [InheritsFrom, twoParents, mem_cons, not_mem_nil, or_false] at h
    omega
  | k + 3 => exact absurd h not_mem_nil

theorem twoParents_acyclic : WellFounded (InheritsFrom twoParents) := by
  refine Subrelation.wf (r := InvImage (· < ·) (5 - ·)) ?_ (InvImage.wf _ Nat.lt_wfRel.wf)
  intro p k h
  have hlt := twoParents_lt h
  show 5 - p < 5 - k
  omega

/-- The rest `[3]` that is put off begins with a keymap without parents. -/
theorem twoParents_straight : TraversesPreorder twoParents 0 [1, 3] := by
  refine (traverseKeymaps_preorder_iff twoParents_acyclic ?_).mpr ?_
  · have hle : ∀ p q, ReflTransGen (fun k p => InheritsFrom twoParents p k) p q → p ≤ q := by
      intro p q h
      induction h with
      | refl => exact Nat.le_refl p
      | tail _ hlt ih => exact ih.trans (twoParents_lt hlt).1.le
    intro p hp hreach
    obtain rfl := Nat.le_zero.mp (hle p 0 hreach)
    exact absurd hp (by decide)
  · exact .fork (by decide) (List.cons_ne_nil _ _) (.leaf rfl .nil) rfl .nil

/-- The rest `[2]` begins with a keymap that has a parent: the walk does not come to it. -/
theorem twoParents_leaves_out :
    ¬ ∀ (s : Keymaps) (start : Nat) (startParents : List Nat), WellFounded (InheritsFrom s) →
      (∀ p ∈ startParents, ¬ ReflTransGen (fun k p => InheritsFrom s p k) p start) →
      TraversesPreorder s start startParents := by
  intro hall
  obtain ⟨l, hl, hsearch⟩ := hall twoParents 0 [] twoParents_acyclic
    (fun p hp => absurd hp List.not_mem_nil)
  have hup₁ : Preorder twoParents [3] [3] := @Preorder.cons _ 3 [] [] [] .nil .nil
  have hup₂ : Preorder twoParents [4] [4] := @Preorder.cons _ 4 [] [] [] .nil .nil
  have hpre : Preorder twoParents [1, 2] [1, 3, 2, 4] :=
    @Preorder.cons _ 1 _ _ _ hup₁ (@Preorder.cons _ 2 _ _ _ hup₂ .nil)
  obtain rfl : [1, 3, 2, 4] = l := hpre.unique hl
  have hlog := hsearch _ _ _ _ logKeymap_keepsParents (twoParents, []) (fun _ => rfl) 5 (by decide)
  have hvisited : some [0, 1, 3, 2] = some [0, 1, 3, 2, 4] :=
    congrArg (fun r => r.state?.map Prod.snd) hlog
  exact absurd hvisited (by decide)

end search

end XEmacs.Keymap

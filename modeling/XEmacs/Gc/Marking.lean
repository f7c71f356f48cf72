import XEmacs.Lib.Chains
import Mathlib.Data.Fintype.Card

/-!
# Marking weak hash tables and weak lists

The mark phase of `garbage_collect_1` (alloc.c) marks what the roots lead to.
-/

namespace XEmacs.Gc

open Chains

/-- `enum weak_list_type`. -/
inductive WeakListType where
  | simple
  | assoc
  | keyAssoc
  | valueAssoc
  | fullAssoc
deriving DecidableEq, Repr

/-- `enum hash_table_weakness`. -/
inductive Weakness where
  | nonWeak
  | keyWeak
  | valueWeak
  | keyValueWeak
  | keyCarWeak
  | keyCarValueWeak
  | valueCarWeak
deriving DecidableEq, Repr

/-- An object, with other objects named by elements of `ι`. A hash table has the pairs of
its entries that are not clear. -/
inductive Object (ι : Type*) where
  | immediate
  | nil
  | cons (car cdr : ι)
  | weakList (type : WeakListType) (list : ι)
  | hashTable (weakness : Weakness) (entries : List (ι × ι))
  | record (refs : List ι)
deriving DecidableEq, Repr

abbrev Heap (ι : Type*) := ι → Object ι

/-- The mark bits, and the flag `did_mark`. -/
structure MarkState (ι : Type*) where
  marked : Finset ι
  didMark : Bool
deriving DecidableEq

/-- The marks only grow, and `did_mark` tells whether they did. -/
structure MarkState.Grows {ι : Type*} (s s' : MarkState ι) : Prop where
  subset : s.marked ⊆ s'.marked
  eq_of_not_didMark : s'.didMark = false → s' = s
  ssubset_of_didMark : s'.didMark = true → s.didMark = true ∨ s.marked ⊂ s'.marked

namespace MarkState.Grows

variable {ι : Type*} {s s' s'' : MarkState ι}

theorem refl (s : MarkState ι) : Grows s s :=
  ⟨Finset.Subset.refl _, fun _ => rfl, .inl⟩

theorem trans (h₁ : Grows s s') (h₂ : Grows s' s'') : Grows s s'' where
  subset := h₁.subset.trans h₂.subset
  eq_of_not_didMark hd := by
    have heq := h₂.eq_of_not_didMark hd
    rw [heq] at hd ⊢
    exact h₁.eq_of_not_didMark hd
  ssubset_of_didMark hd := by
    obtain hd | hsub := h₂.ssubset_of_didMark hd
    · obtain hd | hsub := h₁.ssubset_of_didMark hd
      · exact .inl hd
      · exact .inr (hsub.trans_subset h₂.subset)
    · exact .inr (h₁.subset.trans_ssubset hsub)

theorem foldl {α : Type*} {f : MarkState ι → α → MarkState ι} (hf : ∀ s a, Grows s (f s a))
    (l : List α) (s : MarkState ι) : Grows s (l.foldl f s) :=
  List.foldlRecOn (motive := fun t => Grows s t) l f (refl s) fun t ht a _ => ht.trans (hf t a)

theorem foldl_fixed {α : Type*} {f : MarkState ι → α → MarkState ι}
    (hf : ∀ s a, Grows s (f s a)) {l : List α} {s : MarkState ι}
    (hend : (l.foldl f s).didMark = false) : l.foldl f s = s ∧ ∀ a ∈ l, f s a = s := by
  induction l generalizing s with
  | nil => exact ⟨rfl, nofun⟩
  | cons a l ih =>
    rw [List.foldl_cons] at hend ⊢
    obtain ⟨hsame, hall⟩ := ih hend
    rw [hsame] at hend ⊢
    have hfirst : f s a = s := (hf s a).eq_of_not_didMark hend
    refine ⟨hfirst, ?_⟩
    rintro b (_ | ⟨_, hb⟩)
    · exact hfirst
    · rw [hfirst] at hall
      exact hall b hb

end MarkState.Grows

namespace Heap

open MarkState (Grows)

variable {ι : Type*} [DecidableEq ι] (h : Heap ι)

def markedP (M : Finset ι) (x : ι) : Bool :=
  match h x with
  | .immediate => true
  | .nil => true
  | _ => decide (x ∈ M)

/-- What the marker of an object marks. -/
def refs (x : ι) : List ι :=
  match h x with
  | .cons car cdr => [car, cdr]
  | .hashTable .nonWeak entries => entries.flatMap fun e => [e.1, e.2]
  | .record refs => refs
  | _ => []

/-- `mark_object`; `fuel` bounds the depth of the recursion. -/
def markObjectDepth : Nat → Finset ι → ι → Finset ι
  | 0, M, _ => M
  | fuel + 1, M, x =>
    if h.markedP M x then M else (h.refs x).foldl (markObjectDepth fuel) (insert x M)

section Depth

variable {h}

theorem markedP_mono {M N : Finset ι} (hMN : M ⊆ N) {x : ι} (hx : h.markedP M x = true) :
    h.markedP N x = true := by
  unfold markedP at hx ⊢
  split at hx
  · rfl
  · rfl
  · exact decide_eq_true (hMN (of_decide_eq_true hx))

theorem mem_of_not_markedP {M : Finset ι} {x : ι} (hx : ¬ h.markedP M x = true) : x ∉ M := by
  unfold markedP at hx
  split at hx
  · exact absurd rfl hx
  · exact absurd rfl hx
  · exact fun hmem => hx (decide_eq_true hmem)

theorem markedP_of_mem {M : Finset ι} {x : ι} (hx : x ∈ M) : h.markedP M x = true := by
  by_contra hno
  exact mem_of_not_markedP hno hx

theorem subset_markObjectDepth (fuel : Nat) (M : Finset ι) (x : ι) :
    M ⊆ h.markObjectDepth fuel M x := by
  induction fuel generalizing M x with
  | zero => exact Finset.Subset.refl M
  | succ fuel ih =>
    rw [markObjectDepth]
    split
    · exact Finset.Subset.refl M
    · refine List.foldlRecOn (motive := fun N => M ⊆ N) (h.refs x) _ (Finset.subset_insert x M) ?_
      intro N hN y _
      exact hN.trans (ih N y)

theorem subset_foldl_markObjectDepth (fuel : Nat) (l : List ι) (M : Finset ι) :
    M ⊆ l.foldl (h.markObjectDepth fuel) M :=
  List.foldlRecOn (motive := fun N => M ⊆ N) l _ (Finset.Subset.refl M)
    fun N hN y _ => hN.trans (subset_markObjectDepth fuel N y)

theorem mem_of_mem_markObjectDepth {S : ι → Prop} (hS : ∀ z, ¬ S z → ∀ y ∈ h.refs z, ¬ S y)
    (fuel : Nat) {M : Finset ι} {x y : ι} (hx : ¬ S x) (hy : S y)
    (hmem : y ∈ h.markObjectDepth fuel M x) : y ∈ M := by
  induction fuel generalizing M x with
  | zero => exact hmem
  | succ fuel ih =>
    rw [markObjectDepth] at hmem
    split at hmem
    · exact hmem
    · have hin : y ∈ insert x M := by
        revert hmem
        refine List.foldlRecOn (motive := fun N => y ∈ N → y ∈ insert x M) (h.refs x) _ id ?_
        intro N hN z hz hmem
        exact hN (ih (hS x hx z hz) hmem)
      obtain rfl | hin := Finset.mem_insert.mp hin
      · exact absurd hy hx
      · exact hin

end Depth

variable [Fintype ι]

/-- With fuel for every object that is not marked, the recursion marks the object, and all
references of what it marks. -/
theorem markObjectDepth_closed (fuel : Nat) {M : Finset ι} {x : ι}
    (hfuel : Fintype.card ι ≤ fuel + M.card) :
    h.markedP (h.markObjectDepth fuel M x) x = true ∧
      ∀ y ∈ h.markObjectDepth fuel M x, y ∉ M → ∀ z ∈ h.refs y,
        h.markedP (h.markObjectDepth fuel M x) z = true := by
  induction fuel generalizing M x with
  | zero =>
    have hall : M = Finset.univ := by
      rw [Nat.zero_add] at hfuel
      exact Finset.card_eq_iff_eq_univ M |>.mp (Nat.le_antisymm (Finset.card_le_univ M) hfuel)
    refine ⟨markedP_of_mem ?_, fun y hy hnot => absurd hy hnot⟩
    rw [markObjectDepth, hall]
    exact Finset.mem_univ x
  | succ fuel ih =>
    rw [markObjectDepth]
    split
    · rename_i hx
      exact ⟨hx, fun y hy hnot => absurd hy hnot⟩
    · rename_i hx
      have hcard : Fintype.card ι ≤ fuel + (insert x M).card := by
        rw [Finset.card_insert_of_notMem (mem_of_not_markedP hx)]
        omega
      -- the marker goes through the references
      have hfold : ∀ (l : List ι) {N : Finset ι}, Fintype.card ι ≤ fuel + N.card →
          (∀ z ∈ l, h.markedP (l.foldl (h.markObjectDepth fuel) N) z = true) ∧
            ∀ y ∈ l.foldl (h.markObjectDepth fuel) N, y ∉ N → ∀ z ∈ h.refs y,
              h.markedP (l.foldl (h.markObjectDepth fuel) N) z = true := by
        intro l
        induction l with
        | nil => exact fun _ => ⟨nofun, fun y hy hnot => absurd hy hnot⟩
        | cons a l ihl =>
          intro N hN
          obtain ⟨hmarked, hrefs⟩ := ih (x := a) hN
          have hsub := subset_markObjectDepth (h := h) fuel N a
          obtain ⟨hlist, hrest⟩ := ihl (N := h.markObjectDepth fuel N a)
            (hN.trans (Nat.add_le_add_left (Finset.card_le_card hsub) _))
          constructor
          · rintro z (_ | ⟨_, hz⟩)
            · exact markedP_mono (subset_foldl_markObjectDepth fuel l _) hmarked
            · exact hlist z hz
          · intro y hy hnot z hz
            by_cases hin : y ∈ h.markObjectDepth fuel N a
            · exact markedP_mono (subset_foldl_markObjectDepth fuel l _) (hrefs y hin hnot z hz)
            · exact hrest y hy hin z hz
      obtain ⟨hlist, hrest⟩ := hfold (h.refs x) hcard
      constructor
      · exact markedP_of_mem
          (subset_foldl_markObjectDepth fuel _ _ (Finset.mem_insert_self x M))
      · intro y hy hnot z hz
        by_cases hyx : y = x
        · exact hlist z (hyx ▸ hz)
        · refine hrest y hy (fun hin => ?_) z hz
          exact (Finset.mem_insert.mp hin).elim hyx hnot

/-- `mark_object`. Every level of the recursion has marked one more object. -/
def markObject (M : Finset ι) (x : ι) : Finset ι :=
  h.markObjectDepth (Fintype.card ι) M x

/-- `MARK_OBJ`: mark an object that is not marked, and note it. -/
def markObj (s : MarkState ι) (x : ι) : MarkState ι :=
  if h.markedP s.marked x then s else ⟨h.markObject s.marked x, true⟩

/-- `MARK_CONS`, for a cons that is not marked: the cons alone. -/
def markCons (s : MarkState ι) (c : ι) : MarkState ι :=
  if c ∈ s.marked then s else ⟨insert c s.marked, true⟩

/-- The test of the `*_CAR_WEAK` weaknesses. -/
def notConsOrCarMarked (M : Finset ι) (x : ι) : Bool :=
  match h x with
  | .cons car _ => h.markedP M car
  | _ => true

/-- `finish_marking_weak_hash_tables`, for one pair. -/
def finishMarkingPair (weakness : Weakness) (s : MarkState ι) (e : ι × ι) : MarkState ι :=
  let (key, value) := e
  match weakness with
  | .nonWeak => s
  | .keyWeak => if h.markedP s.marked key then h.markObj s value else s
  | .valueWeak => if h.markedP s.marked value then h.markObj s key else s
  | .keyValueWeak =>
    if h.markedP s.marked value then h.markObj s key
    else if h.markedP s.marked key then h.markObj s value
    else s
  | .keyCarWeak =>
    if h.notConsOrCarMarked s.marked key then h.markObj (h.markObj s key) value else s
  | .keyCarValueWeak =>
    if h.notConsOrCarMarked s.marked key then h.markObj (h.markObj s key) value
    else if h.markedP s.marked value then h.markObj s key
    else s
  | .valueCarWeak =>
    if h.notConsOrCarMarked s.marked value then h.markObj (h.markObj s key) value else s

def finishMarkingHashTable (s : MarkState ι) (table : ι) : MarkState ι :=
  if h.markedP s.marked table then
    match h table with
    | .hashTable weakness entries => entries.foldl (h.finishMarkingPair weakness) s
    | _ => s
  else s

/-- `finish_marking_weak_hash_tables`, over `Vall_weak_hash_tables`. -/
def finishMarkingWeakHashTables (tables : List ι) (M : Finset ι) : MarkState ι :=
  tables.foldl h.finishMarkingHashTable ⟨M, false⟩

/-- The rule of a weak list's type for an element: `need_to_mark_cons`. -/
def needToMarkCons (type : WeakListType) (M : Finset ι) (elem : ι) : Bool :=
  match type with
  | .simple => h.markedP M elem
  | .assoc =>
    match h elem with
    | .cons car cdr => h.markedP M car && h.markedP M cdr
    | _ => true
  | .keyAssoc =>
    match h elem with
    | .cons car _ => h.markedP M car
    | _ => true
  | .valueAssoc =>
    match h elem with
    | .cons _ cdr => h.markedP M cdr
    | _ => true
  | .fullAssoc =>
    match h elem with
    | .cons car cdr => h.markedP M car || h.markedP M cdr
    | _ => true

def needToMarkElem (type : WeakListType) (M : Finset ι) (elem : ι) : Bool :=
  match type with
  | .simple => false
  | _ => h.needToMarkCons type M elem

/-- The body of the loop over a weak list, at the cons `rest2`. -/
def finishMarkingElement (type : WeakListType) (s : MarkState ι) (rest2 elem : ι) :
    MarkState ι :=
  let s' := if h.needToMarkElem type s.marked elem then h.markObj s elem else s
  if h.needToMarkCons type s.marked elem then markCons s' rest2 else s'

/-- The loop over a weak list from `rest2` on. It stops at a marked cons; at the end of an
imperfect list it marks the final cdr. -/
def finishMarkingList (type : WeakListType) : Nat → ι → MarkState ι → MarkState ι
  | 0, _, s => s
  | fuel + 1, rest2, s =>
    match h rest2 with
    | .cons elem next =>
      if h.markedP s.marked rest2 then s
      else finishMarkingList type fuel next (h.finishMarkingElement type s rest2 elem)
    | .nil => s
    | _ => h.markObj s rest2

def finishMarkingWeakList (s : MarkState ι) (weak : ι) : MarkState ι :=
  if h.markedP s.marked weak then
    match h weak with
    | .weakList type list => h.finishMarkingList type (Fintype.card ι + 1) list s
    | _ => s
  else s

/-- `finish_marking_weak_lists`, over `Vall_weak_lists`. -/
def finishMarkingWeakLists (weakLists : List ι) (M : Finset ι) : MarkState ι :=
  weakLists.foldl h.finishMarkingWeakList ⟨M, false⟩

/-- The loop of `garbage_collect_1` over the two functions, which goes on while one of
them marks something. The second is called only if the first marked nothing. -/
def finishMarking (tables weakLists : List ι) : Nat → Finset ι → Option (Finset ι)
  | 0, _ => none
  | fuel + 1, M =>
    let s := h.finishMarkingWeakHashTables tables M
    if s.didMark then finishMarking tables weakLists fuel s.marked
    else
      let s' := h.finishMarkingWeakLists weakLists s.marked
      if s'.didMark then finishMarking tables weakLists fuel s'.marked else some s'.marked

/-! ### The finishing passes only mark -/

section Growth

variable {h}

theorem grows_markObj (s : MarkState ι) (x : ι) : Grows s (h.markObj s x) := by
  rw [markObj]
  split
  · exact .refl s
  · rename_i hx
    have hsub : s.marked ⊆ h.markObject s.marked x := subset_markObjectDepth _ _ _
    refine ⟨hsub, nofun, fun _ => .inr (Finset.ssubset_iff_subset_ne.mpr ⟨hsub, ?_⟩)⟩
    -- the object itself is marked now
    intro heq
    refine hx ?_
    rw [heq]
    exact (markObjectDepth_closed h _ (Nat.le_add_right _ _)).1

omit [Fintype ι] in
theorem grows_markCons (s : MarkState ι) (c : ι) : Grows s (markCons s c) := by
  rw [markCons]
  split
  · exact .refl s
  · rename_i hc
    exact ⟨Finset.subset_insert _ _, nofun, fun _ => .inr (Finset.ssubset_insert hc)⟩

omit [Fintype ι] in
theorem mem_markCons {s : MarkState ι} {c x : ι} :
    x ∈ (markCons s c).marked ↔ x = c ∨ x ∈ s.marked := by
  rw [markCons]
  split
  · rename_i hc
    constructor
    · exact .inr
    · rintro (rfl | hx)
      · exact hc
      · exact hx
  · exact Finset.mem_insert

theorem grows_finishMarkingPair (weakness : Weakness) (s : MarkState ι) (e : ι × ι) :
    Grows s (h.finishMarkingPair weakness s e) := by
  have hobj := grows_markObj (h := h)
  cases weakness with
  | nonWeak => exact .refl s
  | keyWeak | valueWeak =>
    rw [finishMarkingPair]
    split
    · exact hobj s _
    · exact .refl s
  | keyValueWeak =>
    rw [finishMarkingPair]
    split
    · exact hobj s _
    · split
      · exact hobj s _
      · exact .refl s
  | keyCarWeak | valueCarWeak =>
    rw [finishMarkingPair]
    split
    · exact (hobj s _).trans (hobj _ _)
    · exact .refl s
  | keyCarValueWeak =>
    rw [finishMarkingPair]
    split
    · exact (hobj s _).trans (hobj _ _)
    · split
      · exact hobj s _
      · exact .refl s

theorem grows_finishMarkingHashTable (s : MarkState ι) (table : ι) :
    Grows s (h.finishMarkingHashTable s table) := by
  rw [finishMarkingHashTable]
  split
  · split
    · exact Grows.foldl (grows_finishMarkingPair _) _ s
    · exact .refl s
  · exact .refl s

theorem grows_finishMarkingWeakHashTables (tables : List ι) (M : Finset ι) :
    Grows ⟨M, false⟩ (h.finishMarkingWeakHashTables tables M) :=
  Grows.foldl grows_finishMarkingHashTable tables _

theorem grows_finishMarkingElement (type : WeakListType) (s : MarkState ι) (rest2 elem : ι) :
    Grows s (h.finishMarkingElement type s rest2 elem) := by
  have helem : Grows s (if h.needToMarkElem type s.marked elem then h.markObj s elem else s) := by
    split
    · exact grows_markObj s elem
    · exact .refl s
  rw [finishMarkingElement]
  split
  · exact helem.trans (grows_markCons _ _)
  · exact helem

theorem grows_finishMarkingList (type : WeakListType) (fuel : Nat) (rest2 : ι)
    (s : MarkState ι) : Grows s (h.finishMarkingList type fuel rest2 s) := by
  induction fuel generalizing rest2 s with
  | zero => exact .refl s
  | succ fuel ih =>
    rw [finishMarkingList]
    split
    · split
      · exact .refl s
      · exact (grows_finishMarkingElement _ _ _ _).trans (ih _ _)
    · exact .refl s
    · exact grows_markObj s _

theorem grows_finishMarkingWeakList (s : MarkState ι) (weak : ι) :
    Grows s (h.finishMarkingWeakList s weak) := by
  rw [finishMarkingWeakList]
  split
  · split
    · exact grows_finishMarkingList _ _ _ _
    · exact .refl s
  · exact .refl s

theorem grows_finishMarkingWeakLists (weakLists : List ι) (M : Finset ι) :
    Grows ⟨M, false⟩ (h.finishMarkingWeakLists weakLists M) :=
  Grows.foldl grows_finishMarkingWeakList weakLists _

/-- **The loop ends**: every round but the last marks another object. -/
theorem finishMarking_ends (tables weakLists : List ι) (fuel : Nat) {M : Finset ι}
    (hfuel : Fintype.card ι < fuel + M.card) :
    ∃ F, h.finishMarking tables weakLists fuel M = some F := by
  induction fuel generalizing M with
  | zero =>
    rw [Nat.zero_add] at hfuel
    exact absurd (Finset.card_le_univ M) (Nat.not_le.mpr hfuel)
  | succ fuel ih =>
    have hnext : ∀ {s : MarkState ι}, Grows ⟨M, false⟩ s → s.didMark = true →
        Fintype.card ι < fuel + s.marked.card := by
      intro s hs hd
      have hsub := (hs.ssubset_of_didMark hd).resolve_left Bool.false_ne_true
      have hcard := Finset.card_lt_card hsub
      simp only at hcard
      omega
    have htables := grows_finishMarkingWeakHashTables (h := h) tables M
    rw [finishMarking]
    simp only
    split
    · rename_i hd
      exact ih (hnext htables hd)
    · rename_i hd
      rw [htables.eq_of_not_didMark (Bool.eq_false_iff.mpr hd)]
      split
      · rename_i hd'
        exact ih (hnext (grows_finishMarkingWeakLists weakLists M) hd')
      · exact ⟨_, rfl⟩

end Growth

end Heap

end XEmacs.Gc

import XEmacs.Gc.WeakLists
import XEmacs.Elhash.MapRemhash
import Mathlib.Order.Bounds.Basic

/-!
# What garbage collection keeps of weak hash tables

The marks that the loop of `garbage_collect_1` ends with are a least fixpoint: the least set that
has what the roots lead to and that no weak hash table's rule (`Weakness.Keeps`) leads out of.
-/

namespace XEmacs.Gc

open Chains MarkState Elhash List Function

variable {ι : Type} [DecidableEq ι] {h : Heap ι}

/-- The rule of a table's weakness for one pair, where the objects of `S` are live. -/
def Weakness.Keeps (h : Heap ι) (S : Finset ι) (e : ι × ι) : Weakness → Prop
  | nonWeak => True
  | keyWeak => h.markedP S e.1 = true → h.markedP S e.2 = true
  | valueWeak => h.markedP S e.2 = true → h.markedP S e.1 = true
  | keyValueWeak => h.markedP S e.1 = true ↔ h.markedP S e.2 = true
  | keyCarWeak =>
    h.notConsOrCarMarked S e.1 = true → h.markedP S e.1 = true ∧ h.markedP S e.2 = true
  | keyCarValueWeak =>
    (h.notConsOrCarMarked S e.1 = true → h.markedP S e.1 = true ∧ h.markedP S e.2 = true) ∧
      (h.markedP S e.2 = true → h.markedP S e.1 = true)
  | valueCarWeak =>
    h.notConsOrCarMarked S e.2 = true → h.markedP S e.1 = true ∧ h.markedP S e.2 = true

namespace Heap

/-- A set of live objects: it has the roots, `W`, what its objects outside `W` refer to, and
what the rules of its weak hash tables keep. -/
structure LiveSet (h : Heap ι) (roots tables : List ι) (W S : Finset ι) : Prop where
  roots : ∀ r ∈ roots, h.markedP S r = true
  subset : W ⊆ S
  refs : ∀ x ∈ S, x ∉ W → ∀ y ∈ h.refs x, h.markedP S y = true
  pairs : ∀ table ∈ tables, h.markedP S table = true → ∀ weakness entries,
    h table = .hashTable weakness entries → ∀ e ∈ entries, weakness.Keeps h S e

/-- From `s` to `s'` nothing outside `S` gets marked, as long as `S` has the references of
all that gets marked. -/
structure Justified (h : Heap ι) (S : Finset ι) (s s' : MarkState ι) : Prop where
  grows : Grows s s'
  subset : s.marked ⊆ S →
    (∀ z ∈ s'.marked, z ∉ s.marked → z ∈ S → ∀ y ∈ h.refs z, h.markedP S y = true) →
      s'.marked ⊆ S

namespace Justified

variable {S : Finset ι} {s s' s'' : MarkState ι}

theorem refl (s : MarkState ι) : Justified h S s s := ⟨.refl s, fun hs _ => hs⟩

theorem trans (h₁ : Justified h S s s') (h₂ : s.marked ⊆ S → s'.marked ⊆ S → Justified h S s' s'')
    (hgrows : Grows s' s'') : Justified h S s s'' := by
  refine ⟨h₁.grows.trans hgrows, fun hs hnew => ?_⟩
  have hs' : s'.marked ⊆ S :=
    h₁.subset hs fun z hz hnot => hnew z (hgrows.subset hz) hnot
  refine (h₂ hs hs').subset hs' fun z hz hnot => ?_
  exact hnew z hz fun hin => hnot (h₁.grows.subset hin)

theorem foldl {α : Type*} {f : MarkState ι → α → MarkState ι} (hgrows : ∀ s a, Grows s (f s a))
    {l : List α} (hf : ∀ s, s.marked ⊆ S → ∀ a ∈ l, Justified h S s (f s a)) (s : MarkState ι)
    (hs : s.marked ⊆ S) : Justified h S s (l.foldl f s) := by
  induction l generalizing s with
  | nil => exact .refl s
  | cons a l ih =>
    refine (hf s hs a (mem_cons_self ..)).trans (fun _ hs' => ?_) (Grows.foldl hgrows l _)
    exact ih (fun t ht b hb => hf t ht b (mem_cons_of_mem a hb)) _ hs'

end Justified

theorem mem_of_markedP {M S : Finset ι} {x : ι} (hx : h.markedP S x = true)
    (hno : ¬ h.markedP M x = true) : x ∈ S := by
  unfold markedP at hx hno
  cases hobj : h x with
  | immediate | nil =>
    rw [hobj] at hno
    exact absurd rfl hno
  | _ =>
    rw [hobj] at hx
    exact of_decide_eq_true hx

theorem markObjectDepth_subset {S : Finset ι} (fuel : Nat) {M : Finset ι} {x : ι} (hM : M ⊆ S)
    (hx : h.markedP S x = true)
    (hnew : ∀ z ∈ h.markObjectDepth fuel M x, z ∉ M → z ∈ S →
      ∀ y ∈ h.refs z, h.markedP S y = true) :
    h.markObjectDepth fuel M x ⊆ S := by
  induction fuel generalizing M x with
  | zero => exact hM
  | succ fuel ih =>
    rw [markObjectDepth] at hnew ⊢
    split at hnew
    · rename_i hmarked
      rw [if_pos hmarked]
      exact hM
    · rename_i hmarked
      rw [if_neg hmarked]
      have hxS : x ∈ S := mem_of_markedP hx hmarked
      have hsub := subset_foldl_markObjectDepth (h := h) fuel (h.refs x) (insert x M)
      have hrefs := hnew x (hsub (Finset.mem_insert_self x M)) (mem_of_not_markedP hmarked) hxS
      -- the references one after the other; all that is marked counts as new
      have hfold : ∀ (l : List ι) {N : Finset ι}, M ⊆ N → N ⊆ S →
          (∀ y ∈ l, h.markedP S y = true) →
          (∀ z ∈ l.foldl (h.markObjectDepth fuel) N, z ∉ M → z ∈ S →
            ∀ y ∈ h.refs z, h.markedP S y = true) →
          l.foldl (h.markObjectDepth fuel) N ⊆ S := by
        intro l
        induction l with
        | nil => exact fun _ hN _ _ => hN
        | cons a l ihl =>
          intro N hMN hN hl hnew
          rw [foldl_cons] at hnew ⊢
          have hstep := subset_markObjectDepth (h := h) fuel N a
          refine ihl (hMN.trans hstep) ?_ (fun y hy => hl y (mem_cons_of_mem a hy)) hnew
          refine ih hN (hl a (mem_cons_self ..)) fun z hz hnot => ?_
          exact hnew z (subset_foldl_markObjectDepth fuel l _ hz) fun hin => hnot (hMN hin)
      exact hfold (h.refs x) (Finset.subset_insert x M) (Finset.insert_subset hxS hM) hrefs hnew

variable [Fintype ι]

theorem justified_markObj {S : Finset ι} (s : MarkState ι) {x : ι} (hx : h.markedP S x = true) :
    Justified h S s (h.markObj s x) := by
  refine ⟨grows_markObj s x, fun hs hnew => ?_⟩
  rw [markObj] at hnew ⊢
  split
  · exact hs
  · rename_i hno
    rw [if_neg hno] at hnew
    exact markObjectDepth_subset _ hs hx hnew

theorem justified_finishMarkingPair {S : Finset ι} {weakness : Weakness} {e : ι × ι}
    (hkeeps : weakness.Keeps h S e) (s : MarkState ι) (hs : s.marked ⊆ S) :
    Justified h S s (h.finishMarkingPair weakness s e) := by
  have hlive : ∀ {x}, h.markedP s.marked x = true → h.markedP S x = true := markedP_mono hs
  have hcar : ∀ {x}, h.notConsOrCarMarked s.marked x = true → h.notConsOrCarMarked S x = true := by
    intro x hx
    unfold notConsOrCarMarked at hx ⊢
    split at hx
    · exact hlive hx
    · rfl
  have hboth : h.markedP S e.1 = true ∧ h.markedP S e.2 = true →
      Justified h S s (h.markObj (h.markObj s e.1) e.2) := fun hb =>
    (justified_markObj s hb.1).trans (fun _ _ => justified_markObj _ hb.2) (grows_markObj _ _)
  cases weakness with
  | nonWeak => exact .refl s
  | keyWeak =>
    rw [finishMarkingPair]
    split
    · rename_i hkey
      exact justified_markObj s (hkeeps (hlive hkey))
    · exact .refl s
  | valueWeak =>
    rw [finishMarkingPair]
    split
    · rename_i hvalue
      exact justified_markObj s (hkeeps (hlive hvalue))
    · exact .refl s
  | keyValueWeak =>
    rw [finishMarkingPair]
    split
    · rename_i hvalue
      exact justified_markObj s (hkeeps.mpr (hlive hvalue))
    · split
      · rename_i hkey
        exact justified_markObj s (hkeeps.mp (hlive hkey))
      · exact .refl s
  | keyCarWeak =>
    rw [finishMarkingPair]
    split
    · rename_i hkey
      exact hboth (hkeeps (hcar hkey))
    · exact .refl s
  | keyCarValueWeak =>
    rw [finishMarkingPair]
    split
    · rename_i hkey
      exact hboth (hkeeps.1 (hcar hkey))
    · split
      · rename_i hvalue
        exact justified_markObj s (hkeeps.2 (hlive hvalue))
      · exact .refl s
  | valueCarWeak =>
    rw [finishMarkingPair]
    split
    · rename_i hvalue
      exact hboth (hkeeps (hcar hvalue))
    · exact .refl s

theorem justified_finishMarkingWeakHashTables {roots tables : List ι} {W S : Finset ι}
    (hS : h.LiveSet roots tables W S) {M : Finset ι} (hM : M ⊆ S) :
    Justified h S ⟨M, false⟩ (h.finishMarkingWeakHashTables tables M) := by
  refine Justified.foldl grows_finishMarkingHashTable (fun s hs table htable => ?_) _ hM
  rw [finishMarkingHashTable]
  split
  · rename_i hlive
    split
    · rename_i weakness entries hentries
      refine Justified.foldl (grows_finishMarkingPair weakness) (fun t ht e he => ?_) s hs
      have hkeeps := hS.pairs table htable (markedP_mono hs hlive) weakness entries hentries e he
      exact justified_finishMarkingPair hkeeps t ht
    · exact .refl s
  · exact .refl s

/-! ### The last pass -/

theorem markedP_of_markObj_fixed {M : Finset ι} {x : ι}
    (hsame : h.markObj ⟨M, false⟩ x = ⟨M, false⟩) :
    h.markedP M x = true := by
  by_contra hno
  rw [markObj, if_neg hno] at hsame
  cases congrArg MarkState.didMark hsame

theorem keeps_of_fixed {weakness : Weakness} {M : Finset ι} {e : ι × ι}
    (hsame : h.finishMarkingPair weakness ⟨M, false⟩ e = ⟨M, false⟩) : weakness.Keeps h M e := by
  have hboth : h.markObj (h.markObj ⟨M, false⟩ e.1) e.2 = ⟨M, false⟩ →
      h.markedP M e.1 = true ∧ h.markedP M e.2 = true := by
    intro hsame
    have hgrows := grows_markObj (h := h) (h.markObj ⟨M, false⟩ e.1) e.2
    rw [hsame] at hgrows
    have hfirst := (hgrows.eq_of_not_didMark rfl).symm
    rw [hfirst] at hsame
    exact ⟨markedP_of_markObj_fixed hfirst, markedP_of_markObj_fixed hsame⟩
  cases weakness with
  | nonWeak => trivial
  | keyWeak | valueWeak =>
    intro hlive
    rw [finishMarkingPair, if_pos hlive] at hsame
    exact markedP_of_markObj_fixed hsame
  | keyValueWeak =>
    rw [finishMarkingPair] at hsame
    constructor
    · intro hkey
      by_contra hno
      rw [if_neg hno, if_pos hkey] at hsame
      exact hno (markedP_of_markObj_fixed hsame)
    · intro hvalue
      rw [if_pos hvalue] at hsame
      exact markedP_of_markObj_fixed hsame
  | keyCarWeak | valueCarWeak =>
    intro hcar
    rw [finishMarkingPair, if_pos hcar] at hsame
    exact hboth hsame
  | keyCarValueWeak =>
    rw [finishMarkingPair] at hsame
    constructor
    · intro hcar
      rw [if_pos hcar] at hsame
      exact hboth hsame
    · intro hvalue
      by_cases hcar : h.notConsOrCarMarked M e.1 = true
      · rw [if_pos hcar] at hsame
        exact (hboth hsame).1
      · rw [if_neg hcar, if_pos hvalue] at hsame
        exact markedP_of_markObj_fixed hsame

theorem keeps_of_last_pass {tables : List ι} {M : Finset ι}
    (hend : (h.finishMarkingWeakHashTables tables M).didMark = false) {table : ι}
    (htable : table ∈ tables) (hlive : h.markedP M table = true) {weakness : Weakness}
    {entries : List (ι × ι)} (hentries : h table = .hashTable weakness entries) {e : ι × ι}
    (he : e ∈ entries) : weakness.Keeps h M e := by
  obtain ⟨-, hall⟩ := Grows.foldl_fixed grows_finishMarkingHashTable hend
  have hsame := hall table htable
  rw [finishMarkingHashTable, if_pos hlive] at hsame
  simp only [hentries] at hsame
  have hend' := congrArg MarkState.didMark hsame
  obtain ⟨-, hpairs⟩ := Grows.foldl_fixed (grows_finishMarkingPair weakness) hend'
  exact keeps_of_fixed (hpairs e he)

/-! ### The run of the loop -/

/-- What the passes over the weak lists mark, in the loop of `garbage_collect_1`. -/
def weakListMarks (h : Heap ι) (tables weakLists : List ι) : Nat → Finset ι → Finset ι
  | 0, _ => ∅
  | fuel + 1, M =>
    let s := h.finishMarkingWeakHashTables tables M
    if s.didMark then weakListMarks h tables weakLists fuel s.marked
    else
      let s' := h.finishMarkingWeakLists weakLists s.marked
      (s'.marked \ s.marked) ∪
        if s'.didMark then weakListMarks h tables weakLists fuel s'.marked else ∅

theorem disjoint_weakListMarks (tables weakLists : List ι) (fuel : Nat) (M : Finset ι) :
    Disjoint (h.weakListMarks tables weakLists fuel M)
      (h.finishMarkingWeakHashTables tables M).marked := by
  induction fuel generalizing M with
  | zero => exact Finset.disjoint_empty_left _
  | succ fuel ih =>
    have hnext : ∀ {N : Finset ι}, M ⊆ N → Disjoint (h.weakListMarks tables weakLists fuel N) N :=
      fun {N} _ => Finset.disjoint_of_subset_right
        (grows_finishMarkingWeakHashTables (h := h) tables N).subset (ih N)
    rw [weakListMarks]
    have htables := (grows_finishMarkingWeakHashTables (h := h) tables M).subset
    split
    · exact hnext htables
    · have hlists := (grows_finishMarkingWeakLists (h := h) weakLists
        (h.finishMarkingWeakHashTables tables M).marked).subset
      refine Finset.disjoint_union_left.mpr ⟨Finset.sdiff_disjoint, ?_⟩
      split
      · exact Finset.disjoint_of_subset_right hlists (hnext (htables.trans hlists))
      · exact Finset.disjoint_empty_left _

/-- Outside `W`, what is marked has its references marked. -/
def RefsMarked (h : Heap ι) (W M : Finset ι) : Prop :=
  ∀ x ∈ M, x ∉ W → ∀ y ∈ h.refs x, h.markedP M y = true

theorem RefsMarked.markObject {W M : Finset ι} (hM : h.RefsMarked W M) (x : ι) :
    h.RefsMarked W (h.markObject M x) := by
  intro y hy hnot z hz
  by_cases hin : y ∈ M
  · exact markedP_mono (subset_markObjectDepth _ _ _) (hM y hin hnot z hz)
  · exact (markObjectDepth_closed h _ (Nat.le_add_right _ _)).2 y hy hin z hz

theorem RefsMarked.markObj {W : Finset ι} {s : MarkState ι} (hs : h.RefsMarked W s.marked)
    (x : ι) : h.RefsMarked W (h.markObj s x).marked := by
  rw [Heap.markObj]
  split
  · exact hs
  · exact hs.markObject x

theorem RefsMarked.finishMarkingPair {W : Finset ι} {s : MarkState ι}
    (hs : h.RefsMarked W s.marked) (weakness : Weakness) (e : ι × ι) :
    h.RefsMarked W (h.finishMarkingPair weakness s e).marked := by
  cases weakness with
  | nonWeak => exact hs
  | keyWeak | valueWeak =>
    rw [Heap.finishMarkingPair]
    split
    · exact hs.markObj _
    · exact hs
  | keyValueWeak =>
    rw [Heap.finishMarkingPair]
    split
    · exact hs.markObj _
    · split
      · exact hs.markObj _
      · exact hs
  | keyCarWeak | valueCarWeak =>
    rw [Heap.finishMarkingPair]
    split
    · exact (hs.markObj _).markObj _
    · exact hs
  | keyCarValueWeak =>
    rw [Heap.finishMarkingPair]
    split
    · exact (hs.markObj _).markObj _
    · split
      · exact hs.markObj _
      · exact hs

theorem RefsMarked.finishMarkingWeakHashTables {W M : Finset ι} (hM : h.RefsMarked W M)
    (tables : List ι) : h.RefsMarked W (h.finishMarkingWeakHashTables tables M).marked := by
  refine List.foldlRecOn (motive := fun s : MarkState ι => h.RefsMarked W s.marked) tables _ hM ?_
  intro s hs table _
  rw [finishMarkingHashTable]
  split
  · split
    · exact List.foldlRecOn (motive := fun s : MarkState ι => h.RefsMarked W s.marked) _ _ hs
        fun t ht e _ => ht.finishMarkingPair _ e
    · exact hs
  · exact hs

omit [Fintype ι] in
theorem RefsMarked.union_sdiff {W M N : Finset ι} (hM : h.RefsMarked W M) (hMN : M ⊆ N) :
    h.RefsMarked (W ∪ N \ M) N := by
  intro x hx hnot y hy
  have hin : x ∈ M := by
    by_contra hout
    exact hnot (Finset.mem_union_right W (Finset.mem_sdiff.mpr ⟨hx, hout⟩))
  exact markedP_mono hMN (hM x hin (fun hW => hnot (Finset.mem_union_left _ hW)) y hy)

theorem finishMarking_closed {tables weakLists : List ι} {fuel : Nat} {W M F : Finset ι}
    (hM : h.RefsMarked W M) (hrun : h.finishMarking tables weakLists fuel M = some F) :
    M ⊆ F ∧ h.weakListMarks tables weakLists fuel M ⊆ F ∧
      h.RefsMarked (W ∪ h.weakListMarks tables weakLists fuel M) F ∧
      (h.finishMarkingWeakHashTables tables F).didMark = false := by
  induction fuel generalizing W M with
  | zero => cases hrun
  | succ fuel ih =>
    have htables := grows_finishMarkingWeakHashTables (h := h) tables M
    have hrefs := hM.finishMarkingWeakHashTables tables
    rw [finishMarking] at hrun
    rw [weakListMarks]
    simp only at hrun ⊢
    split at hrun
    · rename_i hd
      rw [if_pos hd]
      obtain ⟨hsub, hrest⟩ := ih hrefs hrun
      exact ⟨htables.subset.trans hsub, hrest⟩
    · rename_i hd
      rw [if_neg hd]
      have hsame := htables.eq_of_not_didMark (Bool.eq_false_iff.mpr hd)
      rw [hsame] at hrun ⊢
      simp only at hrun ⊢
      have hlists := grows_finishMarkingWeakLists (h := h) weakLists M
      have hrefs' := hM.union_sdiff hlists.subset
      split at hrun
      · rename_i hd'
        rw [if_pos hd', ← Finset.union_assoc]
        obtain ⟨hsub, hmarks, hrest⟩ := ih hrefs' hrun
        refine ⟨hlists.subset.trans hsub, Finset.union_subset ?_ hmarks, hrest⟩
        exact Finset.sdiff_subset.trans hsub
      · rename_i hd'
        rw [if_neg hd', Finset.union_empty]
        have hsame' := hlists.eq_of_not_didMark (Bool.eq_false_iff.mpr hd')
        cases hrun
        refine ⟨hlists.subset, Finset.sdiff_subset, hrefs', ?_⟩
        rw [hsame', hsame]

theorem finishMarking_subset {roots tables weakLists : List ι} {fuel : Nat}
    {W M F S : Finset ι} (hS : h.LiveSet roots tables (W ∪ h.weakListMarks tables weakLists fuel M) S)
    (hW : W ⊆ M) (hM : M ⊆ S) (hrun : h.finishMarking tables weakLists fuel M = some F) :
    F ⊆ S := by
  induction fuel generalizing W M with
  | zero => cases hrun
  | succ fuel ih =>
    have htables := grows_finishMarkingWeakHashTables (h := h) tables M
    have hdisjoint := disjoint_weakListMarks (h := h) tables weakLists (fuel + 1) M
    have hpass : (h.finishMarkingWeakHashTables tables M).marked ⊆ S := by
      refine (justified_finishMarkingWeakHashTables hS hM).subset hM fun z hz hnot hzS => ?_
      refine hS.refs z hzS fun hzW => ?_
      obtain hzW | hzW := Finset.mem_union.mp hzW
      · exact hnot (hW hzW)
      · exact Finset.disjoint_left.mp hdisjoint hzW hz
    rw [finishMarking] at hrun
    rw [weakListMarks] at hS
    simp only at hrun hS
    split at hrun
    · rename_i hd
      rw [if_pos hd] at hS
      exact ih hS (hW.trans htables.subset) hpass hrun
    · rename_i hd
      rw [if_neg hd] at hS
      have hsame := htables.eq_of_not_didMark (Bool.eq_false_iff.mpr hd)
      rw [hsame] at hrun hS
      simp only at hrun hS
      have hlists := grows_finishMarkingWeakLists (h := h) weakLists M
      rw [← Finset.union_assoc] at hS
      have hlistsS : (h.finishMarkingWeakLists weakLists M).marked ⊆ S := by
        intro x hx
        by_cases hin : x ∈ M
        · exact hM hin
        · refine hS.subset (Finset.mem_union_left _ (Finset.mem_union_right W ?_))
          exact Finset.mem_sdiff.mpr ⟨hx, hin⟩
      split at hrun
      · rename_i hd'
        rw [if_pos hd'] at hS
        refine ih hS (Finset.union_subset (hW.trans hlists.subset) Finset.sdiff_subset) hlistsS hrun
      · cases hrun
        exact hlistsS

theorem markRoots_spec (h : Heap ι) (roots : List ι) :
    (∀ r ∈ roots, h.markedP (h.markRoots roots) r = true) ∧ h.RefsMarked ∅ (h.markRoots roots) ∧
      ∀ S : Finset ι, (∀ r ∈ roots, h.markedP S r = true) →
        (∀ x ∈ S, x ∈ h.markRoots roots → ∀ y ∈ h.refs x, h.markedP S y = true) →
          h.markRoots roots ⊆ S := by
  have hfold : ∀ (l : List ι) (M : Finset ι), h.RefsMarked ∅ M →
      (∀ r ∈ l, h.markedP (l.foldl h.markObject M) r = true) ∧
        h.RefsMarked ∅ (l.foldl h.markObject M) ∧ M ⊆ l.foldl h.markObject M ∧
        ∀ S : Finset ι, M ⊆ S → (∀ r ∈ l, h.markedP S r = true) →
          (∀ x ∈ S, x ∈ l.foldl h.markObject M → ∀ y ∈ h.refs x, h.markedP S y = true) →
            l.foldl h.markObject M ⊆ S := by
    intro l
    induction l with
    | nil => exact fun M hM => ⟨nofun, hM, Finset.Subset.refl M, fun S hS _ _ => hS⟩
    | cons r l ih =>
      intro M hM
      obtain ⟨hroots, hrefs, hsub, hleast⟩ := ih (h.markObject M r) (hM.markObject r)
      rw [foldl_cons]
      refine ⟨?_, hrefs, (subset_markObjectDepth _ M r).trans hsub, ?_⟩
      · rintro r' (_ | ⟨_, hr'⟩)
        · exact markedP_mono hsub (markObjectDepth_closed h _ (Nat.le_add_right _ _)).1
        · exact hroots r' hr'
      · intro S hMS hS hclosed
        refine hleast S ?_ (fun r' hr' => hS r' (mem_cons_of_mem r hr')) hclosed
        refine markObjectDepth_subset _ hMS (hS r (mem_cons_self ..)) fun z hz _ hzS => ?_
        exact hclosed z hzS (hsub hz)
  obtain ⟨hroots, hrefs, -, hleast⟩ := hfold roots ∅ fun x hx => absurd hx (Finset.notMem_empty x)
  exact ⟨hroots, hrefs, fun S => hleast S (Finset.empty_subset S)⟩

/-- **The marks that the loop ends with** are the least set of live objects, given what the
weak lists mark. -/
theorem finishMarking_isLeast {roots tables weakLists : List ι} {fuel : Nat} {F : Finset ι}
    (hrun : h.finishMarking tables weakLists fuel (h.markRoots roots) = some F) :
    IsLeast {S | h.LiveSet roots tables
      (h.weakListMarks tables weakLists fuel (h.markRoots roots)) S} F := by
  obtain ⟨hroots, hrefs, hleast⟩ := markRoots_spec h roots
  obtain ⟨hsub, hmarks, hclosed, hend⟩ := finishMarking_closed hrefs hrun
  rw [Finset.empty_union] at hclosed
  constructor
  · refine ⟨fun r hr => markedP_mono hsub (hroots r hr), hmarks, hclosed, ?_⟩
    intro table htable hlive weakness entries hentries e he
    exact keeps_of_last_pass hend htable hlive hentries he
  · intro S hS
    have hS' : h.LiveSet roots tables
        (∅ ∪ h.weakListMarks tables weakLists fuel (h.markRoots roots)) S := by
      rw [Finset.empty_union]
      exact hS
    refine finishMarking_subset hS' (Finset.empty_subset _) ?_ hrun
    refine hleast S hS.roots fun x hx hin => hS.refs x hx fun hW => ?_
    -- the weak lists mark only what is not marked yet
    refine Finset.disjoint_left.mp (disjoint_weakListMarks tables weakLists fuel _) hW ?_
    exact (grows_finishMarkingWeakHashTables tables _).subset hin

end Heap

/-! ### Pruning -/

/-- The weak hash tables: `Vall_weak_hash_tables`, their `next_weak`, and what is in them. -/
structure WeakHashTables (ι : Type) where
  vallWeakHashTables : Option ι
  nextWeak : ι → Option ι
  table : ι → LispHashTable ι ι

namespace WeakHashTables

/-- The chain goes through `tables`, whose objects in the heap have the entries of the arrays,
with every key where its hash code leads. -/
structure Represents (h : Heap ι) (ops : LispOps ι) (s : WeakHashTables ι) (tables : List ι) :
    Prop where
  chain : Chain s.nextWeak s.vallWeakHashTables tables
  object : ∀ t ∈ tables, ∃ weakness, h t = .hashTable weakness (s.table t).entryList
  placed : ∀ t ∈ tables, Placed ops (s.table t)

/-- The table after `prev`, or the first, becomes `next`. -/
def setNextWeak (s : WeakHashTables ι) (prev next : Option ι) : WeakHashTables ι :=
  match prev with
  | none => { s with vallWeakHashTables := next }
  | some p => { s with nextWeak := Function.update s.nextWeak p next }

/-- The loop of `prune_weak_hash_tables`; the loop over the entries of a table is the one of
`elisp_map_remhash`. -/
def pruneLoop (ops : LispOps ι) (markedP : ι → Bool) :
    Nat → WeakHashTables ι → Option ι → Option ι → Option (WeakHashTables ι)
  | 0, _, _, _ => none
  | _ + 1, s, _, none => some s
  | fuel + 1, s, prev, some hashTable =>
    if markedP hashTable then do
      let ht ← elispMapRemhash ops (fun e => !markedP e.1 || !markedP e.2) (s.table hashTable)
      let s := { s with table := Function.update s.table hashTable ht }
      pruneLoop ops markedP fuel s (some hashTable) (s.nextWeak hashTable)
    else
      let s := s.setNextWeak prev (s.nextWeak hashTable)
      pruneLoop ops markedP fuel s prev (s.nextWeak hashTable)

theorem chain_setNextWeak {s : WeakHashTables ι} {kept rest : List ι} {t : ι}
    (hchain : Chain s.nextWeak s.vallWeakHashTables (kept ++ t :: rest)) :
    Chain (s.setNextWeak kept.getLast? (s.nextWeak t)).nextWeak
        (s.setNextWeak kept.getLast? (s.nextWeak t)).vallWeakHashTables (kept ++ rest) ∧
      Chain (s.setNextWeak kept.getLast? (s.nextWeak t)).nextWeak
        ((s.setNextWeak kept.getLast? (s.nextWeak t)).nextWeak t) rest := by
  have hafter : Chain s.nextWeak (s.nextWeak t) rest := hchain.after
  have hnodup := hchain.nodup
  obtain rfl | ⟨kept, p, rfl⟩ := eq_nil_or_concat kept
  · exact ⟨hafter, hafter⟩
  · rw [concat_eq_append] at hchain hnodup ⊢
    rw [append_assoc, singleton_append] at hchain hnodup ⊢
    rw [getLast?_append_cons, getLast?_singleton, setNextWeak]
    obtain ⟨hpt, -⟩ := List.nodup_cons.mp hnodup.of_append_right
    have hne : t ≠ p := by
      rintro rfl
      exact hpt (mem_cons_self ..)
    have hsame : ∀ b, b ≠ p → Function.update s.nextWeak p (s.nextWeak t) b = s.nextWeak b :=
      fun b hb => update_of_ne hb _ _
    have hrest : Chain (Function.update s.nextWeak p (s.nextWeak t)) (s.nextWeak t) rest := by
      refine hafter.congr fun b hb => hsame b ?_
      rintro rfl
      exact hpt (mem_cons_of_mem t hb)
    constructor
    · refine hchain.relink hsame ?_
      simp only [update_self]
      exact hrest
    · simp only [hsame t hne]
      exact hrest

/-- The predicate of `prune_weak_hash_tables`. -/
def unmarkedP (markedP : ι → Bool) (e : ι × ι) : Bool := !markedP e.1 || !markedP e.2

/-- What `prune_weak_hash_tables` makes of the tables from `rest` on, when those before are
kept. -/
theorem pruneLoop_spec {ops : LispOps ι} (markedP : ι → Bool) {rest : List ι} {fuel : Nat}
    {s : WeakHashTables ι} {k : List ι} {hashTable : Option ι}
    (hchain : Chain s.nextWeak s.vallWeakHashTables (k ++ rest))
    (hrest : Chain s.nextWeak hashTable rest) (hplaced : ∀ t ∈ rest, Placed ops (s.table t))
    (hfuel : rest.length < fuel) :
    ∃ s', pruneLoop ops markedP fuel s k.getLast? hashTable = some s' ∧
      Chain s'.nextWeak s'.vallWeakHashTables (k ++ rest.filter markedP) ∧
      (∀ t, t ∉ rest → s'.table t = s.table t) ∧
      ∀ t ∈ rest, markedP t = true →
        elispMapRemhash ops (unmarkedP markedP) (s.table t) = some (s'.table t) := by
  induction rest generalizing fuel s k hashTable with
  | nil =>
    cases hrest
    cases fuel with
    | zero => exact absurd hfuel (Nat.not_lt_zero _)
    | succ fuel => exact ⟨s, rfl, hchain, fun _ _ => rfl, nofun⟩
  | cons t rest ih =>
    cases fuel with
    | zero => exact absurd hfuel (Nat.not_lt_zero _)
    | succ fuel =>
      have hfuel' : rest.length < fuel := Nat.lt_of_succ_lt_succ hfuel
      have hnot : t ∉ rest := (List.nodup_cons.mp hrest.nodup).1
      have hplaced' : ∀ u ∈ rest, Placed ops (s.table u) := fun u hu =>
        hplaced u (mem_cons_of_mem t hu)
      cases hrest with
      | cons htail =>
        rw [pruneLoop]
        split
        · rename_i hmarked
          obtain ⟨ht, hrun, -⟩ :=
            (hplaced t (mem_cons_self ..)).elispMapRemhash (unmarkedP markedP)
          -- the other tables are as they were
          have hother : ∀ u, u ≠ t → Function.update s.table t ht u = s.table u :=
            fun u hu => update_of_ne hu _ _
          have hne : ∀ u ∈ rest, u ≠ t := by
            rintro u hu rfl
            exact hnot hu
          have hchain' : Chain s.nextWeak s.vallWeakHashTables ((k ++ [t]) ++ rest) := by
            rw [append_assoc]
            exact hchain
          obtain ⟨s', hs', hchain', hsame, hpruned⟩ :=
            ih (s := { s with table := Function.update s.table t ht }) hchain' htail (fun u hu => by
                simp only [hother u (hne u hu)]
                exact hplaced' u hu) hfuel'
          rw [getLast?_append_cons, getLast?_singleton] at hs'
          refine ⟨s', ?_, ?_, ?_, ?_⟩
          · rw [show (fun e => !markedP e.1 || !markedP e.2) = unmarkedP markedP from rfl, hrun]
            exact hs'
          · rw [filter_cons_of_pos hmarked]
            rw [append_assoc] at hchain'
            exact hchain'
          · intro u hu
            rw [mem_cons, not_or] at hu
            rw [hsame u hu.2]
            exact hother u hu.1
          · rintro u (_ | ⟨_, hu⟩) hlive
            · rw [hsame t hnot]
              simp only [update_self]
              exact hrun
            · have hpruned' := hpruned u hu hlive
              simp only [hother u (hne u hu)] at hpruned'
              exact hpruned'
        · rename_i hdead
          obtain ⟨hchain₁, hrest₁⟩ := chain_setNextWeak hchain
          have htable : (s.setNextWeak k.getLast? (s.nextWeak t)).table = s.table := by
            unfold setNextWeak
            split
            · rfl
            · rfl
          obtain ⟨s', hs', hchain', hsame, hpruned⟩ :=
            ih hchain₁ hrest₁ (htable.symm ▸ hplaced') hfuel'
          rw [htable] at hsame hpruned
          refine ⟨s', hs', ?_, ?_, ?_⟩
          · rw [filter_cons_of_neg hdead]
            exact hchain'
          · exact fun u hu => hsame u fun hin => hu (mem_cons_of_mem t hin)
          · rintro u (_ | ⟨_, hu⟩) hlive
            · exact absurd hlive hdead
            · exact hpruned u hu hlive

variable [Fintype ι]

def pruneWeakHashTables (ops : LispOps ι) (markedP : ι → Bool) (s : WeakHashTables ι) :
    Option (WeakHashTables ι) :=
  pruneLoop ops markedP (Fintype.card ι + 1) s none s.vallWeakHashTables

/-- With the marks `F`, `s'` has the live tables of `s` in its chain, each with those of its
entries of which the key and the value are marked. -/
structure Pruned (h : Heap ι) (F : Finset ι) (tables : List ι) (s s' : WeakHashTables ι) :
    Prop where
  chain : Chain s'.nextWeak s'.vallWeakHashTables (tables.filter (h.markedP F))
  entries : ∀ t ∈ tables, h.markedP F t = true → ∀ e, e ∈ (s'.table t).entryList ↔
    e ∈ (s.table t).entryList ∧ h.markedP F e.1 = true ∧ h.markedP F e.2 = true

theorem Represents.prune {ops : LispOps ι} {s : WeakHashTables ι} {tables : List ι}
    (hs : s.Represents h ops tables) (F : Finset ι) :
    ∃ s', s.pruneWeakHashTables ops (h.markedP F) = some s' ∧ Pruned h F tables s s' := by
  have hfuel : tables.length < Fintype.card ι + 1 :=
    Nat.lt_succ_of_le hs.chain.nodup.length_le_card
  obtain ⟨s', hrun, hchain, -, hpruned⟩ :=
    pruneLoop_spec (h.markedP F) (k := []) hs.chain hs.chain hs.placed hfuel
  refine ⟨s', hrun, hchain, fun t ht hlive e => ?_⟩
  obtain ⟨ht', hrun', -, hsize, hholds⟩ := (hs.placed t ht).elispMapRemhash (unmarkedP (h.markedP F))
  obtain rfl := Option.some.inj ((hpruned t ht hlive).symm.trans hrun')
  rw [LispHashTable.mem_entryList, LispHashTable.mem_entryList, hsize, hholds]
  simp only [unmarkedP, Bool.or_eq_false_iff, Bool.not_eq_false']

end WeakHashTables

/-- What the collector makes of the weak hash tables, if the weak lists mark `W`: the marking
ends with the least set of live objects, and the tables are pruned by it. -/
def CollectedExactly (h : Heap ι) [Fintype ι] (ops : LispOps ι) (roots weakLists tables : List ι)
    (s : WeakHashTables ι) (W : Finset ι) : Prop :=
  ∃ F, h.finishMarking tables weakLists (Fintype.card ι + 1) (h.markRoots roots) = some F ∧
    IsLeast {S | h.LiveSet roots tables W S} F ∧
    ∃ s', s.pruneWeakHashTables ops (h.markedP F) = some s' ∧ s.Pruned h F tables s'

open Heap

/-- A weak hash table of 29 slots with the keys `2` and `3`, which hashed to slot 2 when they
were put there. -/
def twoKeys (hash : Fin 4 → Nat) : LispHashTable (Fin 4) (Fin 4) where
  size := 29
  count := 2
  rehashCount := 17
  rehashSize := 13 / 10
  rehashThreshold := 6 / 10
  goldenRatio := 2
  hashFunction := some hash
  testFunction := some fun a b => a = b
  hentries i := if i = 2 then some (2, 0) else if i = 3 then some (3, 0) else none

def keyObjects (hash : Fin 4 → Nat) : LispOps (Fin 4) where
  lispHash := hash
  floatp _ := false
  internalEqual a b := a = b
  internalHash := hash

/-- The root refers to the table; nothing refers to the keys. -/
def keyTable : Heap (Fin 4)
  | 0 => .record [1]
  | 1 => .hashTable .keyWeak [(2, 0), (3, 0)]
  | 2 => .record []
  | 3 => .record []

def oneTable (hash : Fin 4 → Nat) : WeakHashTables (Fin 4) where
  vallWeakHashTables := some 1
  nextWeak _ := none
  table _ := twoKeys hash

theorem twoKeys_placed : Placed (keyObjects fun _ => 1) (twoKeys fun _ => 1) := by
  have hslot : ∀ {y a}, (twoKeys fun _ => 1).hentries y = some a →
      (y = 2 ∧ a = (2, 0)) ∨ (y = 3 ∧ a = (3, 0)) := by
    intro y a ha
    simp only [twoKeys] at ha
    split at ha
    · rename_i hy
      exact .inl ⟨hy, (Option.some.inj ha).symm⟩
    · split at ha
      · rename_i hy
        exact .inr ⟨hy, (Option.some.inj ha).symm⟩
      · cases ha
  refine ⟨fun y hy a ha j _ hin => ?_, fun i hi j hj a b ha hb hab => ?_, ?_, ?_, ?_⟩
  · have hin : LinearProbing.InCyc 2 y j := hin
    rw [LinearProbing.inCyc_iff] at hin
    obtain ⟨rfl, -⟩ | ⟨rfl, -⟩ := hslot ha
    · omega
    · have hj : j = 2 := by omega
      rw [hj]
      decide
  · obtain ⟨rfl, rfl⟩ | ⟨rfl, rfl⟩ := hslot ha
    · obtain ⟨rfl, -⟩ | ⟨-, rfl⟩ := hslot hb
      · rfl
      · cases hab
    · obtain ⟨-, rfl⟩ | ⟨rfl, -⟩ := hslot hb
      · cases hab
      · rfl
  · decide
  · decide
  · rfl

theorem oneTable_represents :
    (oneTable fun _ => 1).Represents keyTable (keyObjects fun _ => 1) [1] where
  chain := .cons .nil
  object := by
    rintro t (_ | ⟨_, ⟨⟩⟩)
    exact ⟨.keyWeak, rfl⟩
  placed := by
    rintro t (_ | ⟨_, ⟨⟩⟩)
    exact twoKeys_placed

/-- A weak list whose only element is the pair of `2` and `3`, which are live. -/
def assocList : Heap (Fin 7)
  | 0 => .record [1, 2, 3]
  | 1 => .weakList .assoc 5
  | 2 => .record []
  | 3 => .record []
  | 4 => .cons 2 3
  | 5 => .cons 4 6
  | 6 => .nil

/-- The key `3` has changed, and hashes to slot 0. -/
def changedHash (key : Fin 4) : Nat := if key = 3 then 0 else 1

open WeakHashTables (unmarkedP)

/-- **Bulk removal is complete and exact**, by `elisp_map_remhash` with any predicate and by
`prune_weak_hash_tables` with any marks. -/
theorem bulk_removal_exact {K V : Type} [DecidableEq K] [Fintype ι] (ops : LispOps K)
    (weakOps : LispOps ι) :
    (∀ (ht : LispHashTable K V) (predicate : K × V → Bool), Valid ops ht →
      ∃ ht', elispMapRemhash ops predicate ht = some ht' ∧
        RemovesExactly ops predicate ht ht') ∧
    ∀ (markedP : ι → Bool) (s : WeakHashTables ι) (tables : List ι),
      Chain s.nextWeak s.vallWeakHashTables tables →
      (∀ t ∈ tables, Valid weakOps (s.table t)) →
      ∃ s', s.pruneWeakHashTables weakOps markedP = some s' ∧
        ∀ t ∈ tables, markedP t = true →
          RemovesExactly weakOps (unmarkedP markedP) (s.table t) (s'.table t) := by
  refine ⟨fun ht predicate h => h.elispMapRemhash predicate, ?_⟩
  intro markedP s tables hchain hvalid
  have hfuel : tables.length < Fintype.card ι + 1 :=
    Nat.lt_succ_of_le hchain.nodup.length_le_card
  obtain ⟨s', hrun, -, -, hpruned⟩ := WeakHashTables.pruneLoop_spec markedP (k := []) hchain
    hchain (fun t ht => (hvalid t ht).placed) hfuel
  refine ⟨s', hrun, fun t ht hlive => ?_⟩
  obtain ⟨ht', hrun', hexact⟩ := (hvalid t ht).elispMapRemhash (unmarkedP markedP)
  obtain rfl := Option.some.inj ((hpruned t ht hlive).symm.trans hrun')
  exact hexact

theorem twoKeys_valid : Valid (keyObjects fun _ => 1) (twoKeys fun _ => 1) where
  probed := twoKeys_placed.probed
  apart i hi j hj a b ha hb hab := by
    refine twoKeys_placed.eqApart i hi j hj a b ha hb ?_
    simpa [LispHashTable.keysEqualP, twoKeys] using hab
  count_eq := twoKeys_placed.count_eq
  count_lt := twoKeys_placed.count_lt
  sentinel := twoKeys_placed.sentinel

/-- The table of two keys, and a chain of it with one of the keys marked. -/
theorem bulk_removal_exact_twoKeys :
    (∃ ht', elispMapRemhash (keyObjects fun _ => 1) (fun e => e.1 = 2) (twoKeys fun _ => 1)
        = some ht' ∧
      RemovesExactly (keyObjects fun _ => 1) (fun e => e.1 = 2) (twoKeys fun _ => 1) ht') ∧
    ∃ s', (oneTable fun _ => 1).pruneWeakHashTables (keyObjects fun _ => 1) (· ≠ 2) = some s' ∧
      ∀ t ∈ [(1 : Fin 4)], decide (t ≠ 2) = true → RemovesExactly (keyObjects fun _ => 1)
        (unmarkedP (· ≠ 2)) ((oneTable fun _ => 1).table t) (s'.table t) := by
  obtain ⟨hmap, hprune⟩ := bulk_removal_exact (V := Fin 4) (keyObjects fun _ => 1)
    (keyObjects fun _ => 1)
  exact ⟨hmap _ _ twoKeys_valid, hprune _ _ [1] (.cons .nil) fun _ _ => twoKeys_valid⟩

end XEmacs.Gc

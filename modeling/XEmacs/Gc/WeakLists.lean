import XEmacs.Gc.Pruning
import XEmacs.Lib.Runs
import Mathlib.Data.List.TakeWhile

/-!
# What garbage collection keeps of weak lists

A live weak list should keep the elements that its type's rule (`Keeps`) keeps under the final
marks.
-/

namespace XEmacs.Gc

open Chains MarkState List

variable {ι : Type*} [DecidableEq ι] {h : Heap ι}

/-- The rule for an element of a weak list of a type, under the marks `M`. -/
def WeakListType.Keeps (h : Heap ι) (M : Finset ι) (elem : ι) : WeakListType → Prop
  | simple => h.markedP M elem = true
  | assoc => ∀ car cdr, h elem = .cons car cdr →
    h.markedP M car = true ∧ h.markedP M cdr = true
  | keyAssoc => ∀ car cdr, h elem = .cons car cdr → h.markedP M car = true
  | valueAssoc => ∀ car cdr, h elem = .cons car cdr → h.markedP M cdr = true
  | fullAssoc => ∀ car cdr, h elem = .cons car cdr →
    h.markedP M car = true ∨ h.markedP M cdr = true

namespace Heap

theorem needToMarkCons_iff (type : WeakListType) (M : Finset ι) (elem : ι) :
    h.needToMarkCons type M elem = true ↔ type.Keeps h M elem := by
  cases type with
  | simple => rfl
  | assoc | keyAssoc | valueAssoc | fullAssoc =>
    rw [needToMarkCons, WeakListType.Keeps]
    cases hx : h elem with
    | cons car cdr => simp
    | _ => simp

instance (M : Finset ι) (elem : ι) (type : WeakListType) : Decidable (type.Keeps h M elem) :=
  decidable_of_iff _ (needToMarkCons_iff type M elem)

theorem keeps_mono {type : WeakListType} {M N : Finset ι} (hMN : M ⊆ N) {elem : ι}
    (hk : type.Keeps h M elem) : type.Keeps h N elem := by
  have hmono : ∀ {x}, h.markedP M x = true → h.markedP N x = true := markedP_mono hMN
  cases type with
  | simple => exact hmono hk
  | assoc => exact fun car cdr hx => ⟨hmono (hk car cdr hx).1, hmono (hk car cdr hx).2⟩
  | keyAssoc => exact fun car cdr hx => hmono (hk car cdr hx)
  | valueAssoc => exact fun car cdr hx => hmono (hk car cdr hx)
  | fullAssoc => exact fun car cdr hx => (hk car cdr hx).imp hmono hmono

variable [Fintype ι]

/-- Every weak list holds a list that ends. -/
def ListsEnd (h : Heap ι) (weakLists : List ι) : Prop :=
  ∀ weak ∈ weakLists, ∀ type list, h weak = .weakList type list → ∃ l, h.ListConses list l

/-- What the mark phase marks from the roots. -/
def markRoots (h : Heap ι) (roots : List ι) : Finset ι := roots.foldl h.markObject ∅

/-- With the final marks `F`, the live weak lists have in `h'` those of the elements they had
in `h` that their rules keep, in their order. -/
def KeepsLive (h h' : Heap ι) (F : Finset ι) (weakLists : List ι) : Prop :=
  ∀ weak ∈ weakLists, h.markedP F weak = true → ∀ type list, h weak = .weakList type list →
    h'.weakListElements weak = (h.weakListElements weak).filter fun e => type.Keeps h F e

/-- From the first marked cons of the list on, exactly the conses are marked whose elements
the rule keeps. -/
def StopsRight (h : Heap ι) (M : Finset ι) (weak : ι) : Prop :=
  h.markedP M weak = true → ∀ type list, h weak = .weakList type list →
    ∀ c ∈ (h.weakListConses weak).dropWhile (· ∉ M), c ∈ M ↔ type.Keeps h M (h.car c)

/-- One pass over the weak lists, as a run of scans. -/
def scan (h : Heap ι) (s : MarkState ι) (weak : ι) : Option (MarkState ι) :=
  some (h.finishMarkingWeakList s weak)

/-- Every scan of a weak list, in the loop of `garbage_collect_1`, stops where it may. -/
def ScansStopRight (h : Heap ι) (tables weakLists : List ι) : Nat → Finset ι → Prop
  | 0, _ => True
  | fuel + 1, M =>
    let s := h.finishMarkingWeakHashTables tables M
    if s.didMark then ScansStopRight h tables weakLists fuel s.marked
    else
      let s' := h.finishMarkingWeakLists weakLists s.marked
      Runs.StepsMeet h.scan (fun s weak => h.StopsRight s.marked weak) ⟨s.marked, false⟩ weakLists ∧
        (s'.didMark = true → ScansStopRight h tables weakLists fuel s'.marked)

/-! ### The last pass -/

theorem not_keeps_of_scan {type : WeakListType} {fuel : Nat} {x : ι} {l : List ι}
    {M : Finset ι} (hl : h.ListConses x l) (hfuel : l.length < fuel)
    (hsame : h.finishMarkingList type fuel x ⟨M, false⟩ = ⟨M, false⟩) :
    ∀ c ∈ l.takeWhile (· ∉ M), ¬ type.Keeps h M (h.car c) := by
  induction fuel generalizing x l with
  | zero => exact absurd hfuel (Nat.not_lt_zero _)
  | succ fuel ih =>
    cases l with
    | nil => exact nofun
    | cons c l =>
      obtain ⟨a, d, rfl, hx, htail⟩ := hl.exists_cons
      by_cases hmem : x ∈ M
      · rw [takeWhile_cons_of_neg (by simpa using hmem)]
        exact nofun
      · have hunmarked : h.markedP M x = false := by
          rw [markedP]
          simp only [hx]
          exact decide_eq_false hmem
        have hcar : h.car x = a := by
          rw [car]
          simp only [hx]
        rw [finishMarkingList] at hsame
        simp only [hx, hunmarked, Bool.false_eq_true, if_false] at hsame
        -- the element has marked nothing, as the flag is still off
        have hgrows := grows_finishMarkingList (h := h) type fuel d
          (h.finishMarkingElement type ⟨M, false⟩ x a)
        have hbody : h.finishMarkingElement type ⟨M, false⟩ x a = ⟨M, false⟩ := by
          rw [hsame] at hgrows
          exact (hgrows.eq_of_not_didMark rfl).symm
        rw [hbody] at hsame
        rw [takeWhile_cons_of_pos (by simpa using hmem)]
        rintro y (_ | ⟨_, hy⟩)
        · rw [hcar]
          intro hkeeps
          have hneed := (needToMarkCons_iff type M a).mpr hkeeps
          rw [finishMarkingElement] at hbody
          simp only [hneed, if_true] at hbody
          have hcons := (mem_markCons (s := if h.needToMarkElem type M a
            then h.markObj ⟨M, false⟩ a else ⟨M, false⟩)).mpr (.inl (rfl : x = x))
          rw [hbody] at hcons
          exact hmem hcons
        · exact ih htail (Nat.lt_of_succ_lt_succ hfuel) hsame y hy

theorem marked_iff_of_last_scan {type : WeakListType} {weak list : ι} {l : List ι}
    {F : Finset ι} (hlive : h.markedP F weak = true) (hw : h weak = .weakList type list)
    (hl : h.ListConses list l) (hsame : h.finishMarkingWeakList ⟨F, false⟩ weak = ⟨F, false⟩)
    (hstops : h.StopsRight F weak) : ∀ c ∈ l, c ∈ F ↔ type.Keeps h F (h.car c) := by
  rw [finishMarkingWeakList, if_pos hlive] at hsame
  simp only [hw] at hsame
  intro c hc
  rw [← takeWhile_append_dropWhile (p := (· ∉ F)) (l := l), mem_append] at hc
  obtain hc | hc := hc
  · have hno : c ∉ F := by simpa using mem_takeWhile_imp hc
    exact iff_of_false hno
      (not_keeps_of_scan hl (Nat.lt_succ_of_le hl.length_le) hsame c hc)
  · refine hstops hlive type list hw c ?_
    rwa [weakListConses_eq hw hl]

theorem keepsLive_of_marked_iff {weakLists : List ι} {F : Finset ι} (hends : h.ListsEnd weakLists)
    (hiff : ∀ weak ∈ weakLists, h.markedP F weak = true → ∀ type list,
      h weak = .weakList type list → ∀ c ∈ h.weakListConses weak,
        c ∈ F ↔ type.Keeps h F (h.car c)) :
    h.KeepsLive (h.pruneWeakLists F weakLists) F weakLists := by
  intro weak hmem hlive type list hw
  have hends' : h.LiveListsEnd F weakLists := fun weak hmem _ => hends weak hmem
  obtain ⟨l, hl⟩ := hends weak hmem type list hw
  have hcar : (h.pruneWeakLists F weakLists).car = h.car :=
    funext (trimmed_pruneWeakLists hends').car
  have hmarked := hiff weak hmem hlive type list hw
  rw [weakListConses_eq hw hl] at hmarked
  rw [weakListElements, weakListElements, weakListConses_pruneWeakLists hends' hmem hlive hw hl,
    weakListConses_eq hw hl, hcar, filter_map]
  refine congrArg (List.map h.car) (filter_congr fun c hc => ?_)
  exact decide_eq_decide.mpr (hmarked c hc)

/-- **Where every scan stops right**, the fixpoint has marked the conses of exactly the
elements to keep. -/
theorem marked_iff_of_scansStopRight {tables weakLists : List ι} (hends : h.ListsEnd weakLists)
    {fuel : Nat} {M F : Finset ι} (hstops : h.ScansStopRight tables weakLists fuel M)
    (hrun : h.finishMarking tables weakLists fuel M = some F) {weak : ι}
    (hmem : weak ∈ weakLists) (hlive : h.markedP F weak = true) {type : WeakListType}
    {list : ι} (hw : h weak = .weakList type list) :
    ∀ c ∈ h.weakListConses weak, c ∈ F ↔ type.Keeps h F (h.car c) := by
  induction fuel generalizing M with
  | zero => cases hrun
  | succ fuel ih =>
    rw [finishMarking] at hrun
    rw [ScansStopRight] at hstops
    simp only at hrun hstops
    split at hrun
    · rename_i hd
      rw [if_pos hd] at hstops
      exact ih hstops hrun
    · rename_i hd
      rw [if_neg hd] at hstops
      obtain ⟨hpass, hnext⟩ := hstops
      split at hrun
      · rename_i hd'
        exact ih (hnext hd') hrun
      · rename_i hd'
        -- the last pass: no scan of it changes the marks
        obtain ⟨hsame, hscans⟩ := Grows.foldl_fixed grows_finishMarkingWeakList
          (Bool.eq_false_iff.mpr hd')
        have hF : (h.finishMarkingWeakHashTables tables M).marked = F := by
          have heq := congrArg MarkState.marked hsame
          exact heq.symm.trans (Option.some.inj hrun)
        rw [hF] at hscans hpass
        obtain ⟨l, hl⟩ := hends weak hmem type list hw
        rw [weakListConses_eq hw hl]
        refine marked_iff_of_last_scan hlive hw hl (hscans weak hmem) ?_
        exact hpass.of_fixed (fun w hw => congrArg some (hscans w hw)) weak hmem

/-! ### Lists whose conses are their own

Conversely, an element that a scan has left behind wrongly is lost if nothing but the
scans of its list can mark its cons. -/

/-- A cons of one of the weak lists. -/
def WeakCons (h : Heap ι) (weakLists : List ι) (c : ι) : Prop :=
  ∃ weak ∈ weakLists, c ∈ h.weakListConses weak

/-- The conses of the weak lists are in no other object and in no two of the lists. -/
structure Private (h : Heap ι) (roots tables weakLists : List ι) : Prop where
  refs {z c : ι} : c ∈ h.refs z → h.WeakCons weakLists c → h.WeakCons weakLists z
  car {c : ι} : h.WeakCons weakLists c → ¬ h.WeakCons weakLists (h.car c)
  roots {r : ι} : r ∈ roots → ¬ h.WeakCons weakLists r
  pairs {table : ι} {weakness : Weakness} {entries : List (ι × ι)} {e : ι × ι} :
    table ∈ tables → h table = .hashTable weakness entries → e ∈ entries →
      ¬ h.WeakCons weakLists e.1 ∧ ¬ h.WeakCons weakLists e.2
  unshared {weak weak' c : ι} : weak ∈ weakLists → weak' ∈ weakLists →
    c ∈ h.weakListConses weak → c ∈ h.weakListConses weak' → weak = weak'

section PrivateConses

variable {roots tables weakLists : List ι}

theorem Private.mem_of_markObj (hp : h.Private roots tables weakLists) {s : MarkState ι}
    {x c : ι} (hx : ¬ h.WeakCons weakLists x) (hc : h.WeakCons weakLists c)
    (hmem : c ∈ (h.markObj s x).marked) : c ∈ s.marked := by
  rw [markObj] at hmem
  split at hmem
  · exact hmem
  · exact mem_of_mem_markObjectDepth (S := h.WeakCons weakLists)
      (fun z hz y hy hyc => hz (hp.refs hy hyc)) _ hx hc hmem

theorem Private.mem_of_finishMarkingPair (hp : h.Private roots tables weakLists)
    {weakness : Weakness} {s : MarkState ι} {e : ι × ι} {c : ι}
    (he : ¬ h.WeakCons weakLists e.1 ∧ ¬ h.WeakCons weakLists e.2)
    (hc : h.WeakCons weakLists c) (hmem : c ∈ (h.finishMarkingPair weakness s e).marked) :
    c ∈ s.marked := by
  have hkey : ∀ {s : MarkState ι}, c ∈ (h.markObj s e.1).marked → c ∈ s.marked :=
    hp.mem_of_markObj he.1 hc
  have hvalue : ∀ {s : MarkState ι}, c ∈ (h.markObj s e.2).marked → c ∈ s.marked :=
    hp.mem_of_markObj he.2 hc
  cases weakness with
  | nonWeak => exact hmem
  | keyWeak =>
    rw [finishMarkingPair] at hmem
    split at hmem
    · exact hvalue hmem
    · exact hmem
  | valueWeak =>
    rw [finishMarkingPair] at hmem
    split at hmem
    · exact hkey hmem
    · exact hmem
  | keyValueWeak =>
    rw [finishMarkingPair] at hmem
    split at hmem
    · exact hkey hmem
    · split at hmem
      · exact hvalue hmem
      · exact hmem
  | keyCarWeak | valueCarWeak =>
    rw [finishMarkingPair] at hmem
    split at hmem
    · exact hkey (hvalue hmem)
    · exact hmem
  | keyCarValueWeak =>
    rw [finishMarkingPair] at hmem
    split at hmem
    · exact hkey (hvalue hmem)
    · split at hmem
      · exact hkey hmem
      · exact hmem

theorem Private.mem_of_finishMarkingWeakHashTables (hp : h.Private roots tables weakLists)
    {M : Finset ι} {c : ι} (hc : h.WeakCons weakLists c)
    (hmem : c ∈ (h.finishMarkingWeakHashTables tables M).marked) : c ∈ M := by
  revert hmem
  refine List.foldlRecOn (motive := fun s : MarkState ι => c ∈ s.marked → c ∈ M) tables _ id ?_
  intro s hs table htable hmem
  refine hs ?_
  rw [finishMarkingHashTable] at hmem
  split at hmem
  · split at hmem
    · rename_i weakness entries hentries
      revert hmem
      refine List.foldlRecOn (motive := fun t : MarkState ι => c ∈ t.marked → c ∈ s.marked)
        entries _ id fun t ht e he hmem => ?_
      exact ht (hp.mem_of_finishMarkingPair (hp.pairs htable hentries he) hc hmem)
    · exact hmem
  · exact hmem

omit [Fintype ι] in
theorem mem_takeWhile_mono {M N : Finset ι} (hMN : M ⊆ N) {l : List ι} {c : ι}
    (hc : c ∈ l.takeWhile (· ∉ N)) : c ∈ l.takeWhile (· ∉ M) := by
  induction l with
  | nil => exact hc
  | cons a l ih =>
    by_cases ha : a ∈ N
    · rw [takeWhile_cons_of_neg (by simpa using ha)] at hc
      exact absurd hc not_mem_nil
    · rw [takeWhile_cons_of_pos (by simpa using ha)] at hc
      rw [takeWhile_cons_of_pos (by simpa using fun h => ha (hMN h))]
      obtain rfl | hc := List.mem_cons.mp hc
      · exact mem_cons_self ..
      · exact mem_cons_of_mem a (ih hc)

/-- What a scan marks of the conses of weak lists: conses of the list before the first
marked one, whose elements the rule keeps. -/
theorem Private.keeps_of_scan (hp : h.Private roots tables weakLists) {type : WeakListType}
    {fuel : Nat} {x : ι} {l : List ι} {s : MarkState ι} (hl : h.ListConses x l)
    (hweak : ∀ c ∈ l, h.WeakCons weakLists c)
    (hcons : ∀ c, h.WeakCons weakLists c → ∃ a d, h c = .cons a d)
    {c : ι} (hc : h.WeakCons weakLists c)
    (hmem : c ∈ (h.finishMarkingList type fuel x s).marked) (hnew : c ∉ s.marked) :
    c ∈ l.takeWhile (· ∉ s.marked) ∧
      type.Keeps h (h.finishMarkingList type fuel x s).marked (h.car c) := by
  induction fuel generalizing x l s with
  | zero => exact absurd hmem hnew
  | succ fuel ih =>
    cases l with
    | nil =>
      rw [finishMarkingList] at hmem
      split at hmem
      · rename_i hx
        exact absurd hx (hl.not_cons _ _)
      · exact absurd hmem hnew
      · refine absurd (hp.mem_of_markObj (fun hx => ?_) hc hmem) hnew
        obtain ⟨a, d, hx⟩ := hcons x hx
        exact hl.not_cons a d hx
    | cons y l =>
      obtain ⟨a, d, rfl, hx, htail⟩ := hl.exists_cons
      have hmarkedP : h.markedP s.marked x = decide (x ∈ s.marked) := by
        rw [markedP]
        simp only [hx]
      have hcar : h.car x = a := by
        rw [Heap.car]
        simp only [hx]
      rw [finishMarkingList] at hmem ⊢
      simp only [hx, hmarkedP] at hmem ⊢
      by_cases hxs : x ∈ s.marked
      · rw [decide_eq_true hxs, if_pos rfl] at hmem
        exact absurd hmem hnew
      · rw [decide_eq_false hxs, if_neg Bool.false_ne_true] at hmem ⊢
        rw [takeWhile_cons_of_pos (by simpa using hxs)]
        have hsub := (grows_finishMarkingElement (h := h) type s x a).subset
        by_cases hfirst : c ∈ (h.finishMarkingElement type s x a).marked
        · -- the body marks the cons, and the element, which is no cons of a weak list
          have hela : ¬ h.WeakCons weakLists a := hcar ▸ hp.car (hweak x (mem_cons_self ..))
          have hold : ∀ {s' : MarkState ι}, s' = (if h.needToMarkElem type s.marked a
              then h.markObj s a else s) → c ∈ s'.marked → c ∈ s.marked := by
            rintro s' rfl hin
            split at hin
            · exact hp.mem_of_markObj hela hc hin
            · exact hin
          rw [finishMarkingElement] at hfirst
          split at hfirst
          · rename_i hneed
            obtain rfl | hin := mem_markCons.mp hfirst
            · refine ⟨mem_cons_self .., ?_⟩
              rw [hcar]
              exact keeps_mono (hsub.trans (grows_finishMarkingList _ _ _ _).subset)
                ((needToMarkCons_iff type s.marked a).mp hneed)
            · exact absurd (hold rfl hin) hnew
          · exact absurd (hold rfl hfirst) hnew
        · obtain ⟨htake, hkeeps⟩ := ih htail
            (fun c hc => hweak c (mem_cons_of_mem x hc)) hmem hfirst
          exact ⟨mem_cons_of_mem x (mem_takeWhile_mono hsub htake), hkeeps⟩

omit [DecidableEq ι] in
theorem ListsEnd.isCons (hends : h.ListsEnd weakLists) :
    ∀ c, h.WeakCons weakLists c → ∃ a d, h c = .cons a d := by
  rintro c ⟨weak, hmem, hc⟩
  cases hw : h weak with
  | weakList type list =>
    obtain ⟨l, hl⟩ := hends weak hmem type list hw
    rw [weakListConses_eq hw hl] at hc
    exact hl.isCons c hc
  | _ =>
    rw [weakListConses] at hc
    simp only [hw] at hc
    exact absurd hc not_mem_nil

theorem Private.keeps_of_finishMarkingWeakList (hp : h.Private roots tables weakLists)
    (hends : h.ListsEnd weakLists) {weak : ι} (hmem : weak ∈ weakLists) {s : MarkState ι} {c : ι}
    (hc : h.WeakCons weakLists c) (hin : c ∈ (h.finishMarkingWeakList s weak).marked)
    (hnew : c ∉ s.marked) : ∃ type list, h weak = .weakList type list ∧
      c ∈ (h.weakListConses weak).takeWhile (· ∉ s.marked) ∧
        type.Keeps h (h.finishMarkingWeakList s weak).marked (h.car c) := by
  by_cases hlive : h.markedP s.marked weak = true
  · cases hw : h weak with
    | weakList type list =>
      obtain ⟨l, hl⟩ := hends weak hmem type list hw
      rw [finishMarkingWeakList, if_pos hlive] at hin ⊢
      simp only [hw] at hin ⊢
      refine ⟨type, list, rfl, ?_⟩
      rw [weakListConses_eq hw hl]
      refine hp.keeps_of_scan hl (fun y hy => ⟨weak, hmem, ?_⟩) hends.isCons hc hin hnew
      rwa [weakListConses_eq hw hl]
    | _ =>
      rw [finishMarkingWeakList, if_pos hlive] at hin
      simp only [hw] at hin
      exact absurd hin hnew
  · rw [finishMarkingWeakList, if_neg hlive] at hin
    exact absurd hin hnew

theorem finishMarking_induct {Q : Finset ι → Prop}
    (htables : ∀ M, Q M → Q (h.finishMarkingWeakHashTables tables M).marked)
    (hscan : ∀ s, ∀ weak ∈ weakLists, Q s.marked → Q (h.finishMarkingWeakList s weak).marked)
    {fuel : Nat} {M F : Finset ι} (hM : Q M)
    (hrun : h.finishMarking tables weakLists fuel M = some F) : Q F := by
  induction fuel generalizing M with
  | zero => cases hrun
  | succ fuel ih =>
    have hpass : Q (h.finishMarkingWeakLists weakLists
        (h.finishMarkingWeakHashTables tables M).marked).marked :=
      List.foldlRecOn (motive := fun s : MarkState ι => Q s.marked) weakLists _ (htables M hM)
        fun s hs weak hmem => hscan s weak hmem hs
    rw [finishMarking] at hrun
    simp only at hrun
    split at hrun
    · exact ih (htables M hM) hrun
    · split at hrun
      · exact ih hpass hrun
      · cases hrun
        exact hpass

/-- The marked conses of weak lists are those of elements to keep. -/
def MarkedKept (h : Heap ι) (weakLists : List ι) (M : Finset ι) : Prop :=
  ∀ weak ∈ weakLists, ∀ type list, h weak = .weakList type list →
    ∀ c ∈ h.weakListConses weak, c ∈ M → type.Keeps h M (h.car c)

/-- A cons of a weak list that is behind a marked one, and is not marked. -/
def LeftBehind (h : Heap ι) (weak c : ι) (M : Finset ι) : Prop :=
  c ∈ (h.weakListConses weak).dropWhile (· ∉ M) ∧ c ∉ M

theorem Private.markedKept_tables (hp : h.Private roots tables weakLists) {M : Finset ι}
    (hM : h.MarkedKept weakLists M) :
    h.MarkedKept weakLists (h.finishMarkingWeakHashTables tables M).marked := by
  intro weak hmem type list hw c hc hin
  have hold := hp.mem_of_finishMarkingWeakHashTables ⟨weak, hmem, hc⟩ hin
  exact keeps_mono (grows_finishMarkingWeakHashTables tables M).subset
    (hM weak hmem type list hw c hc hold)

theorem Private.markedKept_scan (hp : h.Private roots tables weakLists)
    (hends : h.ListsEnd weakLists) {s : MarkState ι} {scanned : ι} (hscanned : scanned ∈ weakLists)
    (hM : h.MarkedKept weakLists s.marked) :
    h.MarkedKept weakLists (h.finishMarkingWeakList s scanned).marked := by
  intro weak hmem type list hw c hc hin
  by_cases hold : c ∈ s.marked
  · exact keeps_mono (grows_finishMarkingWeakList s scanned).subset
      (hM weak hmem type list hw c hc hold)
  · obtain ⟨type', list', hw', htake, hkeeps⟩ :=
      hp.keeps_of_finishMarkingWeakList hends hscanned ⟨weak, hmem, hc⟩ hin hold
    obtain rfl := hp.unshared hmem hscanned hc (takeWhile_subset _ htake)
    rw [hw] at hw'
    cases hw'
    exact hkeeps

omit [Fintype ι] in
theorem mem_dropWhile_mono {M N : Finset ι} (hMN : M ⊆ N) {l : List ι} {c : ι}
    (hc : c ∈ l.dropWhile (· ∉ M)) : c ∈ l.dropWhile (· ∉ N) := by
  induction l with
  | nil => exact hc
  | cons a l ih =>
    by_cases haN : a ∈ N
    · rw [dropWhile_cons_of_neg (by simpa using haN)]
      exact (dropWhile_sublist _).subset hc
    · rw [dropWhile_cons_of_pos (by simpa using fun h => haN (hMN h))] at hc
      rw [dropWhile_cons_of_pos (by simpa using haN)]
      exact ih hc

theorem Private.leftBehind_tables (hp : h.Private roots tables weakLists) {weak c : ι}
    (hmem : weak ∈ weakLists) {M : Finset ι} (hM : h.LeftBehind weak c M) :
    h.LeftBehind weak c (h.finishMarkingWeakHashTables tables M).marked := by
  obtain ⟨hbehind, hnot⟩ := hM
  refine ⟨mem_dropWhile_mono (grows_finishMarkingWeakHashTables tables M).subset hbehind, ?_⟩
  intro hin
  exact hnot (hp.mem_of_finishMarkingWeakHashTables
    ⟨weak, hmem, (dropWhile_sublist _).subset hbehind⟩ hin)

theorem Private.leftBehind_scan (hp : h.Private roots tables weakLists)
    (hends : h.ListsEnd weakLists) {weak c scanned : ι} (hmem : weak ∈ weakLists)
    (hscanned : scanned ∈ weakLists) {s : MarkState ι} (hM : h.LeftBehind weak c s.marked) :
    h.LeftBehind weak c (h.finishMarkingWeakList s scanned).marked := by
  obtain ⟨hbehind, hnot⟩ := hM
  have hc : c ∈ h.weakListConses weak := (dropWhile_sublist _).subset hbehind
  refine ⟨mem_dropWhile_mono (grows_finishMarkingWeakList s scanned).subset hbehind, ?_⟩
  intro hin
  obtain ⟨type, list, hw, htake, -⟩ :=
    hp.keeps_of_finishMarkingWeakList hends hscanned ⟨weak, hmem, hc⟩ hin hnot
  obtain rfl := hp.unshared hmem hscanned hc ((takeWhile_sublist _).subset htake)
  -- no cons is both before and behind the first marked one
  obtain ⟨l, hl⟩ := hends weak hmem type list hw
  have hnodup : (h.weakListConses weak).Nodup := by
    rw [weakListConses_eq hw hl]
    exact Chain.nodup hl
  rw [← takeWhile_append_dropWhile (p := (· ∉ s.marked)) (l := h.weakListConses weak)]
    at hnodup
  exact disjoint_of_nodup_append hnodup htake hbehind

theorem Private.markedKept_roots (hp : h.Private roots tables weakLists) :
    h.MarkedKept weakLists (h.markRoots roots) := by
  intro weak hmem type list _ c hc hin
  have hnone : c ∉ h.markRoots roots := by
    refine List.foldlRecOn (motive := fun M => c ∉ M) roots _ (Finset.notMem_empty c) ?_
    intro M hM r hr hin
    exact hM (mem_of_mem_markObjectDepth (S := h.WeakCons weakLists)
      (fun z hz y hy hyc => hz (hp.refs hy hyc)) _ (hp.roots hr) ⟨weak, hmem, hc⟩ hin)
  exact absurd hin hnone

theorem mem_of_keepsLive {F : Finset ι} (hends : h.ListsEnd weakLists)
    (hmarked : h.MarkedKept weakLists F)
    (hkept : h.KeepsLive (h.pruneWeakLists F weakLists) F weakLists) {weak list c : ι}
    {type : WeakListType} (hmem : weak ∈ weakLists) (hlive : h.markedP F weak = true)
    (hw : h weak = .weakList type list) (hc : c ∈ h.weakListConses weak)
    (hkeeps : type.Keeps h F (h.car c)) : c ∈ F := by
  have hends' : h.LiveListsEnd F weakLists := fun weak hmem _ => hends weak hmem
  obtain ⟨l, hl⟩ := hends weak hmem type list hw
  have hin : ∀ c ∈ l, c ∈ F → type.Keeps h F (h.car c) := by
    intro c hc
    refine hmarked weak hmem type list hw c ?_
    rwa [weakListConses_eq hw hl]
  rw [weakListConses_eq hw hl] at hc
  have helements := hkept weak hmem hlive type list hw
  rw [weakListElements, weakListElements, weakListConses_pruneWeakLists hends' hmem hlive hw hl,
    weakListConses_eq hw hl, filter_map] at helements
  have hlen := congrArg List.length helements
  rw [length_map, length_map] at hlen
  -- the marked conses are among those of elements to keep, and as many
  have hfilter : l.filter (· ∈ F)
      = (l.filter ((fun e => decide (type.Keeps h F e)) ∘ h.car)).filter (· ∈ F) := by
    rw [filter_filter]
    refine filter_congr fun c hc => ?_
    by_cases hcF : c ∈ F
    · simp [hcF, hin c hc hcF]
    · simp [hcF]
  rw [hfilter] at hlen
  have hall := (filter_sublist (l := l.filter _)).eq_of_length hlen
  have hkeep : c ∈ l.filter ((fun e => decide (type.Keeps h F e)) ∘ h.car) :=
    List.mem_filter.mpr ⟨hc, decide_eq_true hkeeps⟩
  rw [← hall] at hkeep
  exact of_decide_eq_true (List.mem_filter.mp hkeep).2

/-- A cons that a scan has left behind though the rule keeps its element. -/
def Lost (h : Heap ι) (weak c : ι) (type : WeakListType) (M : Finset ι) : Prop :=
  h.LeftBehind weak c M ∧ h.markedP M weak = true ∧ type.Keeps h M (h.car c)

theorem Private.stopsRight_pass (hp : h.Private roots tables weakLists)
    (hends : h.ListsEnd weakLists) {s : MarkState ι} {rest : List ι}
    (hrest : ∀ weak ∈ rest, weak ∈ weakLists) (hs : h.MarkedKept weakLists s.marked)
    (hlost : ∀ weak ∈ weakLists, ∀ type list, h weak = .weakList type list → ∀ c,
      ¬ h.Lost weak c type (rest.foldl h.finishMarkingWeakList s).marked) :
    Runs.StepsMeet h.scan (fun s weak => h.StopsRight s.marked weak) s rest := by
  induction rest generalizing s with
  | nil => trivial
  | cons weak rest ih =>
    have hweak : weak ∈ weakLists := hrest weak (mem_cons_self ..)
    constructor
    · intro hlive type list hw c hc
      constructor
      · exact hs weak hweak type list hw c ((dropWhile_sublist _).subset hc)
      · intro hkeeps
        by_contra hnot
        refine hlost weak hweak type list hw c ?_
        refine List.foldlRecOn (motive := fun t : MarkState ι => h.Lost weak c type t.marked)
          (weak :: rest) _ ⟨⟨hc, hnot⟩, hlive, hkeeps⟩ ?_
        rintro t ⟨hbehind, hmarked, hkeep⟩ scanned hscanned
        have hsub := (grows_finishMarkingWeakList (h := h) t scanned).subset
        exact ⟨hp.leftBehind_scan hends hweak (hrest scanned hscanned) hbehind,
          markedP_mono hsub hmarked, keeps_mono hsub hkeep⟩
    · rintro s' ⟨⟩
      exact ih (fun w hw => hrest w (mem_cons_of_mem weak hw))
        (hp.markedKept_scan hends hweak hs) hlost

theorem Private.lost_of_lost (hp : h.Private roots tables weakLists)
    (hends : h.ListsEnd weakLists) {weak c : ι} {type : WeakListType} (hmem : weak ∈ weakLists)
    {fuel : Nat} {M F : Finset ι} (hM : h.Lost weak c type M)
    (hrun : h.finishMarking tables weakLists fuel M = some F) : h.Lost weak c type F := by
  refine finishMarking_induct (Q := h.Lost weak c type) ?_ ?_ hM hrun
  · rintro M ⟨hbehind, hmarked, hkeep⟩
    have hsub := (grows_finishMarkingWeakHashTables (h := h) tables M).subset
    exact ⟨hp.leftBehind_tables hmem hbehind, markedP_mono hsub hmarked, keeps_mono hsub hkeep⟩
  · rintro s scanned hscanned ⟨hbehind, hmarked, hkeep⟩
    have hsub := (grows_finishMarkingWeakList (h := h) s scanned).subset
    exact ⟨hp.leftBehind_scan hends hmem hscanned hbehind, markedP_mono hsub hmarked,
      keeps_mono hsub hkeep⟩

/-- **Where the conses are private**, the lists hold what they should only if every scan
has stopped right. -/
theorem Private.scansStopRight (hp : h.Private roots tables weakLists)
    (hends : h.ListsEnd weakLists) {fuel : Nat} {M F : Finset ι} (hM : h.MarkedKept weakLists M)
    (hrun : h.finishMarking tables weakLists fuel M = some F)
    (hkept : h.KeepsLive (h.pruneWeakLists F weakLists) F weakLists) :
    h.ScansStopRight tables weakLists fuel M := by
  have hF : h.MarkedKept weakLists F :=
    finishMarking_induct (fun _ hM => hp.markedKept_tables hM)
      (fun _ _ hmem hM => hp.markedKept_scan hends hmem hM) hM hrun
  have hnone : ∀ weak ∈ weakLists, ∀ type list, h weak = .weakList type list → ∀ c,
      ¬ h.Lost weak c type F := by
    rintro weak hmem type list hw c ⟨⟨hbehind, hnot⟩, hlive, hkeep⟩
    exact hnot (mem_of_keepsLive hends hF hkept hmem hlive hw
      ((dropWhile_sublist _).subset hbehind) hkeep)
  clear hF
  induction fuel generalizing M with
  | zero => trivial
  | succ fuel ih =>
    have htables := hp.markedKept_tables hM
    rw [finishMarking] at hrun
    rw [ScansStopRight]
    simp only at hrun ⊢
    split at hrun
    · rename_i hd
      rw [if_pos hd]
      exact ih htables hrun
    · rename_i hd
      rw [if_neg hd]
      have hpass : h.MarkedKept weakLists (h.finishMarkingWeakLists weakLists
          (h.finishMarkingWeakHashTables tables M).marked).marked :=
        List.foldlRecOn (motive := fun s : MarkState ι => h.MarkedKept weakLists s.marked)
          weakLists _ htables fun s hs weak hmem => hp.markedKept_scan hends hmem hs
      split at hrun
      · rename_i hd'
        refine ⟨hp.stopsRight_pass hends (fun _ => id) htables fun weak hmem type list hw c hl => ?_,
          fun _ => ih hpass hrun⟩
        exact hnone weak hmem type list hw c (hp.lost_of_lost hends hmem hl hrun)
      · rename_i hd'
        refine ⟨hp.stopsRight_pass hends (fun _ => id) htables fun weak hmem type list hw c hl => ?_,
          fun hcontra => absurd hcontra hd'⟩
        cases hrun
        exact hnone weak hmem type list hw c hl

end PrivateConses

end Heap

open Heap

/-- Two weak lists: the simple list `(a b)`, and the key-assoc list `((k . b))`, which is
later in the chain and through which alone `b` is live. The root is a vector of the two
weak lists, `a` and `k`. -/
def twoLists : Heap (Fin 11)
  | 0 => .record [1, 2, 3, 4]
  | 1 => .weakList .simple 5
  | 2 => .weakList .keyAssoc 7
  | 3 => .record []
  | 4 => .record []
  | 5 => .cons 3 6
  | 6 => .cons 9 10
  | 7 => .cons 8 10
  | 8 => .cons 4 9
  | 9 => .record []
  | 10 => .nil

theorem twoLists_listsEnd : twoLists.ListsEnd [1, 2] := by
  rintro weak (_ | ⟨_, _ | ⟨_, ⟨⟩⟩⟩) type list hw
  · cases hw
    exact ⟨[5, 6], .cons (.cons .nil)⟩
  · cases hw
    exact ⟨[7], .cons .nil⟩

end XEmacs.Gc

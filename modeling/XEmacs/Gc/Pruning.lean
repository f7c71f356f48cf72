import XEmacs.Gc.Marking

/-!
# Pruning weak lists

`prune_weak_lists` cuts the conses that are not marked out of the weak lists that are marked, and
weak lists that are not marked out of `Vall_weak_lists`.
-/

namespace XEmacs.Gc

open Chains

namespace Heap

variable {ι : Type*} [DecidableEq ι] (h : Heap ι)

/-- `XCAR`, `XCDR`; of no use for an object that is not a cons. -/
def car (x : ι) : ι :=
  match h x with
  | .cons car _ => car
  | _ => x

def cdr (x : ι) : ι :=
  match h x with
  | .cons _ cdr => cdr
  | _ => x

def setCdr (c d : ι) : Heap ι :=
  match h c with
  | .cons car _ => Function.update h c (.cons car d)
  | _ => h

/-- `XWEAK_LIST (weak)->list = x`. -/
def setWeakListList (weak x : ι) : Heap ι :=
  match h weak with
  | .weakList type _ => Function.update h weak (.weakList type x)
  | _ => h

/-- The loop of `prune_weak_lists` over one list. `prev2` is the last cons that stays. -/
def pruneLoop (M : Finset ι) (weak : ι) :
    Nat → Heap ι → Option ι → ι → ι → Bool → Heap ι
  | 0, h, _, _, _, _ => h
  | fuel + 1, h, prev2, rest2, tortoise, goTortoise =>
    match h rest2 with
    | .cons _ next =>
      if h.markedP M rest2 then
        let tortoise' := if goTortoise then h.cdr tortoise else tortoise
        if next = tortoise' then h
        else pruneLoop M weak fuel h (some rest2) next tortoise' (!goTortoise)
      else
        let h' := match prev2 with
          | none => h.setWeakListList weak next
          | some prev => h.setCdr prev next
        pruneLoop M weak fuel h' prev2 next tortoise goTortoise
    | _ => h

/-- The conses of a list, from `x` on; `fuel` bounds their number. -/
def conses (h : Heap ι) : Nat → ι → List ι
  | 0, _ => []
  | fuel + 1, x =>
    match h x with
    | .cons _ cdr => x :: conses h fuel cdr
    | _ => []

variable [Fintype ι]

def pruneWeakList (M : Finset ι) (h : Heap ι) (weak : ι) : Heap ι :=
  if h.markedP M weak then
    match h weak with
    | .weakList _ list => pruneLoop M weak (Fintype.card ι + 1) h none list list false
    | _ => h
  else h

/-- `prune_weak_lists`: the heap it leaves. -/
def pruneWeakLists (M : Finset ι) (weakLists : List ι) : Heap ι :=
  weakLists.foldl (pruneWeakList M) h

/-- The conses of the list of a weak list. -/
def weakListConses (weak : ι) : List ι :=
  match h weak with
  | .weakList _ list => h.conses (Fintype.card ι) list
  | _ => []

/-- The elements of a weak list, in order. -/
def weakListElements (weak : ι) : List ι := (h.weakListConses weak).map h.car

/-! ### The conses of a list as a chain -/

section Chains

variable {h}

omit [DecidableEq ι] [Fintype ι]

/-- The object, if it is a cons. -/
def asCons (h : Heap ι) (x : ι) : Option ι :=
  match h x with
  | .cons _ _ => some x
  | _ => none

/-- The cons after a cons. -/
def nextCons (h : Heap ι) (x : ι) : Option ι := h.asCons (h.cdr x)

/-- The list that starts at `x` ends, and its conses are `l`. -/
def ListConses (h : Heap ι) (x : ι) (l : List ι) : Prop := Chain h.nextCons (h.asCons x) l

theorem asCons_of_cons {x a d : ι} (hx : h x = .cons a d) : h.asCons x = some x := by
  rw [asCons, hx]

theorem nextCons_of_cons {x a d : ι} (hx : h x = .cons a d) : h.nextCons x = h.asCons d := by
  rw [nextCons, cdr, hx]

theorem eq_of_mem_asCons {x c : ι} (hc : c ∈ h.asCons x) :
    x = c ∧ ∃ a d, h c = .cons a d := by
  rw [asCons] at hc
  split at hc
  · rename_i a d hx
    cases hc
    exact ⟨rfl, a, d, hx⟩
  · cases hc

theorem ListConses.isCons {x : ι} {l : List ι} (hl : h.ListConses x l) :
    ∀ c ∈ l, ∃ a d, h c = .cons a d := by
  refine Chain.forall_mem (fun _ hnext => ?_) hl fun c hc => (eq_of_mem_asCons hc).2
  exact (eq_of_mem_asCons hnext).2

theorem listConses_of_cons {x a d : ι} {l : List ι} (hx : h x = .cons a d) :
    h.ListConses x l ↔ ∃ tail, l = x :: tail ∧ h.ListConses d tail := by
  rw [ListConses, asCons_of_cons hx]
  constructor
  · intro hl
    cases hl with
    | cons htail =>
      rw [nextCons_of_cons hx] at htail
      exact ⟨_, rfl, htail⟩
  · rintro ⟨tail, rfl, htail⟩
    refine .cons ?_
    rw [nextCons_of_cons hx]
    exact htail

theorem ListConses.exists_cons {x c : ι} {l : List ι} (hl : h.ListConses x (c :: l)) :
    ∃ a d, x = c ∧ h c = .cons a d ∧ h.ListConses d l := by
  have hl' : Chain h.nextCons (h.asCons x) (c :: l) := hl
  cases hx : h.asCons x with
  | none =>
    rw [hx] at hl'
    cases hl'
  | some y =>
    obtain ⟨rfl, a, d, hy⟩ := eq_of_mem_asCons hx
    obtain ⟨tail, heq, htail⟩ := (listConses_of_cons hy).mp hl
    cases heq
    exact ⟨a, d, rfl, hy, htail⟩

theorem ListConses.not_cons {x : ι} (hl : h.ListConses x []) (a d : ι) : h x ≠ .cons a d := by
  intro hx
  obtain ⟨tail, heq, -⟩ := (listConses_of_cons hx).mp hl
  cases heq

theorem conses_eq {fuel : Nat} {x : ι} {l : List ι} (hl : h.ListConses x l)
    (hfuel : l.length ≤ fuel) : h.conses fuel x = l := by
  induction fuel generalizing x l with
  | zero =>
    rw [conses, List.eq_nil_of_length_eq_zero (Nat.le_zero.mp hfuel)]
  | succ fuel ih =>
    cases l with
    | nil =>
      rw [conses]
      split
      · rename_i hx
        exact absurd hx (hl.not_cons _ _)
      · rfl
    | cons c l =>
      obtain ⟨a, d, rfl, hx, htail⟩ := hl.exists_cons
      rw [conses]
      simp only [hx]
      rw [ih htail (Nat.le_of_succ_le_succ hfuel)]

end Chains

omit [DecidableEq ι] in
theorem ListConses.length_le {h : Heap ι} {x : ι} {l : List ι} (hl : h.ListConses x l) :
    l.length ≤ Fintype.card ι :=
  hl.nodup.length_le_card

omit [DecidableEq ι] in
theorem weakListConses_eq {h : Heap ι} {weak list : ι} {type : WeakListType} {l : List ι}
    (hw : h weak = .weakList type list) (hl : h.ListConses list l) :
    h.weakListConses weak = l := by
  rw [weakListConses]
  simp only [hw]
  exact conses_eq hl hl.length_le

/-! ### Cutting conses out -/

/-- From `h` to `h'` conses that are not marked have been cut out of lists. -/
structure Trimmed (F : Finset ι) (h h' : Heap ι) : Prop where
  car (x : ι) : h'.car x = h.car x
  markedP (M : Finset ι) (x : ι) : h'.markedP M x = h.markedP M x
  weakList {weak list' : ι} {type : WeakListType} : h' weak = .weakList type list' →
    ∃ list, h weak = .weakList type list
  lists {weak list : ι} {type : WeakListType} {l : List ι} :
    h weak = .weakList type list → h.ListConses list l →
      ∃ list' l', h' weak = .weakList type list' ∧ h'.ListConses list' l' ∧ l'.Sublist l ∧
        l'.filter (· ∈ F) = l.filter (· ∈ F)

namespace Trimmed

variable {F : Finset ι} {h h' h'' : Heap ι}

omit [Fintype ι]

theorem refl (h : Heap ι) : Trimmed F h h :=
  ⟨fun _ => rfl, fun _ _ => rfl, fun hw => ⟨_, hw⟩,
    fun hw hl => ⟨_, _, hw, hl, List.Sublist.refl _, rfl⟩⟩

theorem trans (h₁ : Trimmed F h h') (h₂ : Trimmed F h' h'') : Trimmed F h h'' where
  car x := (h₂.car x).trans (h₁.car x)
  markedP M x := (h₂.markedP M x).trans (h₁.markedP M x)
  weakList hw := by
    obtain ⟨list, hw'⟩ := h₂.weakList hw
    exact h₁.weakList hw'
  lists hw hl := by
    obtain ⟨list', l', hw', hl', hsub', hfilter'⟩ := h₁.lists hw hl
    obtain ⟨list'', l'', hw'', hl'', hsub'', hfilter''⟩ := h₂.lists hw' hl'
    exact ⟨list'', l'', hw'', hl'', hsub''.trans hsub', hfilter''.trans hfilter'⟩

end Trimmed

section Cutting

variable {F : Finset ι} {h : Heap ι} {p c next a b : ι}

omit [Fintype ι]

theorem asCons_setCdr (hp : h p = .cons a c) (x : ι) : (h.setCdr p next).asCons x = h.asCons x := by
  simp only [setCdr, hp, asCons]
  by_cases hx : x = p
  · rw [hx, Function.update_self, hp]
  · rw [Function.update_of_ne hx]

theorem cdr_setCdr_self (hp : h p = .cons a c) : (h.setCdr p next).cdr p = next := by
  simp only [setCdr, hp, cdr, Function.update_self]

theorem nextCons_setCdr_of_ne (hp : h p = .cons a c) {x : ι} (hx : x ≠ p) :
    (h.setCdr p next).nextCons x = h.nextCons x := by
  rw [nextCons, asCons_setCdr hp, nextCons]
  simp only [setCdr, hp, cdr, Function.update_of_ne hx]

theorem ListConses.cut (hp : h p = .cons a c) (hc : h c = .cons b next) {x : ι}
    {l₁ l₂ : List ι} (hl : h.ListConses x (l₁ ++ p :: c :: l₂)) :
    (h.setCdr p next).ListConses x (l₁ ++ p :: l₂) := by
  have hl' : Chain h.nextCons (h.asCons x) (l₁ ++ p :: c :: l₂) := hl
  have htail : Chain h.nextCons (h.asCons next) l₂ := by
    have hafter := hl'.after
    rw [nextCons_of_cons hp, asCons_of_cons hc] at hafter
    cases hafter with
    | cons htail => exact nextCons_of_cons hc ▸ htail
  have hnot : p ∉ l₂ := by
    have hnodup := hl'.nodup.of_append_right
    exact fun hmem => (List.nodup_cons.mp hnodup).1 (List.mem_cons_of_mem c hmem)
  rw [ListConses, asCons_setCdr hp]
  refine hl'.relink (fun y hy => nextCons_setCdr_of_ne hp hy) ?_
  rw [nextCons, asCons_setCdr hp, cdr_setCdr_self hp]
  refine htail.congr fun y hy => nextCons_setCdr_of_ne hp ?_
  rintro rfl
  exact hnot hy

theorem ListConses.setCdr (hp : h p = .cons a c) {x : ι} {l : List ι} (hl : h.ListConses x l)
    (hnot : p ∉ l) : (h.setCdr p next).ListConses x l := by
  rw [ListConses, asCons_setCdr hp]
  refine Chain.congr hl fun y hy => nextCons_setCdr_of_ne hp ?_
  rintro rfl
  exact hnot hy

theorem trimmed_setCdr (hp : h p = .cons a c) (hc : h c = .cons b next) (hcF : c ∉ F) :
    Trimmed F h (h.setCdr p next) where
  car x := by
    by_cases hx : x = p
    · simp only [Heap.setCdr, hp, car, hx, Function.update_self]
    · simp only [Heap.setCdr, hp, car, Function.update_of_ne hx]
  markedP M x := by
    by_cases hx : x = p
    · simp only [Heap.setCdr, hp, Heap.markedP, hx, Function.update_self]
    · simp only [Heap.setCdr, hp, Heap.markedP, Function.update_of_ne hx]
  weakList {weak list' type} hw := by
    by_cases hx : weak = p
    · simp only [Heap.setCdr, hp, hx, Function.update_self] at hw
      cases hw
    · simp only [Heap.setCdr, hp, Function.update_of_ne hx] at hw
      exact ⟨list', hw⟩
  lists {weak list type l} hw hl := by
    have hw' : h.setCdr p next weak = .weakList type list := by
      have hne : weak ≠ p := by
        rintro rfl
        rw [hp] at hw
        cases hw
      simp only [Heap.setCdr, hp, Function.update_of_ne hne, hw]
    by_cases hmem : p ∈ l
    · obtain ⟨l₁, l₂, rfl⟩ := List.append_of_mem hmem
      -- the cons after `p` is the one that is cut out
      have hafter : Chain h.nextCons (some c) l₂ := by
        have hnext : h.nextCons p = some c := by rw [nextCons_of_cons hp, asCons_of_cons hc]
        exact hnext ▸ Chain.after (show Chain _ (h.asCons list) _ from hl)
      cases hafter with
      | @cons _ l₂ _ =>
        refine ⟨list, l₁ ++ p :: l₂, hw', hl.cut hp hc, ?_, ?_⟩
        · exact ((List.sublist_cons_self c l₂).cons_cons p).append_left l₁
        · simp only [List.filter_append, List.filter_cons, hcF, decide_false, Bool.false_eq_true,
            if_false]
    · exact ⟨list, l, hw', hl.setCdr hp hmem, List.Sublist.refl _, rfl⟩

theorem listConses_setWeakListList {weak list x y : ι} {type : WeakListType} {l : List ι}
    (hw : h weak = .weakList type list) (hl : h.ListConses x l) :
    (h.setWeakListList weak y).ListConses x l := by
  have hasCons : ∀ z, (h.setWeakListList weak y).asCons z = h.asCons z := by
    intro z
    simp only [setWeakListList, hw, asCons]
    by_cases hz : z = weak
    · rw [hz, Function.update_self, hw]
    · rw [Function.update_of_ne hz]
  rw [ListConses, hasCons]
  refine Chain.congr hl fun z hz => ?_
  rw [nextCons, hasCons, nextCons]
  obtain ⟨a, d, hzcons⟩ := hl.isCons z hz
  have hne : z ≠ weak := by
    rintro rfl
    rw [hw] at hzcons
    cases hzcons
  simp only [setWeakListList, hw, cdr, Function.update_of_ne hne]

theorem setWeakListList_self {weak list y : ι} {type : WeakListType}
    (hw : h weak = .weakList type list) :
    h.setWeakListList weak y weak = .weakList type y := by
  simp only [setWeakListList, hw, Function.update_self]

theorem trimmed_setWeakListList {weak list : ι} {type : WeakListType}
    (hw : h weak = .weakList type list) (hc : h list = .cons b next) (hcF : list ∉ F) :
    Trimmed F h (h.setWeakListList weak next) where
  car x := by
    by_cases hx : x = weak
    · simp only [setWeakListList, hw, car, hx, Function.update_self]
    · simp only [setWeakListList, hw, car, Function.update_of_ne hx]
  markedP M x := by
    by_cases hx : x = weak
    · simp only [setWeakListList, hw, Heap.markedP, hx, Function.update_self]
    · simp only [setWeakListList, hw, Heap.markedP, Function.update_of_ne hx]
  weakList {weak' list' type'} hw' := by
    by_cases hx : weak' = weak
    · subst hx
      rw [setWeakListList_self hw] at hw'
      cases hw'
      exact ⟨list, hw⟩
    · simp only [setWeakListList, hw, Function.update_of_ne hx] at hw'
      exact ⟨list', hw'⟩
  lists {weak' list' type' l} hw' hl := by
    by_cases hsame : weak' = weak
    · subst hsame
      rw [hw] at hw'
      cases hw'
      obtain ⟨tail, rfl, htail⟩ := (listConses_of_cons hc).mp hl
      refine ⟨next, tail, setWeakListList_self hw, listConses_setWeakListList hw htail,
        List.sublist_cons_self _ _, ?_⟩
      rw [List.filter_cons, if_neg (by simpa using hcF)]
    · refine ⟨list', l, ?_, listConses_setWeakListList hw hl, List.Sublist.refl _, rfl⟩
      simp only [setWeakListList, hw, Function.update_of_ne hsame, hw']

/-- Where the loop stands: `done` are the conses that stay, `rem` the ones to come, and
the tortoise is behind the hare, once a cons has stayed. -/
structure PruneInv (h : Heap ι) (weak : ι) (type : WeakListType)
    (prev2 : Option ι) (rest2 tortoise : ι) (goTortoise : Bool) (done rem : List ι) : Prop where
  list : ∃ list, h weak = .weakList type list ∧ h.ListConses list (done ++ rem) ∧
    (done = [] → list = rest2)
  rest : h.ListConses rest2 rem
  prev : prev2 = done.getLast?
  behind : ∃ seg, h.ListConses tortoise (seg ++ rem) ∧
    (done ≠ [] → seg.getLast? = done.getLast?)
  stands : done = [] → goTortoise = false

omit [DecidableEq ι] in
theorem PruneInv.keep {weak rest2 tortoise : ι} {type : WeakListType} {prev2 : Option ι}
    {goTortoise : Bool} {done rem : List ι}
    (hi : PruneInv h weak type prev2 rest2 tortoise goTortoise done (rest2 :: rem))
    (hrest : h.ListConses next rem) :
    let tortoise' := if goTortoise then h.cdr tortoise else tortoise
    next ≠ tortoise' ∧
      PruneInv h weak type (some rest2) next tortoise' (!goTortoise) (done ++ [rest2]) rem := by
  obtain ⟨list, hw, hlist, -⟩ := hi.list
  obtain ⟨seg, hseg, hlast⟩ := hi.behind
  have hnonempty : done ++ [rest2] ≠ [] := by simp
  -- the part from the tortoise to the hare, which has something in it
  have hbehind : ∃ seg', h.ListConses (if goTortoise then h.cdr tortoise else tortoise)
      (seg' ++ [rest2] ++ rem) := by
    cases hgo : goTortoise with
    | false => exact ⟨seg, by simpa using hseg⟩
    | true =>
      have hdone : done ≠ [] := fun hnil => by
        rw [hi.stands hnil] at hgo
        cases hgo
      cases seg with
      | nil =>
        have hnone := hlast hdone
        rw [List.getLast?_nil, eq_comm, List.getLast?_eq_none_iff] at hnone
        exact absurd hnone hdone
      | cons x seg =>
        obtain ⟨a', d, rfl, hx, htail⟩ := hseg.exists_cons
        refine ⟨seg, ?_⟩
        rw [if_pos rfl, cdr]
        simp only [hx]
        simpa using htail
  obtain ⟨seg', hseg'⟩ := hbehind
  refine ⟨?_, ⟨⟨list, hw, by simpa using hlist, fun hnil => absurd hnil hnonempty⟩, hrest, by simp,
    ⟨seg' ++ [rest2], hseg', fun _ => by simp⟩, fun hnil => absurd hnil hnonempty⟩⟩
  -- otherwise the rest of the list would be longer than itself
  intro heq
  rw [← heq] at hseg'
  have hlen := congrArg List.length (Chain.unique hrest hseg')
  simp only [List.length_append, List.length_cons, List.length_nil] at hlen
  omega

theorem PruneInv.drop_first {weak rest2 tortoise : ι} {type : WeakListType}
    {goTortoise : Bool} {rem : List ι}
    (hi : PruneInv h weak type none rest2 tortoise goTortoise [] (rest2 :: rem))
    (hc : h rest2 = .cons b next) (hrest : h.ListConses next rem) (hcF : rest2 ∉ F) :
    Trimmed F h (h.setWeakListList weak next) ∧
      PruneInv (h.setWeakListList weak next) weak type none next tortoise goTortoise [] rem := by
  obtain ⟨list, hw, hlist, hhead⟩ := hi.list
  obtain ⟨seg, hseg, -⟩ := hi.behind
  obtain rfl := hhead rfl
  refine ⟨trimmed_setWeakListList hw hc hcF, ⟨next, setWeakListList_self hw,
    listConses_setWeakListList hw hrest, fun _ => rfl⟩, listConses_setWeakListList hw hrest, rfl,
    ⟨seg ++ [list], ?_, fun hne => absurd rfl hne⟩, hi.stands⟩
  rw [List.append_assoc]
  exact listConses_setWeakListList hw hseg

theorem PruneInv.drop_later {weak rest2 tortoise prev : ι} {type : WeakListType}
    {goTortoise : Bool} {done rem : List ι}
    (hi : PruneInv h weak type (some prev) rest2 tortoise goTortoise done (rest2 :: rem))
    (hc : h rest2 = .cons b next) (hrest : h.ListConses next rem) (hcF : rest2 ∉ F) :
    Trimmed F h (h.setCdr prev next) ∧
      PruneInv (h.setCdr prev next) weak type (some prev) next tortoise goTortoise done rem := by
  obtain ⟨list, hw, hlist, -⟩ := hi.list
  obtain ⟨seg, hseg, hlast⟩ := hi.behind
  obtain ⟨done, rfl⟩ := List.getLast?_eq_some_iff.mp hi.prev.symm
  have hne : done ++ [prev] ≠ [] := by simp
  obtain ⟨seg, rfl⟩ := List.getLast?_eq_some_iff.mp ((hlast hne).trans hi.prev.symm)
  rw [List.append_assoc] at hlist hseg
  obtain ⟨a, d, hp⟩ := hlist.isCons prev (by simp)
  have hafter : h.nextCons prev = some rest2 := by
    have hchain : Chain h.nextCons (h.asCons list) (done ++ prev :: rest2 :: rem) := hlist
    have htail := hchain.after
    cases hnext : h.nextCons prev with
    | none =>
      rw [hnext] at htail
      cases htail
    | some y =>
      rw [hnext] at htail
      cases htail
      rfl
  have hd : d = rest2 := by
    rw [nextCons_of_cons hp] at hafter
    exact (eq_of_mem_asCons hafter).1
  subst hd
  have hnot : prev ∉ rem := by
    have hnodup : (done ++ prev :: d :: rem).Nodup := Chain.nodup hlist
    exact fun hmem => (List.nodup_cons.mp hnodup.of_append_right).1 (List.mem_cons_of_mem d hmem)
  have hweak : h.setCdr prev next weak = .weakList type list := by
    have hne : weak ≠ prev := by
      rintro rfl
      rw [hp] at hw
      cases hw
    simp only [Heap.setCdr, hp, Function.update_of_ne hne, hw]
  refine ⟨trimmed_setCdr hp hc hcF, ⟨list, hweak, ?_, fun hnil => absurd hnil hne⟩,
    hrest.setCdr hp hnot, hi.prev, ⟨seg ++ [prev], ?_, fun _ => by simp⟩,
    fun hnil => absurd hnil hne⟩
  · rw [List.append_assoc]
    exact hlist.cut hp hc
  · rw [List.append_assoc]
    exact hseg.cut hp hc

/-- **The loop of `prune_weak_lists`** goes to the end of a list that ends, and leaves the
marked conses of it. -/
theorem pruneLoop_spec {weak rest2 tortoise : ι} {type : WeakListType} {prev2 : Option ι}
    {goTortoise : Bool} {done rem : List ι} (fuel : Nat)
    (hi : PruneInv h weak type prev2 rest2 tortoise goTortoise done rem)
    (hfuel : rem.length < fuel) :
    Trimmed F h (pruneLoop F weak fuel h prev2 rest2 tortoise goTortoise) ∧
      ∃ list, pruneLoop F weak fuel h prev2 rest2 tortoise goTortoise weak = .weakList type list ∧
        (pruneLoop F weak fuel h prev2 rest2 tortoise goTortoise).ListConses list
          (done ++ rem.filter (· ∈ F)) := by
  induction fuel generalizing h prev2 rest2 tortoise goTortoise done rem with
  | zero => exact absurd hfuel (Nat.not_lt_zero _)
  | succ fuel ih =>
    cases rem with
    | nil =>
      obtain ⟨list, hw, hlist, -⟩ := hi.list
      have hend : pruneLoop F weak (fuel + 1) h prev2 rest2 tortoise goTortoise = h := by
        rw [pruneLoop]
        split
        · rename_i hx
          exact absurd hx (hi.rest.not_cons _ _)
        · rfl
      rw [hend]
      exact ⟨.refl h, list, hw, hlist⟩
    | cons c rem =>
      obtain ⟨b, next, rfl, hc, hrest⟩ := hi.rest.exists_cons
      have hlen : rem.length < fuel := Nat.lt_of_succ_lt_succ hfuel
      have hmarked : h.markedP F rest2 = decide (rest2 ∈ F) := by
        rw [Heap.markedP]
        simp only [hc]
      rw [pruneLoop]
      simp only [hc, hmarked]
      by_cases hcF : rest2 ∈ F
      · obtain ⟨hne, hi'⟩ := hi.keep hrest
        rw [decide_eq_true hcF, if_pos rfl, if_neg hne, List.filter_cons_of_pos (by simpa using hcF)]
        have hrec := ih hi' hlen
        rw [List.append_assoc] at hrec
        exact hrec
      · rw [decide_eq_false hcF, if_neg Bool.false_ne_true,
          List.filter_cons_of_neg (by simpa using hcF)]
        cases hprev : prev2 with
        | none =>
          have hnil : done = [] := List.getLast?_eq_none_iff.mp (hprev ▸ hi.prev).symm
          subst hnil hprev
          obtain ⟨htrim, hi'⟩ := hi.drop_first hc hrest hcF
          obtain ⟨htrim', hlist⟩ := ih hi' hlen
          exact ⟨htrim.trans htrim', hlist⟩
        | some prev =>
          subst hprev
          obtain ⟨htrim, hi'⟩ := hi.drop_later hc hrest hcF
          obtain ⟨htrim', hlist⟩ := ih hi' hlen
          exact ⟨htrim.trans htrim', hlist⟩

end Cutting

section Pruning

variable {F : Finset ι} {h : Heap ι} {weakLists : List ι}

/-- The lists of the live weak lists end, with `nil` or with another object. -/
def LiveListsEnd (h : Heap ι) (F : Finset ι) (weakLists : List ι) : Prop :=
  ∀ weak ∈ weakLists, h.markedP F weak = true → ∀ type list, h weak = .weakList type list →
    ∃ l, h.ListConses list l

omit [Fintype ι] in
theorem Trimmed.liveListsEnd {h' : Heap ι} (htrim : Trimmed F h h')
    (hends : h.LiveListsEnd F weakLists) : h'.LiveListsEnd F weakLists := by
  intro weak hmem hlive type list hw
  rw [htrim.markedP] at hlive
  obtain ⟨list₀, hw₀⟩ := htrim.weakList hw
  obtain ⟨l, hl⟩ := hends weak hmem hlive type list₀ hw₀
  obtain ⟨list', l', hw', hl', -⟩ := htrim.lists hw₀ hl
  rw [hw] at hw'
  cases hw'
  exact ⟨l', hl'⟩

theorem pruneWeakList_spec {weak list : ι} {type : WeakListType} {l : List ι}
    (hlive : h.markedP F weak = true) (hw : h weak = .weakList type list)
    (hl : h.ListConses list l) :
    Trimmed F h (pruneWeakList F h weak) ∧ ∃ list', pruneWeakList F h weak weak
      = .weakList type list' ∧ (pruneWeakList F h weak).ListConses list' (l.filter (· ∈ F)) := by
  have hstart : PruneInv h weak type none list list false [] l :=
    ⟨⟨list, hw, hl, fun _ => rfl⟩, hl, rfl, ⟨[], hl, fun hne => absurd rfl hne⟩, fun _ => rfl⟩
  rw [pruneWeakList, if_pos hlive]
  simp only [hw]
  exact pruneLoop_spec (Fintype.card ι + 1) hstart (Nat.lt_succ_of_le hl.length_le)

theorem trimmed_pruneWeakList {weak : ι}
    (hends : h.markedP F weak = true → ∀ type list, h weak = .weakList type list →
      ∃ l, h.ListConses list l) : Trimmed F h (pruneWeakList F h weak) := by
  by_cases hlive : h.markedP F weak = true
  · cases hw : h weak with
    | weakList type list =>
      obtain ⟨l, hl⟩ := hends hlive type list hw
      exact (pruneWeakList_spec hlive hw hl).1
    | _ =>
      rw [pruneWeakList, if_pos hlive]
      simp only [hw]
      exact .refl h
  · rw [pruneWeakList, if_neg hlive]
    exact .refl h

theorem trimmed_pruneWeakLists (hends : h.LiveListsEnd F weakLists) :
    Trimmed F h (h.pruneWeakLists F weakLists) := by
  induction weakLists generalizing h with
  | nil => exact .refl h
  | cons weak rest ih =>
    have hfirst : Trimmed F h (pruneWeakList F h weak) :=
      trimmed_pruneWeakList (hends weak (List.mem_cons_self ..))
    exact hfirst.trans <| ih <| hfirst.liveListsEnd fun w hw =>
      hends w (List.mem_cons_of_mem weak hw)

theorem weakListConses_of_marked {weak list : ι} {type : WeakListType} {l : List ι}
    (hends : h.LiveListsEnd F weakLists) (hw : h weak = .weakList type list)
    (hl : h.ListConses list l) (hmarked : ∀ c ∈ l, c ∈ F) :
    (h.pruneWeakLists F weakLists).weakListConses weak = l := by
  obtain ⟨list', l', hw', hl', hsub, hfilter⟩ := (trimmed_pruneWeakLists hends).lists hw hl
  have hl'F : l'.filter (· ∈ F) = l' :=
    List.filter_eq_self.mpr fun c hc => decide_eq_true (hmarked c (hsub.subset hc))
  have hlF : l.filter (· ∈ F) = l :=
    List.filter_eq_self.mpr fun c hc => decide_eq_true (hmarked c hc)
  rw [weakListConses_eq hw' hl', ← hl'F, hfilter, hlF]

/-- **`prune_weak_lists`** leaves in every live weak list of the chain the conses that are
marked, in their order. -/
theorem weakListConses_pruneWeakLists (hends : h.LiveListsEnd F weakLists) {weak list : ι}
    {type : WeakListType} {l : List ι} (hmem : weak ∈ weakLists)
    (hlive : h.markedP F weak = true) (hw : h weak = .weakList type list)
    (hl : h.ListConses list l) :
    (h.pruneWeakLists F weakLists).weakListConses weak = l.filter (· ∈ F) := by
  induction weakLists generalizing h list l with
  | nil => exact absurd hmem List.not_mem_nil
  | cons first rest ih =>
    have hfirst : Trimmed F h (pruneWeakList F h first) :=
      trimmed_pruneWeakList (hends first (List.mem_cons_self ..))
    have hends' : (pruneWeakList F h first).LiveListsEnd F rest :=
      hfirst.liveListsEnd fun w hw => hends w (List.mem_cons_of_mem first hw)
    show ((pruneWeakList F h first).pruneWeakLists F rest).weakListConses weak = _
    obtain rfl | hmem := List.mem_cons.mp hmem
    · obtain ⟨-, list', hw', hl'⟩ := pruneWeakList_spec hlive hw hl
      refine weakListConses_of_marked hends' hw' hl' fun c hc => ?_
      exact of_decide_eq_true (List.mem_filter.mp hc).2
    · obtain ⟨list', l', hw', hl', -, hfilter⟩ := hfirst.lists hw hl
      have hlive' : (pruneWeakList F h first).markedP F weak = true := by
        rw [hfirst.markedP]
        exact hlive
      rw [← hfilter]
      exact ih hends' hmem hlive' hw' hl'

end Pruning

end Heap

end XEmacs.Gc

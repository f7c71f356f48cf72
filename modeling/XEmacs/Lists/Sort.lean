import XEmacs.Lib.ListSort
import XEmacs.Lists.Loop

/-!
# Sorting lists (fns.c)

`list_sort` cuts a list in two, sorts both halves and merges them, all in the conses that it is
given. The predicate is called with two elements and may do what it likes with other conses.
-/

namespace XEmacs.Lists

open ConsLists Machines

variable {α : Type} [DecidableEq α]

/-- What a function comes to: nothing within the rounds that it is given, a result, or an
error. -/
abbrev Run (α β : Type) : Type := ExceptT (ListError α) Option β

/-! ### Conses -/

section conses

variable (nil : α) (c : Cells α)

def fnthcdr : Nat → Ref α → Except (ListError α) (Ref α)
  | 0, tail => .ok tail
  | i + 1, .cell p => fnthcdr i (c.cdr p)
  | _ + 1, .atom a =>
    if a = nil then .ok (.atom nil) else .error (.wrongTypeArgument "listp" (.atom a))

/-- A round of `GET_EXTERNAL_LIST_LENGTH`. -/
def lengthStep (s : Loop α × Unit) :
    Except Fault (Outcome (Loop α × Unit) (Except (ListError α) (Loop α))) :=
  privateExternalListLoop6 nil (fun _ l v => (l, v)) s

/-- `length`. Strings, vectors and bit vectors are atoms with a length of their own. -/
def flength (lengths : α → Option Nat) (fuel : Nat) : Ref α → Run α Nat
  | .cell p => do
    let l ← ExceptT.mk (runFor (lengthStep nil) fuel (Loop.start c (.cell p), ()))
    return l.len
  | .atom a =>
    if a = nil then return 0
    else match lengths a with
      | some len => return len
      | none => throw (.wrongTypeArgument "sequencep" (.atom a))

end conses

/-! ### Merging -/

/-- How elements are compared: less than 0 if the first one does not come before the second
one. -/
abbrev PredFn (α : Type) := Cells α → α → α → Int × Cells α

/-- A predicate of Lisp: whether its value is not nil, and the conses as it leaves them. -/
abbrev Predicate (α : Type) := Cells α → α → α → Bool × Cells α

def mergePredFunction (pred : Predicate α) : PredFn α := fun c obj1 obj2 =>
  let (tmp, c') := pred c obj1 obj2
  (if tmp then 1 else -1, c')

/-- The variables of the loop in `list_merge`; `tail` is nil or a cons. -/
structure Merging (α : Type) where
  cells : Cells α
  l1 : Ref α
  l2 : Ref α
  tail : Ref α
  value : Ref α

variable (nil : α) (predFn : PredFn α)

/-- The end of the loop: what is left of a list goes behind what has been merged. -/
def Merging.finish (s : Merging α) (rest : Ref α) : Except (ListError α) (Ref α × Cells α) :=
  if s.tail = .atom nil then .ok (rest, s.cells)
  else (fsetcdr s.cells s.tail rest).map fun c => (s.value, c)

/-- A cons goes behind what has been merged. -/
def Merging.take (s : Merging α) (tem : Ref α) : Except (ListError α) (Merging α) :=
  if s.tail = .atom nil then .ok { s with value := tem, tail := tem }
  else (fsetcdr s.cells s.tail tem).map fun c => { s with cells := c, tail := tem }

/-- What `list_merge` takes next. -/
def Merging.next (s : Merging α) : Except (ListError α) (Merging α) := do
  let (order, c) := predFn s.cells (← fcar nil s.cells s.l2) (← fcar nil s.cells s.l1)
  if order < 0 then
    let l1 ← fcdr nil c s.l1
    Merging.take nil { s with cells := c, l1 } s.l1
  else
    let l2 ← fcdr nil c s.l2
    Merging.take nil { s with cells := c, l2 } s.l2

/-- A round of the loop in `list_merge`. -/
def mergeStep (s : Merging α) :
    Except Fault (Outcome (Merging α) (Except (ListError α) (Ref α × Cells α))) :=
  .ok (if s.l1 = .atom nil then .done (s.finish nil s.l2)
    else if s.l2 = .atom nil then .done (s.finish nil s.l1)
    else match s.next nil predFn with
      | .ok s' => .next s'
      | .error e => .done (.error e))

def listMerge (fuel : Nat) (c : Cells α) (orgL1 orgL2 : Ref α) : Run α (Ref α × Cells α) :=
  ExceptT.mk (runFor (mergeStep nil predFn) fuel ⟨c, orgL1, orgL2, .atom nil, .atom nil⟩)

/-! ### Sorting -/

def listSort (lengths : α → Option Nat) : Nat → Cells α → Ref α → Run α (Ref α × Cells α)
  | 0, _, _ => ExceptT.mk none
  | fuel + 1, c, list => do
    let len ← flength nil c lengths fuel list
    if len < 2 then return (list, c)
    let tem ← liftExcept (fnthcdr nil c (len / 2 - 1) list)
    let back ← liftExcept (fcdr nil c tem)
    let c ← liftExcept (fsetcdr c tem (.atom nil))
    let (front, c) ← listSort lengths fuel c list
    let (back, c) ← listSort lengths fuel c back
    listMerge nil predFn fuel c front back

def fsort (lengths : α → Option Nat) (pred : Predicate α) (fuel : Nat) (c : Cells α)
    (list : Ref α) : Run α (Ref α × Cells α) :=
  listSort nil (mergePredFunction pred) lengths fuel c list

end XEmacs.Lists

/-!
## Sorting is stable, in the same conses

A run of `list_sort` along a list is a run of `ListSort.listSort` on its conses, compared by
their elements (`listSort_run`).
-/

namespace XEmacs.Lists

open ConsLists Machines List Function
open ListSort (StrictWeakOn)

variable {α : Type} [DecidableEq α] {nil : α} {c : Cells α} {ps qs ks : List Nat}

/-- With rounds enough the function returns this. -/
def Returns {β : Type} (f : Nat → Run α β) (b : β) : Prop :=
  ∃ n, ∀ fuel, n ≤ fuel → f fuel = pure b

/-! ### Lengths -/

theorem length_run {s : Loop α × Unit} {rest : List Nat} {as : List α} (h : Trails s.1)
    (hrest : Dotted s.1.cells s.1.hare rest as nil) :
    ∃ l, Ends (lengthStep nil) s (.ok l) ∧ l.len = s.1.len + rest.length := by
  induction rest generalizing s as with
  | nil =>
    have hhare : s.1.hare = .atom nil := by
      generalize s.1.hare = r at hrest
      cases hrest
      rfl
    refine ⟨s.1, .done ?_, rfl⟩
    simp only [lengthStep, privateExternalListLoop6, hhare, if_true]
  | cons p rest ih =>
    have hp : s.1.hare = .cell p := by
      generalize s.1.hare = r at hrest
      cases hrest
      rfl
    obtain ⟨l, hadvance, hl⟩ | ⟨-, m, hm⟩ := Loop.advance_spec h (hp ▸ trivial)
    · have hrest' : Dotted l.cells l.hare rest as.tail nil := by
        rw [hl.cells, hl.hare, hp]
        rw [hp] at hrest
        cases hrest with
        | cell hrest => exact hrest
      obtain ⟨l', hends, hlen⟩ := ih (s := (l, ())) hl.trails hrest'
      refine ⟨l', .next ?_ hends, ?_⟩
      · simp only [lengthStep, privateExternalListLoop6, hp, hadvance]
        rfl
      · rw [hlen, hl.len, length_cons]
        omega
    · rw [hp] at hm hrest
      exact absurd hm (hrest.not_circle m)

theorem flength_returns (lengths : α → Option Nat) {list : Ref α}
    (h : Linked c list ps (.atom nil)) :
    Returns (fun fuel => flength nil c lengths fuel list) ps.length := by
  cases list with
  | atom a =>
    cases h with
    | nil => exact ⟨0, fun fuel _ => if_pos rfl⟩
  | cell p =>
    obtain ⟨l, hends, hlen⟩ := length_run (s := (Loop.start c (.cell p), ())) (.start c _) h.dotted
    obtain ⟨n, hn⟩ := hends.exists_runFor
    refine ⟨n, fun fuel hfuel => ?_⟩
    have hlen : l.len = ps.length := hlen.trans (Nat.zero_add _)
    simp only [flength, hn fuel hfuel, ← hlen]
    rfl

/-! ### Merging -/

/-- What has been merged so far. -/
def Merging.Holds (nil : α) (s : Merging α) (ks : List Nat) : Prop :=
  (ks = [] ∧ s.tail = .atom nil) ∨
    ∃ init x, ks = init ++ [x] ∧ s.tail = .cell x ∧ Linked s.cells s.value init (.cell x)

theorem Merging.Holds.finish {s : Merging α} {rest : Ref α} (h : s.Holds nil ks)
    (hrest : Linked s.cells rest ps (.atom nil)) (hnd : (ks ++ ps).Nodup) :
    ∃ r c', s.finish nil rest = .ok (r, c') ∧ Linked c' r (ks ++ ps) (.atom nil) ∧
      c'.car = s.cells.car ∧ ∀ q, q ∉ ks → c'.cdr q = s.cells.cdr q := by
  obtain ⟨rfl, htail⟩ | ⟨init, x, rfl, htail, hlinked⟩ := h
  · exact ⟨rest, s.cells, by rw [Merging.finish, if_pos htail], hrest, rfl, fun _ _ => rfl⟩
  · obtain ⟨hinit, -, hdisjoint⟩ := List.nodup_append.mp hnd
    have hx : x ∉ init := fun hmem =>
      (List.nodup_append.mp hinit).2.2 x hmem x (mem_singleton_self x) rfl
    have hxps : x ∉ ps := fun hmem => hdisjoint x (by simp) x hmem rfl
    refine ⟨s.value, s.cells.setCdr x rest, ?_, (hlinked.setCdr hx rest).append ?_, rfl,
      fun q hq => update_of_ne ?_ _ _⟩
    · rw [Merging.finish, if_neg (by rw [htail]; nofun), htail]
      rfl
    · exact hrest.frame fun p hp => update_of_ne (ne_of_mem_of_not_mem hp hxps) _ _
    · rintro rfl
      exact hq (by simp)

theorem Merging.Holds.take {s : Merging α} {p : Nat} (h : s.Holds nil ks)
    (hnd : (ks ++ [p]).Nodup) :
    ∃ s', s.take nil (.cell p) = .ok s' ∧ s'.Holds nil (ks ++ [p]) ∧ s'.l1 = s.l1 ∧
      s'.l2 = s.l2 ∧ s'.cells.car = s.cells.car ∧
      ∀ q, q ∉ ks → s'.cells.cdr q = s.cells.cdr q := by
  obtain ⟨rfl, htail⟩ | ⟨init, x, rfl, htail, hlinked⟩ := h
  · refine ⟨{ s with value := .cell p, tail := .cell p }, by rw [Merging.take, if_pos htail], ?_,
      rfl, rfl, rfl, fun _ _ => rfl⟩
    exact .inr ⟨[], p, rfl, rfl, .nil _⟩
  · have hx : x ∉ init := fun hmem => (List.nodup_append.mp
      (List.nodup_append.mp hnd).1).2.2 x hmem x (mem_singleton_self x) rfl
    refine ⟨{ s with cells := s.cells.setCdr x (.cell p), tail := .cell p }, ?_, ?_, rfl, rfl, rfl,
      fun q hq => update_of_ne ?_ _ _⟩
    · rw [Merging.take, if_neg (by rw [htail]; nofun), htail]
      rfl
    · exact .inr ⟨init ++ [x], p, rfl, rfl, hlinked.setCdr hx _⟩
    · rintro rfl
      exact hq (by simp)

/-- The predicate says which of two elements comes first, and does not touch the list. -/
structure Compares (pred : Predicate α) (before : α → α → Bool) (list : List Nat) (as : List α) :
    Prop where
  value : ∀ c, ∀ a ∈ as, ∀ b ∈ as, (pred c a b).1 = before a b
  agree : ∀ (c : Cells α) (a b : α), c.Agree (pred c a b).2 list

/-- The elements of the conses of the list. -/
def Elements (c : Cells α) (list : List Nat) (as : List α) (elt : Nat → α) : Prop :=
  ∀ p ∈ list, c.car p = elt p ∧ elt p ∈ as

variable {pred : Predicate α} {before : α → α → Bool} {list : List Nat} {as : List α}
  {elt : Nat → α}

omit [DecidableEq α] in
theorem Elements.of_car {c' : Cells α} (h : Elements c list as elt)
    (hcar : ∀ p ∈ list, c'.car p = c.car p) : Elements c' list as elt :=
  fun p hp => ⟨(hcar p hp).trans (h p hp).1, (h p hp).2⟩

omit [DecidableEq α] in
theorem Compares.order (h : Compares pred before list as) (hc : Elements c list as elt)
    {p q : Nat} (hp : p ∈ list) (hq : q ∈ list) :
    ((mergePredFunction pred c (c.car q) (c.car p)).1 < 0 ↔ before (elt q) (elt p) = false) ∧
      c.Agree (mergePredFunction pred c (c.car q) (c.car p)).2 list := by
  refine ⟨?_, h.agree c _ _⟩
  have hvalue := h.value c (elt q) (hc q hq).2 (elt p) (hc p hp).2
  rw [(hc q hq).1, (hc p hp).1]
  simp only [mergePredFunction, hvalue]
  cases before (elt q) (elt p) <;> decide

/-- What is left to be merged, in the conses of the list. -/
structure Merging.Between (nil : α) (list : List Nat) (as : List α) (elt : Nat → α)
    (s : Merging α) (ks ps qs : List Nat) : Prop where
  merged : s.Holds nil ks
  l1 : Linked s.cells s.l1 ps (.atom nil)
  l2 : Linked s.cells s.l2 qs (.atom nil)
  nodup : (ks ++ (ps ++ qs)).Nodup
  mem : ∀ p ∈ ks ++ (ps ++ qs), p ∈ list
  elements : Elements s.cells list as elt

omit [DecidableEq α] in
theorem Merging.Between.called {s : Merging α} (h : s.Between nil list as elt ks ps qs)
    {c' : Cells α} (hagree : s.cells.Agree c' list) :
    Merging.Between nil list as elt { s with cells := c' } ks ps qs := by
  have hcdr : ∀ {p}, p ∈ ks ++ (ps ++ qs) → c'.cdr p = s.cells.cdr p := fun hp =>
    (hagree _ (h.mem _ hp)).2
  refine ⟨?_, h.l1.frame fun p hp => hcdr (by simp [hp]), h.l2.frame fun p hp => hcdr (by simp [hp]),
    h.nodup, h.mem, h.elements.of_car fun p hp => (hagree p hp).1⟩
  obtain ⟨rfl, htail⟩ | ⟨init, x, rfl, htail, hlinked⟩ := h.merged
  · exact .inl ⟨rfl, htail⟩
  · exact .inr ⟨init, x, rfl, htail, hlinked.frame fun p hp => hcdr (by simp [hp])⟩

theorem Merging.take_between {s : Merging α} {p : Nat} (hmerged : s.Holds nil ks)
    (hl1 : Linked s.cells s.l1 ps (.atom nil)) (hl2 : Linked s.cells s.l2 qs (.atom nil))
    (hnd : (ks ++ [p] ++ (ps ++ qs)).Nodup) (hmem : ∀ x ∈ ks ++ [p] ++ (ps ++ qs), x ∈ list)
    (helements : Elements s.cells list as elt) :
    ∃ s', s.take nil (.cell p) = .ok s' ∧ s'.Between nil list as elt (ks ++ [p]) ps qs ∧
      ∀ x, x ∉ ks → s'.cells.cdr x = s.cells.cdr x := by
  obtain ⟨s', htake, hholds, h1, h2, hcar, hframe⟩ :=
    hmerged.take (List.nodup_append.mp hnd).1
  have hout : ∀ {x}, x ∈ ps ++ qs → s'.cells.cdr x = s.cells.cdr x := fun hx =>
    hframe _ fun hks => (List.nodup_append.mp hnd).2.2 _ (by simp [hks]) _ hx rfl
  refine ⟨s', htake, ⟨hholds, ?_, ?_, hnd, hmem, ?_⟩, hframe⟩
  · rw [h1]
    exact hl1.frame fun x hx => hout (by simp [hx])
  · rw [h2]
    exact hl2.frame fun x hx => hout (by simp [hx])
  · exact helements.of_car fun x _ => congrFun hcar x

/-- The next cons is that of the second list if its element comes before, else that of the first
list. -/
theorem Merging.Between.next {s : Merging α} {p q : Nat}
    (h : s.Between nil list as elt ks (p :: ps) (q :: qs)) (hpred : Compares pred before list as) :
    ∃ s', s.next nil (mergePredFunction pred) = .ok s' ∧
      (if before (elt q) (elt p) then s'.Between nil list as elt (ks ++ [q]) (p :: ps) qs
      else s'.Between nil list as elt (ks ++ [p]) ps (q :: qs)) ∧
      ∀ x ∈ list, x ∉ ks → s'.cells.cdr x = s.cells.cdr x := by
  have hp : p ∈ list := h.mem p (by simp)
  have hq : q ∈ list := h.mem q (by simp)
  obtain ⟨horder, hagree⟩ := hpred.order h.elements hp hq
  have hl1 := h.l1
  have hl2 := h.l2
  have hcalled := h.called hagree
  obtain ⟨c, l1, l2, tail, value⟩ := s
  cases hl1 with
  | cons hl1 =>
  cases hl2 with
  | cons hl2 =>
  -- what is left of each list in the conses as the predicate leaves them
  have hl1' := hcalled.l1
  have hl2' := hcalled.l2
  generalize hc' : mergePredFunction pred c (c.car q) (c.car p) = call at horder hagree hcalled hl1' hl2'
  obtain ⟨order, c'⟩ := call
  have hnext : Merging.next nil (mergePredFunction pred) ⟨c, .cell p, .cell q, tail, value⟩ =
      if order < 0 then Merging.take nil ⟨c', c'.cdr p, .cell q, tail, value⟩ (.cell p)
      else Merging.take nil ⟨c', .cell p, c'.cdr q, tail, value⟩ (.cell q) := by
    simp only [Merging.next, fcar, fcdr, bind, Except.bind, hc']
  rw [hnext]
  by_cases hbefore : before (elt q) (elt p) = true
  · rw [if_neg (by rw [horder, hbefore]; nofun)]
    have hperm : (ks ++ (p :: ps ++ q :: qs)).Perm (ks ++ [q] ++ (p :: ps ++ qs)) := by
      rw [append_assoc]
      exact List.Perm.append_left ks perm_middle
    cases hl2' with
    | cons hl2' =>
      obtain ⟨s', htake, hbetween, hframe⟩ := Merging.take_between
        (s := ⟨c', .cell p, c'.cdr q, tail, value⟩) hcalled.merged hl1' hl2'
        (hperm.nodup_iff.mp h.nodup) (fun x hx => h.mem x (hperm.mem_iff.mpr hx)) hcalled.elements
      refine ⟨s', htake, ?_, fun x hx hks => (hframe x hks).trans (hagree x hx).2⟩
      rw [if_pos hbefore]
      exact hbetween
  · rw [if_pos (horder.mpr (Bool.eq_false_iff.mpr hbefore))]
    have hsplit : ks ++ (p :: ps ++ q :: qs) = ks ++ [p] ++ (ps ++ q :: qs) := by
      rw [append_assoc]
      rfl
    cases hl1' with
    | cons hl1' =>
      obtain ⟨s', htake, hbetween, hframe⟩ := Merging.take_between
        (s := ⟨c', c'.cdr p, .cell q, tail, value⟩) hcalled.merged hl1' hl2'
        (hsplit ▸ h.nodup) (fun x hx => h.mem x (hsplit ▸ hx)) hcalled.elements
      refine ⟨s', htake, ?_, fun x hx hks => (hframe x hks).trans (hagree x hx).2⟩
      rw [if_neg hbefore]
      exact hbetween

/-- What sorting leaves: a list in these conses, and the other conses of the list as they were. -/
structure Sorted (nil : α) (list : List Nat) (as : List α) (elt : Nat → α) (c : Cells α)
    (touched : List Nat) (r : Ref α) (c' : Cells α) (ps : List Nat) : Prop where
  linked : Linked c' r ps (.atom nil)
  elements : Elements c' list as elt
  frame : ∀ x ∈ list, x ∉ touched → c'.cdr x = c.cdr x

omit [DecidableEq α] in
theorem cell_ne_atom {p : Nat} {a : α} : Ref.cell p ≠ .atom a := nofun

/-- **Merging** is `ListSort.listMerge` on the conses. -/
theorem Merging.Between.run {s : Merging α} (h : s.Between nil list as elt ks ps qs)
    (hpred : Compares pred before list as) :
    ∃ r c', Ends (mergeStep nil (mergePredFunction pred)) s (.ok (r, c')) ∧
      Sorted nil list as elt s.cells (ks ++ (ps ++ qs)) r c'
        (ks ++ ListSort.listMerge (fun p q => before (elt p) (elt q)) ps qs) := by
  induction ps, qs using ListSort.listMerge.induct (fun p q => before (elt p) (elt q))
    generalizing s ks with
  | case1 qs =>
    have hl1 := h.l1.eq_of_nil
    obtain ⟨r, c', hfinish, hlinked, hcar, hframe⟩ := h.merged.finish h.l2 h.nodup
    refine ⟨r, c', .done ?_, ?_, h.elements.of_car fun x _ => congrFun hcar x, fun x _ hx =>
      hframe x fun hks => hx (by simp [hks])⟩
    · rw [mergeStep, if_pos hl1, hfinish]
    · rw [ListSort.listMerge]
      exact hlinked
  | case2 ps hps =>
    have hl2 := h.l2.eq_of_nil
    have hl1 : s.l1 ≠ .atom nil := fun hl1 => by
      have hlinked := h.l1
      rw [hl1] at hlinked
      cases hlinked
      exact hps rfl
    have hnd := h.nodup
    rw [append_nil] at hnd
    obtain ⟨r, c', hfinish, hlinked, hcar, hframe⟩ := h.merged.finish h.l1 hnd
    refine ⟨r, c', .done ?_, ?_, h.elements.of_car fun x _ => congrFun hcar x, fun x _ hx =>
      hframe x fun hks => hx (by simp [hks])⟩
    · rw [mergeStep, if_neg hl1, if_pos hl2, hfinish]
    · rw [ListSort.listMerge]
      · exact hlinked
      · exact hps
  | case3 p ps q qs hbefore ih =>
    obtain ⟨s', hnext, hbetween, hframe⟩ := h.next hpred
    rw [if_pos hbefore] at hbetween
    obtain ⟨r, c', hends, hsorted⟩ := ih hbetween
    refine ⟨r, c', .next ?_ hends, ?_, hsorted.elements, fun x hx htouched => ?_⟩
    · rw [mergeStep, if_neg (by rw [h.l1.eq_cell]; exact cell_ne_atom),
        if_neg (by rw [h.l2.eq_cell]; exact cell_ne_atom),
        hnext]
    · rw [ListSort.listMerge, if_pos hbefore, append_cons]
      exact hsorted.linked
    · rw [hsorted.frame x hx fun hmem => htouched ?_, hframe x hx fun hks => htouched ?_]
      · simp [hks]
      · simp only [mem_append, mem_cons, not_mem_nil, or_false] at hmem ⊢
        grind
  | case4 p ps q qs hbefore ih =>
    obtain ⟨s', hnext, hbetween, hframe⟩ := h.next hpred
    rw [if_neg hbefore] at hbetween
    obtain ⟨r, c', hends, hsorted⟩ := ih hbetween
    refine ⟨r, c', .next ?_ hends, ?_, hsorted.elements, fun x hx htouched => ?_⟩
    · rw [mergeStep, if_neg (by rw [h.l1.eq_cell]; exact cell_ne_atom),
        if_neg (by rw [h.l2.eq_cell]; exact cell_ne_atom),
        hnext]
    · rw [ListSort.listMerge, if_neg hbefore, append_cons]
      exact hsorted.linked
    · rw [hsorted.frame x hx fun hmem => htouched ?_, hframe x hx fun hks => htouched ?_]
      · simp [hks]
      · simp only [mem_append, mem_cons, not_mem_nil, or_false] at hmem ⊢
        grind

/-! ### Sorting -/

theorem fnthcdr_linked {r r' : Ref α} (h : Linked c r ps r') :
    fnthcdr nil c ps.length r = .ok r' := by
  induction h with
  | nil r => rw [length_nil, fnthcdr]
  | cons _ ih => rw [length_cons, fnthcdr, ih]

variable (lengths : α → Option Nat)

theorem listSort_halves {predFn : PredFn α} {r front back : Ref α} {c₁ c₂ c₃ : Cells α}
    {len x : Nat} {result : Ref α × Cells α} (hlen : 2 ≤ len)
    (hlength : Returns (fun fuel => flength nil c lengths fuel r) len)
    (htem : fnthcdr nil c (len / 2 - 1) r = .ok (.cell x)) (hcut : c₁ = c.setCdr x (.atom nil))
    (hfront : Returns (fun fuel => listSort nil predFn lengths fuel c₁ r) (front, c₂))
    (hback : Returns (fun fuel => listSort nil predFn lengths fuel c₂ (c.cdr x)) (back, c₃))
    (hmerge : Returns (fun fuel => listMerge nil predFn fuel c₃ front back) result) :
    Returns (fun fuel => listSort nil predFn lengths fuel c r) result := by
  obtain ⟨n₀, h₀⟩ := hlength
  obtain ⟨n₁, h₁⟩ := hfront
  obtain ⟨n₂, h₂⟩ := hback
  obtain ⟨n₃, h₃⟩ := hmerge
  refine ⟨n₀ + n₁ + n₂ + n₃ + 1, fun fuel hfuel => ?_⟩
  obtain ⟨fuel, rfl⟩ := Nat.exists_eq_add_of_le' (Nat.le_trans (Nat.le_add_left 1 _) hfuel)
  have h₀ := h₀ fuel (by omega)
  have h₁ := h₁ fuel (by omega)
  have h₂ := h₂ fuel (by omega)
  have h₃ := h₃ fuel (by omega)
  have hback : liftExcept (m := Run α) (fcdr nil c (.cell x)) = pure (c.cdr x) := rfl
  have hset : liftExcept (m := Run α) (fsetcdr c (.cell x) (.atom nil)) = pure c₁ := by
    rw [hcut]
    rfl
  have htem : liftExcept (m := Run α) (fnthcdr nil c (len / 2 - 1) r) = pure (.cell x) := by
    rw [htem]
    rfl
  simp only [listSort, h₀, pure_bind, if_neg (Nat.not_lt.mpr hlen), htem, hback, hset, h₁, h₂, h₃]

/-- **Sorting** is `ListSort.listSort` on the conses. -/
theorem listSort_run {r : Ref α} (hpred : Compares pred before list as)
    (hr : Linked c r ps (.atom nil)) (hnd : ps.Nodup) (hmem : ∀ p ∈ ps, p ∈ list)
    (helements : Elements c list as elt) :
    ∃ r' c', Returns (fun fuel => listSort nil (mergePredFunction pred) lengths fuel c r) (r', c') ∧
      Sorted nil list as elt c ps r' c'
        (ListSort.listSort (fun p q => before (elt p) (elt q)) ps) := by
  induction ps using ListSort.listSort.induct generalizing c r with
  | case1 ps hshort =>
    obtain ⟨n, hn⟩ := flength_returns lengths hr
    refine ⟨r, c, ⟨n + 1, fun fuel hfuel => ?_⟩, ?_, helements, fun _ _ _ => rfl⟩
    · obtain ⟨fuel, rfl⟩ := Nat.exists_eq_add_of_le' (Nat.le_trans (Nat.le_add_left 1 n) hfuel)
      have hn := hn fuel (by omega)
      simp only [listSort, hn, pure_bind, if_pos hshort]
    · rw [ListSort.listSort, if_pos hshort]
      exact hr
  | case2 ps hlong ih₁ ih₂ =>
    -- the last cons of the front half
    obtain ⟨k, hk⟩ : ∃ k, ps.length / 2 = k + 1 := Nat.exists_eq_succ_of_ne_zero (by omega)
    obtain ⟨init, x, htake, hinit⟩ : ∃ init x, ps.take (k + 1) = init ++ [x] ∧ init.length = k :=
      ⟨ps.take k, ps[k], by rw [take_add_one, getElem?_eq_getElem]; rfl,
        length_take_of_le (by omega)⟩
    have hps : init ++ x :: ps.drop (k + 1) = ps := by
      rw [append_cons, ← htake, take_append_drop]
    have hnd' := hnd
    have hr' := hr
    rw [← hps] at hnd' hr'
    obtain ⟨hfront, hback⟩ := hr'.split
    have hx : x ∉ init := fun hmem =>
      (List.nodup_append.mp hnd').2.2 x hmem x (mem_cons_self ..) rfl
    have hxback := (List.nodup_cons.mp (List.nodup_append.mp hnd').2.1).1
    have hdisjoint : ∀ y ∈ ps.drop (k + 1), y ∉ ps.take (k + 1) := by
      rw [← take_append_drop (k + 1) ps] at hnd
      exact fun y hy hy' => (List.nodup_append.mp hnd).2.2 y hy' y hy rfl
    rw [hk] at ih₁ ih₂
    -- the halves
    have hfront₁ := hfront.setCdr hx (.atom nil)
    have hback₁ : Linked (c.setCdr x (.atom nil)) (c.cdr x) (ps.drop (k + 1)) (.atom nil) :=
      hback.frame fun y hy => update_of_ne (ne_of_mem_of_not_mem hy hxback) _ _
    rw [← htake] at hfront₁
    obtain ⟨front, c₂, hsort₁, hsorted₁⟩ := ih₁ hfront₁ (hnd.sublist (take_sublist ..))
      (fun y hy => hmem y (mem_of_mem_take hy)) (helements.of_car fun _ _ => rfl)
    have hback₂ := hback₁.frame fun y hy =>
      hsorted₁.frame y (hmem y (mem_of_mem_drop hy)) (hdisjoint y hy)
    obtain ⟨back, c₃, hsort₂, hsorted₂⟩ := ih₂ hback₂ (hnd.sublist (drop_sublist ..))
      (fun y hy => hmem y (mem_of_mem_drop hy)) hsorted₁.elements
    -- merged
    generalize hcmp : (fun p q => before (elt p) (elt q)) = cmp at hsorted₁ hsorted₂ ⊢
    have hperm₁ : (ListSort.listSort cmp (ps.take (k + 1))).Perm (ps.take (k + 1)) :=
      ListSort.listSort_perm _
    have hperm₂ : (ListSort.listSort cmp (ps.drop (k + 1))).Perm (ps.drop (k + 1)) :=
      ListSort.listSort_perm _
    have hperm := (hperm₁.append hperm₂).trans (List.Perm.of_eq (take_append_drop (k + 1) ps))
    have hfront₃ := hsorted₁.linked.frame fun y hy => by
      have hy := hperm₁.mem_iff.mp hy
      exact hsorted₂.frame y (hmem y (mem_of_mem_take hy)) fun hy' => hdisjoint y hy' hy
    have hbetween : Merging.Between nil list as elt ⟨c₃, front, back, .atom nil, .atom nil⟩ []
        (ListSort.listSort cmp (ps.take (k + 1))) (ListSort.listSort cmp (ps.drop (k + 1))) :=
      ⟨.inl ⟨rfl, rfl⟩, hfront₃, hsorted₂.linked, hperm.nodup_iff.mpr hnd,
        fun y hy => hmem y (hperm.mem_iff.mp hy), hsorted₂.elements⟩
    obtain ⟨r', c', hends, hsorted⟩ := hbetween.run hpred
    obtain ⟨n, hn⟩ := hends.exists_runFor
    refine ⟨r', c', ?_, ?_, hsorted.elements, fun y hy htouched => ?_⟩
    · refine listSort_halves lengths (Nat.not_lt.mp hlong) (flength_returns lengths hr) ?_ rfl
        hsort₁ hsort₂ ⟨n, fun fuel hfuel => ?_⟩
      · rw [hk, Nat.add_sub_cancel, ← hinit]
        exact fnthcdr_linked hfront
      · simp only [listMerge, hn fuel hfuel]
        rfl
    · rw [ListSort.listSort, if_neg hlong, hk]
      rw [hcmp] at hsorted
      exact hsorted.linked
    · have htake' : y ∉ ps.take (k + 1) := fun h => htouched (mem_of_mem_take h)
      have hdrop' : y ∉ ps.drop (k + 1) := fun h => htouched (mem_of_mem_drop h)
      rw [hsorted.frame y hy fun h => htouched (hperm.mem_iff.mp h), hsorted₂.frame y hy hdrop',
        hsorted₁.frame y hy htake']
      refine update_of_ne (fun hyx => htake' ?_) _ _
      rw [htake, hyx]
      exact mem_append_right _ (mem_singleton_self x)

/-- What is said of a sorted list: the same conses with their elements, none of which comes
before an earlier one, and those that are alike as they were. -/
structure SortedStably (before : α → α → Bool) (c : Cells α) (ps : List Nat) (c' : Cells α)
    (ps' : List Nat) : Prop where
  conses : ps'.Perm ps
  elements : ∀ p ∈ ps, c'.car p = c.car p
  inOrder : ps'.Pairwise fun p q => before (c.car q) (c.car p) = false
  stable : ∀ p q, [p, q].Sublist ps → before (c.car p) (c.car q) = false →
    before (c.car q) (c.car p) = false → [p, q].Sublist ps'

/-- **Sorting** is stable and in the same conses, for a predicate that is a strict weak order on
the elements and does not touch the list. -/
theorem fsort_stable {r : Ref α} (hlist : Dotted c r ps as nil)
    (hpred : Compares pred before ps as) (hweak : StrictWeakOn before (· ∈ as)) :
    ∃ r' c' ps', Returns (fun fuel => fsort nil lengths pred fuel c r) (r', c') ∧
      Dotted c' r' ps' (ps'.map c'.car) nil ∧ SortedStably before c ps c' ps' := by
  have has := hlist.eq_map
  have helements : Elements c ps as c.car := fun p hp => ⟨rfl, has ▸ List.mem_map_of_mem hp⟩
  obtain ⟨r', c', hreturns, hsorted⟩ := listSort_run lengths hpred (.of_dotted hlist) hlist.nodup
    (fun _ hp => hp) helements
  have hcells : StrictWeakOn (fun p q => before (c.car p) (c.car q)) (· ∈ ps) := by
    have hmem : ∀ {p}, p ∈ ps → c.car p ∈ as := fun hp => (helements _ hp).2
    exact ⟨fun p q hp hq => hweak.asymm _ _ (hmem hp) (hmem hq),
      fun p q x hp hq hx => hweak.trans _ _ _ (hmem hp) (hmem hq) (hmem hx),
      fun p q x hp hq hx => hweak.incomp_trans _ _ _ (hmem hp) (hmem hq) (hmem hx)⟩
  refine ⟨r', c', _, hreturns, hsorted.linked.dotted, ListSort.listSort_perm ps,
    fun p hp => (hsorted.elements p hp).1, hcells.listSort_inOrder fun _ hp => hp,
    fun p q hpq hlt hgt => ?_⟩
  exact hcells.listSort_sublist (fun _ hp => hp) hpq (ListSort.alike_iff.mpr ⟨hlt, hgt⟩)

def twoConses : Cells Nat where
  next := 2
  car p := 2 - p
  cdr p := if p = 0 then .cell 1 else .atom 0

theorem fsort_stable_two : ∃ r' c' ps',
    Returns (fun fuel => fsort 0 (fun _ => none) (fun c a b => (decide (a < b), c)) fuel
      twoConses (.cell 0)) (r', c') ∧ Dotted c' r' ps' (ps'.map c'.car) 0 ∧
      SortedStably (fun a b => decide (a < b)) twoConses [0, 1] c' ps' := by
  have hlist : Dotted twoConses (.cell 0) [0, 1] [2, 1] 0 := .cell (.cell (.atom 0))
  have hpred : Compares (fun c (a b : Nat) => (decide (a < b), c)) (fun a b => decide (a < b))
      [0, 1] [2, 1] := ⟨fun _ _ _ _ _ => rfl, fun _ _ _ _ _ => ⟨rfl, rfl⟩⟩
  have hweak : StrictWeakOn (fun a b : Nat => decide (a < b)) (· ∈ [2, 1]) := by
    constructor
    · intro a b _ _ h
      rw [decide_eq_true_eq] at h
      exact decide_eq_false (Nat.lt_asymm h)
    · intro a b c _ _ _ hab hbc
      rw [decide_eq_true_eq] at hab hbc ⊢
      exact Nat.lt_trans hab hbc
    · intro a b c _ _ _ hab hba hbc hcb
      simp only [decide_eq_false_iff_not] at hab hba hbc hcb ⊢
      omega
  exact fsort_stable (fun _ => none) hlist hpred hweak

end XEmacs.Lists

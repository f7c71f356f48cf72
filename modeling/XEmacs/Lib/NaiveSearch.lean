import Mathlib.Data.List.Infix
import XEmacs.Lib.Machines

/-!
# Naive search along a cursor

A search for some occurrences of a pattern, one behind the other, looks at each place for the
whole pattern before it goes on to the next.
-/

namespace NaiveSearch

open Machines List

variable {π α : Type*}

/-- How a search moves: whether it goes on from a position, which one it looks at there and
where it is then, and what it reads. -/
structure Cursor (π α : Type*) where
  more : π → Bool
  visit : π → π × π
  read : π → Option α

/-- A search: where it is, how many occurrences are still to be found, where the last one began,
and the positions looked at. -/
structure State (π : Type*) where
  idx : π
  left : Nat
  start : π
  seen : List π

section

variable [DecidableEq α]

/-- Whether the pattern is there, where it ends, and the positions looked at. -/
def Cursor.matchFrom (c : Cursor π α) : List α → π → Bool × π × List π
  | [], i => (true, i, [])
  | a :: p, i =>
    if c.read (c.visit i).1 = some a then
      let (found, j, seen) := c.matchFrom p (c.visit i).2
      (found, j, (c.visit i).1 :: seen)
    else (false, i, [(c.visit i).1])

def Cursor.body (c : Cursor π α) (pat : List α) (s : State π) : State π :=
  let r := c.matchFrom pat s.idx
  if r.1 then ⟨r.2.1, s.left - 1, s.idx, s.seen ++ r.2.2⟩
  else ⟨(c.visit s.idx).2, s.left, s.start, s.seen ++ r.2.2⟩

def Cursor.search (c : Cursor π α) (pat : List α) :
    State π → Except Empty (Outcome (State π) (State π)) :=
  whileDo (fun s => 0 < s.left && c.more s.idx) (c.body pat) id

end

/-- What a cursor reads from a position on up to the end of the region. The positions that it
looks at satisfy `inside` and the next one does not; those where it is satisfy `within`. -/
inductive Walk (c : Cursor π α) (inside within : π → Prop) : List α → π → Prop
  | done {i : π} (hi : within i) (hmore : c.more i = false) (hout : ¬inside (c.visit i).1) :
      Walk c inside within [] i
  | next {i : π} {a : α} {l : List α} (hi : within i) (hmore : c.more i = true)
      (hin : inside (c.visit i).1) (hread : c.read (c.visit i).1 = some a)
      (hrest : Walk c inside within l (c.visit i).2) : Walk c inside within (a :: l) i

/-- At each place that is tried for the `n` occurrences the pattern is there, or differs from
what is there inside the region. The first `skip` places belong to an occurrence. -/
def Clear [DecidableEq α] (pat : List α) : Nat → Nat → List α → Prop
  | 0, _, _ => True
  | _ + 1, _, [] => True
  | n + 1, skip + 1, _ :: l => Clear pat (n + 1) skip l
  | n + 1, 0, a :: l =>
    if pat <+: a :: l then Clear pat n (pat.length - 1) l
    else ¬a :: l <+: pat ∧ Clear pat (n + 1) 0 l

variable {c : Cursor π α} {inside within : π → Prop}

theorem Walk.within_self {l : List α} {i : π} (h : Walk c inside within l i) : within i := by
  cases h <;> assumption

/-! ## The pattern at a place -/

section

variable [DecidableEq α]

theorem matchFrom_there {pat l : List α} {i : π} (hw : Walk c inside within l i)
    (h : pat <+: l) :
    ∃ j seen, c.matchFrom pat i = (true, j, seen) ∧
      Walk c inside within (l.drop pat.length) j ∧ ∀ p ∈ seen, inside p := by
  induction pat generalizing l i with
  | nil => exact ⟨i, [], rfl, hw, fun _ hp => absurd hp not_mem_nil⟩
  | cons a pat ih =>
    cases hw with
    | done => exact absurd (List.prefix_nil.mp h) (cons_ne_nil a pat)
    | next hi hmore hin hread hrest =>
      obtain ⟨rfl, hpat⟩ := List.cons_prefix_cons.mp h
      obtain ⟨j, seen, heq, hwalk, hseen⟩ := ih hrest hpat
      refine ⟨j, (c.visit i).1 :: seen, ?_, hwalk, List.forall_mem_cons.mpr ⟨hin, hseen⟩⟩
      rw [Cursor.matchFrom, if_pos hread, heq]

theorem matchFrom_differs {pat l : List α} {i : π} (hw : Walk c inside within l i)
    (h : ¬pat <+: l) (h' : ¬l <+: pat) :
    ∃ j seen, c.matchFrom pat i = (false, j, seen) ∧ ∀ p ∈ seen, inside p := by
  induction pat generalizing l i with
  | nil => exact absurd nil_prefix h
  | cons a pat ih =>
    cases hw with
    | done => exact absurd nil_prefix h'
    | @next _ b l hi hmore hin hread hrest =>
      rw [Cursor.matchFrom, hread]
      by_cases hab : b = a
      · subst hab
        rw [cons_prefix_cons, not_and] at h h'
        obtain ⟨j, seen, heq, hseen⟩ := ih hrest (h rfl) (h' rfl)
        refine ⟨j, (c.visit i).1 :: seen, ?_, List.forall_mem_cons.mpr ⟨hin, hseen⟩⟩
        rw [if_pos rfl, heq]
      · rw [if_neg (mt Option.some.inj hab)]
        exact ⟨i, _, rfl, List.forall_mem_singleton.mpr hin⟩

theorem matchFrom_straddles {pat l : List α} {i : π} (hw : Walk c inside within l i)
    (h : ¬pat <+: l) (h' : l <+: pat) : ∃ p ∈ (c.matchFrom pat i).2.2, ¬inside p := by
  induction pat generalizing l i with
  | nil => exact absurd nil_prefix h
  | cons a pat ih =>
    cases hw with
    | done _ _ hout =>
      refine ⟨(c.visit i).1, ?_, hout⟩
      rw [Cursor.matchFrom]
      split_ifs <;> exact mem_cons_self ..
    | next hi hmore hin hread hrest =>
      obtain ⟨rfl, hl⟩ := List.cons_prefix_cons.mp h'
      rw [cons_prefix_cons, not_and] at h
      obtain ⟨p, hp, hout⟩ := ih hrest (h rfl) hl
      refine ⟨p, ?_, hout⟩
      rw [Cursor.matchFrom, if_pos hread]
      exact mem_cons_of_mem _ hp

/-! ## The search -/

theorem clear_drop (pat : List α) (n skip : Nat) (l : List α) :
    Clear pat n skip l ↔ Clear pat n 0 (l.drop skip) := by
  induction skip generalizing l with
  | zero => rfl
  | succ skip ih =>
    cases n with
    | zero => simp only [Clear]
    | succ n =>
      cases l with
      | nil => simp only [Clear, drop_nil]
      | cons a l =>
        rw [Clear, drop_succ_cons]
        exact ih l

theorem body_found {pat : List α} {s : State π} {j : π} {seen : List π}
    (h : c.matchFrom pat s.idx = (true, j, seen)) :
    c.body pat s = ⟨j, s.left - 1, s.idx, s.seen ++ seen⟩ := by
  rw [Cursor.body, h]
  exact if_pos rfl

theorem body_failed {pat : List α} {s : State π} {j : π} {seen : List π}
    (h : c.matchFrom pat s.idx = (false, j, seen)) :
    c.body pat s = ⟨(c.visit s.idx).2, s.left, s.start, s.seen ++ seen⟩ := by
  rw [Cursor.body, h]
  exact if_neg Bool.false_ne_true

theorem body_seen (pat : List α) (s : State π) :
    (c.body pat s).seen = s.seen ++ (c.matchFrom pat s.idx).2.2 := by
  rw [Cursor.body]
  exact (apply_ite State.seen _ _ _).trans (ite_self _)

theorem search_seen {pat : List α} {s r : State π} (h : Ends (c.search pat) s r) :
    s.seen ⊆ r.seen := by
  obtain ⟨r, hr, -, rfl⟩ := h.whileDo_keeps (I := fun t => s.seen ⊆ t.seen)
    (fun t _ ht p hp => by
      rw [body_seen]
      exact mem_append_left _ (ht hp))
    (fun _ hp => hp)
  exact hr

/-- If the pattern straddles the end of the region at no place, the search stays in it. -/
theorem search_clear {pat l : List α} (hpat : pat ≠ []) {s : State π}
    (hw : Walk c inside within l s.idx) (hc : Clear pat s.left 0 l) (hstart : within s.start)
    (hseen : ∀ p ∈ s.seen, inside p) :
    ∃ r, Ends (c.search pat) s r ∧ (∀ p ∈ r.seen, inside p) ∧ within r.start ∧
      within r.idx := by
  induction hlen : l.length using Nat.strongRecOn generalizing l s with
  | ind k ih =>
  subst hlen
  cases hleft : s.left with
  | zero => exact ⟨s, Ends.whileDo_done (by simp [hleft]), hseen, hstart, hw.within_self⟩
  | succ n =>
    rw [hleft] at hc
    cases l with
    | nil =>
      cases hw with
      | done hi hmore _ =>
        exact ⟨s, Ends.whileDo_done (by simp [hmore]), hseen, hstart, hi⟩
    | cons a l =>
      have hmore : (decide (0 < s.left) && c.more s.idx) = true := by
        cases hw with
        | next _ hmore _ _ _ => simp [hleft, hmore]
      have hrest : Walk c inside within l (c.visit s.idx).2 := by
        cases hw with
        | next _ _ _ _ hrest => exact hrest
      rw [Clear] at hc
      by_cases hthere : pat <+: a :: l
      · -- an occurrence: the search goes on behind it
        rw [if_pos hthere] at hc
        obtain ⟨j, seen, heq, hwalk, hin⟩ := matchFrom_there hw hthere
        obtain ⟨b, pat', rfl⟩ := exists_cons_of_ne_nil hpat
        rw [length_cons, Nat.add_sub_cancel, clear_drop] at hc
        have hbody : c.body (b :: pat') s = ⟨j, n, s.idx, s.seen ++ seen⟩ := by
          rw [body_found heq, hleft, Nat.add_sub_cancel]
        have hless : (l.drop (pat'.length + 1 - 1)).length < (a :: l).length := by
          rw [length_drop, length_cons]
          omega
        obtain ⟨r, hends, hr⟩ := ih _ hless (s := ⟨j, n, s.idx, s.seen ++ seen⟩)
          hwalk hc hw.within_self (fun p hp => (List.mem_append.mp hp).elim (hseen p) (hin p)) rfl
        exact ⟨r, Ends.whileDo_next hmore (by rw [hbody]; exact hends), hr⟩
      · -- none: it goes on at the next place
        rw [if_neg hthere] at hc
        obtain ⟨j, seen, heq, hin⟩ := matchFrom_differs hw hthere hc.1
        have hbody : c.body pat s
            = ⟨(c.visit s.idx).2, n + 1, s.start, s.seen ++ seen⟩ := by
          rw [body_failed heq, hleft]
        obtain ⟨r, hends, hr⟩ := ih _ (by simp)
          (s := ⟨(c.visit s.idx).2, n + 1, s.start, s.seen ++ seen⟩) hrest hc.2 hstart
          (fun p hp => (List.mem_append.mp hp).elim (hseen p) (hin p)) rfl
        exact ⟨r, Ends.whileDo_next hmore (by rw [hbody]; exact hends), hr⟩

theorem search_straddles {pat l : List α} (hpat : pat ≠ []) {s r : State π}
    (hw : Walk c inside within l s.idx) (hc : ¬Clear pat s.left 0 l)
    (h : Ends (c.search pat) s r) : ∃ p ∈ r.seen, ¬inside p := by
  induction hlen : l.length using Nat.strongRecOn generalizing l s with
  | ind k ih =>
  subst hlen
  cases hleft : s.left with
  | zero =>
    rw [hleft, Clear] at hc
    exact absurd trivial hc
  | succ n =>
    rw [hleft] at hc
    cases l with
    | nil =>
      rw [Clear] at hc
      exact absurd trivial hc
    | cons a l =>
      have hmore : (decide (0 < s.left) && c.more s.idx) = true := by
        cases hw with
        | next _ hmore _ _ _ => simp [hleft, hmore]
      have hrest : Walk c inside within l (c.visit s.idx).2 := by
        cases hw with
        | next _ _ _ _ hrest => exact hrest
      have hbody := h.of_whileDo_next hmore
      rw [Clear] at hc
      by_cases hthere : pat <+: a :: l
      · rw [if_pos hthere] at hc
        obtain ⟨j, seen, heq, hwalk, -⟩ := matchFrom_there hw hthere
        obtain ⟨b, pat', rfl⟩ := exists_cons_of_ne_nil hpat
        rw [length_cons, Nat.add_sub_cancel, clear_drop] at hc
        rw [body_found heq, hleft, Nat.add_sub_cancel] at hbody
        have hless : (l.drop (pat'.length + 1 - 1)).length < (a :: l).length := by
          rw [length_drop, length_cons]
          omega
        exact ih _ hless (s := ⟨j, n, s.idx, s.seen ++ seen⟩) hwalk hc hbody rfl
      · rw [if_neg hthere] at hc
        by_cases hend : a :: l <+: pat
        · -- here it does
          obtain ⟨p, hp, hout⟩ := matchFrom_straddles hw hthere hend
          refine ⟨p, search_seen hbody ?_, hout⟩
          rw [body_seen]
          exact mem_append_right _ hp
        · obtain ⟨j, seen, heq, -⟩ := matchFrom_differs hw hthere hend
          rw [body_failed heq, hleft] at hbody
          exact ih _ (by simp) (s := ⟨(c.visit s.idx).2, n + 1, s.start, s.seen ++ seen⟩) hrest
            (fun hclear => hc ⟨hend, hclear⟩) hbody rfl

theorem clear_of_seen {pat l : List α} (hpat : pat ≠ []) {s r : State π}
    (hw : Walk c inside within l s.idx) (h : Ends (c.search pat) s r)
    (hseen : ∀ p ∈ r.seen, inside p) : Clear pat s.left 0 l := by
  by_contra hc
  obtain ⟨p, hp, hout⟩ := search_straddles hpat hw hc h
  exact hout (hseen p hp)

end

end NaiveSearch

import XEmacs.Lib.ConsWalks
import XEmacs.Lib.Machines

/-!
# Loops along lists (lisp.h)

`PRIVATE_EXTERNAL_LIST_LOOP_6`, which goes along a list that Lisp programs have and looks for its
end with a tortoise, but only when the list is getting long.
-/

namespace XEmacs.Lists

open ConsLists Machines

/-- Memory is read through an object that is no cons. -/
inductive Fault where
  | notCons
deriving DecidableEq, Repr

/-- The errors, with their data. -/
inductive ListError (α : Type) where
  /-- `malformed-list` -/
  | malformedList (list : Ref α)
  /-- `circular-list` -/
  | circularList (list : Ref α)
  /-- `wrong-type-argument` -/
  | wrongTypeArgument (predicate : String) (object : Ref α)
deriving DecidableEq

variable {α σ : Type}

def xcar (c : Cells α) : Ref α → Except Fault α
  | .cell p => .ok (c.car p)
  | .atom _ => .error .notCons

def xcdr (c : Cells α) : Ref α → Except Fault (Ref α)
  | .cell p => .ok (c.cdr p)
  | .atom _ => .error .notCons

def setXcar (c : Cells α) (a : α) : Ref α → Except Fault (Cells α)
  | .cell p => .ok { c with car := Function.update c.car p a }
  | .atom _ => .error .notCons

section conses

variable [DecidableEq α] (nil : α) (c : Cells α)

def fcar : Ref α → Except (ListError α) α
  | .cell p => .ok (c.car p)
  | .atom a => if a = nil then .ok nil else .error (.wrongTypeArgument "listp" (.atom a))

def fcdr : Ref α → Except (ListError α) (Ref α)
  | .cell p => .ok (c.cdr p)
  | .atom a => if a = nil then .ok (.atom nil) else .error (.wrongTypeArgument "listp" (.atom a))

omit [DecidableEq α] in
def fsetcdr (conscell newcdr : Ref α) : Except (ListError α) (Cells α) :=
  match conscell with
  | .cell p => .ok (c.setCdr p newcdr)
  | .atom a => .error (.wrongTypeArgument "consp" (.atom a))

end conses

/-- The variables of a loop. The body may change them, and the conses. -/
structure Loop (α : Type) where
  cells : Cells α
  list : Ref α
  hare : Ref α
  tortoise : Ref α
  len : Nat

/-- `CIRCULAR_LIST_SUSPICION_LENGTH`. -/
abbrev circularListSuspicionLength : Nat := 1024

/-- `tortoise = hare = list, len = 0`. -/
def Loop.start (c : Cells α) (list : Ref α) : Loop α := ⟨c, list, list, list, 0⟩

variable [DecidableEq α]

/-- What the `for` does between two rounds; `none` for a circular list. -/
def Loop.advance (l : Loop α) : Except Fault (Option (Loop α)) := do
  let hare ← xcdr l.cells l.hare
  let len := l.len + 1
  if circularListSuspicionLength < len then
    let tortoise ← (if len % 2 = 1 then xcdr l.cells l.tortoise else pure l.tortoise)
    if hare = tortoise then return none
    return some { l with hare, tortoise, len }
  return some { l with hare, len }

/-- `PRIVATE_EXTERNAL_LIST_LOOP_6`, with a body that is given the cons. -/
def privateExternalListLoop6 (nil : α) (body : Nat → Loop α → σ → Loop α × σ) (s : Loop α × σ) :
    Except Fault (Outcome (Loop α × σ) (Except (ListError α) (Loop α))) :=
  match s.1.hare with
  | .atom a =>
    if a = nil then .ok (.done (.ok s.1)) else .ok (.done (.error (.malformedList s.1.list)))
  | .cell p => do
    let s' := body p s.1 s.2
    match ← s'.1.advance with
    | some l => return .next (l, s'.2)
    | none => return .done (.error (.circularList s'.1.list))

/-! ### The tortoise -/

/-- How far the hare is ahead, at the least: the tortoise moves in every second round of those
after the first 1024. -/
def lead (len : Nat) : Nat := len - (len - 1024 + 1) / 2

theorem lead_one : lead 1 = 1 := by simp [lead]

/-- The tortoise is behind the hare. -/
def Trails (l : Loop α) : Prop :=
  ∃ d, lead l.len ≤ d ∧ l.cells.tail l.tortoise d = l.hare

omit [DecidableEq α] in
theorem Trails.start (c : Cells α) (list : Ref α) : Trails (Loop.start c list) :=
  ⟨0, by simp [lead, Loop.start], rfl⟩

/-- One round further. -/
structure Advanced (l l' : Loop α) : Prop where
  cells : l'.cells = l.cells
  list : l'.list = l.list
  hare : l'.hare = l.cells.rest l.hare
  len : l'.len = l.len + 1
  tortoise : l'.tortoise =
    if 1024 ≤ l.len ∧ l.len % 2 = 0 then l.cells.rest l.tortoise else l.tortoise
  apart : 1024 ≤ l.len → l'.hare ≠ l'.tortoise
  trails : Trails l'

omit [DecidableEq α] in
theorem xcdr_of_isCell {c : Cells α} {r : Ref α} (h : r.IsCell) : xcdr c r = .ok (c.rest r) := by
  obtain ⟨p, rfl⟩ := h.exists
  rfl

omit [DecidableEq α] in
theorem isCell_of_tail {c : Cells α} {r : Ref α} {k : Nat} (h : (c.tail r k).IsCell) :
    r.IsCell := by
  cases r with
  | cell p => trivial
  | atom a =>
    rw [Cells.tail_atom] at h
    exact h

/-- Where the tortoise goes in a round that looks for it. -/
def Loop.nextTortoise (l : Loop α) : Ref α :=
  if l.len % 2 = 0 then l.cells.rest l.tortoise else l.tortoise

theorem Loop.advance_short {l : Loop α} (hcell : l.hare.IsCell) (h : l.len < 1024) :
    l.advance = .ok (some { l with hare := l.cells.rest l.hare, len := l.len + 1 }) := by
  have hlen : ¬ circularListSuspicionLength < l.len + 1 := by
    show ¬ 1024 < l.len + 1
    omega
  rw [Loop.advance, xcdr_of_isCell hcell]
  show (if circularListSuspicionLength < l.len + 1 then _ else _) = _
  rw [if_neg hlen]
  rfl

theorem Loop.advance_long {l : Loop α} (hcell : l.hare.IsCell) (htort : l.tortoise.IsCell)
    (h : 1024 ≤ l.len) : l.advance = .ok (if l.cells.rest l.hare = l.nextTortoise then none
      else some { l with
        hare := l.cells.rest l.hare, tortoise := l.nextTortoise, len := l.len + 1 }) := by
  have hlen : circularListSuspicionLength < l.len + 1 := Nat.lt_succ_of_le h
  have hmove : (if (l.len + 1) % 2 = 1 then xcdr l.cells l.tortoise else pure l.tortoise) =
      .ok l.nextTortoise := by
    rw [nextTortoise, xcdr_of_isCell htort]
    by_cases hodd : l.len % 2 = 0
    · rw [if_pos hodd, if_pos (by omega)]
    · rw [if_neg hodd, if_neg (by omega)]
      rfl
  rw [Loop.advance, xcdr_of_isCell hcell]
  show (if circularListSuspicionLength < l.len + 1 then _ else _) = _
  rw [if_pos hlen]
  show (_ >>= fun tortoise => _) = _
  rw [hmove]
  show (if _ then _ else _) = _
  split <;> rfl

/-- **Between two rounds** the hare goes on, or it is on a circle. -/
theorem Loop.advance_spec {l : Loop α} (h : Trails l) (hcell : l.hare.IsCell) :
    (∃ l', l.advance = .ok (some l') ∧ Advanced l l') ∨
      (l.advance = .ok none ∧ ∃ m, l.cells.tail (l.cells.rest l.hare) m = l.hare) := by
  obtain ⟨d, hlead, hd⟩ := h
  have htort : l.tortoise.IsCell := isCell_of_tail (k := d) (hd ▸ hcell)
  have hnext : l.cells.tail l.tortoise (d + 1) = l.cells.rest l.hare := by
    rw [Cells.tail_succ, hd]
  by_cases hlen : 1024 ≤ l.len
  · -- the tortoise is still behind after it has gone on
    obtain ⟨e, he, hback, hfront⟩ : ∃ e, lead (l.len + 1) ≤ e + 1 ∧
        l.cells.tail l.nextTortoise e = l.hare ∧
        l.cells.tail l.nextTortoise (e + 1) = l.cells.rest l.hare := by
      rw [lead] at hlead
      by_cases hodd : l.len % 2 = 0
      · have hpos : d - 1 + 1 = d := by omega
        refine ⟨d - 1, by rw [lead]; omega, ?_, ?_⟩
        · rw [nextTortoise, if_pos hodd, ← Cells.tail_succ', hpos, hd]
        · rw [nextTortoise, if_pos hodd, ← Cells.tail_succ', hpos, hnext]
      · refine ⟨d, by rw [lead]; omega, ?_, ?_⟩
        · rw [nextTortoise, if_neg hodd, hd]
        · rw [nextTortoise, if_neg hodd, hnext]
    by_cases hmeet : l.cells.rest l.hare = l.nextTortoise
    · refine .inr ⟨?_, e, hmeet ▸ hback⟩
      rw [Loop.advance_long hcell htort hlen, if_pos hmeet]
    · have hadvance := Loop.advance_long hcell htort hlen
      rw [if_neg hmeet] at hadvance
      refine .inl ⟨_, hadvance, rfl, rfl, rfl, rfl, ?_, fun _ => hmeet, e + 1, he, hfront⟩
      simp only [hlen, true_and, nextTortoise]
  · refine .inl ⟨_, Loop.advance_short hcell (Nat.not_le.mp hlen), rfl, rfl, rfl, rfl,
      (if_neg fun h => hlen h.1).symm, fun h => absurd h hlen, d + 1, ?_, hnext⟩
    show lead (l.len + 1) ≤ d + 1
    rw [lead] at hlead ⊢
    omega

end XEmacs.Lists

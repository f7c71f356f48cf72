import XEmacs.Lists.Loop

/-!
# Deleting from lists (fns.c)

`EXTERNAL_LIST_LOOP_DELETE_IF` unlinks the conses whose element satisfies a condition, and starts
to count anew at each of them.
-/

namespace XEmacs.Lists

open ConsLists Machines

variable {α : Type} [DecidableEq α]

/-! ### The functions -/

section functions

variable (nil : α) (c : Cells α) (list : Ref α)

omit [DecidableEq α] in
/-- The body of `EXTERNAL_LIST_LOOP_DELETE_IF`, with `prev_tail`. -/
def deleteIfBody (condition : α → Bool) (p : Nat) (l : Loop α) (prevTail : Option Nat) :
    Loop α × Option Nat :=
  if condition (l.cells.car p) then
    -- keep tortoise from ever passing hare
    match prevTail with
    | none => ({ l with list := l.cells.cdr p, len := 0 }, prevTail)
    | some q => ({ l with cells := l.cells.setCdr q (l.cells.cdr p), len := 0 }, prevTail)
  else (l, some p)

def deleteIfStep (condition : α → Bool) (s : Loop α × Option Nat) :
    Except Fault (Outcome (Loop α × Option Nat) (Except (ListError α) (Loop α))) :=
  privateExternalListLoop6 nil (deleteIfBody condition) s

/-- `EXTERNAL_LIST_LOOP_DELETE_IF`, which leaves a list and the conses or signals an error. -/
def ExternalListLoopDeleteIf (condition : α → Bool)
    (a : Except (ListError α) (Ref α × Cells α)) : Prop :=
  ∃ o, Ends (deleteIfStep nil condition) (Loop.start c list, none) o ∧
    a = o.map fun l => (l.list, l.cells)

variable (equal : α → α → Bool)

def Fdelete (elt : α) : Except (ListError α) (Ref α × Cells α) → Prop :=
  ExternalListLoopDeleteIf nil c list fun listElt => equal elt listElt

def Fdelq (elt : α) : Except (ListError α) (Ref α × Cells α) → Prop :=
  ExternalListLoopDeleteIf nil c list fun listElt => elt = listElt

/-- The car and the cdr of an element that is a cons. -/
abbrev Conses (α : Type) := α → Option (α × α)

variable (conses : Conses α)

def Fremassoc (key : α) : Except (ListError α) (Ref α × Cells α) → Prop :=
  ExternalListLoopDeleteIf nil c list fun elt => (conses elt).any fun e => equal key e.1

def Fremassq (key : α) : Except (ListError α) (Ref α × Cells α) → Prop :=
  ExternalListLoopDeleteIf nil c list fun elt => (conses elt).any fun e => key = e.1

def Fremrassoc (value : α) : Except (ListError α) (Ref α × Cells α) → Prop :=
  ExternalListLoopDeleteIf nil c list fun elt => (conses elt).any fun e => equal value e.2

def Fremrassq (value : α) : Except (ListError α) (Ref α × Cells α) → Prop :=
  ExternalListLoopDeleteIf nil c list fun elt => (conses elt).any fun e => value = e.2

end functions

/-! ### Rounds -/

/-- What holds between two rounds: the tortoise trails, and the last cons that has been kept
leads to the hare. -/
structure Sound (condition : α → Bool) (s : Loop α × Option Nat) : Prop where
  trails : Trails s.1
  prev : ∀ x, s.2 = some x → condition (s.1.cells.car x) = false ∧ s.1.cells.cdr x = s.1.hare

omit [DecidableEq α] in
theorem Sound.start (condition : α → Bool) (c : Cells α) (list : Ref α) :
    Sound condition (Loop.start c list, none) :=
  ⟨.start c list, nofun⟩

variable (nil : α) {condition : α → Bool} {s : Loop α × Option Nat} {p : Nat}

omit [DecidableEq α] in
/-- The conses after one has been taken out. -/
def unlinked (c : Cells α) (prevTail : Option Nat) (p : Nat) : Cells α :=
  match prevTail with
  | none => c
  | some x => c.skip x p

omit [DecidableEq α] in
theorem unlinked_car (c : Cells α) (prevTail : Option Nat) (p : Nat) :
    (unlinked c prevTail p).car = c.car := by
  cases prevTail <;> rfl

/-- The variables after a round that has taken out a cons. -/
def Loop.deleted (l : Loop α) (prevTail : Option Nat) (p : Nat) : Loop α where
  cells := unlinked l.cells prevTail p
  list := match prevTail with
    | none => l.cells.cdr p
    | some _ => l.list
  hare := l.cells.cdr p
  tortoise := l.tortoise
  len := 1

omit [DecidableEq α] in
theorem Sound.ne (h : Sound condition s) (ht : condition (s.1.cells.car p) = true) {x : Nat}
    (hx : s.2 = some x) : x ≠ p := by
  rintro rfl
  rw [(h.prev x hx).1] at ht
  cases ht

theorem Sound.step_match (h : Sound condition s) (hp : s.1.hare = .cell p)
    (ht : condition (s.1.cells.car p) = true) :
    Next (deleteIfStep nil condition) s (s.1.deleted s.2 p, s.2) ∧
      Sound condition (s.1.deleted s.2 p, s.2) := by
  obtain ⟨⟨c, list, hare, tortoise, len⟩, prevTail⟩ := s
  obtain rfl : hare = .cell p := hp
  have hbody : (deleteIfBody condition p ⟨c, list, .cell p, tortoise, len⟩ prevTail).1.advance =
        .ok (some (Loop.deleted ⟨c, list, .cell p, tortoise, len⟩ prevTail p)) ∧
      (deleteIfBody condition p ⟨c, list, .cell p, tortoise, len⟩ prevTail).2 = prevTail := by
    unfold deleteIfBody
    rw [if_pos ht]
    cases prevTail with
    | none => exact ⟨Loop.advance_short (by exact trivial) (Nat.succ_pos _), rfl⟩
    | some x =>
      refine ⟨(Loop.advance_short (by exact trivial) (Nat.succ_pos _)).trans ?_, rfl⟩
      -- the cons itself still leads on
      have hcdr : (c.skip x p).cdr p = c.cdr p := Cells.skip_of_ne (h.ne ht rfl).symm
      exact congrArg (fun r => Except.ok (some (Loop.mk (c.skip x p) list r tortoise 1))) hcdr
  refine ⟨?_, ?_, fun x hx => ?_⟩
  · rw [Next, deleteIfStep, privateExternalListLoop6]
    show (_ >>= fun _ => _) = _
    rw [hbody.1, hbody.2]
    rfl
  · obtain ⟨d, -, hd⟩ := h.trails
    cases prevTail with
    | none => exact ⟨d + 1, lead_one.trans_le (Nat.le_add_left 1 d), Cells.tail_succ_of_cell hd⟩
    | some x =>
      obtain ⟨d', hpos, hd'⟩ := Cells.exists_skip_tail_next (h.ne ht rfl) hd
      exact ⟨d', lead_one.trans_le hpos, hd'⟩
  · obtain ⟨hkept, -⟩ := h.prev x hx
    obtain rfl : prevTail = some x := hx
    exact ⟨hkept, Cells.skip_self⟩

theorem Sound.step_keep (h : Sound condition s) (hp : s.1.hare = .cell p)
    (ht : condition (s.1.cells.car p) = false) :
    (∃ l, Next (deleteIfStep nil condition) s (l, some p) ∧ Advanced s.1 l ∧
        Sound condition (l, some p)) ∨
      (deleteIfStep nil condition s = .ok (.done (.error (.circularList s.1.list))) ∧
        ∃ m, s.1.cells.tail (s.1.cells.cdr p) m = .cell p) := by
  have hbody : deleteIfBody condition p s.1 s.2 = (s.1, some p) := by
    unfold deleteIfBody
    rw [ht, if_neg Bool.false_ne_true]
  obtain ⟨l, hadvance, hl⟩ | ⟨hadvance, m, hm⟩ := Loop.advance_spec h.trails (hp ▸ trivial)
  · refine .inl ⟨l, ?_, hl, hl.trails, fun x hx => ?_⟩
    · rw [Next, deleteIfStep, privateExternalListLoop6, hp]
      simp only [hbody, hadvance]
      rfl
    · cases hx
      rw [hl.cells, hl.hare, hp]
      exact ⟨ht, rfl⟩
  · rw [hp] at hm
    refine .inr ⟨?_, m, hm⟩
    rw [deleteIfStep, privateExternalListLoop6, hp]
    simp only [hbody, hadvance]
    rfl

theorem step_atom {a : α} (ha : s.1.hare = .atom a) : deleteIfStep nil condition s =
    .ok (.done (if a = nil then .ok s.1 else .error (.malformedList s.1.list))) := by
  simp only [deleteIfStep, privateExternalListLoop6, ha]
  split <;> rfl

end XEmacs.Lists

import XEmacs.Lists.Loop

/-!
# Walking along a property list (fns.c)

A property list that Lisp programs have may be malformed or circular. The functions on it walk
with two pointers, of which the hare goes ahead twice as fast and makes sure that there are as
many cells as the tortoise needs.
-/

namespace XEmacs.Plists

open ConsLists Machines
open XEmacs.Lists (Fault xcar xcdr setXcar)

/-- `Error_behavior`. -/
inductive ErrorBehavior where
  | errorMe
  | errorMeNot
  | errorMeWarn
deriving DecidableEq, Repr

variable {α : Type} [DecidableEq α]

/-- The errors, with their data. -/
inductive PlistError (α : Type) where
  /-- `malformed-property-list` -/
  | malformed (plist badplace : Ref α)
  /-- `circular-property-list` -/
  | circular (plist : Ref α)
deriving DecidableEq

/-- The two pointers. -/
structure Pointers where
  tortoise : Place
  hare : Place
deriving DecidableEq

/-- What `advance_plist_pointers` comes to: the pointers further on, or 0 with `Qunbound` to be
returned and the list as it has been left, or an error. -/
inductive Advance (α : Type) where
  | on (s : Pointers)
  | unbound (plist : Ref α) (c : Cells α)
  | signaled (e : PlistError α)

section advance

variable (nil : α) (errb : ErrorBehavior) (c : Cells α) (plist : Ref α)

/-- What `bad_bad_bunny` and `bad_bad_turtle` have in common. -/
def bad (badplace : Place) (e : PlistError α) : Advance α :=
  match errb with
  | .errorMe => .signaled e
  | .errorMeWarn =>
    .unbound (badplace.store c plist (.atom nil)).1 (badplace.store c plist (.atom nil)).2
  | .errorMeNot => .unbound plist c

def badBadBunny (badplace : Place) : Advance α :=
  bad nil errb c plist badplace (.malformed plist (badplace.get c plist))

def badBadTurtle (badplace : Place) : Advance α :=
  bad nil errb c plist badplace (.circular plist)

def xcdrPlace : Ref α → Except Fault Place
  | .cell p => .ok (.cdr p)
  | .atom _ => .error .notCons

/-- The hare two cells further, or where it is at the end; `none` if a cell is missing. -/
def advanceHare (hare : Place) : Option Place :=
  match hare.get c plist with
  | .atom a => if a = nil then some hare else none
  | .cell p =>
    match c.cdr p with
    | .atom _ => none
    | .cell q => some (.cdr q)

/-- One round of the loop in `advance_plist_pointers`. -/
def advanceOne (tortsave : Place) (s : Pointers) : Except Fault (Advance α) :=
  match advanceHare nil c plist s.hare with
  | none => .ok (badBadBunny nil errb c plist s.hare)
  | some hare => do
    let tortoise ← xcdrPlace (s.tortoise.get c plist)
    if hare.get c plist ≠ .atom nil ∧ tortoise.get c plist = hare.get c plist then
      return badBadTurtle nil errb c plist tortsave
    else return .on ⟨tortoise, hare⟩

def advancePlistPointers (s : Pointers) : Except Fault (Advance α) := do
  match ← advanceOne nil errb c plist s.tortoise s with
  | .on s' => advanceOne nil errb c plist s.tortoise s'
  | stopped => return stopped

/-- What the loop of a function ends with: at the end of the list, at an entry (and where it is
kept), or as `advance_plist_pointers` does. -/
inductive Walked (α : Type) where
  | ended
  | found (tortsave : Place)
  | unbound (plist : Ref α) (c : Cells α)
  | signaled (e : PlistError α)

/-- The loop that the functions share, with the test on the entry that has been passed. -/
def walk (found : Ref α → Except Fault Bool) (s : Pointers) :
    Except Fault (Outcome Pointers (Walked α)) :=
  if s.tortoise.get c plist = .atom nil then .ok (.done .ended)
  else do
    match ← advancePlistPointers nil errb c plist s with
    | .on s' =>
      if ← found (s.tortoise.get c plist) then return .done (.found s.tortoise)
      else return .next s'
    | .unbound plist' c' => return .done (.unbound plist' c')
    | .signaled e => return .done (.signaled e)

/-- The pointers at the start. -/
def start : Pointers := ⟨.head, .head⟩

/-- Walk from the start. -/
def Walks (found : Ref α → Except Fault Bool) (w : Walked α) : Prop :=
  Ends (walk nil errb c plist found) start w

end advance

/-! ### The functions -/

/-- What a function comes to: a value, with the list and the heap as it leaves them, or an
error. -/
inductive Answer (α β : Type) where
  | returned (value : β) (plist : Ref α) (c : Cells α)
  | signaled (e : PlistError α)

section functions

variable (nil : α) (c : Cells α) (plist : Ref α)

/-- The test on an entry: its key is PROPERTY, by `eq` or by `equal`. -/
def keyIs (same : α → α → Bool) (property : α) (r : Ref α) : Except Fault Bool := do
  return same (← xcar c r) property

/-- The last part of `external_plist_get`. -/
def getAt : Walked α → Except Fault (Answer α (Option α))
  | .ended => .ok (.returned none plist c)
  | .found tortsave => do
    return .returned (some (← xcar c (← xcdr c (tortsave.get c plist)))) plist c
  | .unbound plist' c' => .ok (.returned none plist' c')
  | .signaled e => .ok (.signaled e)

/-- `external_plist_get`; `none` is `Qunbound`. -/
def ExternalPlistGet (errb : ErrorBehavior) (same : α → α → Bool) (property : α)
    (a : Answer α (Option α)) : Prop :=
  ∃ w, Walks nil errb c plist (keyIs c same property) w ∧ getAt c plist w = .ok a

/-- The last part of `external_plist_put`. -/
def putAt (property value : α) : Walked α → Except Fault (Answer α Unit)
  | .ended =>
    let c' := c.cons value plist
    .ok (.returned () (.cell c'.next) (c'.cons property (.cell c.next)))
  | .found tortsave => do
    let c' ← setXcar c value (← xcdr c (tortsave.get c plist))
    return .returned () plist c'
  | .unbound plist' c' => .ok (.returned () plist' c')
  | .signaled e => .ok (.signaled e)

def ExternalPlistPut (errb : ErrorBehavior) (same : α → α → Bool) (property value : α)
    (a : Answer α Unit) : Prop :=
  ∃ w, Walks nil errb c plist (keyIs c same property) w ∧ putAt c plist property value w = .ok a

/-- The last part of `external_remprop`. -/
def rempropAt : Walked α → Except Fault (Answer α Bool)
  | .ended => .ok (.returned false plist c)
  | .found tortsave => do
    let new ← xcdr c (← xcdr c (tortsave.get c plist))
    return .returned true (tortsave.store c plist new).1 (tortsave.store c plist new).2
  | .unbound plist' c' => .ok (.returned false plist' c')
  | .signaled e => .ok (.signaled e)

def ExternalRemprop (errb : ErrorBehavior) (same : α → α → Bool) (property : α)
    (a : Answer α Bool) : Prop :=
  ∃ w, Walks nil errb c plist (keyIs c same property) w ∧ rempropAt c plist w = .ok a

def ValidPlistP (b : Bool) : Prop :=
  ∃ w, Walks nil .errorMeNot c plist (fun _ => .ok false) w ∧
    match w with
    | .ended => b = true
    | _ => b = false

/-- `check-valid-plist`; `none` if it returns. `Fsignal` does not return here. -/
def CheckValidPlist (e : Option (PlistError α)) : Prop :=
  ∃ w, Walks nil .errorMe c plist (fun _ => .ok false) w ∧
    match w with
    | .signaled e' => e = some e'
    | _ => e = none

def PlistGet (property default : α) (a : Answer α α) : Prop :=
  ∃ a', ExternalPlistGet nil c plist .errorMe (· = ·) property a' ∧
    a = match a' with
      | .returned value plist' c' => .returned (value.getD default) plist' c'
      | .signaled e => .signaled e

def PlistPut (property value : α) (a : Answer α Unit) : Prop :=
  ExternalPlistPut nil c plist .errorMe (· = ·) property value a

def PlistRemprop (property : α) (a : Answer α Bool) : Prop :=
  ExternalRemprop nil c plist .errorMe (· = ·) property a

end functions

end XEmacs.Plists

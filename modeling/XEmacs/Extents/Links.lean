import Mathlib.Data.List.Count
import Mathlib.Logic.Function.Basic

/-!
# Parents and children of extents

An extent can have a parent, from which it inherits its properties. The relation is stored twice,
in the auxiliary structures of the two extents (`struct extent_auxiliary`).
-/

namespace XEmacs.Links

open Function

abbrev ExtentId := Nat

abbrev WeakListId := Nat

/-- `struct extent_auxiliary`. -/
structure ExtentAuxiliary where
  parent : Option ExtentId
  children : Option WeakListId
deriving DecidableEq, Repr

def extentAuxiliaryDefaults : ExtentAuxiliary := ⟨none, none⟩

/-- `struct extent`: whether it is destroyed (its object is `t`), its flag
`has_parent`, and its auxiliary structure, if its flag `has_aux` is set. -/
structure Extent where
  destroyed : Bool
  hasParent : Bool
  aux : Option ExtentAuxiliary
deriving DecidableEq, Repr

structure Heap where
  extent : ExtentId → Extent
  extentCount : Nat
  weakList : WeakListId → List ExtentId
  weakListCount : Nat

inductive Signal where
  /-- `CHECK_EXTENT` or `CHECK_LIVE_EXTENT` fails. -/
  | wrongType
  /-- `Circular parent chain would result`. -/
  | invalidChange
deriving DecidableEq, Repr

/-- How a command ends: the heap it leaves, and its error if it signals one. -/
structure Result where
  heap : Heap
  signal : Option Signal

namespace Heap

variable (h : Heap)

def empty : Heap := ⟨fun _ => ⟨true, false, none⟩, 0, fun _ => [], 0⟩

/-- `EXTENT_LIVE_P`, for an object that is an extent. -/
def Live (e : ExtentId) : Prop := e < h.extentCount ∧ (h.extent e).destroyed = false

instance (e : ExtentId) : Decidable (h.Live e) :=
  inferInstanceAs (Decidable (_ ∧ _))

def extentAuxOrDefault (e : ExtentId) : ExtentAuxiliary :=
  (h.extent e).aux.getD extentAuxiliaryDefaults

def extentParent (e : ExtentId) : Option ExtentId := (h.extentAuxOrDefault e).parent

def extentChildren (e : ExtentId) : Option WeakListId := (h.extentAuxOrDefault e).children

/-- `Fextent_children`. -/
def children (e : ExtentId) : List ExtentId :=
  match h.extentChildren e with
  | none => []
  | some w => h.weakList w

theorem children_of_none {h : Heap} {e : ExtentId} (hw : h.extentChildren e = none) :
    h.children e = [] := by
  rw [children, hw]

theorem children_of_some {h : Heap} {e : ExtentId} {w : WeakListId}
    (hw : h.extentChildren e = some w) : h.children e = h.weakList w := by
  rw [children, hw]

/-- `set_extent_no_chase_aux_field`, which allocates the auxiliary structure of an
extent that has none. -/
def setExtentNoChaseAuxField (e : ExtentId) (set : ExtentAuxiliary → ExtentAuxiliary) : Heap :=
  { h with
    extent := Function.update h.extent e
      { h.extent e with aux := some (set (h.extentAuxOrDefault e)) } }

def setHasParent (e : ExtentId) (flag : Bool) : Heap :=
  { h with extent := Function.update h.extent e { h.extent e with hasParent := flag } }

def setWeakList (w : WeakListId) (l : List ExtentId) : Heap :=
  { h with weakList := Function.update h.weakList w l }

@[simp] theorem live_setExtentNoChaseAuxField {e x : ExtentId}
    {set : ExtentAuxiliary → ExtentAuxiliary} :
    (h.setExtentNoChaseAuxField e set).Live x ↔ h.Live x := by
  by_cases hx : x = e
  · simp only [Live, setExtentNoChaseAuxField, hx, update_self]
  · simp only [Live, setExtentNoChaseAuxField, update_of_ne hx]

@[simp] theorem live_setHasParent {e x : ExtentId} {flag : Bool} :
    (h.setHasParent e flag).Live x ↔ h.Live x := by
  by_cases hx : x = e
  · simp only [Live, setHasParent, hx, update_self]
  · simp only [Live, setHasParent, update_of_ne hx]

@[simp] theorem live_setWeakList {w : WeakListId} {l : List ExtentId} {x : ExtentId} :
    (h.setWeakList w l).Live x ↔ h.Live x := Iff.rfl

@[simp] theorem extentAuxOrDefault_setExtentNoChaseAuxField (e x : ExtentId)
    (set : ExtentAuxiliary → ExtentAuxiliary) :
    (h.setExtentNoChaseAuxField e set).extentAuxOrDefault x
      = if x = e then set (h.extentAuxOrDefault e) else h.extentAuxOrDefault x := by
  by_cases hx : x = e
  · rw [hx, if_pos rfl]
    simp only [extentAuxOrDefault, setExtentNoChaseAuxField, update_self,
      Option.getD_some]
  · rw [if_neg hx]
    simp only [extentAuxOrDefault, setExtentNoChaseAuxField, update_of_ne hx]

@[simp] theorem extentAuxOrDefault_setHasParent (e x : ExtentId) (flag : Bool) :
    (h.setHasParent e flag).extentAuxOrDefault x = h.extentAuxOrDefault x := by
  by_cases hx : x = e
  · simp only [extentAuxOrDefault, setHasParent, hx, update_self]
  · simp only [extentAuxOrDefault, setHasParent, update_of_ne hx]

@[simp] theorem extentAuxOrDefault_setWeakList (w : WeakListId) (l : List ExtentId)
    (x : ExtentId) : (h.setWeakList w l).extentAuxOrDefault x = h.extentAuxOrDefault x := rfl

theorem children_setWeakList_self {h : Heap} {w : WeakListId} {l : List ExtentId} {x : ExtentId}
    (hw : h.extentChildren x = some w) : (h.setWeakList w l).children x = l := by
  have hw' : (h.setWeakList w l).extentChildren x = some w := hw
  rw [children_of_some hw']
  exact update_self ..

theorem children_setWeakList_of_ne {h : Heap} {w : WeakListId} {l : List ExtentId}
    {x : ExtentId} (hw : h.extentChildren x ≠ some w) :
    (h.setWeakList w l).children x = h.children x := by
  cases hx : h.extentChildren x with
  | none =>
    have hx' : (h.setWeakList w l).extentChildren x = none := hx
    rw [children_of_none hx, children_of_none hx']
  | some w' =>
    have hx' : (h.setWeakList w l).extentChildren x = some w' := hx
    rw [children_of_some hx, children_of_some hx']
    have hne : w' ≠ w := by
      rintro rfl
      exact hw hx
    exact update_of_ne hne ..

def makeWeakList : Heap :=
  { h with
    weakList := Function.update h.weakList h.weakListCount []
    weakListCount := h.weakListCount + 1 }

@[simp] theorem live_makeWeakList {x : ExtentId} : h.makeWeakList.Live x ↔ h.Live x := Iff.rfl

@[simp] theorem extentAuxOrDefault_makeWeakList (x : ExtentId) :
    h.makeWeakList.extentAuxOrDefault x = h.extentAuxOrDefault x := rfl

/-- `remove_extent_from_children_list`; `delq_no_quit` deletes every occurrence. -/
def removeExtentFromChildrenList (e child : ExtentId) : Heap :=
  match h.extentChildren e with
  | none => h
  | some w => h.setWeakList w ((h.weakList w).filter (· ≠ child))

def addExtentToChildrenList (e child : ExtentId) : Heap :=
  match h.extentChildren e with
  | none =>
    let w := h.weakListCount
    let h' := h.makeWeakList.setExtentNoChaseAuxField e (fun a => { a with children := some w })
    h'.setWeakList w (child :: h'.weakList w)
  | some w => h.setWeakList w (child :: h.weakList w)

/-- The loop of `Fset_extent_parent` that looks for `extent` among `rest` and its
ancestors. -/
def chainMeets (extent : ExtentId) : Nat → Option ExtentId → Bool
  | _, none => false
  | 0, some _ => false
  | fuel + 1, some rest => rest = extent || chainMeets extent fuel (h.extentParent rest)

def setExtentParent (extent : ExtentId) (parent : Option ExtentId) : Result :=
  if ¬ h.Live extent then ⟨h, some .wrongType⟩
  else if ∃ p ∈ parent, ¬ h.Live p then ⟨h, some .wrongType⟩
  else if parent = h.extentParent extent then ⟨h, none⟩
  else if h.chainMeets extent h.extentCount parent then ⟨h, some .invalidChange⟩
  else
    match parent with
    | none =>
      let h₁ := match h.extentParent extent with
        | none => h
        | some curParent => h.removeExtentFromChildrenList curParent extent
      ⟨(h₁.setExtentNoChaseAuxField extent (fun a => { a with parent := none })).setHasParent extent
        false, none⟩
    | some p =>
      ⟨((h.addExtentToChildrenList p extent).setExtentNoChaseAuxField extent
        (fun a => { a with parent := some p })).setHasParent extent true, none⟩

def makeExtentDetached : Heap :=
  { h with
    extent := Function.update h.extent h.extentCount ⟨false, false, none⟩
    extentCount := h.extentCount + 1 }

/-- `copy_extent`: the copy has the flags of the original, and an auxiliary structure
of its own with the same fields. -/
def copyExtent (original : ExtentId) : Heap :=
  let e := h.extentCount
  let h₁ := h.makeExtentDetached
  let h₂ := { h₁ with
    extent := Function.update h₁.extent e
      { h₁.extent e with
        hasParent := (h.extent original).hasParent
        aux := (h.extent original).aux } }
  match h₂.extentParent e with
  | none => h₂
  | some parent => h₂.addExtentToChildrenList parent e

/-- The loop of `destroy_extent` over the children. It holds the next cons before it
changes the parent of a child, so it goes through the list as it was; an occurrence of
a child that is no longer in the list has no parent any more, and nothing is done for
it. -/
def orphan (h : Heap) : List ExtentId → Result
  | [] => ⟨h, none⟩
  | child :: rest =>
    let r := h.setExtentParent child none
    match r.signal with
    | none => orphan r.heap rest
    | some _ => r

/-- The end of `destroy_extent`: the extent's object becomes `t`. -/
def markDestroyed (e : ExtentId) : Heap :=
  { h with extent := Function.update h.extent e { h.extent e with destroyed := true } }

def destroyExtent (extent : ExtentId) : Result :=
  let r := h.orphan (h.children extent)
  match r.signal with
  | some _ => r
  | none =>
    let r' := r.heap.setExtentParent extent none
    match r'.signal with
    | some _ => r'
    | none => ⟨r'.heap.markDestroyed extent, none⟩

def makeExtent : Result := ⟨h.makeExtentDetached, none⟩

def copyExtentCommand (extent : ExtentId) : Result :=
  if h.Live extent then ⟨h.copyExtent extent, none⟩ else ⟨h, some .wrongType⟩

def deleteExtent (extent : ExtentId) : Result :=
  if ¬ extent < h.extentCount then ⟨h, some .wrongType⟩
  else if ¬ h.Live extent then ⟨h, none⟩
  else h.destroyExtent extent

end Heap

/-- The commands that touch the relation. -/
inductive Command where
  | setExtentParent (extent : ExtentId) (parent : Option ExtentId)
  | copyExtent (extent : ExtentId)
  | deleteExtent (extent : ExtentId)
  | makeExtent
deriving DecidableEq, Repr

/-- A command, whose error if any goes to the command loop. -/
def Command.run (h : Heap) : Command → Result
  | setExtentParent extent parent => h.setExtentParent extent parent
  | copyExtent extent => h.copyExtentCommand extent
  | deleteExtent extent => h.deleteExtent extent
  | makeExtent => h.makeExtent

end XEmacs.Links

import XEmacs.Buffer.Markers
import XEmacs.Lib.Runs

/-!
# Gap arrays (extents.c)

A gap array is an array of elements with a gap, and with markers that move as elements are
inserted and deleted. It is a buffer's text in small.
-/

namespace XEmacs.GapArrays

open BytePositions ByteMemory Gap Runs List

/-- How a function of the source ends otherwise. -/
inductive ArrayError where
  /-- An `assert` fails. -/
  | assertion
  /-- `memory_full`. -/
  | memoryFull
  deriving DecidableEq

/-- `struct gap_array`: the elements by memory position, in a block if there is one yet, and the
markers, each under a name. -/
structure GapArray (α : Type) where
  array : Nat → α
  allocated : Bool
  gap : Nat
  gapsize : Nat
  numels : Nat
  markers : List (Nat × Int)

namespace GapArray

variable {α : Type}

/-- `make_gap_array`; memory holds what it happens to hold. -/
def makeGapArray (block : Nat → α) : GapArray α := ⟨block, false, 0, 0, 0, []⟩

/-- `GAP_ARRAY_ARRAY_TO_MEMORY_POS`. -/
def arrayToMemoryPos (ga : GapArray α) (pos : Nat) : Int :=
  if pos ≤ ga.gap then pos else pos + ga.gapsize

/-- `GAP_ARRAY_MEMORY_TO_ARRAY_POS`. -/
def memoryToArrayPos (ga : GapArray α) (pos : Int) : Int :=
  if pos ≤ ga.gap then pos else pos - ga.gapsize

/-- The element at `GAP_ARRAY_EL_ADDR`. -/
def el (ga : GapArray α) (pos : Nat) : α :=
  if pos < ga.gap then ga.array pos else ga.array (pos + ga.gapsize)

/-- `gap_array_adjust_markers`. -/
def adjustMarkers (ga : GapArray α) (start stop amount : Int) : GapArray α :=
  { ga with markers := ga.markers.map fun m => (m.1, doMarkerAdjustment m.2 start stop amount) }

/-- What `gap_array_move_gap` does once it has asserted that there is a block. -/
def movedTo (ga : GapArray α) (pos : Nat) : GapArray α :=
  let gap := ga.gap
  let gapsize := ga.gapsize
  let ga :=
    if pos < gap then
      { ga with array := memmove ga.array (pos + gapsize) pos (gap - pos) }.adjustMarkers
        pos gap gapsize
    else if gap < pos then
      { ga with array := memmove ga.array gap (gap + gapsize) (pos - gap) }.adjustMarkers
        (gap + gapsize) (pos + gapsize) (-gapsize)
    else ga
  { ga with gap := pos }

/-- `gap_array_move_gap`. -/
def moveGap (ga : GapArray α) (pos : Nat) : Except ArrayError (GapArray α) :=
  if ga.allocated then .ok (ga.movedTo pos) else .error .assertion

/-- `gap_array_make_gap`. `realloc` gives the block for a number of elements, if there is one;
beyond the old block it holds what it happens to hold. -/
def makeGap (realloc : Nat → Option (Nat → α)) (ga : GapArray α) (increment : Nat) :
    Except ArrayError (GapArray α) :=
  let increment := increment + (100 + ga.numels / 8)
  match realloc (ga.numels + ga.gapsize + increment) with
  | none => .error .memoryFull
  | some new =>
    let ga := { ga with
      array := fun a => if a < ga.numels + ga.gapsize then ga.array a else new a
      allocated := true }
    let realGapLoc := ga.gap
    let oldGapSize := ga.gapsize
    -- the new space is the gap, and is moved down to the end of the old one
    let ga := { ga with gap := ga.numels + ga.gapsize, gapsize := increment }
    (ga.moveGap (realGapLoc + oldGapSize)).bind fun ga =>
    .ok { ga with gapsize := ga.gapsize + oldGapSize, gap := realGapLoc }

/-- The elements that `gap_array_insert_els` puts into the gap. -/
def fillGap (ga : GapArray α) (els : List α) : GapArray α :=
  { ga with
    array := memcpy ga.array ga.gap els
    gapsize := ga.gapsize - els.length
    gap := ga.gap + els.length
    numels := ga.numels + els.length }

/-- `gap_array_insert_els`. -/
def insertEls (realloc : Nat → Option (Nat → α)) (ga : GapArray α) (pos : Nat)
    (els : List α) : Except ArrayError (GapArray α) :=
  if ga.numels < pos then .error .assertion
  else
    (if ga.gapsize < els.length then ga.makeGap realloc (els.length - ga.gapsize)
      else .ok ga).bind fun ga =>
    (if pos ≠ ga.gap then ga.moveGap pos else .ok ga).bind fun ga =>
    .ok ((ga.fillGap els).adjustMarkers (pos - 1) pos els.length)

/-- The gap grown over the elements between two positions on both sides of it. -/
def widenGap (ga : GapArray α) (start numdel : Nat) : GapArray α :=
  { ga with gapsize := ga.gapsize + numdel, numels := ga.numels - numdel, gap := start }

/-- `gap_array_delete_els`. -/
def deleteEls (ga : GapArray α) (start numdel : Nat) : Except ArrayError (GapArray α) :=
  let stop := start + numdel
  let gapsize : Int := ga.gapsize
  if ga.numels < stop then .error .assertion
  else
    (if stop < ga.gap then ga.moveGap stop else .ok ga).bind fun ga =>
    (if ga.gap < start then ga.moveGap start else .ok ga).bind fun ga =>
    .ok ((ga.adjustMarkers (stop + gapsize) (stop + gapsize) (-numdel - gapsize)).widenGap
      start numdel)

/-- `gap_array_make_marker`, in the place `m`. -/
def makeMarker (ga : GapArray α) (m pos : Nat) : Except ArrayError (GapArray α) :=
  if ga.numels < pos then .error .assertion
  else .ok { ga with markers := (m, ga.arrayToMemoryPos pos) :: ga.markers }

/-- `gap_array_move_marker`. -/
def moveMarker (ga : GapArray α) (m pos : Nat) : Except ArrayError (GapArray α) :=
  if ga.numels < pos then .error .assertion
  else .ok { ga with
    markers := ga.markers.map fun p => if p.1 = m then (p.1, ga.arrayToMemoryPos pos) else p }

/-- `gap_array_marker_pos`. -/
def markerPos (ga : GapArray α) (m : Nat × Int) : Int := ga.memoryToArrayPos m.2

end GapArray

/-! ## The abstract list -/

/-- A list with positions that are tracked under names. -/
structure TrackedList (α : Type) where
  els : List α
  positions : List (Nat × Nat)

namespace TrackedList

variable {α : Type}

/-- Elements inserted, in front of the positions there. -/
def insert (t : TrackedList α) (pos : Nat) (els : List α) : TrackedList α :=
  ⟨t.els.take pos ++ (els ++ t.els.drop pos),
    t.positions.map fun p => (p.1, insertedAt true pos els.length p.2)⟩

def delete (t : TrackedList α) (start numdel : Nat) : TrackedList α :=
  ⟨t.els.take start ++ t.els.drop (start + numdel),
    t.positions.map fun p => (p.1, deletedAt start (start + numdel) p.2)⟩

/-- A new position tracked. -/
def track (t : TrackedList α) (m pos : Nat) : TrackedList α :=
  { t with positions := (m, pos) :: t.positions }

def move (t : TrackedList α) (m pos : Nat) : TrackedList α :=
  { t with positions := t.positions.map fun p => if p.1 = m then (p.1, pos) else p }

end TrackedList

/-- An operation. -/
inductive ArrayOp (α : Type) where
  | insertEls (pos : Nat) (els : List α)
  | deleteEls (start numdel : Nat)
  | makeMarker (m pos : Nat)
  | moveMarker (m pos : Nat)

namespace ArrayOp

variable {α : Type}

/-- What the code does. -/
def run (realloc : Nat → Option (Nat → α)) (ga : GapArray α) :
    ArrayOp α → Except ArrayError (GapArray α)
  | insertEls pos els => ga.insertEls realloc pos els
  | deleteEls start numdel => ga.deleteEls start numdel
  | makeMarker m pos => ga.makeMarker m pos
  | moveMarker m pos => ga.moveMarker m pos

/-- What it is for the list. -/
def apply (t : TrackedList α) : ArrayOp α → TrackedList α
  | insertEls pos els => t.insert pos els
  | deleteEls start numdel => t.delete start numdel
  | makeMarker m pos => t.track m pos
  | moveMarker m pos => t.move m pos

/-- What the operation asserts. -/
def InBounds (numels : Nat) : ArrayOp α → Prop
  | insertEls pos _ => pos ≤ numels
  | deleteEls start numdel => start + numdel ≤ numels
  | makeMarker _ pos => pos ≤ numels
  | moveMarker _ pos => pos ≤ numels

instance (numels : Nat) : (op : ArrayOp α) → Decidable (op.InBounds numels)
  | insertEls .. | deleteEls .. | makeMarker .. | moveMarker .. =>
    inferInstanceAs (Decidable (_ ≤ _))

end ArrayOp

/-- A gap array between two operations, and the list that it should be. -/
structure Session (α : Type) where
  array : GapArray α
  expected : TrackedList α

/-- One operation on both sides. An operation for which there is no memory is left before
anything is changed; an assertion that fails ends the program. -/
def Session.step {α : Type} (realloc : Nat → Option (Nat → α)) (s : Session α)
    (op : ArrayOp α) : Option (Session α) :=
  match op.run realloc s.array with
  | .ok ga => some ⟨ga, op.apply s.expected⟩
  | .error .memoryFull => some s
  | .error .assertion => none

/-- What is read is the list, and every marker is where its position is. -/
structure Session.Agrees {α : Type} (s : Session α) : Prop where
  numels : s.array.numels = s.expected.els.length
  els : ∀ pos, pos < s.array.numels → s.expected.els[pos]? = some (s.array.el pos)
  markers : s.array.markers.map (fun m => (m.1, s.array.markerPos m))
    = s.expected.positions.map fun p => (p.1, (p.2 : Int))

/-! ## Positions and markers -/

namespace GapArray

variable {α : Type} {ga ga' ga'' : GapArray α} {pos : Nat}

theorem memoryToArrayPos_arrayToMemoryPos (ga : GapArray α) (pos : Nat) :
    ga.memoryToArrayPos (ga.arrayToMemoryPos pos) = pos := by
  unfold memoryToArrayPos arrayToMemoryPos
  split <;> split <;> omega

/-- The markers are those of a list of positions. -/
structure Marks (ga : GapArray α) (ps : List (Nat × Nat)) : Prop where
  markers : ga.markers = ps.map fun p => (p.1, ga.arrayToMemoryPos p.2)
  le : ∀ p ∈ ps, p.2 ≤ ga.numels

/-- Every marker goes from its position `a` to `g a`. -/
structure Carries (ga ga' : GapArray α) (f : Int → Int) (g : Nat → Nat) : Prop where
  markers : ga'.markers = ga.markers.map fun m => (m.1, f m.2)
  memory : ∀ a, a ≤ ga.numels → f (ga.arrayToMemoryPos a) = ga'.arrayToMemoryPos (g a)
  le : ∀ a, a ≤ ga.numels → g a ≤ ga'.numels

theorem Marks.carried {ps : List (Nat × Nat)} (h : ga.Marks ps) {f : Int → Int} {g : Nat → Nat}
    (hc : ga.Carries ga' f g) : ga'.Marks (ps.map fun p => (p.1, g p.2)) := by
  refine ⟨?_, fun p hp => ?_⟩
  · rw [hc.markers, h.markers, map_map, map_map]
    refine map_congr_left fun p hp => ?_
    exact congrArg (Prod.mk p.1) (hc.memory p.2 (h.le p hp))
  · obtain ⟨p', hp', rfl⟩ := List.mem_map.mp hp
    exact hc.le p'.2 (h.le p' hp')

/-- The gap is in the array, and what has elements or room has a block. -/
structure Sound (ga : GapArray α) : Prop where
  gap_le : ga.gap ≤ ga.numels
  allocated : 0 < ga.numels + ga.gapsize → ga.allocated = true

/-- The same elements with their gap elsewhere. -/
structure Keeps (ga ga' : GapArray α) : Prop where
  sound : ga'.Sound
  numels : ga'.numels = ga.numels
  els : ∀ x, x < ga.numels → ga'.el x = ga.el x
  carries : ∃ f, ga.Carries ga' f id

theorem Keeps.refl (h : ga.Sound) : ga.Keeps ga :=
  ⟨h, rfl, fun _ _ => rfl, id, (map_id ga.markers).symm, fun _ _ => rfl, fun _ h => h⟩

/-! ## Motion and growth of the gap -/

theorem movedTo_gap (ga : GapArray α) (pos : Nat) :
    (ga.movedTo pos).gap = pos ∧ (ga.movedTo pos).gapsize = ga.gapsize ∧
      (ga.movedTo pos).numels = ga.numels ∧ (ga.movedTo pos).allocated = ga.allocated := by
  unfold movedTo
  dsimp only
  split
  · exact ⟨rfl, rfl, rfl, rfl⟩
  · split <;> exact ⟨rfl, rfl, rfl, rfl⟩

/-- **The motion of the gap** keeps elements and markers. -/
theorem movedTo_keeps (h : ga.Sound) (hpos : pos ≤ ga.numels) : ga.Keeps (ga.movedTo pos) := by
  obtain ⟨hgap, hgapsize, hnumels, hallocated⟩ := ga.movedTo_gap pos
  have hle := h.gap_le
  refine ⟨⟨by rw [hgap, hnumels]; exact hpos, by rw [hnumels, hgapsize, hallocated]; exact
    h.allocated⟩, hnumels, fun x hx => ?_, ?_⟩
  · unfold el movedTo adjustMarkers memmove
    grind
  · unfold movedTo
    dsimp only
    split
    · refine ⟨fun m => doMarkerAdjustment m pos ga.gap ga.gapsize, rfl, fun a ha => ?_,
        fun a ha => ha⟩
      simp only [arrayToMemoryPos, adjustMarkers, doMarkerAdjustment, id]
      grind
    · split
      · refine ⟨fun m => doMarkerAdjustment m (ga.gap + ga.gapsize) (pos + ga.gapsize)
          (-ga.gapsize), rfl, fun a ha => ?_, fun a ha => ha⟩
        simp only [arrayToMemoryPos, adjustMarkers, doMarkerAdjustment, id]
        grind
      · obtain rfl : pos = ga.gap := by omega
        exact (Keeps.refl h).carries

theorem moveGap_eq (h : ga.Sound) (hpos : pos ≤ ga.numels) (hne : pos ≠ ga.gap) :
    ga.moveGap pos = .ok (ga.movedTo pos) := by
  have hle := h.gap_le
  rw [moveGap, if_pos (h.allocated (by omega))]

/-- A second gap of `increment` at the end of a new block, moved down and joined. -/
def grown (ga : GapArray α) (new : Nat → α) (increment : Nat) : GapArray α :=
  let moved := movedTo { ga with
    array := fun a => if a < ga.numels + ga.gapsize then ga.array a else new a
    allocated := true
    gap := ga.numels + ga.gapsize
    gapsize := increment } (ga.gap + ga.gapsize)
  { moved with gapsize := increment + ga.gapsize, gap := ga.gap }

theorem grown_keeps (h : ga.Sound) (new : Nat → α) (increment : Nat) :
    ga.Keeps (ga.grown new increment) := by
  have hle := h.gap_le
  unfold grown movedTo
  dsimp only
  by_cases hend : ga.gap < ga.numels
  · simp only [show ga.gap + ga.gapsize < ga.numels + ga.gapsize by omega, if_true]
    refine ⟨⟨hle, fun _ => rfl⟩, rfl, fun x hx => ?_, fun m => doMarkerAdjustment m
      (ga.gap + ga.gapsize : Nat) (ga.numels + ga.gapsize : Nat) increment, rfl, fun a ha => ?_,
      fun a ha => ha⟩
    · simp only [el, adjustMarkers, memmove]
      grind
    · simp only [arrayToMemoryPos, doMarkerAdjustment, id]
      grind
  · simp only [show ¬ ga.gap + ga.gapsize < ga.numels + ga.gapsize by omega,
      show ¬ ga.numels + ga.gapsize < ga.gap + ga.gapsize by omega, if_false]
    refine ⟨⟨hle, fun _ => rfl⟩, rfl, fun x hx => ?_, id, (map_id ga.markers).symm,
      fun a ha => ?_, fun a ha => ha⟩
    · simp only [el]
      grind
    · simp only [arrayToMemoryPos, id]
      grind

/-- **Growth** keeps elements and markers and gives room, unless there is no memory. -/
theorem makeGap_keeps (h : ga.Sound) (realloc : Nat → Option (Nat → α)) (increment : Nat) :
    ga.makeGap realloc increment = .error .memoryFull ∨
      ∃ ga', ga.makeGap realloc increment = .ok ga' ∧ ga.Keeps ga' ∧
        ga.gapsize + increment ≤ ga'.gapsize := by
  unfold makeGap
  dsimp only
  split
  · exact .inl rfl
  · rename_i new _
    refine .inr ⟨ga.grown new (increment + (100 + ga.numels / 8)), ?_, grown_keeps h ..,
      by show _ ≤ _ + ga.gapsize; omega⟩
    have hgapsize := ((GapArray.mk (fun a => if a < ga.numels + ga.gapsize then ga.array a
      else new a) true (ga.numels + ga.gapsize) (increment + (100 + ga.numels / 8)) ga.numels
      ga.markers).movedTo_gap (ga.gap + ga.gapsize)).2.1
    rw [moveGap, if_pos rfl, grown]
    show Except.ok _ = Except.ok _
    rw [hgapsize]

/-! ## Insertion and deletion -/

/-- The elements of an array are a list. -/
structure Reads (ga : GapArray α) (l : List α) : Prop where
  numels : ga.numels = l.length
  els : ∀ x, x < ga.numels → l[x]? = some (ga.el x)

theorem Reads.kept {l : List α} (h : ga.Reads l) (hk : ga.Keeps ga') : ga'.Reads l :=
  ⟨hk.numels.trans h.numels, fun x hx => by
    rw [hk.els x (hk.numels ▸ hx)]
    exact h.els x (hk.numels ▸ hx)⟩

theorem Marks.kept {ps : List (Nat × Nat)} (h : ga.Marks ps) (hk : ga.Keeps ga') :
    ga'.Marks ps := by
  obtain ⟨f, hf⟩ := hk.carries
  have hcarried := h.carried hf
  rwa [show (ps.map fun p => (p.1, id p.2)) = ps from map_id ps] at hcarried

/-- A gap array that is a list with tracked positions. -/
structure Refines (ga : GapArray α) (t : TrackedList α) : Prop where
  sound : ga.Sound
  reads : ga.Reads t.els
  marks : ga.Marks t.positions

theorem Refines.kept {t : TrackedList α} (h : ga.Refines t) (hk : ga.Keeps ga') :
    ga'.Refines t :=
  ⟨hk.sound, h.reads.kept hk, h.marks.kept hk⟩

theorem Refines.fillGap {t : TrackedList α} (h : ga.Refines t) {els : List α}
    (hroom : els.length ≤ ga.gapsize) (hallocated : els ≠ [] → ga.allocated = true) :
    ((ga.fillGap els).adjustMarkers (ga.gap - 1) ga.gap els.length).Refines
      (t.insert ga.gap els) := by
  have hle := h.sound.gap_le
  have hlen := h.reads.numels
  refine ⟨⟨?_, fun hpos => ?_⟩, ⟨?_, fun x hx => ?_⟩, ?_⟩
  · show ga.gap + els.length ≤ ga.numels + els.length
    omega
  · by_cases hels : els = []
    · subst hels
      exact h.sound.allocated hpos
    · exact hallocated hels
  · simp only [TrackedList.insert, length_append, length_take, length_drop]
    show ga.numels + els.length = _
    omega
  · have hx : x < ga.numels + els.length := hx
    show (t.els.take ga.gap ++ (els ++ t.els.drop ga.gap))[x]? = some
      (if x < ga.gap + els.length then memcpy ga.array ga.gap els x
      else memcpy ga.array ga.gap els (x + (ga.gapsize - els.length)))
    have htake : (t.els.take ga.gap).length = ga.gap := length_take_of_le (by omega)
    rcases Nat.lt_or_ge x ga.gap with hbefore | hbehind
    · rw [getElem?_append_left (by omega), getElem?_take_of_lt hbefore,
        h.reads.els x (by omega), el, if_pos hbefore, if_pos (by omega), memcpy,
        if_neg (by omega)]
    rw [getElem?_append_right (by omega), htake]
    rcases Nat.lt_or_ge x (ga.gap + els.length) with hinside | hafter
    · rw [getElem?_append_left (by omega), if_pos hinside, memcpy, if_pos hbehind,
        getD_eq_getElem?_getD, getElem?_eq_getElem (by omega), Option.getD_some]
    · rw [getElem?_append_right (by omega), getElem?_drop,
        h.reads.els _ (by omega), el, if_neg (by omega), if_neg (by omega), memcpy,
        if_pos (by omega), getD_eq_getElem?_getD, getElem?_eq_none (by omega),
        Option.getD_none]
      congr 2
      omega
  · refine h.marks.carried (f := fun m => doMarkerAdjustment m (ga.gap - 1) ga.gap els.length)
      ⟨rfl, fun a ha => ?_, fun a ha => ?_⟩
    · simp only [arrayToMemoryPos, GapArray.fillGap, adjustMarkers, doMarkerAdjustment,
        insertedAt]
      grind
    · show _ ≤ ga.numels + els.length
      simp only [insertedAt]
      grind

theorem Refines.widenGap {t : TrackedList α} (h : ga.Refines t) {start numdel : Nat}
    (hstart : start ≤ ga.gap) (hstop : ga.gap ≤ start + numdel)
    (hle : start + numdel ≤ ga.numels) :
    ((ga.adjustMarkers (start + numdel + ga.gapsize) (start + numdel + ga.gapsize)
      (-numdel - ga.gapsize)).widenGap start numdel).Refines (t.delete start numdel) := by
  have hlen := h.reads.numels
  refine ⟨⟨?_, fun hpos => h.sound.allocated ?_⟩, ⟨?_, fun x hx => ?_⟩, ?_⟩
  · show start ≤ ga.numels - numdel
    omega
  · have hpos : 0 < ga.numels - numdel + (ga.gapsize + numdel) := hpos
    omega
  · simp only [TrackedList.delete, length_append, length_take, length_drop]
    show ga.numels - numdel = _
    omega
  · have hx : x < ga.numels - numdel := hx
    show (t.els.take start ++ t.els.drop (start + numdel))[x]? = some
      (if x < start then ga.array x else ga.array (x + (ga.gapsize + numdel)))
    have htake : (t.els.take start).length = start := length_take_of_le (by omega)
    rcases Nat.lt_or_ge x start with hbefore | hbehind
    · rw [getElem?_append_left (by omega), getElem?_take_of_lt hbefore,
        h.reads.els x (by omega), el, if_pos (by omega), if_pos hbefore]
    · rw [getElem?_append_right (by omega), htake, getElem?_drop,
        h.reads.els _ (by omega), el, if_neg (by omega), if_neg (by omega)]
      congr 2
      omega
  · refine h.marks.carried (f := fun m => doMarkerAdjustment m (start + numdel + ga.gapsize)
      (start + numdel + ga.gapsize) (-numdel - ga.gapsize))
      ⟨rfl, fun a ha => ?_, fun a ha => ?_⟩
    · simp only [arrayToMemoryPos, GapArray.widenGap, adjustMarkers, doMarkerAdjustment,
        deletedAt]
      grind
    · show _ ≤ ga.numels - numdel
      simp only [deletedAt]
      grind

theorem moveGap_refines {t : TrackedList α} (h : ga.Refines t) (hpos : pos ≤ ga.numels) :
    ∃ ga', (if pos ≠ ga.gap then ga.moveGap pos else .ok ga) = .ok ga' ∧ ga'.Refines t ∧
      ga'.gap = pos ∧ ga'.gapsize = ga.gapsize ∧ ga'.numels = ga.numels ∧
      ga'.allocated = ga.allocated := by
  by_cases hgap : pos = ga.gap
  · exact ⟨ga, if_neg (not_not_intro hgap), h, hgap.symm, rfl, rfl, rfl⟩
  · refine ⟨ga.movedTo pos, ?_, h.kept (movedTo_keeps h.sound hpos), ga.movedTo_gap pos⟩
    rw [if_pos hgap, moveGap_eq h.sound hpos hgap]

/-- **`gap_array_insert_els`** is an insertion, unless there is no memory. -/
theorem insertEls_refines {t : TrackedList α} (h : ga.Refines t)
    (realloc : Nat → Option (Nat → α)) (hpos : pos ≤ ga.numels) (els : List α) :
    ga.insertEls realloc pos els = .error .memoryFull ∨
      ∃ ga', ga.insertEls realloc pos els = .ok ga' ∧ ga'.Refines (t.insert pos els) := by
  unfold insertEls
  rw [if_neg (Nat.not_lt.mpr hpos)]
  -- the array with room for the elements
  have hroom : (if ga.gapsize < els.length then ga.makeGap realloc (els.length - ga.gapsize)
      else .ok ga) = .error .memoryFull ∨
      ∃ ga', (if ga.gapsize < els.length then ga.makeGap realloc (els.length - ga.gapsize)
        else .ok ga) = .ok ga' ∧ ga.Keeps ga' ∧ els.length ≤ ga'.gapsize := by
    by_cases hsize : ga.gapsize < els.length
    · rw [if_pos hsize]
      refine (makeGap_keeps h.sound realloc (els.length - ga.gapsize)).imp id ?_
      rintro ⟨ga', heq, hk, hsize'⟩
      exact ⟨ga', heq, hk, by omega⟩
    · rw [if_neg hsize]
      exact .inr ⟨ga, rfl, .refl h.sound, Nat.not_lt.mp hsize⟩
  obtain hfull | ⟨ga₁, heq, hk, hsize⟩ := hroom
  · rw [hfull]
    exact .inl rfl
  obtain ⟨ga₂, heq₂, h₂, hgap, hgapsize, hnumels, hallocated⟩ :=
    moveGap_refines (h.kept hk) (hk.numels ▸ hpos)
  refine .inr ⟨_, ?_, hgap ▸ h₂.fillGap (hgapsize ▸ hsize) fun hels => ?_⟩
  · rw [heq, Except.bind, heq₂, Except.bind]
  · refine h₂.sound.allocated ?_
    have := List.length_pos_iff.mpr hels
    omega

/-- **`gap_array_delete_els`** is a deletion. -/
theorem deleteEls_refines {t : TrackedList α} (h : ga.Refines t) {start numdel : Nat}
    (hle : start + numdel ≤ ga.numels) :
    ∃ ga', ga.deleteEls start numdel = .ok ga' ∧ ga'.Refines (t.delete start numdel) := by
  -- the gap at one of the ends, if it is not between them
  have hleft : ∃ ga', (if start + numdel < ga.gap then ga.moveGap (start + numdel)
      else .ok ga) = .ok ga' ∧ ga'.Refines t ∧ ga'.gap = min ga.gap (start + numdel) ∧
      ga'.gapsize = ga.gapsize ∧ ga'.numels = ga.numels := by
    by_cases hlt : start + numdel < ga.gap
    · obtain ⟨ga', heq, h', hgap, hgapsize, hnumels, -⟩ := moveGap_refines h hle
      rw [if_pos (Nat.ne_of_lt hlt)] at heq
      exact ⟨ga', by rw [if_pos hlt, heq], h', by omega, hgapsize, hnumels⟩
    · exact ⟨ga, if_neg hlt, h, by omega, rfl, rfl⟩
  obtain ⟨ga₁, heq₁, h₁, hgap₁, hgapsize₁, hnumels₁⟩ := hleft
  have hright : ∃ ga', (if ga₁.gap < start then ga₁.moveGap start else .ok ga₁) = .ok ga' ∧
      ga'.Refines t ∧ ga'.gap = max ga₁.gap start ∧ ga'.gapsize = ga₁.gapsize ∧
      ga'.numels = ga₁.numels := by
    by_cases hlt : ga₁.gap < start
    · obtain ⟨ga', heq, h', hgap, hgapsize, hnumels, -⟩ :=
        moveGap_refines h₁ (show start ≤ ga₁.numels by omega)
      rw [if_pos (Nat.ne_of_gt hlt)] at heq
      exact ⟨ga', by rw [if_pos hlt, heq], h', by omega, hgapsize, hnumels⟩
    · exact ⟨ga₁, if_neg hlt, h₁, by omega, rfl, rfl⟩
  obtain ⟨ga₂, heq₂, h₂, hgap₂, hgapsize₂, hnumels₂⟩ := hright
  have hwidened := h₂.widenGap (show start ≤ ga₂.gap by omega)
    (show ga₂.gap ≤ start + numdel by omega) (by omega)
  rw [hgapsize₂, hgapsize₁] at hwidened
  refine ⟨_, ?_, hwidened⟩
  rw [deleteEls, if_neg (Nat.not_lt.mpr hle), heq₁, Except.bind, heq₂, Except.bind]
  rfl

end GapArray

/-! ## Runs -/

section runs

variable {α : Type} {realloc : Nat → Option (Nat → α)} {s : Session α} {op : ArrayOp α}

/-- The invariant of a run. -/
def Session.Refines (s : Session α) : Prop := s.array.Refines s.expected

theorem Session.Refines.agrees (h : s.Refines) : s.Agrees := by
  refine ⟨h.reads.numels, h.reads.els, ?_⟩
  rw [h.marks.markers, map_map]
  refine map_congr_left fun p _ => ?_
  exact congrArg (Prod.mk p.1) (s.array.memoryToArrayPos_arrayToMemoryPos p.2)

theorem GapArray.Marks.track {ga : GapArray α} {ps : List (Nat × Nat)} (h : ga.Marks ps)
    {pos : Nat} (hpos : pos ≤ ga.numels) (m : Nat) :
    GapArray.Marks { ga with markers := (m, ga.arrayToMemoryPos pos) :: ga.markers }
      ((m, pos) :: ps) := by
  refine ⟨?_, fun p hp => ?_⟩
  · rw [map_cons]
    exact congrArg (List.cons _) h.markers
  · obtain rfl | hp := List.mem_cons.mp hp
    · exact hpos
    · exact h.le p hp

theorem GapArray.Marks.move {ga : GapArray α} {ps : List (Nat × Nat)} (h : ga.Marks ps)
    {pos : Nat} (hpos : pos ≤ ga.numels) (m : Nat) :
    GapArray.Marks { ga with
      markers := ga.markers.map fun p => if p.1 = m then (p.1, ga.arrayToMemoryPos pos) else p }
      (ps.map fun p => if p.1 = m then (p.1, pos) else p) := by
  refine ⟨?_, fun p hp => ?_⟩
  · show List.map _ ga.markers = _
    rw [h.markers, map_map, map_map]
    refine map_congr_left fun p _ => ?_
    by_cases hm : p.1 = m
    · simp only [Function.comp_apply, if_pos hm]
      rfl
    · simp only [Function.comp_apply, if_neg hm]
      rfl
  · obtain ⟨p', hp', rfl⟩ := List.mem_map.mp hp
    split
    · exact hpos
    · exact h.le p' hp'

/-- **One operation** that passes its assertions. -/
theorem Session.refines_step (h : s.Refines) (hop : op.InBounds s.array.numels) :
    ∃ s', s.step realloc op = some s' ∧ s'.Refines := by
  unfold Session.step
  cases op with
  | insertEls pos els =>
    obtain hfull | ⟨ga, heq, hga⟩ := GapArray.insertEls_refines h realloc hop els
    · rw [show (ArrayOp.insertEls pos els).run realloc s.array = _ from hfull]
      exact ⟨s, rfl, h⟩
    · rw [show (ArrayOp.insertEls pos els).run realloc s.array = _ from heq]
      exact ⟨_, rfl, hga⟩
  | deleteEls start numdel =>
    obtain ⟨ga, heq, hga⟩ := GapArray.deleteEls_refines h hop
    rw [show (ArrayOp.deleteEls start numdel).run realloc s.array = _ from heq]
    exact ⟨_, rfl, hga⟩
  | makeMarker m pos =>
    rw [show (ArrayOp.makeMarker m pos).run realloc s.array = _ from
      if_neg (Nat.not_lt.mpr hop)]
    exact ⟨_, rfl, ⟨h.sound.gap_le, h.sound.allocated⟩, ⟨h.reads.numels, h.reads.els⟩,
      h.marks.track hop m⟩
  | moveMarker m pos =>
    rw [show (ArrayOp.moveMarker m pos).run realloc s.array = _ from
      if_neg (Nat.not_lt.mpr hop)]
    exact ⟨_, rfl, ⟨h.sound.gap_le, h.sound.allocated⟩, ⟨h.reads.numels, h.reads.els⟩,
      h.marks.move hop m⟩

theorem refines_makeGapArray (block : Nat → α) :
    Session.Refines ⟨GapArray.makeGapArray block, [], []⟩ :=
  ⟨⟨Nat.le_refl 0, fun h => absurd h (Nat.lt_irrefl 0)⟩,
    ⟨rfl, fun x hx => absurd hx (Nat.not_lt_zero x)⟩,
    ⟨rfl, fun _ hp => absurd hp not_mem_nil⟩⟩

end runs

/-- Three elements with a marker, one of them deleted in front of it, and another inserted at
it. -/
def markedRun : List (ArrayOp Char) :=
  [.insertEls 0 ['a', 'b', 'c'], .makeMarker 7 2, .deleteEls 0 1, .insertEls 1 ['x'],
    .moveMarker 7 3]

end XEmacs.GapArrays

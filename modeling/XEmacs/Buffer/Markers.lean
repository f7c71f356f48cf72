import XEmacs.Buffer.GapSplice

/-!
# Markers (insdel.c, buffer.h, marker.c)

A marker stores a memory index, which the gap lets stand for a byte position: an index up to the
gap is the position itself, one behind it is larger by the size of the gap.
-/

namespace XEmacs.Gap

/-! ## Memory indices -/

namespace BufferText

def validMemindP (b : BufferText) (x : Int) : Prop :=
  (1 ≤ x ∧ x ≤ b.gpt) ∨ (b.gpt + b.gapSize < x ∧ x ≤ b.z + b.gapSize)

instance (b : BufferText) (x : Int) : Decidable (b.validMemindP x) :=
  inferInstanceAs (Decidable (_ ∨ _))

def bytindToMemind (b : BufferText) (x : Nat) : Int :=
  if b.gpt < x then x + b.gapSize else x

def memindToBytind (b : BufferText) (x : Int) : Int :=
  if b.gpt < x then x - b.gapSize else x

end BufferText

/-- A marker of a buffer that shares the text. -/
structure Marker where
  memind : Int
  insertionType : Bool
  deriving DecidableEq

def doMarkerAdjustment (mpos start stop amount : Int) : Int :=
  let mpos :=
    if 0 < amount then
      if stop < mpos ∧ mpos < stop + amount then stop + amount else mpos
    else
      if start + amount < mpos ∧ mpos ≤ start then start + amount else mpos
  if start < mpos ∧ mpos ≤ stop then mpos + amount else mpos

variable {ι : Type}

def adjustMarkers (markers : ι → Marker) (start stop amount : Int) : ι → Marker :=
  fun k => { markers k with
    memind := doMarkerAdjustment (markers k).memind start stop amount }

def adjustMarkersForInsert (markers : ι → Marker) (ind amount : Int) : ι → Marker :=
  fun k =>
    if (markers k).insertionType ∧ (markers k).memind = ind then
      { markers k with memind := (markers k).memind + amount }
    else markers k

/-! ## Texts with markers -/

/-- A text and the markers of the buffers that share it. -/
structure MarkedText (ι : Type) where
  text : BufferText
  markers : ι → Marker

/-- How a function of the source ended. -/
structure MarkedOutcome (ι : Type) where
  left : Bool
  text : MarkedText ι
  quits : Interrupts

namespace MarkedOutcome

/-- What is seen of the text. -/
def outcome (r : MarkedOutcome ι) : Outcome := ⟨r.left, r.text.text, r.quits⟩

/-- What follows is done if there was a return. -/
def andThen (r : MarkedOutcome ι) (f : MarkedText ι → Interrupts → MarkedOutcome ι) :
    MarkedOutcome ι :=
  if r.left then r else f r.text r.quits

theorem outcome_andThen (r : MarkedOutcome ι)
    (f : MarkedText ι → Interrupts → MarkedOutcome ι) (g : BufferText → Interrupts → Outcome)
    (h : ∀ b q, (f b q).outcome = g b.text q) :
    (r.andThen f).outcome = r.outcome.andThen g := by
  rw [andThen, Outcome.andThen]
  show _ = if r.left then r.outcome else g r.text.text r.quits
  split
  · rfl
  · exact h r.text r.quits

end MarkedOutcome

namespace MarkedText

/-! ## Motion of the gap -/

/-- `gap_left`. The markers between the gap and where the loop stopped go behind the gap. -/
def gapLeft (b : MarkedText ι) (q : Interrupts) (pos : Nat) : MarkedOutcome ι :=
  let r := b.text.gapLeft q pos
  ⟨r.left, ⟨r.text, adjustMarkers b.markers r.text.gpt b.text.gpt b.text.gapSize⟩, r.quits⟩

def gapRight (b : MarkedText ι) (q : Interrupts) (pos : Nat) : MarkedOutcome ι :=
  let gsize : Int := b.text.gapSize
  let r := b.text.gapRight q pos
  ⟨r.left, ⟨r.text, adjustMarkers b.markers (b.text.gpt + gsize) (r.text.gpt + gsize) (-gsize)⟩,
    r.quits⟩

def moveGap (b : MarkedText ι) (q : Interrupts) (pos : Nat) : MarkedOutcome ι :=
  if pos < b.text.gpt then b.gapLeft q pos
  else if b.text.gpt < pos then b.gapRight q pos
  else ⟨false, b, q⟩

/-! ## Growth of the gap -/

/-- The end of `merge_gap_with_end_gap` and `make_gap`. -/
def joinEndGap (b : MarkedText ι) (q : Interrupts) (increment : Nat) : MarkedOutcome ι :=
  let tem := q.inhibitQuit
  let realGapLoc := b.text.gpt
  let oldGapSize := b.text.gapSize
  let t := { b.text with
    gpt := b.text.z + b.text.gapSize, gapSize := increment, endGapSize := 0 }
  -- moving the second gap down adjusts the markers behind the first one
  (gapLeft ⟨t, b.markers⟩ q.inhibited (realGapLoc + oldGapSize)).andThen fun b q =>
    let t := { b.text with gapSize := b.text.gapSize + oldGapSize, gpt := realGapLoc }
    ⟨false, ⟨t.setGapSentinel.setEndSentinel, b.markers⟩, { q with inhibitQuit := tem }⟩

def mergeGapWithEndGap (b : MarkedText ι) (q : Interrupts) : MarkedOutcome ι :=
  let increment := b.text.endGapSize
  let b : MarkedText ι := ⟨{ b.text with endGapSize := 0 }, b.markers⟩
  if 0 < increment then b.joinEndGap q increment else ⟨false, b, q⟩

def makeGap (machine : Machine) (b : MarkedText ι) (q : Interrupts) (increment : Nat) :
    MarkedOutcome ι :=
  let increment := increment + (2000 + (b.text.z - 1) / 8)
  if b.text.endGapSize < increment then
    if machine.emacsIntMax < b.text.bufz - 1 + b.text.gapSize + increment then ⟨true, b, q⟩
    else
      match machine.realloc (b.text.blockSize increment) with
      | none => ⟨true, b, q⟩
      | some new => joinEndGap ⟨b.text.reallocated new, b.markers⟩ q increment
  else b.joinEndGap q b.text.endGapSize

/-! ## Changes of the text -/

/-- The room that `buffer_insert_string_1` makes for `length` bytes. -/
def makeRoom (machine : Machine) (b : MarkedText ι) (q : Interrupts) (length : Nat) :
    MarkedOutcome ι :=
  if b.text.gapCanHoldSize length then ⟨false, b, q⟩
  else if length ≤ b.text.endGapSize then b.mergeGapWithEndGap q
  else b.makeGap machine q (length - b.text.gapSize)

/-- `set_buffer_point` on the point marker of a buffer whose point is elsewhere. -/
def setPointMarker [DecidableEq ι] (t : BufferText) (markers : ι → Marker) (k : ι)
    (bytpos : Nat) : ι → Marker :=
  Function.update markers k { markers k with memind := t.bytindToMemind bytpos }

/-- What `buffer_insert_string_1` does with the gap in its place: the bytes, then the markers
whose insertion type says so, then the point marker if point is moved, then all markers that
are left there if the text is inserted before markers. -/
def fillGap [DecidableEq ι] (b : MarkedText ι) (ind : Nat) (s : List Bufbyte)
    (movePoint : Option ι) (beforeMarkers : Bool) : MarkedText ι :=
  let t := b.text.fillGap s
  let markers := adjustMarkersForInsert b.markers ind s.length
  let markers :=
    match movePoint with
    | none => markers
    | some k => if s.length = 0 then markers else setPointMarker t markers k (ind + s.length)
  ⟨t, if beforeMarkers then adjustMarkers markers (ind - 1) ind s.length else markers⟩

/-- `buffer_insert_string_1`. If the text is inserted at point and point is moved, `movePoint` is
the point marker; `beforeMarkers` is the flag `INSDEL_BEFORE_MARKERS`. -/
def bufferInsertString1 [DecidableEq ι] (machine : Machine) (b : MarkedText ι) (q : Interrupts)
    (ind : Nat) (s : List Bufbyte) (movePoint : Option ι) (beforeMarkers : Bool) :
    MarkedOutcome ι :=
  if machine.emacsIntMax < s.length + b.text.bufz then ⟨true, b, q⟩
  else
    (if ind ≠ b.text.gpt then b.moveGap q ind else ⟨false, b, q⟩).andThen fun b q =>
    (b.makeRoom machine q s.length).andThen fun b q =>
    ⟨false, b.fillGap ind s movePoint beforeMarkers, q⟩

def bufferDeleteRange (b : MarkedText ι) (q : Interrupts) (start stop biFrom biTo : Nat) :
    MarkedOutcome ι :=
  let numdel := stop - start
  let bcNumdel := biTo - biFrom
  if numdel = 0 then ⟨false, b, q⟩
  -- the gap is not moved just to delete from the bottom
  else if stop = b.text.bufz ∧ b.text.gpt < biFrom then
    let gsize : Int := b.text.gapSize
    ⟨false, ⟨b.text.cutBottom numdel bcNumdel,
      adjustMarkers b.markers (biTo + gsize) (biTo + gsize) (-bcNumdel)⟩, q⟩
  else
    (if biTo < b.text.gpt then b.gapLeft q biTo else ⟨false, b, q⟩).andThen fun b q =>
    (if b.text.gpt < biFrom then b.gapRight q biFrom else ⟨false, b, q⟩).andThen fun b q =>
    let gsize : Int := b.text.gapSize
    ⟨false, ⟨b.text.widenGap numdel bcNumdel biFrom,
      adjustMarkers b.markers (biTo + gsize) (biTo + gsize) (-bcNumdel - gsize)⟩, q⟩

/-! ## The text under markers -/

variable (b : MarkedText ι) (q : Interrupts)

theorem outcome_moveGap (pos : Nat) : (b.moveGap q pos).outcome = b.text.moveGap q pos := by
  rw [moveGap, BufferText.moveGap]
  split
  · rfl
  · split <;> rfl

theorem outcome_joinEndGap (increment : Nat) :
    (b.joinEndGap q increment).outcome = b.text.joinEndGap q increment := by
  rw [joinEndGap, BufferText.joinEndGap]
  exact MarkedOutcome.outcome_andThen _ _ _ fun _ _ => rfl

theorem outcome_makeRoom (machine : Machine) (length : Nat) :
    (b.makeRoom machine q length).outcome = b.text.makeRoom machine q length := by
  rw [makeRoom, BufferText.makeRoom]
  split
  · rfl
  · split
    · rw [mergeGapWithEndGap, BufferText.mergeGapWithEndGap]
      split
      · exact outcome_joinEndGap ..
      · rfl
    · rw [makeGap, BufferText.makeGap]
      split
      · split
        · rfl
        · generalize machine.realloc _ = new
          cases new with
          | none => rfl
          | some new => exact outcome_joinEndGap ..
      · exact outcome_joinEndGap ..

theorem outcome_bufferInsertString1 [DecidableEq ι] (machine : Machine) (ind : Nat)
    (s : List Bufbyte) (movePoint : Option ι) (beforeMarkers : Bool) :
    (b.bufferInsertString1 machine q ind s movePoint beforeMarkers).outcome =
      b.text.bufferInsertString1 machine q ind s := by
  rw [bufferInsertString1, BufferText.bufferInsertString1]
  split
  · rfl
  · have hmoved : (if ind ≠ b.text.gpt then b.moveGap q ind else ⟨false, b, q⟩).outcome
        = if ind ≠ b.text.gpt then b.text.moveGap q ind else ⟨false, b.text, q⟩ := by
      split
      · exact outcome_moveGap ..
      · rfl
    rw [← hmoved]
    refine MarkedOutcome.outcome_andThen _ _ _ fun b q => ?_
    rw [← outcome_makeRoom]
    exact MarkedOutcome.outcome_andThen _ _ _ fun b q => rfl

theorem outcome_bufferDeleteRange (start stop biFrom biTo : Nat) :
    (b.bufferDeleteRange q start stop biFrom biTo).outcome =
      b.text.bufferDeleteRange q start stop biFrom biTo := by
  rw [bufferDeleteRange, BufferText.bufferDeleteRange]
  dsimp only
  split
  · rfl
  · split
    · rfl
    · have hleft : (if biTo < b.text.gpt then b.gapLeft q biTo else ⟨false, b, q⟩).outcome
          = if biTo < b.text.gpt then b.text.gapLeft q biTo else ⟨false, b.text, q⟩ := by
        split <;> rfl
      rw [← hleft]
      refine MarkedOutcome.outcome_andThen _ _ _ fun b q => ?_
      have hright : (if b.text.gpt < biFrom then b.gapRight q biFrom else ⟨false, b, q⟩).outcome
          = if b.text.gpt < biFrom then b.text.gapRight q biFrom else ⟨false, b.text, q⟩ := by
        split <;> rfl
      rw [← hright]
      exact MarkedOutcome.outcome_andThen _ _ _ fun b q => rfl

end MarkedText

end XEmacs.Gap

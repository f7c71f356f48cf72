import XEmacs.Buffer.MarkersTrack
import XEmacs.Extents.Adjust
import XEmacs.Extents.Objects

/-!
# Buffers with extents, and their gap (insdel.c, extents.c)

The functions that move and enlarge the gap adjust the extents of every buffer that has the text,
as they adjust the markers. One such buffer is looked at: each has a list of its own.
-/

namespace XEmacs.Extents

open Gap BytePositions

/-- The whole of a buffer. What part of it is accessible makes no difference to positions. -/
def wholeBuffer (text : BufferText) : BufferOrString := .buffer text 1 text.z

/-- A text and the extents of a buffer that has it. -/
structure ExtentText (ι : Type) where
  text : BufferText
  info : ExtentInfo ι

/-- How a function of the source ended. -/
structure ExtentOutcome (ι : Type) where
  left : Bool
  text : ExtentText ι
  quits : Interrupts

variable {ι : Type}

namespace ExtentOutcome

/-- What follows is done if there was a return. -/
def andThen (r : ExtentOutcome ι) (f : ExtentText ι → Interrupts → ExtentOutcome ι) :
    ExtentOutcome ι :=
  if r.left then r else f r.text r.quits

end ExtentOutcome

namespace ExtentText

variable [DecidableEq ι]

/-! ## Motion of the gap -/

def gapLeft (b : ExtentText ι) (q : Interrupts) (pos : Nat) : ExtentOutcome ι :=
  let r := b.text.gapLeft q pos
  ⟨r.left, ⟨r.text, adjustExtents b.info r.text.gpt b.text.gpt b.text.gapSize⟩, r.quits⟩

def gapRight (b : ExtentText ι) (q : Interrupts) (pos : Nat) : ExtentOutcome ι :=
  let gsize : Int := b.text.gapSize
  let r := b.text.gapRight q pos
  ⟨r.left, ⟨r.text, adjustExtents b.info (b.text.gpt + gsize) (r.text.gpt + gsize) (-gsize)⟩,
    r.quits⟩

def moveGap (b : ExtentText ι) (q : Interrupts) (pos : Nat) : ExtentOutcome ι :=
  if pos < b.text.gpt then b.gapLeft q pos
  else if b.text.gpt < pos then b.gapRight q pos
  else ⟨false, b, q⟩

/-! ## Growth of the gap -/

/-! ## The text under extents -/

variable (b : ExtentText ι) (q : Interrupts)

theorem gapLeft_eq {pos : Nat} (h : pos ≤ b.text.gpt) :
    b.gapLeft q pos =
      ⟨q.leaves (b.text.gpt - pos),
        ⟨b.text.movedDown (pos + q.short (b.text.gpt - pos)), adjustExtents b.info
          (pos + q.short (b.text.gpt - pos) : Nat) b.text.gpt b.text.gapSize⟩,
        q.afterMotion (b.text.gpt - pos)⟩ := by
  rw [gapLeft, BufferText.gapLeft_eq b.text q h]
  rfl

theorem gapRight_eq {pos : Nat} (h : b.text.gpt ≤ pos) :
    b.gapRight q pos =
      ⟨q.leaves (pos - b.text.gpt),
        ⟨b.text.movedUp (pos - q.short (pos - b.text.gpt)),
          adjustExtents b.info (b.text.gpt + b.text.gapSize)
            ((pos - q.short (pos - b.text.gpt) : Nat) + b.text.gapSize) (-b.text.gapSize)⟩,
        q.afterMotion (pos - b.text.gpt)⟩ := by
  rw [gapRight, BufferText.gapRight_eq b.text q h]
  dsimp only
  rw [BufferText.movedUp_gpt]

/-! ## What goes along with the gap -/

/-- What stands for a position of the text goes where `f` says, the extents do, and the order of
all indices is kept. -/
structure Moved (b b' : ExtentText ι) (f : Int → Int) : Prop where
  info : b'.info = if b.info.extents.numEls = 0 then b.info else b.info.mapEndpoints f
  stands : ∀ {m x}, b.text.At m x → b'.text.At (f m) x
  mono : ∀ {x y}, x ≤ y → f x ≤ f y
  lt : ∀ {x y}, b.text.validMemindP y → x < y → f x < f y
  nonneg : ∀ {x}, 0 ≤ x → 0 ≤ f x

section moved

variable {b b' b'' : ExtentText ι} {q : Interrupts} {f g : Int → Int} {t : Nat}

theorem Moved.shifts (h : b.Moved b' f) (hin : b.info.In (wholeBuffer b.text)) :
    b.info.Shifts f :=
  ⟨h.mono, fun e he endp => h.lt (hin e he endp), h.nonneg⟩

theorem Moved.refl (b : ExtentText ι) : b.Moved b id := by
  refine ⟨?_, fun h => h, fun h => h, fun _ h => h, fun h => h⟩
  split
  · rfl
  · have hheap : (b.info.mapEndpoints id).heap = b.info.heap := by
      funext e
      exact ite_self _
    exact congrArg (fun h => { b.info with heap := h }) hheap.symm

theorem adjustExtents_valid (hs : b.info.Sorted) (hin : b.info.In (wholeBuffer b.text))
    {frm upTo amount : Int}
    (hfixed : ∀ x, b.text.validMemindP x → x ≤ frm ∨ upTo < x →
      doMarkerAdjustment x frm upTo amount = x)
    (hneg : ∀ x < 0, doMarkerAdjustment x frm upTo amount = x) :
    adjustExtents b.info frm upTo amount = if b.info.extents.numEls = 0 then b.info
      else b.info.mapEndpoints fun x => doMarkerAdjustment x frm upTo amount := by
  by_cases hempty : b.info.extents.numEls = 0
  · rw [adjustExtents, if_pos hempty, if_pos hempty]
  · rw [if_neg hempty]
    exact adjustExtents_eq hs hempty (fun e he endp => hfixed _ (hin e he endp)) hneg

/-- **The gap moved down.** -/
theorem movedDown (hb : b.text.InText) (hs : b.info.Sorted)
    (hin : b.info.In (wholeBuffer b.text)) (ht : t ≤ b.text.gpt) :
    b.Moved ⟨b.text.movedDown t, adjustExtents b.info t b.text.gpt b.text.gapSize⟩
      fun x => doMarkerAdjustment x t b.text.gpt b.text.gapSize := by
  refine ⟨adjustExtents_valid hs hin (fun x hx => ?_) fun x hx => ?_,
    fun hx => hx.movedDown hb.2 ht, fun hxy => ?_, fun hy hxy => ?_, fun hx => ?_⟩
  · unfold BufferText.validMemindP at hx
    simp only [doMarkerAdjustment]
    grind
  · simp only [doMarkerAdjustment]
    grind
  · simp only [doMarkerAdjustment]
    grind
  · unfold BufferText.validMemindP at hy
    simp only [doMarkerAdjustment]
    grind
  · simp only [doMarkerAdjustment]
    grind

/-- **The gap moved up.** -/
theorem movedUp (hb : b.text.InText) (hs : b.info.Sorted)
    (hin : b.info.In (wholeBuffer b.text)) (ht : b.text.gpt ≤ t) (ht' : t ≤ b.text.z) :
    b.Moved ⟨b.text.movedUp t, adjustExtents b.info (b.text.gpt + b.text.gapSize)
        (t + b.text.gapSize) (-b.text.gapSize)⟩
      fun x => doMarkerAdjustment x (b.text.gpt + b.text.gapSize) (t + b.text.gapSize)
        (-b.text.gapSize) := by
  refine ⟨adjustExtents_valid hs hin (fun x hx => ?_) fun x hx => ?_,
    fun hx => hx.movedUp hb.2 ht ht', fun hxy => ?_, fun hy hxy => ?_, fun hx => ?_⟩
  · unfold BufferText.validMemindP at hx
    simp only [doMarkerAdjustment]
    grind
  · simp only [doMarkerAdjustment]
    grind
  · simp only [doMarkerAdjustment]
    grind
  · unfold BufferText.validMemindP at hy
    simp only [doMarkerAdjustment]
    grind
  · simp only [doMarkerAdjustment]
    grind

/-! ## Every motion -/

/-! ## Buffers in order -/

theorem Moved.lost (h : b.Moved b' f)
    (hin : b.info.In (wholeBuffer b.text)) (hs : b.info.Sound) :
    ∃ lost, b'.info.SoundBut lost ∧
      ∀ e ∈ b'.info.extents.byStart.els,
        b'.info.over b'.info.soe.pos e = true → lost e = true →
          e ∈ b.info.extents.byStart.els ∧ (b'.info.heap e) = (b.info.heap e).map f ∧
          (b.info.heap e).extentEnd < b.info.soe.pos ∧
            f (b.info.heap e).extentEnd = f b.info.soe.pos := by
  have hinfo := h.info
  split at hinfo
  · rename_i hempty
    refine ⟨fun _ => false, hinfo ▸ hs.but fun _ _ _ => rfl, fun e _ _ hlost => ?_⟩
    cases hlost
  · have hnone : b.info.SoundBut fun _ => false := hs.but fun _ _ _ => rfl
    refine ⟨_, hinfo ▸ hnone.mapEndpoints (h.shifts hin), fun e he hover hlost => ?_⟩
    rw [hinfo] at he hover
    have he : e ∈ b.info.extents.byStart.els := he
    rw [Bool.not_false, Bool.and_true, Bool.not_eq_true'] at hlost
    exact ⟨he, hinfo ▸ b.info.mapEndpoints_heap f he, (h.shifts hin).end_eq he hover hlost⟩

end moved

end ExtentText

end XEmacs.Extents

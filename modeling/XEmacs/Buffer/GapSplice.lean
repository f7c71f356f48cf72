import XEmacs.Buffer.GapMotion

/-!
# An insertion or deletion is a splice of the contents

`InsertSplices` and `DeleteSplices` say when, from the place and the sizes of the gaps and from
what the user types. A change goes wrong in two ways.
-/

namespace XEmacs.Gap

open BytePositions ByteMemory List

namespace Interrupts

/-- No critical quit disturbs an inhibited motion over `d` bytes: none stops it, and none
at its end is not continued. -/
def Quiet (q : Interrupts) (d : Nat) : Prop :=
  q.inhibited.short d = 0 ∧ q.inhibited.leaves d = false

instance (q : Interrupts) (d : Nat) : Decidable (q.Quiet d) :=
  inferInstanceAs (Decidable (_ ∧ _))

end Interrupts

open Interrupts

namespace BufferText

/-! ## Growth of the gap -/

/-- Where the second gap comes from: its size, and the new block if one is needed. -/
def growth (machine : Machine) (b : BufferText) (length : Nat) :
    Option (Nat × Option (Nat → Bufbyte)) :=
  let increment := length - b.gapSize + (2000 + (b.z - 1) / 8)
  if length ≤ b.endGapSize then some (b.endGapSize, none)
  else if b.endGapSize < increment then
    if machine.emacsIntMax < b.bufz - 1 + b.gapSize + increment then none
    else (machine.realloc (b.blockSize increment)).map fun new => (increment, some new)
  else some (b.endGapSize, none)

/-- The text in the block it has then. -/
def inBlock (b : BufferText) : Option (Nat → Bufbyte) → BufferText
  | none => b
  | some new => b.reallocated new

theorem room_eq {R : Type*} (machine : Machine) (b : BufferText) (length : Nat)
    (stay fail idle : R) (join : Option (Nat → Bufbyte) → Nat → R) (hg : 1 ≤ b.gapSize) :
    (if b.gapCanHoldSize length then stay
      else if length ≤ b.endGapSize then
        if 0 < b.endGapSize then join none b.endGapSize else idle
      else
        let increment := length - b.gapSize + (2000 + (b.z - 1) / 8)
        if b.endGapSize < increment then
          if machine.emacsIntMax < b.bufz - 1 + b.gapSize + increment then fail
          else
            match machine.realloc (b.blockSize increment) with
            | none => fail
            | some new => join (some new) increment
        else join none b.endGapSize) =
      if b.gapCanHoldSize length then stay
      else (b.growth machine length).elim fail fun grown => join grown.2 grown.1 := by
  by_cases hhold : b.gapCanHoldSize length = true
  · rw [if_pos hhold, if_pos hhold]
  rw [if_neg hhold, if_neg hhold, growth]
  by_cases hend : length ≤ b.endGapSize
  · have hpos : 0 < b.endGapSize := by
      rw [gapCanHoldSize, decide_eq_true_eq] at hhold
      omega
    simp only [if_pos hend, if_pos hpos, Option.elim_some]
  simp only [if_neg hend]
  by_cases hincr : b.endGapSize < length - b.gapSize + (2000 + (b.z - 1) / 8)
  · simp only [if_pos hincr]
    by_cases hmax : machine.emacsIntMax <
        b.bufz - 1 + b.gapSize + (length - b.gapSize + (2000 + (b.z - 1) / 8))
    · simp only [if_pos hmax, Option.elim_none]
    · simp only [if_neg hmax]
      cases machine.realloc
          (b.blockSize (length - b.gapSize + (2000 + (b.z - 1) / 8))) with
      | none => rfl
      | some new => rfl
  · simp only [if_neg hincr, Option.elim_some]

theorem makeRoom_eq (machine : Machine) (b : BufferText) (q : Interrupts) (length : Nat)
    (hg : 1 ≤ b.gapSize) :
    b.makeRoom machine q length =
      if b.gapCanHoldSize length then ⟨false, b, q⟩
      else
        match b.growth machine length with
        | none => ⟨true, b, q⟩
        | some (increment, new) => (b.inBlock new).joinEndGap q increment := by
  refine (room_eq machine b length ⟨false, b, q⟩ ⟨true, b, q⟩ ⟨false, { b with endGapSize := 0 }, q⟩
    (fun new increment => (b.inBlock new).joinEndGap q increment) hg).trans ?_
  cases b.growth machine length <;> rfl

theorem growth_room {machine : Machine} {b : BufferText} {length increment : Nat}
    {new : Option (Nat → Bufbyte)} (hg : 1 ≤ b.gapSize)
    (h : b.growth machine length = some (increment, new)) (hhold : ¬ b.gapCanHoldSize length) :
    1 ≤ increment ∧ length + 1 ≤ increment + b.gapSize := by
  rw [gapCanHoldSize, decide_eq_true_eq] at hhold
  rw [growth] at h
  split_ifs at h with hend hincr hmax
  · cases h
    omega
  · obtain ⟨new', -, hnew⟩ := Option.map_eq_some_iff.mp h
    cases hnew
    omega
  · cases h
    omega

/-- The end gap taken for the gap, moved down as far as `t`. -/
def parted (b : BufferText) (increment t : Nat) : BufferText :=
  { b with gpt := b.z + b.gapSize, gapSize := increment, endGapSize := 0 }.movedDown t

/-- The two gaps taken for one, when the second has been moved down as far as `t`. -/
def joined (b : BufferText) (increment t : Nat) : BufferText :=
  { b with
    beg := store (store (b.parted increment t).beg b.gpt 0) (increment + b.gapSize + b.z) 0
    gapSize := increment + b.gapSize
    endGapSize := 0 }

/-- Where the motion of a second gap down to the first stops. -/
def joinStop (b : BufferText) (q : Interrupts) : Nat :=
  b.gpt + b.gapSize + q.inhibited.short (b.z - b.gpt)

theorem joinEndGap_eq (b : BufferText) (q : Interrupts) (increment : Nat)
    (hz : b.gpt ≤ b.z) :
    b.joinEndGap q increment =
      if q.inhibited.leaves (b.z - b.gpt) then
        ⟨true, b.parted increment (b.joinStop q), q.inhibited.afterMotion (b.z - b.gpt)⟩
      else
        ⟨false, b.joined increment (b.joinStop q),
          { q.inhibited.afterMotion (b.z - b.gpt) with inhibitQuit := q.inhibitQuit }⟩ := by
  have heq :=
    gapLeft_eq { b with gpt := b.z + b.gapSize, gapSize := increment, endGapSize := 0 }
      q.inhibited (Nat.add_le_add_right hz b.gapSize)
  have hway : b.z + b.gapSize - (b.gpt + b.gapSize) = b.z - b.gpt := Nat.add_sub_add_right ..
  simp only [hway] at heq
  rw [joinEndGap, joinStop]
  simp only [heq, Outcome.andThen]
  cases q.inhibited.leaves (b.z - b.gpt) with
  | true => rfl
  | false => rfl

theorem joined_inText {b : BufferText} (hb : b.InText) (increment t : Nat) :
    (b.joined increment t).InText := hb

theorem joined_below {b : BufferText} {increment t a : Nat} (ht : b.gpt + b.gapSize ≤ t)
    (hz : b.gpt ≤ b.z) (ha : a < b.gpt) : (b.joined increment t).beg a = b.beg a := by
  show store (store (store (memmove b.beg (t + increment) t _) t 0) b.gpt 0) _ 0 a = b.beg a
  rw [store_other (by omega), store_other (by omega), store_other (by omega),
    memmove_outside (by omega)]

theorem contents_joined {b : BufferText} {increment : Nat} (hb : b.InText)
    (hg : 1 ≤ b.gapSize) (hi : 1 ≤ increment) :
    (b.joined increment (b.gpt + b.gapSize)).contents = b.contents := by
  refine contents_congr hb (joined_inText hb ..) rfl fun p h1 hp => ?_
  have hz := hb.2
  rcases Nat.lt_or_ge p b.gpt with hlow | hhigh
  · rw [byteAt_before (b := b.joined increment _) hlow,
      joined_below (Nat.le_refl _) hz hlow, byteAt_before hlow]
  · rw [byteAt_after (b := b.joined increment _) hhigh, byteAt_after hhigh]
    show store (store (store (memmove b.beg (b.gpt + b.gapSize + increment)
      (b.gpt + b.gapSize) (b.z + b.gapSize - (b.gpt + b.gapSize))) _ 0) b.gpt 0) _ 0
      (p + (increment + b.gapSize)) = b.beg (p + b.gapSize)
    rw [store_other (by omega), store_other (by omega), store_other (by omega),
      memmove_inside (by omega) (by omega)]
    congr 1
    omega

theorem inBlock_beg {b : BufferText} (new : Option (Nat → Bufbyte)) {a : Nat}
    (ha : a ≤ b.z + b.gapSize) : (b.inBlock new).beg a = b.beg a := by
  cases new with
  | none => rfl
  | some new =>
    show (if a ≤ b.blockSize b.endGapSize then b.beg a else new a) = b.beg a
    rw [if_pos (by rw [blockSize]; omega)]

theorem contents_inBlock {b : BufferText} (hb : b.InText) (new : Option (Nat → Bufbyte)) :
    (b.inBlock new).contents = b.contents := by
  have hz := hb.2
  cases new with
  | none => rfl
  | some new =>
    refine contents_congr hb hb rfl fun p _ hp => ?_
    rcases Nat.lt_or_ge p b.gpt with hlow | hhigh
    · rw [byteAt_before (b := b.inBlock (some new)) hlow, byteAt_before hlow,
        inBlock_beg _ (by omega)]
    · rw [byteAt_after (b := b.inBlock (some new)) hhigh, byteAt_after hhigh]
      show (b.inBlock (some new)).beg (p + b.gapSize) = b.beg (p + b.gapSize)
      exact inBlock_beg (some new) (by omega)

/-! ## The bytes put in and taken out -/

theorem contents_fillGap {b : BufferText} {s : List Bufbyte} (h1 : 1 ≤ b.gpt)
    (hroom : s.length + 1 ≤ b.gapSize) :
    (b.fillGap s).contents = insertAt b.contents b.gpt s := by
  have hsplit : b.gpt + s.length - 1 = b.gpt - 1 + s.length := by omega
  have hstart : 1 + (b.gpt - 1) = b.gpt := by omega
  have hgap : b.gpt + s.length + (b.gapSize - s.length) = b.gpt + b.gapSize := by omega
  have hrest : b.z + s.length - (b.gpt + s.length) = b.z - b.gpt := by omega
  show segment (store (memcpy b.beg b.gpt s) (b.gpt + s.length) 0) 1 (b.gpt + s.length - 1) ++
      segment (store (memcpy b.beg b.gpt s) (b.gpt + s.length) 0)
        (b.gpt + s.length + (b.gapSize - s.length))
        (b.z + s.length - (b.gpt + s.length)) = _
  rw [hsplit, segment_add, hstart, hgap, hrest, insertAt, contents]
  have hbefore : segment (store (memcpy b.beg b.gpt s) (b.gpt + s.length) 0) 1 (b.gpt - 1) =
      segment b.beg 1 (b.gpt - 1) := by
    rw [segment_eq_iff]
    intro i hi
    rw [store_other (by omega), memcpy_outside (by omega)]
  have hinside : segment (store (memcpy b.beg b.gpt s) (b.gpt + s.length) 0) b.gpt s.length =
      s := by
    refine Eq.trans ?_ (segment_memcpy b.beg b.gpt s)
    rw [segment_eq_iff]
    intro i hi
    rw [store_other (by omega)]
  have hafter : segment (store (memcpy b.beg b.gpt s) (b.gpt + s.length) 0)
      (b.gpt + b.gapSize) (b.z - b.gpt) = segment b.beg (b.gpt + b.gapSize) (b.z - b.gpt) := by
    rw [segment_eq_iff]
    intro i hi
    rw [store_other (by omega), memcpy_outside (by omega)]
  rw [hbefore, hinside, hafter, take_left' (length_segment ..),
    drop_left' (length_segment ..), append_assoc]

theorem deleteRange_middle (l m r : List Bufbyte) {a b : Nat} (ha : a - 1 = l.length)
    (hb : b - 1 = l.length + m.length) : deleteRange (l ++ m ++ r) a b = l ++ r := by
  rw [deleteRange, hb, ← length_append, drop_left, append_assoc, ha,
    take_left]

theorem contents_widenGap {b : BufferText} {biFrom biTo : Nat} (hg : 1 ≤ b.gapSize)
    (numdel : Nat) (h1 : 1 ≤ biFrom) (hz : biTo ≤ b.z) (hfrom : biFrom ≤ b.gpt)
    (hto : b.gpt ≤ biTo) :
    (b.widenGap numdel (biTo - biFrom) biFrom).contents =
      deleteRange b.contents biFrom biTo := by
  have hlow : b.gpt - 1 = biFrom - 1 + (b.gpt - biFrom) := by omega
  have hhigh : b.z - b.gpt = biTo - b.gpt + (b.z - biTo) := by omega
  have hrest : b.z - (biTo - biFrom) - biFrom = b.z - biTo := by omega
  have hold : b.contents = segment b.beg 1 (biFrom - 1) ++
      (segment b.beg (1 + (biFrom - 1)) (b.gpt - biFrom) ++
        segment b.beg (b.gpt + b.gapSize) (biTo - b.gpt)) ++
      segment b.beg (b.gpt + b.gapSize + (biTo - b.gpt)) (b.z - biTo) := by
    rw [contents, hhigh, segment_add b.beg (b.gpt + b.gapSize), hlow, segment_add b.beg 1,
      append_assoc, append_assoc, append_assoc]
  have hbefore : segment (store b.beg biFrom 0) 1 (biFrom - 1) =
      segment b.beg 1 (biFrom - 1) := by
    rw [segment_eq_iff]
    intro i hi
    rw [store_other (by omega)]
  have hafter : segment (store b.beg biFrom 0) (biFrom + (b.gapSize + (biTo - biFrom)))
      (b.z - biTo) = segment b.beg (b.gpt + b.gapSize + (biTo - b.gpt)) (b.z - biTo) := by
    rw [segment_eq_iff]
    intro i hi
    rw [store_other (by omega)]
    congr 1
    omega
  rw [hold, deleteRange_middle _ _ _ (by rw [length_segment])
    (by rw [length_append, length_segment, length_segment, length_segment]; omega)]
  show segment (store b.beg biFrom 0) 1 (biFrom - 1) ++
      segment (store b.beg biFrom 0) (biFrom + (b.gapSize + (biTo - biFrom)))
        (b.z - (biTo - biFrom) - biFrom) = _
  rw [hrest, hbefore, hafter]

theorem contents_cutBottom {b : BufferText} {biFrom : Nat} (numdel : Nat)
    (hg : 1 ≤ b.gapSize) (hgpt : 1 ≤ b.gpt) (hfrom : b.gpt ≤ biFrom) (hz : biFrom ≤ b.z) :
    (b.cutBottom numdel (b.z - biFrom)).contents =
      deleteRange b.contents biFrom b.z := by
  have hhigh : b.z - b.gpt = biFrom - b.gpt + (b.z - biFrom) := by omega
  have hnew : b.z - (b.z - biFrom) - b.gpt = biFrom - b.gpt := by omega
  have hold : b.contents =
      (segment b.beg 1 (b.gpt - 1) ++ segment b.beg (b.gpt + b.gapSize) (biFrom - b.gpt)) ++
      segment b.beg (b.gpt + b.gapSize + (biFrom - b.gpt)) (b.z - biFrom) ++ [] := by
    rw [contents, hhigh, segment_add, append_nil, append_assoc]
  have hbefore : segment (store b.beg b.gpt 0) 1 (b.gpt - 1) =
      segment b.beg 1 (b.gpt - 1) := by
    rw [segment_eq_iff]
    intro i hi
    rw [store_other (by omega)]
  have hafter : segment (store b.beg b.gpt 0) (b.gpt + b.gapSize) (biFrom - b.gpt) =
      segment b.beg (b.gpt + b.gapSize) (biFrom - b.gpt) := by
    rw [segment_eq_iff]
    intro i hi
    rw [store_other (by omega)]
  rw [hold, deleteRange_middle _ _ _
    (by rw [length_append, length_segment, length_segment]; omega)
    (by rw [length_append, length_segment, length_segment, length_segment]; omega),
    append_nil]
  show segment (store b.beg b.gpt 0) 1 (b.gpt - 1) ++
      segment (store b.beg b.gpt 0) (b.gpt + b.gapSize) (b.z - (b.z - biFrom) - b.gpt) = _
  rw [hnew, hbefore, hafter]

/-! ## When a change is a splice -/

end BufferText

/-- A change that returns leaves `new` as the contents, one that is left by an error or a
quit leaves `old`. -/
def Outcome.Splices (r : Outcome) (old new : List Bufbyte) : Prop :=
  r.text.contents = if r.left then old else new

namespace BufferText

/-- The sizes of the gaps when the gap has got to `ind`. -/
def sizesAt (b : BufferText) (ind : Nat) : BufferText :=
  if b.gpt < ind ∧ ind = b.z then
    { b with gapSize := b.gapSize + b.endGapSize, endGapSize := 0 }
  else b

/-- What is to come when the gap has been moved to `ind`. -/
def afterMove (b : BufferText) (q : Interrupts) (ind : Nat) : Interrupts :=
  if ind = b.gpt then q else q.afterMotion (b.way ind)

/-- When an insertion of `n` bytes at `ind` is a splice: nothing is inserted; or the
insertion is given up with the text as it was, by an error or by a quit in the motion of
the gap; or the gap gets to `ind` and has room, or is given room without a critical quit. -/
def InsertSplices (machine : Machine) (b : BufferText) (q : Interrupts) (ind n : Nat) :
    Prop :=
  n = 0 ∨ machine.emacsIntMax < n + b.bufz ∨
  (ind ≠ b.gpt ∧ q.leaves (b.way ind) = true) ∨
  if q.short (b.way ind) ≠ 0 then
    b.gapCanHoldSize n = false ∧ (b.growth machine n).isNone = true
  else
    (b.sizesAt ind).gapCanHoldSize n = true ∨
    ((b.sizesAt ind).growth machine n).isNone = true ∨
    (b.afterMove q ind).Quiet (b.z - ind)

instance (machine : Machine) (b : BufferText) (q : Interrupts) (ind n : Nat) :
    Decidable (InsertSplices machine b q ind n) := by
  unfold InsertSplices
  infer_instance

/-- When a deletion is a splice: the gap need not be moved, or a quit in its motion gives
the deletion up, or none stops it. -/
def DeleteSplices (b : BufferText) (q : Interrupts) (biFrom biTo : Nat) : Prop :=
  biFrom = biTo ∨ (biTo = b.z ∧ b.gpt < biFrom) ∨
  q.leaves ((b.gpt - biTo) + (biFrom - b.gpt)) = true ∨
  q.short ((b.gpt - biTo) + (biFrom - b.gpt)) = 0

instance (b : BufferText) (q : Interrupts) (biFrom biTo : Nat) :
    Decidable (DeleteSplices b q biFrom biTo) := by
  unfold DeleteSplices
  infer_instance

section Sizes

variable {b b' : BufferText}

/-- Two texts of one size with gaps of one size. -/
def SameSizes (b b' : BufferText) : Prop :=
  b'.z = b.z ∧ b'.bufz = b.bufz ∧ b'.gapSize = b.gapSize ∧ b'.endGapSize = b.endGapSize

theorem SameSizes.gapCanHoldSize (h : SameSizes b b') (n : Nat) :
    b'.gapCanHoldSize n = b.gapCanHoldSize n := by
  rw [BufferText.gapCanHoldSize, BufferText.gapCanHoldSize, h.2.2.1]

theorem SameSizes.growth (h : SameSizes b b') (machine : Machine) (n : Nat) :
    b'.growth machine n = b.growth machine n := by
  obtain ⟨hz, hbufz, hgap, hend⟩ := h
  rw [BufferText.growth, BufferText.growth, blockSize, blockSize, hz, hbufz, hgap, hend]

theorem sameSizes_short {ind t : Nat} (ht : b.OnWay ind t) (hz : ind ≤ b.z) (hne : t ≠ ind) :
    SameSizes b (b.movedTo ind t) := by
  rw [movedTo]
  split_ifs with h h'
  · exact ⟨rfl, rfl, rfl, rfl⟩
  · rw [movedUp_of_ne (by rcases ht with ht | ht <;> omega)]
    exact ⟨rfl, rfl, rfl, rfl⟩
  · exact ⟨rfl, rfl, rfl, rfl⟩

theorem sameSizes_there (b : BufferText) (ind : Nat) :
    SameSizes (b.sizesAt ind) (b.movedTo ind ind) := by
  have hdown : ¬ b.gpt < ind → SameSizes b (b.movedTo ind ind) := by
    intro hup
    rw [movedTo, if_neg hup]
    split_ifs
    · exact ⟨rfl, rfl, rfl, rfl⟩
    · exact ⟨rfl, rfl, rfl, rfl⟩
  rw [sizesAt]
  by_cases hup : b.gpt < ind
  · have hmoved : b.movedTo ind ind = b.movedUp ind := by
      rw [movedTo, if_neg (by omega), if_pos hup]
    rw [hmoved]
    by_cases hend : ind = b.z
    · subst hend
      rw [if_pos ⟨hup, rfl⟩, movedUp_end]
      exact ⟨rfl, rfl, rfl, rfl⟩
    · rw [if_neg (fun h => hend h.2), movedUp_of_ne hend]
      exact ⟨rfl, rfl, rfl, rfl⟩
  · rw [if_neg (fun h => hup h.1)]
    exact hdown hup

end Sizes

theorem moveGap_first (b : BufferText) (q : Interrupts) (ind : Nat) :
    (if ind ≠ b.gpt then b.moveGap q ind else ⟨false, b, q⟩) = b.moveGap q ind := by
  by_cases h : ind = b.gpt
  · rw [if_neg (not_not_intro h), moveGap, if_neg (by omega), if_neg (by omega)]
  · rw [if_pos h]

theorem insert_eq (machine : Machine) (b : BufferText) (q : Interrupts) (ind : Nat)
    (s : List Bufbyte) (hmax : ¬ machine.emacsIntMax < s.length + b.bufz) :
    b.bufferInsertString1 machine q ind s =
      if ind ≠ b.gpt ∧ q.leaves (b.way ind) = true then
        ⟨true, b.movedTo ind (b.stopAt q ind), b.afterMove q ind⟩
      else
        ((b.movedTo ind (b.stopAt q ind)).makeRoom machine (b.afterMove q ind)
          s.length).andThen fun b q => ⟨false, b.fillGap s, q⟩ := by
  rw [bufferInsertString1, if_neg hmax, moveGap_first, moveGap_eq, afterMove]
  by_cases hind : ind = b.gpt
  · rw [if_pos hind, if_neg (fun h => h.1 hind), if_pos hind, movedTo, if_neg (by omega),
      if_neg (by omega)]
    rfl
  · rw [if_neg hind, if_neg hind, Outcome.andThen]
    cases hl : q.leaves (b.way ind) with
    | true => rw [if_pos rfl, if_pos ⟨hind, rfl⟩]
    | false =>
      rw [if_neg Bool.false_ne_true, if_neg (fun h => Bool.false_ne_true h.2)]

theorem inBlock_sizes (b : BufferText) (new : Option (Nat → Bufbyte)) :
    (b.inBlock new).gpt = b.gpt ∧ (b.inBlock new).z = b.z ∧
      (b.inBlock new).gapSize = b.gapSize := by
  cases new with
  | none => exact ⟨rfl, rfl, rfl⟩
  | some new => exact ⟨rfl, rfl, rfl⟩

theorem makeRoom_returned {machine : Machine} {b : BufferText} {q : Interrupts} {n : Nat}
    (hb : b.InText) (hg : 1 ≤ b.gapSize) (hret : (b.makeRoom machine q n).left = false) :
    (b.makeRoom machine q n).text.gpt = b.gpt ∧ (b.makeRoom machine q n).text.z = b.z ∧
      n + 1 ≤ (b.makeRoom machine q n).text.gapSize ∧
      ∀ a, a < b.gpt → (b.makeRoom machine q n).text.beg a = b.beg a := by
  rw [makeRoom_eq machine b q n hg] at hret ⊢
  by_cases hhold : b.gapCanHoldSize n = true
  · rw [if_pos hhold]
    rw [gapCanHoldSize, decide_eq_true_eq] at hhold
    exact ⟨rfl, rfl, hhold, fun _ _ => rfl⟩
  rw [if_neg hhold] at hret ⊢
  cases hgrow : b.growth machine n with
  | none =>
    rw [hgrow] at hret
    cases hret
  | some grown =>
    obtain ⟨increment, new⟩ := grown
    obtain ⟨hgpt, hz, hgap⟩ := b.inBlock_sizes new
    have hin : (b.inBlock new).gpt ≤ (b.inBlock new).z := by rw [hgpt, hz]; exact hb.2
    rw [hgrow] at hret
    simp only [joinEndGap_eq (b.inBlock new) q increment hin] at hret ⊢
    split_ifs at hret ⊢ with hleaves
    refine ⟨hgpt, hz, ?_, ?_⟩
    · show n + 1 ≤ increment + (b.inBlock new).gapSize
      rw [hgap]
      exact (growth_room hg hgrow hhold).2
    · intro a ha
      rw [← hgpt] at ha
      rw [joined_below (by rw [joinStop]; omega) hin ha]
      exact inBlock_beg new (by have := hb.2; omega)

theorem makeRoom_quiet (machine : Machine) {b : BufferText} (q : Interrupts) {n : Nat}
    (hb : b.InText) (hg : 1 ≤ b.gapSize)
    (h : b.gapCanHoldSize n = true ∨ (b.growth machine n).isNone = true ∨
      q.Quiet (b.z - b.gpt)) :
    (b.makeRoom machine q n).text.contents = b.contents := by
  rw [makeRoom_eq machine b q n hg]
  by_cases hhold : b.gapCanHoldSize n = true
  · rw [if_pos hhold]
  rw [if_neg hhold]
  cases hgrow : b.growth machine n with
  | none => rfl
  | some grown =>
    obtain ⟨increment, new⟩ := grown
    rw [hgrow] at h
    obtain ⟨hstops, hleaves⟩ : q.Quiet (b.z - b.gpt) := by
      rcases h with h | h | h
      · exact absurd h hhold
      · cases h
      · exact h
    obtain ⟨hgpt, hz, hgap⟩ := b.inBlock_sizes new
    have hin : (b.inBlock new).InText := by rw [InText, hgpt, hz]; exact hb
    have ht : (b.inBlock new).joinStop q =
        (b.inBlock new).gpt + (b.inBlock new).gapSize := by
      rw [joinStop, hz, hgpt, hstops, Nat.add_zero]
    simp only [joinEndGap_eq (b.inBlock new) q increment hin.2, hz, hgpt, hleaves,
      Bool.false_eq_true, if_false, ht]
    rw [← hgpt, contents_joined hin (by rw [hgap]; exact hg) (growth_room hg hgrow hhold).1,
      contents_inBlock hb]

theorem fill_splices (machine : Machine) {b : BufferText} (q : Interrupts)
    {s : List Bufbyte} (hb : b.InText) (hg : 1 ≤ b.gapSize)
    (h : b.gapCanHoldSize s.length = true ∨ (b.growth machine s.length).isNone = true ∨
      q.Quiet (b.z - b.gpt)) :
    ((b.makeRoom machine q s.length).andThen fun b q => ⟨false, b.fillGap s, q⟩).Splices
      b.contents (insertAt b.contents b.gpt s) := by
  have hcontents := makeRoom_quiet machine q hb hg h
  rw [Outcome.Splices, Outcome.andThen]
  by_cases hleft : (b.makeRoom machine q s.length).left = true
  · rw [if_pos hleft, if_pos hleft, hcontents]
  · rw [if_neg hleft, if_neg Bool.false_ne_true]
    obtain ⟨hgpt, -, hsize, -⟩ := makeRoom_returned hb hg (Bool.eq_false_iff.mpr hleft)
    rw [← hcontents, ← hgpt]
    exact contents_fillGap (by rw [hgpt]; exact hb.1) hsize

theorem splices_of_insertSplices {machine : Machine} {b : BufferText} {q : Interrupts}
    {ind : Nat} {s : List Bufbyte} (hb : b.InText) (hg : 1 ≤ b.gapSize) (h1 : 1 ≤ ind)
    (hz : ind ≤ b.z) (h : InsertSplices machine b q ind s.length) :
    (b.bufferInsertString1 machine q ind s).Splices b.contents
      (insertAt b.contents ind s) := by
  by_cases hmax : machine.emacsIntMax < s.length + b.bufz
  · rw [bufferInsertString1, if_pos hmax]
    rfl
  have ht := b.stopAt_onWay q ind
  have hstop := b.stopAt_eq_iff q ind
  rw [insert_eq machine b q ind s hmax]
  generalize b.stopAt q ind = t at ht hstop ⊢
  have hcontents := contents_movedTo ht hb hg h1 hz
  by_cases hleft : ind ≠ b.gpt ∧ q.leaves (b.way ind) = true
  · rw [if_pos hleft]
    exact hcontents
  rw [if_neg hleft, ← hcontents]
  have hgpt := movedTo_gpt ht
  have hgap : 1 ≤ (b.movedTo ind t).gapSize := Nat.le_trans hg (movedTo_gapSize b ind t)
  have hin := movedTo_inText ht hb h1 hz
  rcases h with h | h | h | h
  · -- nothing is inserted, wherever the gap is
    obtain rfl := eq_nil_of_length_eq_zero h
    have hhold : (b.movedTo ind t).gapCanHoldSize ([] : List Bufbyte).length = true :=
      decide_eq_true hgap
    have hfill := fill_splices machine (b.afterMove q ind) hin hgap
      (Or.inl hhold)
    rw [insertAt_nil] at hfill ⊢
    exact hfill
  · exact absurd h hmax
  · exact absurd h hleft
  · by_cases hshort : q.short (b.way ind) = 0
    · rw [if_neg (not_not_intro hshort)] at h
      obtain rfl := hstop.mpr hshort
      have hsizes := sameSizes_there b t
      have hfill := fill_splices machine (b.afterMove q t) (s := s) hin hgap
        (by rw [hsizes.gapCanHoldSize, hsizes.growth, hgpt, movedTo_z]; exact h)
      rw [hgpt] at hfill
      exact hfill
    · -- the gap is elsewhere, but the room is refused
      rw [if_pos hshort] at h
      have hsizes := sameSizes_short ht hz fun hti => hshort (hstop.mp hti)
      rw [makeRoom_eq machine _ _ _ hgap, hsizes.gapCanHoldSize, hsizes.growth, h.1,
        if_neg Bool.false_ne_true]
      cases hgrow : b.growth machine s.length with
      | none => rfl
      | some grown =>
        rw [hgrow] at h
        cases h.2

/-! ## The conditions are exact -/

/-- Memory of zeros with one other byte. -/
def spike (a : Nat) (v : Bufbyte) : Nat → Bufbyte := store (fun _ => 0) a v

theorem spike_self (a : Nat) (v : Bufbyte) : spike a v a = v := store_self ..

theorem spike_other {a x : Nat} {v : Bufbyte} (h : x ≠ a) : spike a v x = 0 := store_other h

theorem getElem?_contents {b : BufferText} (hb : b.InText) {p : Nat} (h1 : 1 ≤ p)
    (hz : p < b.z) : b.contents[p - 1]? = some (b.byteAt p) := by
  rw [contents_eq_segment hb, getElem?_segment _ _ (by omega), Nat.add_sub_cancel' h1]

theorem length_contents {b : BufferText} (hb : b.InText) : b.contents.length = b.z - 1 := by
  rw [contents_eq_segment hb, length_segment]

theorem movedTo_spike {b : BufferText} {ind t : Nat} {v : Bufbyte} (hg : 1 ≤ b.gapSize)
    (ht : b.OnWay ind t) (hz : t < b.z) (hbeg : b.beg = spike (b.byteAddress t) v) :
    (b.movedTo ind t).beg = spike (t + (b.movedTo ind t).gapSize) v := by
  rw [movedTo]
  split_ifs with hlow hhigh
  · have htg : t ≤ b.gpt := by
      rcases ht with ht | ht
      · exact ht.2
      · omega
    funext x
    show store (memmove b.beg (t + b.gapSize) t (b.gpt - t)) t 0 x = spike (t + b.gapSize) v x
    by_cases hx : x = t
    · rw [hx, store_self, spike_other (by omega)]
    rw [store_other hx, hbeg, byteAddress]
    by_cases hin : t + b.gapSize ≤ x ∧ x < t + b.gapSize + (b.gpt - t)
    · rw [memmove_inside hin.1 hin.2, if_neg (by omega)]
      by_cases hx' : x = t + b.gapSize
      · rw [hx', spike_self, Nat.sub_self, Nat.zero_add, spike_self]
      · rw [spike_other hx', spike_other (by omega)]
    · rw [memmove_outside (by omega)]
      split_ifs with hend
      · rfl
      · rw [spike_other hx, spike_other (by omega)]
  · have htg : b.gpt ≤ t := by
      rcases ht with ht | ht
      · omega
      · exact ht.1
    rw [movedUp_of_ne (by omega)]
    funext x
    show store (memmove b.beg b.gpt (b.gpt + b.gapSize) (t - b.gpt)) t 0 x =
      spike (t + b.gapSize) v x
    by_cases hx : x = t
    · rw [hx, store_self, spike_other (by omega)]
    rw [store_other hx, hbeg, byteAddress, if_pos htg]
    by_cases hin : b.gpt ≤ x ∧ x < b.gpt + (t - b.gpt)
    · rw [memmove_inside hin.1 hin.2, spike_other (by omega), spike_other (by omega)]
    · rw [memmove_outside (by omega)]
  · have htg : t = b.gpt := by
      rcases ht with ht | ht
      · omega
      · omega
    rw [hbeg, byteAddress, if_pos (by omega)]

theorem joined_lost {b : BufferText} {increment t : Nat} {v : Bufbyte}
    {new : Option (Nat → Bufbyte)} (hi : 1 ≤ increment)
    (ht : b.gpt + b.gapSize < t) (hbeg : b.beg = spike (b.gpt + b.gapSize) v) (hv : v ≠ 0)
    (hnew : ∀ m, new = some m → m (b.gpt + (increment + b.gapSize)) ≠ v) :
    ((b.inBlock new).joined increment t).beg (b.gpt + (increment + b.gapSize)) ≠ v := by
  have hold : (b.inBlock new).beg (b.gpt + (increment + b.gapSize)) ≠ v := by
    have hspike : b.beg (b.gpt + (increment + b.gapSize)) ≠ v := by
      rw [hbeg, spike_other (by omega)]
      exact hv.symm
    cases new with
    | none => exact hspike
    | some m =>
      show (if b.gpt + (increment + b.gapSize) ≤ b.blockSize b.endGapSize then
        b.beg (b.gpt + (increment + b.gapSize)) else m (b.gpt + (increment + b.gapSize))) ≠ v
      split_ifs
      · exact hspike
      · exact hnew m rfl
  have hgpt : (b.inBlock new).gpt = b.gpt := by
    cases new with
    | none => rfl
    | some m => rfl
  show store (store (store (memmove (b.inBlock new).beg (t + increment) t _) t 0)
    (b.inBlock new).gpt 0) _ 0 (b.gpt + (increment + b.gapSize)) ≠ v
  rw [hgpt]
  by_cases hend : b.gpt + (increment + b.gapSize) =
      increment + (b.inBlock new).gapSize + (b.inBlock new).z
  · rw [hend, store_self]
    exact hv.symm
  rw [store_other hend, store_other (by omega)]
  by_cases hstop : b.gpt + (increment + b.gapSize) = t
  · rw [hstop, store_self]
    exact hv.symm
  rw [store_other hstop, memmove_outside (by omega)]
  exact hold

theorem parted_gpt (b : BufferText) (increment t : Nat) : (b.parted increment t).gpt = t :=
  rfl

theorem parted_below {b : BufferText} {increment t a : Nat} (ha : a < t) :
    (b.parted increment t).beg a = b.beg a := by
  show store (memmove b.beg (t + increment) t _) t 0 a = b.beg a
  rw [store_other (by omega), memmove_outside (by omega)]

theorem parted_ne {b : BufferText} {increment t : Nat} {v : Bufbyte}
    {new : Option (Nat → Bufbyte)} (hb : b.InText) (hg : 1 ≤ b.gapSize)
    (ht : b.gpt + b.gapSize ≤ t)
    (hbeg : b.gpt < b.z → b.beg = spike (b.gpt + b.gapSize) v) (hv : v ≠ 0) :
    ((b.inBlock new).parted increment t).contents ≠ b.contents := by
  intro heq
  have h1 := hb.1
  have hz := hb.2
  rcases Nat.lt_or_ge b.gpt b.z with hlt | hge
  · have hnew := getElem?_contents hb hb.1 hlt
    rw [← heq, byteAt_after (Nat.le_refl _), hbeg hlt, spike_self, contents, parted_gpt,
      getElem?_append_left (by rw [length_segment]; omega),
      getElem?_segment _ _ (by omega), Nat.add_sub_cancel' hb.1, parted_below (by omega),
      inBlock_beg new (by omega), hbeg hlt, spike_other (by omega)] at hnew
    exact hv (Option.some.inj hnew).symm
  · have hlen := congrArg List.length heq
    rw [length_contents hb, contents, length_append, length_segment,
      length_segment] at hlen
    have hlen' : t - 1 + (b.z - t) = b.z - 1 := by
      cases new with
      | none => exact hlen
      | some m => exact hlen
    omega

theorem insertAt_ne {l l' s : List Bufbyte} {p p' : Nat} {v : Bufbyte} (hp : 1 ≤ p)
    (hlt : p < p') (hp' : p' ≤ l'.length + 1) (hl : p ≤ l.length + 1) (hs : 0 < s.length)
    (hv : s[0]? = some v) (hne : l'[p - 1]? ≠ some v) : insertAt l p s ≠ insertAt l' p' s := by
  intro heq
  have hin := getElem?_insertAt_inside hp hl hs
  rw [Nat.add_zero, heq, insertAt, getElem?_append_left
    (by rw [length_take]; omega), getElem?_take_of_lt (by omega),
    ← getElem?_eq_getElem hs, hv] at hin
  exact hne hin

section Exact

variable {machine : Machine} {b : BufferText} {q : Interrupts} {ind n : Nat}

theorem sameSizes_beg (b : BufferText) (ind t : Nat) (m : Nat → Bufbyte) :
    SameSizes (b.movedTo ind t) ({ b with beg := m }.movedTo ind t) := by
  rw [movedTo, movedTo, movedUp, movedUp]
  split_ifs
  · exact ⟨rfl, rfl, rfl, rfl⟩
  · exact ⟨rfl, rfl, rfl, rfl⟩
  · exact ⟨rfl, rfl, rfl, rfl⟩
  · exact ⟨rfl, rfl, rfl, rfl⟩

theorem exists_byte (w : Bufbyte) : ∃ v : Bufbyte, v ≠ 0 ∧ v ≠ 2 ∧ v ≠ w := by
  by_cases h : w = 1
  · exact ⟨3, by decide, by decide, by rw [h]; decide⟩
  · exact ⟨1, by decide, by decide, fun h' => h h'.symm⟩

theorem makeRoom_disturbed {new : Option (Nat → Bufbyte)} {increment : Nat} {v : Bufbyte}
    (hb : b.InText) (hg : 1 ≤ b.gapSize) (hhold : b.gapCanHoldSize n = false)
    (hgrow : b.growth machine n = some (increment, new)) (hquiet : ¬ q.Quiet (b.z - b.gpt))
    (hbeg : b.gpt < b.z → b.beg = spike (b.gpt + b.gapSize) v) (hv : v ≠ 0)
    (hnew : ∀ m, new = some m → m (b.gpt + (increment + b.gapSize)) ≠ v) :
    (b.makeRoom machine q n).text.contents ≠ b.contents := by
  obtain ⟨hinc, -⟩ := growth_room hg hgrow (by rw [hhold]; exact Bool.false_ne_true)
  obtain ⟨hgpt, hz, hgap⟩ := b.inBlock_sizes new
  have hin : (b.inBlock new).InText := by rw [InText, hgpt, hz]; exact hb
  have hstop : (b.inBlock new).joinStop q =
      b.gpt + b.gapSize + q.inhibited.short (b.z - b.gpt) := by
    rw [joinStop, hgpt, hgap, hz]
  simp only [makeRoom_eq machine b q n hg, hhold, Bool.false_eq_true, if_false, hgrow,
    joinEndGap_eq (b.inBlock new) q increment hin.2, hz, hgpt, hstop]
  cases hleaves : q.inhibited.leaves (b.z - b.gpt) with
  | true => exact parted_ne hb hg (Nat.le_add_right ..) hbeg hv
  | false =>
    have hshort : q.inhibited.short (b.z - b.gpt) ≠ 0 := fun h => hquiet ⟨h, hleaves⟩
    have hlt : b.gpt < b.z := by
      have hle := q.inhibited.short_le (b.z - b.gpt)
      omega
    intro heq
    have hnew' := joined_lost (t := b.gpt + b.gapSize + q.inhibited.short (b.z - b.gpt))
      hinc (by omega) (hbeg hlt) hv hnew
    have hat := getElem?_contents (joined_inText hin increment
      (b.gpt + b.gapSize + q.inhibited.short (b.z - b.gpt))) hb.1
      (show b.gpt < (b.inBlock new).z by rw [hz]; exact hlt)
    rw [if_neg Bool.false_ne_true] at heq
    rw [heq, getElem?_contents hb hb.1 hlt, byteAt_after (Nat.le_refl _), hbeg hlt,
      spike_self, byteAt_after (b := (b.inBlock new).joined increment _)
      (Nat.le_of_eq hgpt)] at hat
    refine hnew' ?_
    rw [Option.some.inj hat, ← hgap]
    rfl

theorem not_quiet_of_left (hb : b.InText) (hg : 1 ≤ b.gapSize)
    (hgrow : (b.growth machine n).isNone = false)
    (hleft : (b.makeRoom machine q n).left = true) : ¬ q.Quiet (b.z - b.gpt) := by
  rintro ⟨-, hleaves⟩
  rw [makeRoom_eq machine b q n hg] at hleft
  by_cases hhold : b.gapCanHoldSize n = true
  · rw [if_pos hhold] at hleft
    cases hleft
  rw [if_neg hhold] at hleft
  cases hgrow' : b.growth machine n with
  | none =>
    rw [hgrow'] at hgrow
    cases hgrow
  | some grown =>
    obtain ⟨increment, new⟩ := grown
    obtain ⟨hgpt, hz, -⟩ := b.inBlock_sizes new
    rw [hgrow'] at hleft
    simp only [joinEndGap_eq (b.inBlock new) q increment (by rw [hgpt, hz]; exact hb.2), hz,
      hgpt, hleaves, Bool.false_eq_true, if_false] at hleft

/-- The byte that a new block happens to hold where the text after the gap is expected. -/
def junk (machine : Machine) (b : BufferText) (n : Nat) : Bufbyte :=
  match b.growth machine n with
  | some (increment, some new) => new (b.gpt + (increment + b.gapSize))
  | _ => 0

theorem junk_eq {new : Option (Nat → Bufbyte)} {increment : Nat}
    (hgrow : b.growth machine n = some (increment, new)) :
    ∀ m, new = some m → m (b.gpt + (increment + b.gapSize)) = b.junk machine n := by
  intro m hm
  rw [junk, hgrow, hm]

/-- The bytes put into a gap that is elsewhere, or that a critical quit disturbed while it
was given room, are not a splice. -/
theorem fill_not_splices {v : Bufbyte} (hb : b.InText) (hg : 1 ≤ b.gapSize) (h1 : 1 ≤ ind)
    (hz : ind ≤ b.z) (hn : n ≠ 0)
    (hgrow : b.gapCanHoldSize n = false → (b.growth machine n).isNone = false)
    (hbad : b.gpt ≠ ind ∨ b.gapCanHoldSize n = false ∧ ¬ q.Quiet (b.z - b.gpt))
    (hbeg : b.gpt < b.z → b.beg = spike (b.gpt + b.gapSize) v) (hv : v ≠ 0)
    (hjunk : v ≠ b.junk machine n) (htwo : ∀ p, 1 ≤ p → p < b.z → b.byteAt p ≠ 2) :
    ¬ ((b.makeRoom machine q n).andThen fun b q =>
      ⟨false, b.fillGap (List.replicate n 2), q⟩).Splices b.contents
        (insertAt b.contents ind (List.replicate n 2)) := by
  have hdisturbed : b.gapCanHoldSize n = false → ¬ q.Quiet (b.z - b.gpt) →
      (b.makeRoom machine q n).text.contents ≠ b.contents := by
    intro hhold hquiet
    cases hgrow' : b.growth machine n with
    | none =>
      have hnone := hgrow hhold
      rw [hgrow'] at hnone
      cases hnone
    | some grown =>
      obtain ⟨increment, new⟩ := grown
      exact makeRoom_disturbed hb hg hhold hgrow' hquiet hbeg hv fun m hm =>
        (junk_eq hgrow' m hm).symm ▸ hjunk.symm
  intro h
  rw [Outcome.Splices, Outcome.andThen] at h
  by_cases hleft : (b.makeRoom machine q n).left = true
  · rw [if_pos hleft, hleft, if_pos rfl] at h
    cases hhold : b.gapCanHoldSize n with
    | true =>
      rw [makeRoom_eq machine b q n hg, hhold, if_pos rfl] at hleft
      cases hleft
    | false =>
      exact hdisturbed hhold (not_quiet_of_left hb hg (hgrow hhold) hleft) h
  rw [if_neg hleft, if_neg Bool.false_ne_true] at h
  obtain ⟨hgpt, hzr, hroom, hbelow⟩ :=
    makeRoom_returned hb hg (Bool.eq_false_iff.mpr hleft)
  have hin : (b.makeRoom machine q n).text.InText := by rw [InText, hgpt, hzr]; exact hb
  simp only at h
  rw [contents_fillGap hin.1 (by rw [length_replicate]; exact hroom), hgpt] at h
  have hlen := length_contents hb
  have hlen' := length_contents hin
  rw [hzr] at hlen'
  have hgz := hb.2
  have hg1 := hb.1
  have hfirst : (List.replicate n (2 : Bufbyte))[0]? = some 2 := by
    rw [getElem?_replicate, if_pos (Nat.pos_of_ne_zero hn)]
  have hpos : 0 < (List.replicate n (2 : Bufbyte)).length := by
    rw [length_replicate]
    exact Nat.pos_of_ne_zero hn
  rcases Nat.lt_trichotomy b.gpt ind with hlt | heq | hgt
  · -- the bytes stand before their place
    refine insertAt_ne hg1 hlt (by omega) (by omega) hpos hfirst ?_ h
    rw [getElem?_contents hb hg1 (by omega)]
    intro htwo'
    exact htwo b.gpt hg1 (by omega) (Option.some.inj htwo')
  · subst heq
    rcases hbad with hne | ⟨hhold, hquiet⟩
    · exact hne rfl
    · refine hdisturbed hhold hquiet ?_
      have hdel := congrArg
        (fun l => deleteRange l b.gpt (b.gpt + (List.replicate n (2 : Bufbyte)).length)) h
      rw [deleteRange_insertAt hg1 (Nat.le_refl _) (by omega),
        deleteRange_insertAt hg1 (Nat.le_refl _) (by omega), deleteRange_self,
        deleteRange_self] at hdel
      exact hdel
  · -- the bytes stand after their place
    refine insertAt_ne h1 hgt (by omega) (by omega) hpos hfirst ?_ h.symm
    rw [getElem?_contents hin h1 (by omega), byteAt_before (by omega), hbelow _ hgt,
      ← byteAt_before hgt]
    intro htwo'
    exact htwo ind h1 (by omega) (Option.some.inj htwo')

theorem junk_congr {b' : BufferText} (h : SameSizes b b') (hgpt : b'.gpt = b.gpt) :
    b'.junk machine n = b.junk machine n := by
  rw [junk, junk, h.growth, hgpt, h.2.2.1]

/-- Where the condition of an insertion is not met, it is not a splice of a text of zeros
with one other byte. -/
theorem insert_not_splices {v : Bufbyte} (hb : b.InText) (hg : 1 ≤ b.gapSize)
    (h1 : 1 ≤ ind) (hz : ind ≤ b.z) (hno : ¬ InsertSplices machine b q ind n)
    (hbeg : b.beg = spike (b.byteAddress (b.stopAt q ind)) v) (hv0 : v ≠ 0) (hv2 : v ≠ 2)
    (hjunk : v ≠ (b.movedTo ind (b.stopAt q ind)).junk machine n) :
    ¬ (b.bufferInsertString1 machine q ind (List.replicate n 2)).Splices b.contents
        (insertAt b.contents ind (List.replicate n 2)) := by
  rw [InsertSplices, not_or, not_or, not_or] at hno
  obtain ⟨hn, hmax, hleaves, hrest⟩ := hno
  have ht := b.stopAt_onWay q ind
  have hstop := b.stopAt_eq_iff q ind
  rw [insert_eq machine b q ind _ (by rw [length_replicate]; exact hmax),
    if_neg hleaves, length_replicate]
  generalize b.stopAt q ind = t at ht hstop hbeg hjunk ⊢
  have hgpt := movedTo_gpt ht
  have hzt := movedTo_z b ind t
  have hin := movedTo_inText ht hb h1 hz
  have hgap := Nat.le_trans hg (movedTo_gapSize b ind t)
  have hcontents := contents_movedTo ht hb hg h1 hz
  have htwo : ∀ p, 1 ≤ p → p < (b.movedTo ind t).z → (b.movedTo ind t).byteAt p ≠ 2 := by
    intro p hp hpz heq
    have hat := getElem?_contents hin hp hpz
    rw [hcontents, getElem?_contents hb hp (by rw [← hzt]; exact hpz), byteAt, hbeg,
      heq] at hat
    by_cases hx : b.byteAddress p = b.byteAddress t
    · rw [hx, spike_self] at hat
      exact hv2 (Option.some.inj hat)
    · rw [spike_other hx] at hat
      cases hat
  rw [← hcontents]
  by_cases hshort : q.short (b.way ind) = 0
  · rw [if_neg (not_not_intro hshort), not_or, not_or] at hrest
    obtain ⟨hhold, hgrow, hquiet⟩ := hrest
    obtain rfl := hstop.mpr hshort
    have hsizes := sameSizes_there b t
    rw [← hsizes.gapCanHoldSize] at hhold
    rw [← hsizes.growth] at hgrow
    refine fill_not_splices hin hgap h1 (by rw [hzt]; exact hz) hn
      (fun _ => Bool.eq_false_iff.mpr hgrow)
      (Or.inr ⟨Bool.eq_false_iff.mpr hhold, by rw [hzt, hgpt]; exact hquiet⟩) ?_ hv0
      hjunk htwo
    intro hlt
    rw [hgpt]
    exact movedTo_spike hg ht (by rw [hgpt, hzt] at hlt; exact hlt) hbeg
  · rw [if_pos hshort] at hrest
    have hsizes := sameSizes_short ht hz fun hti => hshort (hstop.mp hti)
    refine fill_not_splices hin hgap h1 (by rw [hzt]; exact hz) hn ?_
      (Or.inl (by rw [hgpt]; exact fun hti => hshort (hstop.mp hti))) ?_ hv0 hjunk htwo
    · intro hhold
      rw [hsizes.gapCanHoldSize] at hhold
      rw [hsizes.growth]
      exact Bool.eq_false_iff.mpr fun hnone => hrest ⟨hhold, hnone⟩
    · intro hlt
      rw [hgpt]
      exact movedTo_spike hg ht (by rw [hgpt, hzt] at hlt; exact hlt) hbeg

theorem insertSplices_beg (machine : Machine) (b : BufferText) (q : Interrupts)
    (ind n : Nat) (m : Nat → Bufbyte) :
    InsertSplices machine { b with beg := m } q ind n ↔ InsertSplices machine b q ind n := by
  have hsame : SameSizes (b.sizesAt ind) ({ b with beg := m }.sizesAt ind) := by
    rw [sizesAt, sizesAt]
    split_ifs
    · exact ⟨rfl, rfl, rfl, rfl⟩
    · exact ⟨rfl, rfl, rfl, rfl⟩
  rw [InsertSplices, InsertSplices, hsame.gapCanHoldSize, hsame.growth]
  rfl

/-- **The condition of an insertion is exact**: it is met if and only if the insertion is a
splice of every text of these sizes, whatever its bytes and those inserted. -/
theorem insert_splices_iff (hb : b.InText) (hg : 1 ≤ b.gapSize) (h1 : 1 ≤ ind)
    (hz : ind ≤ b.z) :
    (∀ (m : Nat → Bufbyte) (s : List Bufbyte), s.length = n →
      ({ b with beg := m }.bufferInsertString1 machine q ind s).Splices
        { b with beg := m }.contents (insertAt { b with beg := m }.contents ind s)) ↔
      InsertSplices machine b q ind n := by
  constructor
  · intro h
    by_contra hno
    obtain ⟨v, hv0, hv2, hvj⟩ :=
      exists_byte ((b.movedTo ind (b.stopAt q ind)).junk machine n)
    have hsame := b.sameSizes_beg ind (b.stopAt q ind)
      (spike (b.byteAddress (b.stopAt q ind)) v)
    refine insert_not_splices
      (b := { b with beg := spike (b.byteAddress (b.stopAt q ind)) v })
      hb hg h1 hz ((insertSplices_beg machine b q ind n _).not.mpr hno) rfl hv0 hv2 ?_
      (h _ (List.replicate n 2) (length_replicate ..))
    rw [← junk_congr hsame] at hvj
    · exact hvj
    · rw [movedTo_gpt (b.stopAt_onWay q ind)]
      exact movedTo_gpt (b := { b with beg := spike (b.byteAddress (b.stopAt q ind)) v })
        (b.stopAt_onWay q ind)
  · intro h m s hs
    refine splices_of_insertSplices (b := { b with beg := m }) hb hg h1 hz ?_
    rw [hs]
    exact (insertSplices_beg machine b q ind n m).mpr h

end Exact

/-- A range of the text in characters and in bytes, as `bufpos_to_bytind` gives it. -/
structure ByteRange (b : BufferText) where
  start : Nat
  stop : Nat
  biFrom : Nat
  biTo : Nat
  one_le : 1 ≤ biFrom
  le : biFrom ≤ biTo
  le_z : biTo ≤ b.z
  empty_iff : stop - start = 0 ↔ biFrom = biTo
  bottom_iff : stop = b.bufz ↔ biTo = b.z

/-- Where the gap is moved for a deletion: next to the range, unless it is in it. -/
def beside (b : BufferText) (biFrom biTo : Nat) : Nat :=
  if biTo < b.gpt then biTo else if b.gpt < biFrom then biFrom else b.gpt

section Deletion

variable {b : BufferText} {q : Interrupts}

theorem beside_bounds (b : BufferText) (r : ByteRange b) :
    r.biFrom ≤ b.beside r.biFrom r.biTo ∧ b.beside r.biFrom r.biTo ≤ r.biTo := by
  have hle := r.le
  rw [beside]
  split_ifs
  · omega
  · omega
  · omega

theorem way_beside (b : BufferText) (r : ByteRange b) :
    b.way (b.beside r.biFrom r.biTo) = (b.gpt - r.biTo) + (r.biFrom - b.gpt) := by
  have hle := r.le
  rw [way, beside]
  split_ifs
  · omega
  · omega
  · omega

theorem delete_eq (b : BufferText) (q : Interrupts) (r : ByteRange b)
    (hne : r.biFrom ≠ r.biTo) (hbottom : ¬ (r.biTo = b.z ∧ b.gpt < r.biFrom)) :
    b.bufferDeleteRange q r.start r.stop r.biFrom r.biTo =
      (b.moveGap q (b.beside r.biFrom r.biTo)).andThen fun b q =>
        ⟨false, b.widenGap (r.stop - r.start) (r.biTo - r.biFrom) r.biFrom, q⟩ := by
  have hle := r.le
  rw [bufferDeleteRange, if_neg (mt r.empty_iff.mp hne),
    if_neg (fun h => hbottom ⟨r.bottom_iff.mp h.1, h.2⟩), beside]
  by_cases hlow : r.biTo < b.gpt
  · have hgpt : ¬ (b.movedDown (r.biTo + q.short (b.gpt - r.biTo))).gpt < r.biFrom := by
      show ¬ r.biTo + q.short (b.gpt - r.biTo) < r.biFrom
      omega
    rw [if_pos hlow, if_pos hlow, moveGap, if_pos hlow, gapLeft_eq b q (Nat.le_of_lt hlow)]
    simp only [Outcome.andThen, hgpt, if_false, Bool.false_eq_true]
  · rw [if_neg hlow, if_neg hlow]
    by_cases hhigh : b.gpt < r.biFrom
    · rw [if_pos hhigh, moveGap, if_neg (by omega), if_pos hhigh]
      simp only [Outcome.andThen, hhigh, if_true, Bool.false_eq_true, if_false]
    · rw [if_neg hhigh, moveGap, if_neg (Nat.lt_irrefl _), if_neg (Nat.lt_irrefl _)]
      simp only [Outcome.andThen, hhigh, Bool.false_eq_true, if_false]

theorem splices_of_deleteSplices (hb : b.InText) (hg : 1 ≤ b.gapSize) (r : ByteRange b)
    (h : DeleteSplices b q r.biFrom r.biTo) :
    (b.bufferDeleteRange q r.start r.stop r.biFrom r.biTo).Splices b.contents
      (deleteRange b.contents r.biFrom r.biTo) := by
  have hle := r.le
  have hgz := hb.2
  by_cases hne : r.biFrom = r.biTo
  · rw [bufferDeleteRange, if_pos (r.empty_iff.mpr hne), hne, deleteRange_self]
    rfl
  by_cases hbottom : r.biTo = b.z ∧ b.gpt < r.biFrom
  · rw [bufferDeleteRange, if_neg (mt r.empty_iff.mp hne),
      if_pos ⟨r.bottom_iff.mpr hbottom.1, hbottom.2⟩, hbottom.1]
    exact contents_cutBottom _ hg hb.1 (Nat.le_of_lt hbottom.2) (by have := r.le_z; omega)
  rw [delete_eq b q r hne hbottom]
  obtain ⟨hfrom, hto⟩ := b.beside_bounds r
  have ht := b.stopAt_onWay q (b.beside r.biFrom r.biTo)
  have hstop := b.stopAt_eq_iff q (b.beside r.biFrom r.biTo)
  rw [b.way_beside r] at hstop
  have h1 : 1 ≤ b.beside r.biFrom r.biTo := Nat.le_trans r.one_le hfrom
  have hz : b.beside r.biFrom r.biTo ≤ b.z := Nat.le_trans hto r.le_z
  rw [moveGap_eq, b.way_beside r]
  by_cases hhere : b.beside r.biFrom r.biTo = b.gpt
  · rw [if_pos hhere]
    exact contents_widenGap hg _ r.one_le r.le_z (by omega) (by omega)
  rw [if_neg hhere, Outcome.andThen]
  by_cases hleaves : q.leaves ((b.gpt - r.biTo) + (r.biFrom - b.gpt)) = true
  · rw [if_pos hleaves, hleaves]
    exact contents_movedTo ht hb hg h1 hz
  rw [if_neg hleaves]
  rcases h with h | h | h | h
  · exact absurd h hne
  · exact absurd h hbottom
  · exact absurd h hleaves
  rw [hstop.mpr h] at ht ⊢
  have hgpt := movedTo_gpt ht
  rw [Outcome.Splices, if_neg Bool.false_ne_true, ← contents_movedTo ht hb hg h1 hz]
  exact contents_widenGap (Nat.le_trans hg (movedTo_gapSize ..)) _ r.one_le
    (by rw [movedTo_z]; exact r.le_z) (by rw [hgpt]; exact hfrom) (by rw [hgpt]; exact hto)

theorem widenGap_inText (r : ByteRange b) {b' : BufferText}
    (hz : b'.z = b.z) (numdel : Nat) :
    (b'.widenGap numdel (r.biTo - r.biFrom) r.biFrom).InText := by
  have hle := r.le
  have hbz := r.le_z
  refine ⟨r.one_le, ?_⟩
  show r.biFrom ≤ b'.z - (r.biTo - r.biFrom)
  omega

/-- Where the condition of a deletion is not met, it is not a splice of a text of zeros
with one other byte: the first one after the range, or the one where the gap stops. -/
theorem delete_not_splices (hb : b.InText) (hg : 1 ≤ b.gapSize) (r : ByteRange b)
    (hno : ¬ DeleteSplices b q r.biFrom r.biTo)
    (hbeg : b.beg = spike (b.byteAddress (if r.biTo < b.gpt then r.biTo
      else b.stopAt q (b.beside r.biFrom r.biTo))) 1) :
    ¬ (b.bufferDeleteRange q r.start r.stop r.biFrom r.biTo).Splices b.contents
      (deleteRange b.contents r.biFrom r.biTo) := by
  rw [DeleteSplices, not_or, not_or, not_or] at hno
  obtain ⟨hne, hbottom, hleaves, hshort⟩ := hno
  have hle := r.le
  have hone := r.one_le
  have hbz := r.le_z
  have hlen := length_contents hb
  have hshortle := q.short_le ((b.gpt - r.biTo) + (r.biFrom - b.gpt))
  have hgz := hb.2
  have hhere : b.beside r.biFrom r.biTo ≠ b.gpt := by
    intro hhere
    have hway := b.way_beside r
    rw [hhere, way, Nat.sub_self] at hway
    rw [← hway] at hshort
    exact hshort rfl
  have ht := b.stopAt_onWay q (b.beside r.biFrom r.biTo)
  have hne' : b.stopAt q (b.beside r.biFrom r.biTo) ≠ b.beside r.biFrom r.biTo := by
    rw [Ne, stopAt_eq_iff, b.way_beside r]
    exact hshort
  rw [delete_eq b q r hne hbottom, moveGap_eq, if_neg hhere, b.way_beside r,
    Outcome.andThen, if_neg hleaves]
  generalize b.stopAt q (b.beside r.biFrom r.biTo) = t at ht hne' hbeg ⊢
  intro h
  rw [Outcome.Splices, if_neg Bool.false_ne_true] at h
  have hin := widenGap_inText r (movedTo_z b (b.beside r.biFrom r.biTo) t)
    (r.stop - r.start)
  by_cases hlow : r.biTo < b.gpt
  · -- the byte after the range is looked for too far
    have hbeside : b.beside r.biFrom r.biTo = r.biTo := if_pos hlow
    have hbt : r.biTo < t := by
      rw [hbeside] at ht hne'
      rcases ht with ht | ht
      · omega
      · omega
    rw [if_pos hlow, byteAddress, if_neg (by omega)] at hbeg
    rw [hbeside, movedTo, if_pos hlow] at h hin
    have hat := getElem?_contents hin r.one_le
      (by show r.biFrom < b.z - (r.biTo - r.biFrom); omega)
    have hdel : (deleteRange b.contents r.biFrom r.biTo)[r.biFrom - 1]? =
        b.contents[r.biTo - 1]? := by
      rw [deleteRange, getElem?_append_right (by rw [length_take]; omega),
        length_take, getElem?_drop]
      congr 1
      omega
    rw [h, hdel, getElem?_contents hb (by omega) (by omega), byteAt_before hlow, hbeg,
      spike_self, byteAt_after (b := (b.movedDown t).widenGap _ _ r.biFrom)
        (Nat.le_refl r.biFrom)] at hat
    have hzero : store (store (memmove b.beg (t + b.gapSize) t (b.gpt - t)) t 0) r.biFrom 0
        (r.biFrom + (b.gapSize + (r.biTo - r.biFrom))) = 0 := by
      rw [store_other (by omega)]
      by_cases hx : r.biFrom + (b.gapSize + (r.biTo - r.biFrom)) = t
      · rw [hx, store_self]
      · rw [store_other hx, memmove_outside (by omega), hbeg, spike_other (by omega)]
    exact absurd ((Option.some.inj hat).trans hzero) (by decide)
  · -- the first byte after the gap is taken for one before it
    have hhigh : b.gpt < r.biFrom := by
      by_contra hhigh
      exact hhere (by rw [beside, if_neg hlow, if_neg hhigh])
    have hbeside : b.beside r.biFrom r.biTo = r.biFrom := by
      rw [beside, if_neg hlow, if_pos hhigh]
    have hbt : b.gpt ≤ t ∧ t < r.biFrom := by
      rw [hbeside] at ht hne'
      rcases ht with ht | ht
      · omega
      · omega
    have ht1 := hb.1
    rw [if_neg hlow, byteAddress, if_pos hbt.1] at hbeg
    rw [hbeside, movedTo, if_neg (by omega), if_pos hhigh, movedUp_of_ne (by omega)] at h hin
    have hat := getElem?_contents hin (p := t) (by omega)
      (by show t < b.z - (r.biTo - r.biFrom); omega)
    have hdel : (deleteRange b.contents r.biFrom r.biTo)[t - 1]? = b.contents[t - 1]? := by
      rw [deleteRange, getElem?_append_left (by rw [length_take]; omega),
        getElem?_take_of_lt (by omega)]
    rw [h, hdel, getElem?_contents hb (by omega) (by omega), byteAt_after hbt.1, hbeg,
      spike_self, byteAt_before hbt.2] at hat
    have hzero : store (store (memmove b.beg b.gpt (b.gpt + b.gapSize) (t - b.gpt)) t 0)
        r.biFrom 0 t = 0 := by
      rw [store_other (by omega), store_self]
    rw [hbeg] at hzero
    exact absurd ((Option.some.inj hat).trans hzero) (by decide)

/-- **The condition of a deletion is exact**: it is met if and only if the deletion is a
splice of every text of these sizes. -/
theorem delete_splices_iff (hb : b.InText) (hg : 1 ≤ b.gapSize) (r : ByteRange b) :
    (∀ m : Nat → Bufbyte,
      ({ b with beg := m }.bufferDeleteRange q r.start r.stop r.biFrom r.biTo).Splices
        { b with beg := m }.contents
        (deleteRange { b with beg := m }.contents r.biFrom r.biTo)) ↔
      DeleteSplices b q r.biFrom r.biTo := by
  constructor
  · intro h
    by_contra hno
    exact delete_not_splices
      (b := { b with
        beg := spike (b.byteAddress (if r.biTo < b.gpt then r.biTo
          else b.stopAt q (b.beside r.biFrom r.biTo))) 1 }) hb hg
      ⟨r.start, r.stop, r.biFrom, r.biTo, r.one_le, r.le, r.le_z, r.empty_iff, r.bottom_iff⟩
      hno rfl (h _)
  · intro h m
    exact splices_of_deleteSplices (b := { b with beg := m }) hb hg
      ⟨r.start, r.stop, r.biFrom, r.biTo, r.one_le, r.le, r.le_z, r.empty_iff, r.bottom_iff⟩ h

end Deletion

end BufferText

end XEmacs.Gap

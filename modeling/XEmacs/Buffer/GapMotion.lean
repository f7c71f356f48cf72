import XEmacs.Buffer.Gap

/-!
# What the motion of the gap does

A motion over `d` bytes polls for a quit once for each chunk. `Interrupts.short`,
`Interrupts.leaves` and `Interrupts.afterMotion` say what it meets, from the state of quitting
alone.
-/

namespace XEmacs.Gap

open BytePositions ByteMemory

namespace Interrupts

/-- The polls by `QUITP` of a motion over `d` bytes, one before each chunk up to the first
that sees a quit, and how many bytes are not moved then. The first argument bounds the
polls. -/
def polls : Nat → Nat → Interrupts → Nat × Interrupts
  | 0, d, q => (d, q)
  | rounds + 1, d, q =>
    if d = 0 then (0, q)
    else if q.quitp.1 then (d, q.quitp.2)
    else polls rounds (d - min d BufferText.gapMoveChunk) q.quitp.2

/-- How far short of its end a quit stops a motion over `d` bytes. -/
def short (q : Interrupts) (d : Nat) : Nat := (q.polls d d).1

/-- A motion over `d` bytes is left by a quit. -/
def leaves (q : Interrupts) (d : Nat) : Bool := (q.polls d d).2.quit.1

/-- What is to come after a motion over `d` bytes. -/
def afterMotion (q : Interrupts) (d : Nat) : Interrupts := (q.polls d d).2.quit.2

theorem one_le_chunk {d : Nat} (h : d ≠ 0) :
    1 ≤ min d BufferText.gapMoveChunk ∧ min d BufferText.gapMoveChunk ≤ d := by
  rw [BufferText.gapMoveChunk]
  omega

theorem polls_nothing (rounds : Nat) (q : Interrupts) : q.polls rounds 0 = (0, q) := by
  cases rounds with
  | zero => rfl
  | succ rounds => rw [polls, if_pos rfl]

theorem polls_le (rounds d : Nat) (q : Interrupts) : (q.polls rounds d).1 ≤ d := by
  induction rounds generalizing d q with
  | zero => exact Nat.le_refl d
  | succ rounds ih =>
    rw [polls]
    split_ifs with hd
    · exact Nat.zero_le d
    · exact Nat.le_refl d
    · exact Nat.le_trans (ih _ _) (Nat.sub_le ..)

theorem short_le (q : Interrupts) (d : Nat) : q.short d ≤ d := polls_le d d q

end Interrupts

open Interrupts

namespace BufferText

/-- The byte at a position. -/
def byteAt (b : BufferText) (pos : Nat) : Bufbyte := b.beg (b.byteAddress pos)

theorem byteAt_before {b : BufferText} {p : Nat} (h : p < b.gpt) :
    b.byteAt p = b.beg p := by
  rw [byteAt, byteAddress, if_neg (by omega)]

theorem byteAt_after {b : BufferText} {p : Nat} (h : b.gpt ≤ p) :
    b.byteAt p = b.beg (p + b.gapSize) := by
  rw [byteAt, byteAddress, if_pos h]

/-- The gap lies in the text. -/
def InText (b : BufferText) : Prop := 1 ≤ b.gpt ∧ b.gpt ≤ b.z

theorem contents_eq_segment {b : BufferText} (h : b.InText) :
    b.contents = segment b.byteAt 1 (b.z - 1) := by
  obtain ⟨hg, hz⟩ := h
  have hsplit : b.z - 1 = (b.gpt - 1) + (b.z - b.gpt) := by omega
  rw [hsplit, segment_add, contents]
  congr 1
  · rw [segment_eq_iff]
    intro i hi
    rw [byteAt_before (by omega)]
  · rw [segment_eq_iff]
    intro i hi
    rw [byteAt_after (by omega)]
    congr 1
    omega

theorem contents_congr {b b' : BufferText} (h : b.InText) (h' : b'.InText)
    (hz : b'.z = b.z) (hbyte : ∀ p, 1 ≤ p → p < b.z → b'.byteAt p = b.byteAt p) :
    b'.contents = b.contents := by
  rw [contents_eq_segment h, contents_eq_segment h', hz, segment_eq_iff]
  intro i hi
  exact hbyte (1 + i) (by omega) (by omega)

/-! ## The loops -/

theorem chunk_down (m : Nat → Bufbyte) {i dst src : Nat} (hi : i ≤ src) (h : src ≤ dst) :
    (if 128 ≤ i then memmove m (dst - i) (src - i) i else copyDown i dst src m) =
      memmove m (dst - i) (src - i) i := by
  rw [copyDown_eq_memmove m hi h, ite_self]

theorem chunk_up (m : Nat → Bufbyte) {i dst src : Nat} (h : dst ≤ src) :
    (if 128 ≤ i then memmove m dst src i else copyUp i dst src m) = memmove m dst src i := by
  rw [copyUp_eq_memmove m h, ite_self]

theorem gapLeftLoop_round {pos rounds s src dst : Nat} (m : Nat → Bufbyte) (q : Interrupts)
    (hi : s - pos ≠ 0) (hq : q.quitp.1 = false) (hsrc : s ≤ src) (hdst : src ≤ dst) :
    gapLeftLoop pos (rounds + 1) s src dst m q =
      gapLeftLoop pos rounds (s - min (s - pos) gapMoveChunk)
        (src - min (s - pos) gapMoveChunk) (dst - min (s - pos) gapMoveChunk)
        (memmove m (dst - min (s - pos) gapMoveChunk) (src - min (s - pos) gapMoveChunk)
          (min (s - pos) gapMoveChunk)) q.quitp.2 := by
  rw [gapLeftLoop, if_neg hi]
  simp only [hq, Bool.false_eq_true, if_false]
  rw [chunk_down m (by omega) hdst]

theorem gapLeftLoop_quit {pos rounds s src dst : Nat} (m : Nat → Bufbyte) (q : Interrupts)
    (hi : s - pos ≠ 0) (hq : q.quitp.1 = true) :
    gapLeftLoop pos (rounds + 1) s src dst m q = (s, m, q.quitp.2) := by
  rw [gapLeftLoop, if_neg hi]
  simp only [hq, if_true]

theorem gapLeftLoop_eq {pos g rounds s : Nat} (m : Nat → Bufbyte) (q : Interrupts)
    (hs : pos ≤ s) (hr : s - pos ≤ rounds) :
    gapLeftLoop pos rounds s s (s + g) m q =
      (pos + (q.polls rounds (s - pos)).1,
        memmove m (pos + (q.polls rounds (s - pos)).1 + g)
          (pos + (q.polls rounds (s - pos)).1) (s - (pos + (q.polls rounds (s - pos)).1)),
        (q.polls rounds (s - pos)).2) := by
  induction rounds generalizing s m q with
  | zero =>
    obtain rfl : s = pos := by omega
    rw [Nat.sub_self, polls_nothing, gapLeftLoop, Nat.add_zero, Nat.sub_self, memmove_zero]
  | succ rounds ih =>
    by_cases hi : s - pos = 0
    · obtain rfl : s = pos := by omega
      rw [gapLeftLoop, if_pos hi, Nat.sub_self, polls_nothing, Nat.add_zero, Nat.sub_self,
        memmove_zero]
    rw [polls, if_neg hi]
    cases hq : q.quitp.1 with
    | true =>
      -- the poll sees a quit: nothing more is moved
      rw [gapLeftLoop_quit m q hi hq, if_pos rfl, Nat.add_sub_cancel' hs, Nat.sub_self,
        memmove_zero]
    | false =>
      -- one chunk is moved, and the rest by induction
      have hc := one_le_chunk hi
      rw [gapLeftLoop_round m q hi hq (Nat.le_refl s) (Nat.le_add_right s g),
        if_neg Bool.false_ne_true]
      revert hc
      generalize min (s - pos) gapMoveChunk = c
      intro hc
      have hd : s + g - c = s - c + g := by omega
      have hrest : s - pos - c = s - c - pos := by omega
      rw [hd, hrest, ih _ _ (by omega) (by omega)]
      have hk := polls_le rounds (s - c - pos) q.quitp.2
      revert hk
      generalize (q.quitp.2.polls rounds (s - c - pos)) = r
      intro hk
      have hmove : memmove (memmove m (s - c + g) (s - c) c) (pos + r.1 + g) (pos + r.1)
          (s - c - (pos + r.1)) = memmove m (pos + r.1 + g) (pos + r.1) (s - (pos + r.1)) := by
        have h₁ : s - c + g = pos + r.1 + g + (s - c - (pos + r.1)) := by omega
        have h₂ : s - c = pos + r.1 + (s - c - (pos + r.1)) := by omega
        have h₃ : s - (pos + r.1) = s - c - (pos + r.1) + c := by omega
        rw [h₃, ← memmove_memmove_down (by omega), ← h₁, ← h₂]
      rw [hmove]

theorem gapRightLoop_round {pos rounds s src dst : Nat} (m : Nat → Bufbyte)
    (q : Interrupts) (hi : pos - s ≠ 0) (hq : q.quitp.1 = false) (h : dst ≤ src) :
    gapRightLoop pos (rounds + 1) s src dst m q =
      gapRightLoop pos rounds (s + min (pos - s) gapMoveChunk)
        (src + min (pos - s) gapMoveChunk) (dst + min (pos - s) gapMoveChunk)
        (memmove m dst src (min (pos - s) gapMoveChunk)) q.quitp.2 := by
  rw [gapRightLoop, if_neg hi]
  simp only [hq, Bool.false_eq_true, if_false]
  rw [chunk_up m h]

theorem gapRightLoop_quit {pos rounds s src dst : Nat} (m : Nat → Bufbyte)
    (q : Interrupts) (hi : pos - s ≠ 0) (hq : q.quitp.1 = true) :
    gapRightLoop pos (rounds + 1) s src dst m q = (s, m, q.quitp.2) := by
  rw [gapRightLoop, if_neg hi]
  simp only [hq, if_true]

theorem gapRightLoop_eq {pos g rounds s : Nat} (m : Nat → Bufbyte) (q : Interrupts)
    (hs : s ≤ pos) (hr : pos - s ≤ rounds) :
    gapRightLoop pos rounds s (s + g) s m q =
      (pos - (q.polls rounds (pos - s)).1,
        memmove m s (s + g) (pos - (q.polls rounds (pos - s)).1 - s),
        (q.polls rounds (pos - s)).2) := by
  induction rounds generalizing s m q with
  | zero =>
    obtain rfl : s = pos := by omega
    rw [Nat.sub_self, polls_nothing, gapRightLoop, Nat.sub_zero, Nat.sub_self, memmove_zero]
  | succ rounds ih =>
    by_cases hi : pos - s = 0
    · obtain rfl : s = pos := by omega
      rw [gapRightLoop, if_pos hi, Nat.sub_self, polls_nothing, Nat.sub_zero, Nat.sub_self,
        memmove_zero]
    rw [polls, if_neg hi]
    cases hq : q.quitp.1 with
    | true =>
      rw [gapRightLoop_quit m q hi hq, if_pos rfl, Nat.sub_sub_self hs, Nat.sub_self,
        memmove_zero]
    | false =>
      have hc := one_le_chunk hi
      rw [gapRightLoop_round m q hi hq (Nat.le_add_right s g), if_neg Bool.false_ne_true]
      revert hc
      generalize min (pos - s) gapMoveChunk = c
      intro hc
      have hd : s + g + c = s + c + g := by omega
      have hrest : pos - s - c = pos - (s + c) := by omega
      rw [hd, hrest, ih _ _ (by omega) (by omega)]
      have hk := polls_le rounds (pos - (s + c)) q.quitp.2
      revert hk
      generalize (q.quitp.2.polls rounds (pos - (s + c))) = r
      intro hk
      have hmove : memmove (memmove m s (s + g) c) (s + c) (s + c + g)
          (pos - r.1 - (s + c)) = memmove m s (s + g) (pos - r.1 - s) := by
        have h₁ : pos - r.1 - s = c + (pos - r.1 - (s + c)) := by omega
        rw [h₁, ← memmove_memmove_up (Nat.le_add_right s g), hd]
      rw [hmove]

/-! ## Where the gap gets -/

/-- The gap moved down to `t`. -/
def movedDown (b : BufferText) (t : Nat) : BufferText :=
  { b with
    beg := store (memmove b.beg (t + b.gapSize) t (b.gpt - t)) t 0
    gpt := t }

/-- The gap moved up to `t`; at the end of the text it takes the end gap. -/
def movedUp (b : BufferText) (t : Nat) : BufferText :=
  let beg := store (memmove b.beg b.gpt (b.gpt + b.gapSize) (t - b.gpt)) t 0
  if t = b.z then
    { b with
      beg := store beg (b.gapSize + b.endGapSize + b.z) 0
      gpt := t
      gapSize := b.gapSize + b.endGapSize
      endGapSize := 0 }
  else { b with beg, gpt := t }

theorem gapLeft_of_loop {b : BufferText} {q q' : Interrupts} {pos t : Nat}
    (h : gapLeftLoop pos (b.gpt - pos) b.gpt b.gpt (b.gpt + b.gapSize) b.beg q =
      (t, memmove b.beg (t + b.gapSize) t (b.gpt - t), q')) :
    b.gapLeft q pos = ⟨q'.quit.1, b.movedDown t, q'.quit.2⟩ := by
  rw [gapLeft, h, movedDown]
  rfl

theorem gapRight_of_loop {b : BufferText} {q q' : Interrupts} {pos t : Nat}
    (h : gapRightLoop pos (pos - b.gpt) b.gpt (b.gpt + b.gapSize) b.gpt b.beg q =
      (t, memmove b.beg b.gpt (b.gpt + b.gapSize) (t - b.gpt), q')) :
    b.gapRight q pos = ⟨q'.quit.1, b.movedUp t, q'.quit.2⟩ := by
  rw [gapRight, h, movedUp]
  rfl

theorem gapLeft_eq (b : BufferText) (q : Interrupts) {pos : Nat} (h : pos ≤ b.gpt) :
    b.gapLeft q pos =
      ⟨q.leaves (b.gpt - pos), b.movedDown (pos + q.short (b.gpt - pos)),
        q.afterMotion (b.gpt - pos)⟩ := by
  rw [leaves, afterMotion, short]
  exact gapLeft_of_loop (gapLeftLoop_eq b.beg q h (Nat.le_refl (b.gpt - pos)))

theorem gapRight_eq (b : BufferText) (q : Interrupts) {pos : Nat} (h : b.gpt ≤ pos) :
    b.gapRight q pos =
      ⟨q.leaves (pos - b.gpt), b.movedUp (pos - q.short (pos - b.gpt)),
        q.afterMotion (pos - b.gpt)⟩ := by
  rw [leaves, afterMotion, short]
  exact gapRight_of_loop (gapRightLoop_eq b.beg q h (Nat.le_refl (pos - b.gpt)))

theorem movedUp_of_ne {b : BufferText} {t : Nat} (h : t ≠ b.z) :
    b.movedUp t =
      { b with
        beg := store (memmove b.beg b.gpt (b.gpt + b.gapSize) (t - b.gpt)) t 0
        gpt := t } :=
  if_neg h

theorem movedUp_end {b : BufferText} :
    b.movedUp b.z =
      { b with
        beg := store (store (memmove b.beg b.gpt (b.gpt + b.gapSize) (b.z - b.gpt)) b.z 0)
          (b.gapSize + b.endGapSize + b.z) 0
        gpt := b.z
        gapSize := b.gapSize + b.endGapSize
        endGapSize := 0 } :=
  if_pos rfl

theorem byteAt_movedDown {b : BufferText} {t p : Nat} (hg : 1 ≤ b.gapSize)
    (ht : t ≤ b.gpt) : (b.movedDown t).byteAt p = b.byteAt p := by
  rcases Nat.lt_or_ge p t with hp | hp
  · rw [byteAt_before (b := b.movedDown t) hp, byteAt_before (by omega)]
    show store _ t 0 p = b.beg p
    rw [store_other (by omega), memmove_outside (by omega)]
  rw [byteAt_after (b := b.movedDown t) hp]
  show store _ t 0 (p + b.gapSize) = b.byteAt p
  rw [store_other (by omega)]
  rcases Nat.lt_or_ge p b.gpt with hp' | hp'
  · rw [byteAt_before hp', memmove_inside (by omega) (by omega)]
    congr 1
    omega
  · rw [byteAt_after hp', memmove_outside (by omega)]

theorem moved_before {b : BufferText} {t p : Nat} (ht : b.gpt ≤ t) (hp : p < t) :
    store (memmove b.beg b.gpt (b.gpt + b.gapSize) (t - b.gpt)) t 0 p = b.byteAt p := by
  rw [store_other (by omega)]
  rcases Nat.lt_or_ge p b.gpt with hp' | hp'
  · rw [byteAt_before hp', memmove_outside (by omega)]
  · rw [byteAt_after hp', memmove_inside (by omega) (by omega)]
    congr 1
    omega

theorem byteAt_movedUp {b : BufferText} {t p : Nat} (hg : 1 ≤ b.gapSize)
    (ht : b.gpt ≤ t) (hp : p < b.z) : (b.movedUp t).byteAt p = b.byteAt p := by
  by_cases hend : t = b.z
  · subst hend
    rw [movedUp_end, byteAt_before hp]
    show store _ (b.gapSize + b.endGapSize + b.z) 0 p = b.byteAt p
    rw [store_other (by omega), moved_before ht hp]
  rw [movedUp_of_ne hend]
  rcases Nat.lt_or_ge p t with hpt | hpt
  · rw [byteAt_before hpt]
    exact moved_before ht hpt
  · rw [byteAt_after hpt, byteAt_after (Nat.le_trans ht hpt)]
    show store _ t 0 (p + b.gapSize) = b.beg (p + b.gapSize)
    rw [store_other (by omega), memmove_outside (by omega)]

theorem movedUp_gpt (b : BufferText) (t : Nat) : (b.movedUp t).gpt = t := by
  rw [movedUp]
  split <;> rfl

theorem movedUp_z (b : BufferText) (t : Nat) : (b.movedUp t).z = b.z := by
  rw [movedUp]
  split <;> rfl

theorem movedUp_gapSize (b : BufferText) (t : Nat) : b.gapSize ≤ (b.movedUp t).gapSize := by
  rw [movedUp]
  split
  · exact Nat.le_add_right ..
  · exact Nat.le_refl _

theorem contents_movedDown {b : BufferText} {t : Nat} (hb : b.InText) (hg : 1 ≤ b.gapSize)
    (h1 : 1 ≤ t) (ht : t ≤ b.gpt) : (b.movedDown t).contents = b.contents :=
  contents_congr hb ⟨h1, Nat.le_trans ht hb.2⟩ rfl fun _ _ _ => byteAt_movedDown hg ht

theorem contents_movedUp {b : BufferText} {t : Nat} (hb : b.InText) (hg : 1 ≤ b.gapSize)
    (ht : b.gpt ≤ t) (hz : t ≤ b.z) : (b.movedUp t).contents = b.contents := by
  have hz' := movedUp_z b t
  have hgpt := movedUp_gpt b t
  refine contents_congr hb ?_ hz' fun p _ hp => byteAt_movedUp hg ht hp
  rw [InText, hgpt, hz']
  exact ⟨Nat.le_trans hb.1 ht, hz⟩

/-- The gap moved towards `ind` as far as `t`. -/
def movedTo (b : BufferText) (ind t : Nat) : BufferText :=
  if ind < b.gpt then b.movedDown t else if b.gpt < ind then b.movedUp t else b

/-- The way from the gap to `ind`, in bytes. -/
def way (b : BufferText) (ind : Nat) : Nat := (b.gpt - ind) + (ind - b.gpt)

/-- Where a motion of the gap to `ind` stops. -/
def stopAt (b : BufferText) (q : Interrupts) (ind : Nat) : Nat :=
  if ind < b.gpt then ind + q.short (b.way ind) else ind - q.short (b.way ind)

/-- `t` lies on the way of the gap to `ind`. -/
def OnWay (b : BufferText) (ind t : Nat) : Prop :=
  ind ≤ t ∧ t ≤ b.gpt ∨ b.gpt ≤ t ∧ t ≤ ind

theorem stopAt_onWay (b : BufferText) (q : Interrupts) (ind : Nat) :
    b.OnWay ind (b.stopAt q ind) := by
  have hle := q.short_le (b.way ind)
  rw [way] at hle
  rw [stopAt, OnWay, way]
  split_ifs with h
  · left
    omega
  · right
    omega

theorem stopAt_eq_iff (b : BufferText) (q : Interrupts) (ind : Nat) :
    b.stopAt q ind = ind ↔ q.short (b.way ind) = 0 := by
  have hle := q.short_le (b.way ind)
  rw [way] at hle
  rw [stopAt, way]
  split_ifs
  · omega
  · omega

/-- **The motion of the gap**: it stops on the way, and at the end of the way unless a
poll sees a quit. -/
theorem moveGap_eq (b : BufferText) (q : Interrupts) (ind : Nat) :
    b.moveGap q ind =
      if ind = b.gpt then ⟨false, b, q⟩
      else
        ⟨q.leaves (b.way ind), b.movedTo ind (b.stopAt q ind),
          q.afterMotion (b.way ind)⟩ := by
  rw [moveGap, movedTo, stopAt]
  rcases Nat.lt_trichotomy ind b.gpt with h | h | h
  · have hway : b.way ind = b.gpt - ind := by rw [way]; omega
    rw [if_pos h, gapLeft_eq b q (Nat.le_of_lt h), if_neg (by omega), if_pos h, if_pos h,
      hway]
  · rw [if_neg (by omega), if_neg (by omega), if_pos h]
  · have hway : b.way ind = ind - b.gpt := by rw [way]; omega
    rw [if_neg (by omega), if_pos h, gapRight_eq b q (Nat.le_of_lt h), if_neg (by omega),
      if_neg (by omega), if_pos h, if_neg (by omega), hway]

section MovedTo

variable {b : BufferText} {ind t : Nat}

theorem OnWay.inText (ht : b.OnWay ind t) (hb : b.InText) (h1 : 1 ≤ ind) (hz : ind ≤ b.z) :
    1 ≤ t ∧ t ≤ b.z := by
  obtain ⟨hg, hg'⟩ := hb
  rcases ht with h | h
  · omega
  · omega

theorem movedTo_gpt (ht : b.OnWay ind t) : (b.movedTo ind t).gpt = t := by
  rw [movedTo]
  split_ifs with h h'
  · rfl
  · exact movedUp_gpt b t
  · rcases ht with ht | ht <;> omega

theorem movedTo_z (b : BufferText) (ind t : Nat) : (b.movedTo ind t).z = b.z := by
  rw [movedTo]
  split_ifs
  · rfl
  · exact movedUp_z b t
  · rfl

theorem movedTo_gapSize (b : BufferText) (ind t : Nat) :
    b.gapSize ≤ (b.movedTo ind t).gapSize := by
  rw [movedTo]
  split_ifs
  · exact Nat.le_refl _
  · exact movedUp_gapSize b t
  · exact Nat.le_refl _

theorem movedTo_inText (ht : b.OnWay ind t) (hb : b.InText) (h1 : 1 ≤ ind)
    (hz : ind ≤ b.z) : (b.movedTo ind t).InText := by
  rw [InText, movedTo_gpt ht, movedTo_z]
  exact ht.inText hb h1 hz

theorem contents_movedTo (ht : b.OnWay ind t) (hb : b.InText) (hg : 1 ≤ b.gapSize)
    (h1 : 1 ≤ ind) (hz : ind ≤ b.z) : (b.movedTo ind t).contents = b.contents := by
  obtain ⟨ht1, htz⟩ := ht.inText hb h1 hz
  rw [movedTo]
  split_ifs with h h'
  · exact contents_movedDown hb hg ht1 (by rcases ht with ht | ht <;> omega)
  · exact contents_movedUp hb hg (by rcases ht with ht | ht <;> omega) htz
  · rfl

end MovedTo

/-- **Gap motion alone never changes the contents**, a quit or not. -/
theorem moveGap_keeps {b : BufferText} (hb : b.InText) (hg : 1 ≤ b.gapSize)
    (q : Interrupts) {ind : Nat} (h1 : 1 ≤ ind) (hz : ind ≤ b.z) :
    (b.moveGap q ind).text.contents = b.contents := by
  rw [moveGap_eq]
  split_ifs
  · rfl
  · exact contents_movedTo (b.stopAt_onWay q ind) hb hg h1 hz

end BufferText

end XEmacs.Gap

import XEmacs.Buffer.GapRefines
import XEmacs.Buffer.Markers
import XEmacs.Buffer.Text

/-!
# Markers track text

What a marker stands for is a byte position (`BufferText.At`). The motion of the gap never
changes it, a quit or not.
-/

namespace XEmacs.Gap

open BytePositions Interrupts List Function

/-! ## What a memory index stands for -/

namespace BufferText

/-- A memory index is not in the gap and stands for a byte position. -/
structure At (b : BufferText) (m : Int) (x : Nat) : Prop where
  valid : b.validMemindP m
  bytind : b.memindToBytind m = x

variable {b : BufferText} {m : Int} {x t ind : Nat}

theorem at_iff (hz : b.gpt ≤ b.z) :
    b.At m x ↔ 1 ≤ x ∧ x ≤ b.z ∧ m = b.bytindToMemind x := by
  rw [bytindToMemind]
  constructor
  · rintro ⟨hvalid, hbytind⟩
    rw [memindToBytind] at hbytind
    unfold validMemindP at hvalid
    split at hbytind <;> split <;> omega
  · rintro ⟨hx, hx', hm⟩
    refine ⟨?_, ?_⟩
    · unfold validMemindP
      split at hm <;> omega
    · rw [memindToBytind]
      split at hm <;> split <;> omega

theorem At.of_eq {b' : BufferText} (h : b.At m x) (hgpt : b'.gpt = b.gpt)
    (hsize : b'.gapSize = b.gapSize) (hz : b'.z = b.z) : b'.At m x := by
  obtain ⟨hvalid, hbytind⟩ := h
  refine ⟨?_, ?_⟩
  · rw [validMemindP, hgpt, hsize, hz]
    exact hvalid
  · rw [memindToBytind, hgpt, hsize]
    exact hbytind

/-! ### The adjustments -/

theorem At.movedDown (h : b.At m x) (hz : b.gpt ≤ b.z) (ht : t ≤ b.gpt) :
    (b.movedDown t).At (doMarkerAdjustment m t b.gpt b.gapSize) x := by
  rw [at_iff hz, bytindToMemind] at h
  rw [at_iff (b := b.movedDown t) (Nat.le_trans ht hz), bytindToMemind]
  show 1 ≤ x ∧ x ≤ b.z ∧ doMarkerAdjustment m t b.gpt b.gapSize
    = if t < x then (x : Int) + b.gapSize else x
  obtain ⟨hx, hx', hm⟩ := h
  refine ⟨hx, hx', ?_⟩
  simp only [doMarkerAdjustment]
  grind

theorem At.movedUp (h : b.At m x) (hz : b.gpt ≤ b.z) (ht : b.gpt ≤ t) (ht' : t ≤ b.z) :
    (b.movedUp t).At
      (doMarkerAdjustment m (b.gpt + b.gapSize) (t + b.gapSize) (-b.gapSize)) x := by
  rw [at_iff hz, bytindToMemind] at h
  rw [at_iff (by rw [movedUp_gpt, movedUp_z]; exact ht'), bytindToMemind, movedUp_gpt, movedUp_z]
  obtain ⟨hx, hx', hm⟩ := h
  refine ⟨hx, hx', ?_⟩
  -- the gap takes the end gap at the end of the text only, where no position is behind it
  have hsize : t < x → (b.movedUp t).gapSize = b.gapSize := by
    intro hlt
    rw [movedUp_of_ne (by omega)]
  simp only [doMarkerAdjustment]
  grind

theorem At.joined (h : b.At m x) (hz : b.gpt ≤ b.z) (increment : Nat) :
    (b.joined increment (b.gpt + b.gapSize)).At
      (doMarkerAdjustment m (b.gpt + b.gapSize) (b.z + b.gapSize) increment) x := by
  rw [at_iff hz, bytindToMemind] at h
  rw [at_iff (b := b.joined increment _) hz, bytindToMemind]
  show 1 ≤ x ∧ x ≤ b.z ∧ _
    = if b.gpt < x then (x : Int) + (increment + b.gapSize : Nat) else x
  obtain ⟨hx, hx', hm⟩ := h
  refine ⟨hx, hx', ?_⟩
  simp only [doMarkerAdjustment]
  grind

end BufferText

namespace BufferText

variable {b : BufferText} {m : Int} {x : Nat}

theorem At.fillGap (h : b.At m x) (hz : b.gpt ≤ b.z) {s : List Bufbyte}
    (hroom : s.length + 1 ≤ b.gapSize) (insertionType beforeMarkers : Bool) :
    (b.fillGap s).At
      (let m := if insertionType ∧ m = b.gpt then m + s.length else m
      if beforeMarkers then doMarkerAdjustment m (b.gpt - 1) b.gpt s.length else m)
      (insertedAt (insertionType || beforeMarkers) b.gpt s.length x) := by
  rw [at_iff hz, bytindToMemind] at h
  rw [at_iff (b := b.fillGap s) (show b.gpt + s.length ≤ b.z + s.length by omega),
    bytindToMemind]
  show 1 ≤ _ ∧ _ ≤ b.z + s.length ∧ _ =
    if b.gpt + s.length < _ then (_ : Int) + (b.gapSize - s.length : Nat) else _
  obtain ⟨hx, hx', hm⟩ := h
  simp only [insertedAt, doMarkerAdjustment]
  cases insertionType <;> cases beforeMarkers <;> grind

theorem At.widenGap (h : b.At m x) (hz : b.gpt ≤ b.z) {biFrom biTo : Nat} (h1 : 1 ≤ biFrom)
    (hfrom : biFrom ≤ b.gpt) (hto : b.gpt ≤ biTo) (hto' : biTo ≤ b.z) (numdel : Nat) :
    (b.widenGap numdel (biTo - biFrom) biFrom).At
      (doMarkerAdjustment m (biTo + b.gapSize) (biTo + b.gapSize)
        (-(biTo - biFrom : Nat) - b.gapSize)) (deletedAt biFrom biTo x) := by
  rw [at_iff hz, bytindToMemind] at h
  rw [at_iff (b := b.widenGap numdel _ biFrom)
    (show biFrom ≤ b.z - (biTo - biFrom) by omega), bytindToMemind]
  show 1 ≤ _ ∧ _ ≤ b.z - (biTo - biFrom) ∧ _ =
    if biFrom < _ then (_ : Int) + (b.gapSize + (biTo - biFrom) : Nat) else _
  obtain ⟨hx, hx', hm⟩ := h
  simp only [deletedAt, doMarkerAdjustment]
  grind

theorem At.cutBottom (h : b.At m x) (hz : b.gpt ≤ b.z) {biFrom : Nat} (hfrom : b.gpt < biFrom)
    (hto : biFrom ≤ b.z) (numdel : Nat) :
    (b.cutBottom numdel (b.z - biFrom)).At
      (doMarkerAdjustment m (b.z + b.gapSize) (b.z + b.gapSize) (-(b.z - biFrom : Nat)))
      (deletedAt biFrom b.z x) := by
  rw [at_iff hz, bytindToMemind] at h
  rw [at_iff (b := b.cutBottom numdel _) (show b.gpt ≤ b.z - (b.z - biFrom) by omega),
    bytindToMemind]
  show 1 ≤ _ ∧ _ ≤ b.z - (b.z - biFrom) ∧ _ =
    if b.gpt < _ then (_ : Int) + b.gapSize else _
  obtain ⟨hx, hx', hm⟩ := h
  simp only [deletedAt, doMarkerAdjustment]
  grind

end BufferText

/-! ## Motion and growth of the gap -/

variable {ι : Type}

/-- A marker stands for `y` if there was a return, and for `x` as before otherwise. -/
def MarkedOutcome.Tracks (r : MarkedOutcome ι) (k : ι) (x y : Nat) : Prop :=
  r.text.text.At (r.text.markers k).memind (if r.left then x else y)

namespace MarkedText

/-- Every marker stands for what it stood for. -/
def Keeps (b b' : MarkedText ι) : Prop :=
  ∀ k, (b'.markers k).insertionType = (b.markers k).insertionType ∧
    ∀ x, b.text.At (b.markers k).memind x → b'.text.At (b'.markers k).memind x

theorem Keeps.refl (b : MarkedText ι) : b.Keeps b := fun _ => ⟨rfl, fun _ h => h⟩

theorem Keeps.trans {b b' b'' : MarkedText ι} (h : b.Keeps b') (h' : b'.Keeps b'') :
    b.Keeps b'' :=
  fun k => ⟨(h' k).1.trans (h k).1, fun x hx => (h' k).2 x ((h k).2 x hx)⟩

variable {b : MarkedText ι} {q : Interrupts} {pos : Nat}

theorem gapLeft_eq (q : Interrupts) (h : pos ≤ b.text.gpt) :
    b.gapLeft q pos =
      ⟨q.leaves (b.text.gpt - pos),
        ⟨b.text.movedDown (pos + q.short (b.text.gpt - pos)), adjustMarkers b.markers
          (pos + q.short (b.text.gpt - pos) : Nat) b.text.gpt b.text.gapSize⟩,
        q.afterMotion (b.text.gpt - pos)⟩ := by
  rw [gapLeft, BufferText.gapLeft_eq b.text q h]
  rfl

theorem gapRight_eq (q : Interrupts) (h : b.text.gpt ≤ pos) :
    b.gapRight q pos =
      ⟨q.leaves (pos - b.text.gpt),
        ⟨b.text.movedUp (pos - q.short (pos - b.text.gpt)),
          adjustMarkers b.markers (b.text.gpt + b.text.gapSize)
            ((pos - q.short (pos - b.text.gpt) : Nat) + b.text.gapSize) (-b.text.gapSize)⟩,
        q.afterMotion (pos - b.text.gpt)⟩ := by
  rw [gapRight, BufferText.gapRight_eq b.text q h]
  dsimp only
  rw [BufferText.movedUp_gpt]

/-- **The motion of the gap**, as far as it gets, leaves every marker at its text. -/
theorem moveGap_keeps (hb : b.text.InText) (hz : pos ≤ b.text.z) :
    b.Keeps (b.moveGap q pos).text := by
  rw [moveGap]
  split
  · rename_i hlt
    have hshort := q.short_le (b.text.gpt - pos)
    rw [gapLeft_eq q (Nat.le_of_lt hlt)]
    exact fun k => ⟨rfl, fun x hx => hx.movedDown hb.2 (by omega)⟩
  · split
    · rename_i hlt
      have hshort := q.short_le (pos - b.text.gpt)
      rw [gapRight_eq q (Nat.le_of_lt hlt)]
      exact fun k => ⟨rfl, fun x hx => hx.movedUp hb.2 (by omega) (by omega)⟩
    · exact .refl b

theorem joinEndGap_keeps (hb : b.text.InText) (increment : Nat)
    (hq : q.Quiet (b.text.z - b.text.gpt)) : b.Keeps (b.joinEndGap q increment).text := by
  obtain ⟨hshort, hleaves⟩ := hq
  have hway : b.text.z + b.text.gapSize - (b.text.gpt + b.text.gapSize)
      = b.text.z - b.text.gpt := Nat.add_sub_add_right ..
  have heq := gapLeft_eq (b := ⟨{ b.text with
    gpt := b.text.z + b.text.gapSize, gapSize := increment, endGapSize := 0 }, b.markers⟩)
    q.inhibited (Nat.add_le_add_right hb.2 b.text.gapSize)
  simp only [hway, hshort, hleaves, Nat.add_zero] at heq
  rw [joinEndGap]
  simp only [heq, MarkedOutcome.andThen, Bool.false_eq_true, if_false]
  intro k
  refine ⟨rfl, fun x hx => ?_⟩
  have hjoined := hx.joined hb.2 increment
  push_cast at hjoined ⊢
  exact hjoined

theorem makeRoom_eq (machine : Machine) (b : MarkedText ι) (q : Interrupts) (length : Nat)
    (hg : 1 ≤ b.text.gapSize) :
    b.makeRoom machine q length =
      if b.text.gapCanHoldSize length then ⟨false, b, q⟩
      else (b.text.growth machine length).elim ⟨true, b, q⟩ fun grown =>
        joinEndGap ⟨b.text.inBlock grown.2, b.markers⟩ q grown.1 :=
  BufferText.room_eq (R := MarkedOutcome ι) machine b.text length ⟨false, b, q⟩ ⟨true, b, q⟩
    ⟨false, ⟨{ b.text with endGapSize := 0 }, b.markers⟩, q⟩
      (fun new increment => joinEndGap ⟨b.text.inBlock new, b.markers⟩ q increment) hg

theorem makeRoom_keeps (machine : Machine) (hb : b.text.InText) (hg : 1 ≤ b.text.gapSize)
    {n : Nat} (h : b.text.gapCanHoldSize n = true ∨ (b.text.growth machine n).isNone = true ∨
      q.Quiet (b.text.z - b.text.gpt)) : b.Keeps (b.makeRoom machine q n).text := by
  rw [makeRoom_eq machine b q n hg]
  by_cases hhold : b.text.gapCanHoldSize n = true
  · rw [if_pos hhold]
    exact .refl b
  rw [if_neg hhold]
  cases hgrow : b.text.growth machine n with
  | none => exact .refl b
  | some grown =>
    rw [hgrow] at h
    obtain hq : q.Quiet (b.text.z - b.text.gpt) := by
      rcases h with h | h | h
      · exact absurd h hhold
      · cases h
      · exact h
    obtain ⟨hgpt, hz, hgap⟩ := b.text.inBlock_sizes grown.2
    have hblock : b.Keeps ⟨b.text.inBlock grown.2, b.markers⟩ :=
      fun k => ⟨rfl, fun x hx => hx.of_eq hgpt hgap hz⟩
    refine hblock.trans (joinEndGap_keeps ?_ grown.1 ?_)
    · show BufferText.InText (b.text.inBlock grown.2)
      rw [BufferText.InText, hgpt, hz]
      exact hb
    · show q.Quiet ((b.text.inBlock grown.2).z - (b.text.inBlock grown.2).gpt)
      rw [hgpt, hz]
      exact hq

/-! ## Insertion -/

section insertion

variable [DecidableEq ι] {machine : Machine} {ind : Nat} {s : List Bufbyte}
  {movePoint : Option ι} {beforeMarkers : Bool} {k : ι} {x : Nat}

theorem fillGap_markers (b : MarkedText ι) (ind : Nat) (s : List Bufbyte)
    (movePoint : Option ι) (beforeMarkers : Bool) (k : ι) :
    ((b.fillGap ind s movePoint beforeMarkers).markers k).memind =
      let m :=
        if movePoint = some k ∧ s ≠ [] then (b.text.fillGap s).bytindToMemind (ind + s.length)
        else if (b.markers k).insertionType ∧ (b.markers k).memind = ind then
          (b.markers k).memind + s.length
        else (b.markers k).memind
      if beforeMarkers then doMarkerAdjustment m (ind - 1) ind s.length else m := by
  have hinsert : (adjustMarkersForInsert b.markers ind s.length k).memind
      = if (b.markers k).insertionType ∧ (b.markers k).memind = ind then
          (b.markers k).memind + s.length
        else (b.markers k).memind := by
    unfold adjustMarkersForInsert
    split <;> rfl
  unfold fillGap
  rw [← hinsert]
  cases movePoint with
  | none => cases beforeMarkers <;> rfl
  | some j =>
    by_cases hs : s = []
    · simp only [hs, length_nil, if_true, ne_eq, not_true_eq_false, and_false, if_false]
      cases beforeMarkers <;> rfl
    · have hlen : s.length ≠ 0 := fun h => hs (eq_nil_of_length_eq_zero h)
      simp only [if_neg hlen, setPointMarker, ne_eq, hs, not_false_eq_true, and_true,
        Option.some.injEq]
      by_cases hk : j = k
      · subst hk
        rw [if_pos rfl]
        cases beforeMarkers
        · simp only [Bool.false_eq_true, if_false, update_self]
        · simp only [if_true, adjustMarkers, update_self]
      · have hne : k ≠ j := fun h => hk h.symm
        rw [if_neg hk]
        cases beforeMarkers
        · simp only [Bool.false_eq_true, if_false, update_of_ne hne]
        · simp only [if_true, adjustMarkers, update_of_ne hne]

theorem fillGap_at (hz : b.text.gpt ≤ b.text.z) (hroom : s.length + 1 ≤ b.text.gapSize)
    (hk : movePoint = some k → x = ind) (hind : ind = b.text.gpt)
    (hx : b.text.At (b.markers k).memind x) :
    (b.fillGap ind s movePoint beforeMarkers).text.At
      ((b.fillGap ind s movePoint beforeMarkers).markers k).memind
      (insertedAt ((b.markers k).insertionType || beforeMarkers || movePoint = some k) ind
        s.length x) := by
  subst hind
  rw [fillGap_markers]
  by_cases hpoint : movePoint = some k ∧ s ≠ []
  · -- point's marker is put behind the gap, where the last adjustment leaves it
    obtain rfl := hk hpoint.1
    have hmemind : (b.text.fillGap s).bytindToMemind (b.text.gpt + s.length)
        = b.text.gpt + s.length := by
      rw [BufferText.bytindToMemind]
      exact if_neg (Nat.lt_irrefl _)
    have hvalid : (b.text.fillGap s).At (b.text.gpt + s.length : Nat) (b.text.gpt + s.length) := by
      have hpos := (BufferText.at_iff hz).mp hx
      refine ⟨.inl ⟨by omega, Int.le_refl _⟩, ?_⟩
      exact if_neg (Int.lt_irrefl _)
    rw [if_pos hpoint, decide_eq_true hpoint.1]
    simp only [ Bool.or_true, insertedAt, Nat.lt_irrefl,
      if_false, if_true, hmemind]
    rw [Int.natCast_add] at hvalid
    cases beforeMarkers with
    | false => exact hvalid
    | true =>
      rw [if_pos rfl, show doMarkerAdjustment (b.text.gpt + s.length) (b.text.gpt - 1) b.text.gpt
        s.length = b.text.gpt + s.length by simp only [doMarkerAdjustment]; grind]
      exact hvalid
  · have hfilled := hx.fillGap hz hroom (b.markers k).insertionType beforeMarkers
    simp only [if_neg hpoint]
    by_cases hmove : movePoint = some k
    · obtain rfl : s = [] := Classical.byContradiction fun hs => hpoint ⟨hmove, hs⟩
      rw [length_nil, insertedAt_zero] at hfilled ⊢
      exact hfilled
    · rw [decide_eq_false hmove, Bool.or_false]
      exact hfilled

theorem fillGap_nil_at (hx : b.text.At (b.markers k).memind x) :
    (b.fillGap ind [] movePoint beforeMarkers).text.At
      ((b.fillGap ind [] movePoint beforeMarkers).markers k).memind x := by
  have hmemind : ((b.fillGap ind [] movePoint beforeMarkers).markers k).memind
      = (b.markers k).memind := by
    rw [fillGap_markers]
    simp only [ne_eq, not_true_eq_false, and_false, if_false, doMarkerAdjustment,
      length_nil]
    grind
  rw [hmemind]
  exact hx.of_eq rfl rfl rfl

theorem fill_tracks (hb : b.text.InText) (hg : 1 ≤ b.text.gapSize)
    (hk : movePoint = some k → x = ind)
    (h : b.text.gapCanHoldSize s.length = true ∨
      (b.text.growth machine s.length).isNone = true ∨ q.Quiet (b.text.z - b.text.gpt))
    (hind : s = [] ∨ ind = b.text.gpt ∨ (b.makeRoom machine q s.length).left = true)
    (hx : b.text.At (b.markers k).memind x) :
    ((b.makeRoom machine q s.length).andThen fun b q =>
      ⟨false, b.fillGap ind s movePoint beforeMarkers, q⟩).Tracks k x
      (insertedAt ((b.markers k).insertionType || beforeMarkers || movePoint = some k) ind
        s.length x) := by
  obtain ⟨htype, hkept⟩ := makeRoom_keeps machine hb hg h k
  have houtcome := outcome_makeRoom b q machine s.length
  rw [MarkedOutcome.andThen, MarkedOutcome.Tracks]
  by_cases hleft : (b.makeRoom machine q s.length).left = true
  · rw [if_pos hleft, if_pos hleft]
    exact hkept x hx
  · rw [if_neg hleft, if_neg Bool.false_ne_true]
    have hreturned : (b.text.makeRoom machine q s.length).left = false := by
      rw [← houtcome]
      exact Bool.eq_false_iff.mpr hleft
    obtain ⟨hgpt, hz, hroom, -⟩ := BufferText.makeRoom_returned hb hg hreturned
    rw [← houtcome] at hgpt hz hroom
    rcases hind with rfl | rfl | hind
    · rw [length_nil, insertedAt_zero]
      exact fillGap_nil_at (hkept x hx)
    · have hin : (b.makeRoom machine q s.length).outcome.text.gpt
          ≤ (b.makeRoom machine q s.length).outcome.text.z := by
        rw [hgpt, hz]
        exact hb.2
      rw [← htype]
      exact fillGap_at hin hroom hk hgpt.symm (hkept x hx)
    · exact absurd hind hleft

/-- **An insertion that is a splice** moves the markers behind it, and those at it that it
should. -/
theorem insert_tracks (hb : b.text.InText) (hg : 1 ≤ b.text.gapSize) (h1 : 1 ≤ ind)
    (hz : ind ≤ b.text.z) (h : BufferText.InsertSplices machine b.text q ind s.length)
    (hk : movePoint = some k → x = ind) (hx : b.text.At (b.markers k).memind x) :
    (b.bufferInsertString1 machine q ind s movePoint beforeMarkers).Tracks k x
      (insertedAt ((b.markers k).insertionType || beforeMarkers || movePoint = some k) ind
        s.length x) := by
  rw [bufferInsertString1]
  by_cases hmax : machine.emacsIntMax < s.length + b.text.bufz
  · rw [if_pos hmax]
    exact hx
  have hfirst : (if ind ≠ b.text.gpt then b.moveGap q ind else ⟨false, b, q⟩)
      = b.moveGap q ind := by
    by_cases hind : ind = b.text.gpt
    · rw [if_neg (not_not_intro hind), moveGap, if_neg (by omega), if_neg (by omega)]
    · rw [if_pos hind]
  rw [if_neg hmax, hfirst, MarkedOutcome.andThen]
  obtain ⟨htype, hkept⟩ := moveGap_keeps (q := q) hb hz k
  have houtcome := outcome_moveGap b q ind
  have hx' := hkept x hx
  generalize b.moveGap q ind = r at htype houtcome hx' ⊢
  have ht := b.text.stopAt_onWay q ind
  have hstop := b.text.stopAt_eq_iff q ind
  -- what the motion of the gap did to the text
  have hr : r.text.text = b.text.movedTo ind (b.text.stopAt q ind) ∧
      r.quits = b.text.afterMove q ind ∧
      (r.left = true ↔ ind ≠ b.text.gpt ∧ q.leaves (b.text.way ind) = true) := by
    have hleft : r.left = r.outcome.left := rfl
    have htext : r.text.text = r.outcome.text := rfl
    have hquits : r.quits = r.outcome.quits := rfl
    rw [hleft, htext, hquits, houtcome, BufferText.moveGap_eq, BufferText.afterMove]
    by_cases hind : ind = b.text.gpt
    · rw [if_pos hind, if_pos hind, BufferText.movedTo, if_neg (by omega), if_neg (by omega)]
      exact ⟨rfl, rfl, iff_of_false Bool.false_ne_true fun h => h.1 hind⟩
    · rw [if_neg hind, if_neg hind]
      exact ⟨rfl, rfl, fun h => ⟨hind, h⟩, fun h => h.2⟩
  obtain ⟨htext, hquits, hleaves⟩ := hr
  by_cases hleft : r.left = true
  · rw [if_pos hleft, MarkedOutcome.Tracks, if_pos hleft]
    exact hx'
  rw [if_neg hleft, ← htype]
  generalize b.text.stopAt q ind = t at ht hstop htext
  have hgpt := BufferText.movedTo_gpt ht
  have hz' := BufferText.movedTo_z b.text ind t
  have hgap : 1 ≤ (b.text.movedTo ind t).gapSize :=
    Nat.le_trans hg (BufferText.movedTo_gapSize b.text ind t)
  have hin := BufferText.movedTo_inText ht hb h1 hz
  rw [← htext] at hgpt hz' hgap hin
  rcases h with h | h | h | h
  · -- nothing is inserted, wherever the gap is
    obtain rfl := eq_nil_of_length_eq_zero h
    exact fill_tracks hin hgap hk (.inl (decide_eq_true hgap)) (.inl rfl) hx'
  · exact absurd h hmax
  · exact absurd (hleaves.mpr h) hleft
  · by_cases hshort : q.short (b.text.way ind) = 0
    · rw [if_neg (not_not_intro hshort)] at h
      obtain rfl := hstop.mpr hshort
      have hsizes := BufferText.sameSizes_there b.text t
      rw [← hsizes.gapCanHoldSize, ← hsizes.growth, ← htext, ← hquits] at h
      refine fill_tracks hin hgap hk ?_ (.inr (.inl hgpt.symm)) hx'
      rw [hgpt, hz']
      exact h
    · -- the gap is elsewhere, but the room is refused
      rw [if_pos hshort] at h
      have hsizes := BufferText.sameSizes_short ht hz fun hti => hshort (hstop.mp hti)
      rw [← hsizes.gapCanHoldSize, ← hsizes.growth, ← htext] at h
      refine fill_tracks hin hgap hk (.inr (.inl h.2)) (.inr (.inr ?_)) hx'
      rw [makeRoom_eq machine _ _ _ hgap, h.1, if_neg Bool.false_ne_true,
        Option.isNone_iff_eq_none.mp h.2]
      rfl

end insertion

/-! ## Deletion -/

section deletion

variable {k : ι} {x : Nat}

theorem widenGap_tracks (r : BufferText.ByteRange b.text) {b' : MarkedText ι} (hin : b'.text.InText)
    (hz : b'.text.z = b.text.z) (hfrom : r.biFrom ≤ b'.text.gpt) (hto : b'.text.gpt ≤ r.biTo)
    (hx : b'.text.At (b'.markers k).memind x) (q : Interrupts) :
    MarkedOutcome.Tracks ⟨false, ⟨b'.text.widenGap (r.stop - r.start) (r.biTo - r.biFrom) r.biFrom,
      adjustMarkers b'.markers (r.biTo + b'.text.gapSize) (r.biTo + b'.text.gapSize)
        (-(r.biTo - r.biFrom : Nat) - b'.text.gapSize)⟩, q⟩ k x
      (deletedAt r.biFrom r.biTo x) := by
  rw [MarkedOutcome.Tracks, if_neg Bool.false_ne_true]
  exact hx.widenGap hin.2 r.one_le hfrom hto (hz ▸ r.le_z) _

theorem delete_eq (r : BufferText.ByteRange b.text) (hne : r.biFrom ≠ r.biTo)
    (hbottom : ¬ (r.biTo = b.text.z ∧ b.text.gpt < r.biFrom)) :
    b.bufferDeleteRange q r.start r.stop r.biFrom r.biTo =
      (b.moveGap q (b.text.beside r.biFrom r.biTo)).andThen fun b q =>
        ⟨false, ⟨b.text.widenGap (r.stop - r.start) (r.biTo - r.biFrom) r.biFrom,
          adjustMarkers b.markers (r.biTo + b.text.gapSize) (r.biTo + b.text.gapSize)
            (-(r.biTo - r.biFrom : Nat) - b.text.gapSize)⟩, q⟩ := by
  have hle := r.le
  rw [bufferDeleteRange, if_neg (mt r.empty_iff.mp hne),
    if_neg (fun h => hbottom ⟨r.bottom_iff.mp h.1, h.2⟩), BufferText.beside]
  by_cases hlow : r.biTo < b.text.gpt
  · have hgpt : ¬ (b.text.movedDown (r.biTo + q.short (b.text.gpt - r.biTo))).gpt
        < r.biFrom := by
      show ¬ r.biTo + q.short (b.text.gpt - r.biTo) < r.biFrom
      omega
    rw [if_pos hlow, if_pos hlow, moveGap, if_pos hlow, gapLeft_eq q (Nat.le_of_lt hlow)]
    simp only [MarkedOutcome.andThen, hgpt, if_false, Bool.false_eq_true]
  · rw [if_neg hlow, if_neg hlow]
    by_cases hhigh : b.text.gpt < r.biFrom
    · rw [if_pos hhigh, moveGap, if_neg (by omega), if_pos hhigh]
      simp only [MarkedOutcome.andThen, hhigh, if_true, Bool.false_eq_true, if_false]
    · rw [if_neg hhigh, moveGap, if_neg (Nat.lt_irrefl _), if_neg (Nat.lt_irrefl _)]
      simp only [MarkedOutcome.andThen, hhigh, Bool.false_eq_true, if_false]

/-- **A deletion that is a splice** takes the markers in it to its start. -/
theorem delete_tracks (hb : b.text.InText) (r : BufferText.ByteRange b.text)
    (h : BufferText.DeleteSplices b.text q r.biFrom r.biTo)
    (hx : b.text.At (b.markers k).memind x) :
    (b.bufferDeleteRange q r.start r.stop r.biFrom r.biTo).Tracks k x
      (deletedAt r.biFrom r.biTo x) := by
  have hle := r.le
  have hbz := r.le_z
  by_cases hne : r.biFrom = r.biTo
  · rw [bufferDeleteRange, if_pos (r.empty_iff.mpr hne), MarkedOutcome.Tracks,
      if_neg Bool.false_ne_true, hne]
    rw [deletedAt_self]
    exact hx
  by_cases hbottom : r.biTo = b.text.z ∧ b.text.gpt < r.biFrom
  · have hcut := hx.cutBottom hb.2 hbottom.2 (Nat.le_trans hle hbz) (r.stop - r.start)
    rw [bufferDeleteRange, if_neg (mt r.empty_iff.mp hne),
      if_pos ⟨r.bottom_iff.mpr hbottom.1, hbottom.2⟩, hbottom.1, MarkedOutcome.Tracks,
      if_neg Bool.false_ne_true]
    exact hcut
  rw [delete_eq r hne hbottom, MarkedOutcome.andThen]
  obtain ⟨hfrom, hto⟩ := b.text.beside_bounds r
  have hz : b.text.beside r.biFrom r.biTo ≤ b.text.z := Nat.le_trans hto hbz
  have h1 : 1 ≤ b.text.beside r.biFrom r.biTo := Nat.le_trans r.one_le hfrom
  obtain ⟨-, hkept⟩ := moveGap_keeps (q := q) hb hz k
  have houtcome := outcome_moveGap b q (b.text.beside r.biFrom r.biTo)
  have hx' := hkept x hx
  generalize b.moveGap q (b.text.beside r.biFrom r.biTo) = o at houtcome hx' ⊢
  by_cases hleft : o.left = true
  · rw [if_pos hleft, MarkedOutcome.Tracks, if_pos hleft]
    exact hx'
  rw [if_neg hleft]
  have ht := b.text.stopAt_onWay q (b.text.beside r.biFrom r.biTo)
  have hstop := b.text.stopAt_eq_iff q (b.text.beside r.biFrom r.biTo)
  rw [b.text.way_beside r] at hstop
  have htext : o.text.text = o.outcome.text := rfl
  have hleaves : o.left = o.outcome.left := rfl
  rw [houtcome, BufferText.moveGap_eq, b.text.way_beside r] at htext hleaves
  by_cases hhere : b.text.beside r.biFrom r.biTo = b.text.gpt
  · rw [if_pos hhere] at htext
    refine widenGap_tracks r (htext ▸ hb) (congrArg BufferText.z htext) ?_ ?_ hx' o.quits
    · rw [htext, ← hhere]
      exact hfrom
    · rw [htext, ← hhere]
      exact hto
  rw [if_neg hhere] at htext hleaves
  rcases h with h | h | h | h
  · exact absurd h hne
  · exact absurd h hbottom
  · exact absurd (hleaves.trans h) hleft
  rw [hstop.mpr h] at ht htext
  dsimp only at htext
  have hgpt := BufferText.movedTo_gpt ht
  rw [← htext] at hgpt
  refine widenGap_tracks r ?_ ?_ (hgpt ▸ hfrom) (hgpt ▸ hto) hx' o.quits
  · rw [htext]
    exact BufferText.movedTo_inText ht hb h1 hz
  · rw [htext]
    exact BufferText.movedTo_z ..

end deletion

end MarkedText

/-! ## Characters -/

open Buffer (Emchar bytind)

/-- An insertion is a splice of the bytes, and the markers go with the text, however its bytes
are divided into characters: those behind the insertion, and those at it whose insertion type or
the flag says so, or that is point's when point is moved. -/
structure InsertTracks [DecidableEq ι] (machine : Machine) (b : MarkedText ι) (q : Interrupts)
    (ind : Nat) (s : List Bufbyte) (movePoint : Option ι) (beforeMarkers : Bool) : Prop where
  splices : (b.bufferInsertString1 machine q ind s movePoint beforeMarkers).outcome.Splices
    b.text.contents (insertAt b.text.contents ind s)
  markers : ∀ (k : ι) (l c : List Emchar) (p x : Nat),
    1 ≤ p → p ≤ l.length + 1 → bytind l p = ind → byteLength Emchar.width c = s.length →
    1 ≤ x → x ≤ l.length + 1 → (movePoint = some k → x = p) →
    b.text.At (b.markers k).memind (bytind l x) →
    (b.bufferInsertString1 machine q ind s movePoint beforeMarkers).Tracks k (bytind l x)
      (bytind (insertAt l p c)
        (insertedAt ((b.markers k).insertionType || beforeMarkers || movePoint = some k) p
          c.length x))

/-- A deletion is a splice of the bytes, and the markers go with the text. -/
structure DeleteTracks (b : MarkedText ι) (q : Interrupts) (r : BufferText.ByteRange b.text) :
    Prop where
  splices : (b.bufferDeleteRange q r.start r.stop r.biFrom r.biTo).outcome.Splices
    b.text.contents (deleteRange b.text.contents r.biFrom r.biTo)
  markers : ∀ (k : ι) (l : List Emchar) (start stop x : Nat),
    1 ≤ start → start ≤ stop → stop ≤ l.length + 1 → bytind l start = r.biFrom →
    bytind l stop = r.biTo → 1 ≤ x → x ≤ l.length + 1 →
    b.text.At (b.markers k).memind (bytind l x) →
    (b.bufferDeleteRange q r.start r.stop r.biFrom r.biTo).Tracks k (bytind l x)
      (bytind (deleteRange l start stop) (deletedAt start stop x))

theorem insertTracks [DecidableEq ι] {machine : Machine} {b : MarkedText ι} {q : Interrupts}
    {ind : Nat} {s : List Bufbyte} (hb : b.text.InText) (hg : 1 ≤ b.text.gapSize)
    (h1 : 1 ≤ ind) (hz : ind ≤ b.text.z)
    (h : BufferText.InsertSplices machine b.text q ind s.length) (movePoint : Option ι)
    (beforeMarkers : Bool) : InsertTracks machine b q ind s movePoint beforeMarkers := by
  refine ⟨?_, fun k l c p x hp hp' hind hlen hx hx' hk hat => ?_⟩
  · rw [MarkedText.outcome_bufferInsertString1]
    exact BufferText.splices_of_insertSplices hb hg h1 hz h
  · have htracks : (b.bufferInsertString1 machine q ind s movePoint beforeMarkers).Tracks k _ _ :=
      MarkedText.insert_tracks hb hg h1 hz h (fun hpoint => by rw [hk hpoint, hind]) hat
    rw [← hind, ← hlen,
      insertedAt_bytePos Emchar.width_pos hp hp' hx hx'] at htracks
    rw [← hind]
    exact htracks

theorem deleteTracks {b : MarkedText ι} {q : Interrupts} (hb : b.text.InText)
    (hg : 1 ≤ b.text.gapSize) (r : BufferText.ByteRange b.text)
    (h : BufferText.DeleteSplices b.text q r.biFrom r.biTo) : DeleteTracks b q r := by
  refine ⟨?_, fun k l start stop x hstart hle hstop hfrom hto hx hx' hat => ?_⟩
  · rw [MarkedText.outcome_bufferDeleteRange]
    exact BufferText.splices_of_deleteSplices hb hg r h
  · have htracks := MarkedText.delete_tracks hb r h hat
    rw [← hfrom, ← hto, deletedAt_bytePos Emchar.width_pos hstart hle hstop hx'] at htracks
    rw [← hfrom, ← hto]
    exact htracks

/-- **Markers track text**: the motion of the gap alone leaves every marker where it is, and an
insertion or a deletion is a splice of the text that takes the markers along if and only if its
condition is met. -/
theorem markers_track [DecidableEq ι] (machine : Machine) (b : GapBuffer) (markers : ι → Marker)
    (q : Interrupts) :
    (∀ pos, pos ≤ b.z → ∀ k x, b.At (markers k).memind x →
      (MarkedText.moveGap ⟨b.toBufferText, markers⟩ q pos).Tracks k x x) ∧
    (∀ ind n movePoint beforeMarkers, 1 ≤ ind → ind ≤ b.z →
      ((∀ (m : Nat → Bufbyte) (s : List Bufbyte), s.length = n →
        InsertTracks machine ⟨{ b.toBufferText with beg := m }, markers⟩ q ind s movePoint
          beforeMarkers) ↔
        BufferText.InsertSplices machine b.toBufferText q ind n)) ∧
    (∀ r : BufferText.ByteRange b.toBufferText,
      ((∀ m : Nat → Bufbyte,
        DeleteTracks ⟨{ b.toBufferText with beg := m }, markers⟩ q
          ⟨r.start, r.stop, r.biFrom, r.biTo, r.one_le, r.le, r.le_z, r.empty_iff,
            r.bottom_iff⟩) ↔
        BufferText.DeleteSplices b.toBufferText q r.biFrom r.biTo)) := by
  have hb : b.toBufferText.InText := ⟨b.one_le_gpt, b.gpt_le_z⟩
  have hg := b.one_le_gapSize
  refine ⟨fun pos hz k x hx => ?_, fun ind n movePoint beforeMarkers h1 hz => ⟨fun h => ?_,
    fun h m s hs => ?_⟩, fun r => ⟨fun h => ?_, fun h m => ?_⟩⟩
  · rw [MarkedOutcome.Tracks, ite_self]
    exact (MarkedText.moveGap_keeps (b := ⟨b.toBufferText, markers⟩) hb hz k).2 x hx
  · refine (BufferText.insert_splices_iff hb hg h1 hz).mp fun m s hs => ?_
    have hsplices := (h m s hs).splices
    rwa [MarkedText.outcome_bufferInsertString1] at hsplices
  · refine insertTracks (b := ⟨{ b.toBufferText with beg := m }, markers⟩) hb hg h1 hz ?_
      movePoint beforeMarkers
    rw [hs]
    exact (BufferText.insertSplices_beg machine b.toBufferText q ind n m).mpr h
  · refine (BufferText.delete_splices_iff hb hg r).mp fun m => ?_
    have hsplices := (h m).splices
    rwa [MarkedText.outcome_bufferDeleteRange] at hsplices
  · exact deleteTracks (b := ⟨{ b.toBufferText with beg := m }, markers⟩) hb hg _ h

/-- A marker at each end of the gap's two neighbours, the second one with an insertion type. -/
def endMarkers (k : Bool) : Marker := if k then ⟨5, true⟩ else ⟨2, false⟩

/-- Without a quit, two bytes inserted at the gap push the second marker, and a byte deleted
before it pulls both. -/
theorem markers_track_twoBytes :
    InsertTracks fullMachine ⟨twoBytes.toBufferText, endMarkers⟩ noQuit 2 [65, 66] none false ∧
    DeleteTracks ⟨twoBytes.toBufferText, endMarkers⟩ noQuit
      ⟨1, 2, 1, 2, by decide, by decide, by decide, by decide, by decide⟩ :=
  ⟨((markers_track fullMachine twoBytes endMarkers noQuit).2.1 2 2 none false (by decide)
      (by decide)).mpr (by decide) twoBytes.beg [65, 66] rfl,
    ((markers_track fullMachine twoBytes endMarkers noQuit).2.2
      ⟨1, 2, 1, 2, by decide, by decide, by decide, by decide, by decide⟩).mpr
      (by decide) twoBytes.beg⟩

/-- The second marker is left in the gap when a critical quit stops the motion that joins the
end gap. -/
theorem critical_quit_strands_marker :
    twoBytes.At (endMarkers true).memind 3 ∧
    ¬ ((MarkedText.bufferInsertString1 fullMachine ⟨twoBytes.toBufferText, endMarkers⟩
        criticalQuit 2 [65, 66] none false).text.text.validMemindP
      ((MarkedText.bufferInsertString1 fullMachine ⟨twoBytes.toBufferText, endMarkers⟩
        criticalQuit 2 [65, 66] none false).text.markers true).memind) ∧
    ¬ InsertTracks fullMachine ⟨twoBytes.toBufferText, endMarkers⟩ criticalQuit 2 [65, 66] none
      false := by
  refine ⟨⟨by decide, by decide⟩, by decide, fun h => ?_⟩
  have hcontents := h.splices
  rw [MarkedText.outcome_bufferInsertString1] at hcontents
  revert hcontents
  show ¬ _ = _
  decide

end XEmacs.Gap

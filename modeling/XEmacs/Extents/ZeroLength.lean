import XEmacs.Extents.Deletion

/-!
# Zero-length extents and deletions (extents.c)

A zero-length extent at an edge of a deleted range should be detached if it is detachable and its
endpoint that faces the deleted text is closed, and should stay at the start of the range
otherwise.
-/

namespace XEmacs.Extents

open Gap GapArrays KeyedLists

variable {ι : Type} [DecidableEq ι]

/-! ## The extents of a deletion -/

section processing

variable {fuel : Nat} {b : ExtentText ι} {biFrom biTo : Nat} {lost : ι → Bool} {e : ι}

/-- What a deletion does to the endpoints that stay. -/
def deletionMap (b : ExtentText ι) (biFrom biTo : Nat) (movegapsize : Int) (x : Int) : Int :=
  let adjustTo : Int := biTo + b.text.gapSize
  doMarkerAdjustment x adjustTo adjustTo (-(biTo - biFrom : Nat) - movegapsize)

omit [DecidableEq ι] in
theorem deletionMap_eq (b : ExtentText ι) (hle : biFrom ≤ biTo) {movegapsize : Int}
    (hmove : 0 ≤ movegapsize) (x : Int) :
    deletionMap b biFrom biTo movegapsize x =
      if biFrom + b.text.gapSize - movegapsize < x ∧ x ≤ biTo + b.text.gapSize then
        biFrom + b.text.gapSize - movegapsize
      else x := by
  simp only [deletionMap, doMarkerAdjustment]
  grind

omit [DecidableEq ι] in
theorem inRegion_adjustment {obj : BufferOrString} {info info' : ExtentInfo ι}
    (hheap : info'.heap e = info.heap e) (frm upTo : Nat) :
    extentInRegionP obj info' e frm upTo adjustmentFlags
      = extentInRegionP obj info e frm upTo adjustmentFlags := by
  have hopen : openness info' e (some .closed) = openness info e (some .closed) := by
    simp only [openness, hheap]
  simp only [extentInRegionP, adjustmentFlags, hopen, hheap]
  rfl

/-- **The extents processed**, if those that the SOE lacks are to stay as they are. -/
theorem processDeletion_eq (hs : b.info.SoundBut lost) (hle : biFrom ≤ biTo) {movegapsize : Int}
    (hmove : 0 ≤ movegapsize) (hmove' : movegapsize ≤ b.text.gapSize)
    (hlost : ∀ e ∈ b.info.extents.byStart.els,
      b.info.lostAt lost ((wholeBuffer b.text).bytindToMemind biFrom) e = true →
        b.info.detaches ((wholeBuffer b.text).bytindToMemind biFrom)
            ((wholeBuffer b.text).bytindToMemind biTo) e = false ∧
          (b.info.heap e).map (deletionMap b biFrom biTo movegapsize) = b.info.heap e)
    (hfuel : b.info.extents.numEls < fuel) (newExtent : ι) :
    ∃ info', processDeletion fuel newExtent b biFrom biTo movegapsize = some info' ∧
      ∀ e ∈ b.info.extents.byStart.els,
        (b.info.detaches ((wholeBuffer b.text).bytindToMemind biFrom)
            ((wholeBuffer b.text).bytindToMemind biTo) e = true →
          e ∉ info'.extents.byStart.els ∧ info'.heap e = (b.info.heap e).detach) ∧
        (b.info.detaches ((wholeBuffer b.text).bytindToMemind biFrom)
            ((wholeBuffer b.text).bytindToMemind biTo) e = false →
          extentInRegionP (wholeBuffer b.text) b.info e biFrom biTo adjustmentFlags = true →
          e ∈ info'.extents.byStart.els ∧
            info'.heap e = (b.info.heap e).map (deletionMap b biFrom biTo movegapsize)) := by
  have hsafe : ∀ e ∈ b.info.extents.byStart.els,
      b.info.detaches ((wholeBuffer b.text).bytindToMemind biFrom)
          ((wholeBuffer b.text).bytindToMemind biTo) e = true →
        b.info.lostAt lost ((wholeBuffer b.text).bytindToMemind biFrom) e = false := by
    intro e he hdetaches
    refine Bool.eq_false_iff.mpr fun hl => ?_
    rw [(hlost e he hl).1] at hdetaches
    cases hdetaches
  obtain ⟨info₁, heq₁, hs₁, hpos₁, hthin, hgone⟩ :=
    processExtentsForDeletion_eq hs hle hsafe hfuel newExtent
  have hfuel₁ : info₁.extents.numEls < fuel := Nat.lt_of_le_of_lt
    (hs₁.ordered.nodup.length_le_of_subset fun e he => (hthin.kept e he).1) hfuel
  obtain ⟨info₂, list, heq₂, hs₂, -, hheap₂, -, hels₂, hlist, hall⟩ :
      ∃ info' list, mapExtentsBytind fuel (wholeBuffer b.text) newExtent info₁ biFrom biTo
        adjustExtentsForDeletionMapper [] none adjustmentFlags = some (info', list) ∧ _ :=
    listing_eq hs₁ hle hfuel₁ newExtent
  -- the SOE lacks nothing that the loop changes
  have hlost₂ : ∀ e ∈ info₁.extents.byStart.els,
      info₁.lostAt (b.info.lostAt lost ((wholeBuffer b.text).bytindToMemind biFrom))
        ((wholeBuffer b.text).bytindToMemind biFrom) e = true →
      (info₂.heap e).map (deletionMap b biFrom biTo movegapsize) = info₂.heap e := by
    intro e he hl
    rw [ExtentInfo.lostAt, Bool.and_eq_true, Bool.and_eq_true] at hl
    obtain ⟨hmem, hsame⟩ := hthin.kept e he
    rw [hheap₂, hsame]
    exact (hlost e hmem hl.2.2).2
  generalize hnewsoe : (if 0 ≤ info₂.soe.pos then
    deletionMap b biFrom biTo movegapsize info₂.soe.pos else info₂.soe.pos) = newsoe
  obtain ⟨info₃, P, heq₃, hs₃, hmem₃, hheap₃⟩ :=
    adjustListed_eq (f := deletionMap b biFrom biTo movegapsize)
      (fun {x y} hxy => by
        rw [deletionMap_eq b hle hmove, deletionMap_eq b hle hmove]
        grind)
      (fun {x} hx => by
        rw [deletionMap_eq b hle hmove]
        grind)
      (fun x => by
        rw [deletionMap_eq b hle hmove, deletionMap_eq b hle hmove]
        grind)
      newsoe list hs₂.holds (fun e he => hels₂.mem.mpr (hlist e he)) fun e he hchanged => by
        have hl : info₁.lostAt (b.info.lostAt lost ((wholeBuffer b.text).bytindToMemind biFrom))
            ((wholeBuffer b.text).bytindToMemind biFrom) e = false :=
          Bool.eq_false_iff.mpr fun hl => hchanged (hlost₂ e (hlist e he) hl)
        rw [hl, Bool.not_false, Bool.and_true]
  refine ⟨info₃.atPos newsoe, ?_, fun e he => ⟨fun hdetaches => ?_, fun hstays hin => ?_⟩⟩
  · have hmap := congrArg (Option.map fun info : ExtentInfo ι => info.atPos newsoe) heq₃
    subst hnewsoe
    rw [processDeletion]
    simp only [heq₁, Option.bind_some, adjustExtentsForDeletion, heq₂]
    exact hmap
  · have hnot := hgone e hdetaches
    have hnot₃ : e ∉ info₃.extents.byStart.els := fun h =>
      hnot (hels₂.mem.mp ((hmem₃ e).mp h))
    refine ⟨hnot₃, ?_⟩
    show info₃.heap e = _
    rw [hheap₃, if_neg fun h => hnot (hlist e h), hheap₂]
    rcases hthin.gone e hnot with ⟨hnot₀, -⟩ | ⟨-, heq⟩
    · exact absurd he hnot₀
    · exact heq
  · have hmem₁ : e ∈ info₁.extents.byStart.els := by
      by_contra hnot
      rcases hthin.gone e hnot with ⟨hnot₀, -⟩ | ⟨hdetaches, -⟩
      · exact hnot₀ he
      · rw [hstays] at hdetaches
        cases hdetaches
    have hsame := (hthin.kept e hmem₁).2
    refine ⟨(hmem₃ e).mpr (hels₂.mem.mpr hmem₁), ?_⟩
    show info₃.heap e = _
    rw [hheap₃, ← hsame, ← hheap₂]
    by_cases hin₁ : e ∈ list
    · rw [if_pos hin₁]
    · rw [if_neg hin₁]
      -- what is not listed is what the SOE lacks
      refine (hlost₂ e hmem₁ ?_).symm
      by_contra hl
      rw [Bool.not_eq_true] at hl
      exact hin₁ (hall e hmem₁ hl ((inRegion_adjustment hsame biFrom biTo).trans hin))

/-- What the SOE lacks is neither detached by the deletion nor moved. -/
structure ExtentText.Spares (b : ExtentText ι) (lost : ι → Bool) (biFrom biTo : Nat)
    (movegapsize : Int) : Prop where
  sound : b.info.SoundBut lost
  stays : ∀ e ∈ b.info.extents.byStart.els,
    b.info.lostAt lost ((wholeBuffer b.text).bytindToMemind biFrom) e = true →
      b.info.detaches ((wholeBuffer b.text).bytindToMemind biFrom)
          ((wholeBuffer b.text).bytindToMemind biTo) e = false ∧
        (b.info.heap e).map (deletionMap b biFrom biTo movegapsize) = b.info.heap e

/-- **A zero-length extent at an edge** is detached if it is detachable and not internal, whether
its ends are open or closed, and otherwise goes where the deletion takes what is deleted. -/
theorem processDeletion_zeroLength {x : Nat} (hspares : b.Spares lost biFrom biTo movegapsize)
    (hle : biFrom ≤ biTo) (hmove : movegapsize = b.text.gapSize ∨
      movegapsize = 0 ∧ b.text.gpt < biFrom)
    (he : e ∈ b.info.extents.byStart.els) (hx : x = biFrom ∨ x = biTo)
    (hat : ∀ endp, (b.info.heap e).endpoint endp = b.text.bytindToMemind x)
    (hfuel : b.info.extents.numEls < fuel) (newExtent : ι) :
    ∃ info', processDeletion fuel newExtent b biFrom biTo movegapsize = some info' ∧
      if b.info.detachableP e && !b.info.internalP e then
        e ∉ info'.extents.byStart.els ∧ (info'.heap e).detachedP = true
      else
        e ∈ info'.extents.byStart.els ∧
          ∀ endp, (info'.heap e).endpoint endp = biFrom + b.text.gapSize - movegapsize := by
  have hmove₀ : 0 ≤ movegapsize ∧ movegapsize ≤ b.text.gapSize := by omega
  obtain ⟨info', heq, hall⟩ := processDeletion_eq hspares.sound hle hmove₀.1 hmove₀.2
    hspares.stays hfuel newExtent
  obtain ⟨hgone, hkept⟩ := hall e he
  refine ⟨info', heq, ?_⟩
  have hstart : (b.info.heap e).extentStart = b.text.bytindToMemind x := hat false
  have hend : (b.info.heap e).extentEnd = b.text.bytindToMemind x := hat true
  have hfrom : (wholeBuffer b.text).bytindToMemind biFrom ≤ b.text.bytindToMemind x :=
    (wholeBuffer b.text).bytindToMemind_mono (by omega)
  have hto : b.text.bytindToMemind x ≤ (wholeBuffer b.text).bytindToMemind biTo :=
    (wholeBuffer b.text).bytindToMemind_mono (by omega)
  have hdetaches : b.info.detaches ((wholeBuffer b.text).bytindToMemind biFrom)
      ((wholeBuffer b.text).bytindToMemind biTo) e
        = (b.info.detachableP e && !b.info.internalP e) := by
    rw [ExtentInfo.detaches, hstart, hend, decide_eq_true hfrom, decide_eq_true hto,
      Bool.and_true, Bool.and_true, ExtentInfo.seen, Bool.and_comm]
    rfl
  split
  · rename_i hcond
    obtain ⟨hnot, hheap⟩ := hgone (hdetaches.trans hcond)
    rw [hheap]
    exact ⟨hnot, rfl⟩
  · rename_i hcond
    obtain ⟨hmem, hheap⟩ := hkept (hdetaches.trans (Bool.not_eq_true _ ▸ hcond)) (by
      have hzero : (b.info.heap e).extentStart = (b.info.heap e).extentEnd :=
        hstart.trans hend.symm
      simp only [extentInRegionP, openness, hstart, hend, adjustmentFlags,
        memindToStartind, memindToEndind]
      grind)
    refine ⟨hmem, fun endp => ?_⟩
    rw [hheap, Extent.endpoint_map, hat endp, deletionMap_eq b hle hmove₀.1,
      BufferText.bytindToMemind]
    grind

end processing

/-! ## The motion of the gap -/

section motion

variable {b : ExtentText ι} {biFrom biTo t : Nat}

omit [DecidableEq ι] in
theorem ExtentText.Spares.refl (hs : b.info.Sound) (biFrom biTo : Nat) (movegapsize : Int) :
    b.Spares (fun _ => false) biFrom biTo movegapsize := by
  refine ⟨hs.but fun _ _ _ => rfl, fun e _ hlost => ?_⟩
  rw [ExtentInfo.lostAt, Bool.and_false, Bool.and_false] at hlost
  cases hlost

theorem ExtentText.Spares.of_moved {b' : ExtentText ι} {f : Int → Int} {movegapsize : Int}
    (hmoved : b.Moved b' f) (hin : b.info.In (wholeBuffer b.text)) (hs : b.info.Sound)
    (hbehind : ∀ m, b.text.validMemindP m → m < b.info.soe.pos → f m = f b.info.soe.pos →
      b'.text.bytindToMemind biFrom ≤ f m →
        b'.text.bytindToMemind biTo < f m ∧
          deletionMap b' biFrom biTo movegapsize (f m) = f m ∧
          ∀ y ≤ b'.text.bytindToMemind biFrom, deletionMap b' biFrom biTo movegapsize y = y) :
    ∃ lost, b'.Spares lost biFrom biTo movegapsize := by
  obtain ⟨lost, hsound, hends⟩ := hmoved.lost hin hs
  refine ⟨lost, hsound, fun e he hlost => ?_⟩
  simp only [ExtentInfo.lostAt, Bool.and_eq_true, b'.info.over_iff] at hlost
  obtain ⟨hover, hsoe, hlost⟩ := hlost
  obtain ⟨he₀, hheap, hlt, heq⟩ := hends e he (b'.info.over_iff.mpr hsoe) hlost
  have hend : (b'.info.heap e).extentEnd = f (b.info.heap e).extentEnd :=
    congrArg Extent.extentEnd hheap
  obtain ⟨hto, hfixed, hstart⟩ := hbehind (b.info.heap e).extentEnd (hin e he₀ true) hlt heq
    (hend ▸ hover.2)
  refine ⟨?_, ?_⟩
  · have hnot : ¬ (b'.info.heap e).extentEnd ≤ (wholeBuffer b'.text).bytindToMemind biTo :=
      hend ▸ Int.not_le.mpr hto
    rw [ExtentInfo.detaches, decide_eq_false hnot, Bool.and_false, Bool.and_false]
  · rw [Extent.map, hstart _ hover.1, hend, hfixed, ← hend]

theorem ExtentText.Spares.movedDown (hb : b.text.InText) (hs : b.info.Sound)
    (hin : b.info.In (wholeBuffer b.text)) (hle : biFrom ≤ biTo) (ht : biTo ≤ t)
    (ht' : t ≤ b.text.gpt) :
    ∃ lost, ExtentText.Spares
      ⟨b.text.movedDown t, adjustExtents b.info t b.text.gpt b.text.gapSize⟩ lost biFrom biTo
      b.text.gapSize := by
  refine ExtentText.Spares.of_moved (ExtentText.movedDown hb hs.toSorted hin ht') hin hs
    fun m hm hlt heq hover => ?_
  have hmem : ∀ x, (b.text.movedDown t).bytindToMemind x
      = if t < x then (x : Int) + b.text.gapSize else x := fun _ => rfl
  have hgap : (b.text.movedDown t).gapSize = b.text.gapSize := rfl
  unfold BufferText.validMemindP at hm
  -- only an index at the gap gets to where one in the gap gets
  have hgpt : m = b.text.gpt ∧ t < b.text.gpt := by
    simp only [doMarkerAdjustment] at heq
    grind
  rw [hmem, hmem, if_neg (by omega), if_neg (by omega)]
  refine ⟨?_, ?_, fun y hy => ?_⟩
  · simp only [hgpt.1, doMarkerAdjustment]
    grind
  · rw [deletionMap_eq _ hle (Int.natCast_nonneg _)]
    simp only [hgpt.1, hgap, doMarkerAdjustment]
    grind
  · rw [deletionMap_eq _ hle (Int.natCast_nonneg _), hgap]
    grind

theorem ExtentText.Spares.movedUp (hb : b.text.InText) (hs : b.info.Sound)
    (hin : b.info.In (wholeBuffer b.text)) (ht : b.text.gpt ≤ t) (ht' : t ≤ b.text.z)
    (hfrom : b.text.gpt < biFrom) (movegapsize : Int) :
    ∃ lost, ExtentText.Spares
      ⟨b.text.movedUp t, adjustExtents b.info (b.text.gpt + b.text.gapSize)
        (t + b.text.gapSize) (-b.text.gapSize)⟩ lost biFrom biTo movegapsize := by
  refine ExtentText.Spares.of_moved (ExtentText.movedUp hb hs.toSorted hin ht ht') hin hs
    fun m hm hlt heq hover => ?_
  have hmem : (biFrom : Int) ≤ (b.text.movedUp t).bytindToMemind biFrom := by
    rw [BufferText.bytindToMemind]
    split <;> omega
  unfold BufferText.validMemindP at hm
  simp only [doMarkerAdjustment] at heq hover
  grind

theorem ExtentText.Moved.flags {b' : ExtentText ι} {f : Int → Int}
    (h : b.Moved b' f) (e : ι) :
    b'.info.detachableP e = b.info.detachableP e ∧ b'.info.internalP e = b.info.internalP e := by
  have hinfo := h.info
  split at hinfo
  · rw [hinfo]
    exact ⟨rfl, rfl⟩
  · have hancestor : b'.info.ancestor = b.info.ancestor := by
      rw [hinfo]
      rfl
    have hflags : ∀ a, (b'.info.heap a).detachable = (b.info.heap a).detachable ∧
        (b'.info.heap a).internal = (b.info.heap a).internal := by
      intro a
      rw [hinfo, ExtentInfo.mapEndpoints]
      dsimp only
      split <;> exact ⟨rfl, rfl⟩
    rw [ExtentInfo.detachableP, ExtentInfo.internalP, hancestor]
    exact hflags (b.info.ancestor e)

end motion

/-! ## The deletion -/

section deletion

variable {fuel : Nat} {b : ExtentText ι} {q : Interrupts} {newExtent e : ι} {x : Nat}

/-- The gap is to be moved for a deletion, and a quit makes that leave. -/
def DeletionLeaves (b : BufferText) (q : Interrupts) (biFrom biTo : Nat) : Prop :=
  ¬ (biTo = b.z ∧ b.gpt < biFrom) ∧ (biTo < b.gpt ∨ b.gpt < biFrom) ∧
    q.leaves (b.gpt - biTo + (biFrom - b.gpt)) = true

/-- What becomes of a zero-length extent at an edge of a deleted range. -/
def ZeroLengthAfter (b : ExtentText ι) (biFrom : Nat) (e : ι) (detached : Bool) : Prop :=
  if detached then e ∉ b.info.extents.byStart.els ∧ (b.info.heap e).detachedP = true
  else e ∈ b.info.extents.byStart.els ∧
    ∀ endp, b.text.At ((b.info.heap e).endpoint endp) biFrom

theorem widened_zeroLength {b' : ExtentText ι} {f : Int → Int} {biFrom biTo : Nat}
    (hmoved : b.Moved b' f) (hin : b'.text.gpt ≤ b'.text.z)
    (hspares : ∃ lost, b'.Spares lost biFrom biTo b'.text.gapSize) (h1 : 1 ≤ biFrom)
    (hle : biFrom ≤ biTo) (hz : biTo ≤ b'.text.z) (he : e ∈ b.info.extents.byStart.els)
    (hx : x = biFrom ∨ x = biTo) (hat : ∀ endp, b.text.At ((b.info.heap e).endpoint endp) x)
    (hfuel : b.info.extents.numEls < fuel) (newExtent : ι) (numdel : Nat) :
    ∃ info', processDeletion fuel newExtent b' biFrom biTo b'.text.gapSize = some info' ∧
      ZeroLengthAfter ⟨b'.text.widenGap numdel (biTo - biFrom) biFrom, info'⟩ biFrom e
        (b.info.detachableP e && !b.info.internalP e) := by
  obtain ⟨lost, hspares⟩ := hspares
  have hels : b'.info.extents = b.info.extents ∧
      ∀ endp, (b'.info.heap e).endpoint endp = b'.text.bytindToMemind x := by
    have hat' : ∀ endp, f ((b.info.heap e).endpoint endp) = b'.text.bytindToMemind x :=
      fun endp => ((BufferText.at_iff hin).mp (hmoved.stands (hat endp))).2.2
    have hinfo := hmoved.info
    rw [if_neg fun hempty => by
      rw [List.eq_nil_of_length_eq_zero hempty] at he
      cases he] at hinfo
    refine ⟨hinfo ▸ rfl, fun endp => ?_⟩
    rw [hinfo, ExtentInfo.mapEndpoints_heap f he, Extent.endpoint_map, hat']
  obtain ⟨info', heq, hafter⟩ := processDeletion_zeroLength hspares hle (Or.inl rfl)
    (hels.1 ▸ he) hx hels.2 (hels.1 ▸ hfuel) newExtent
  refine ⟨info', heq, ?_⟩
  rw [(hmoved.flags e).1, (hmoved.flags e).2] at hafter
  rw [ZeroLengthAfter]
  split
  · rename_i hcond
    rw [if_pos hcond] at hafter
    exact hafter
  · rename_i hcond
    rw [if_neg hcond] at hafter
    refine ⟨hafter.1, fun endp => ?_⟩
    have hplace := hafter.2 endp
    rw [Int.add_sub_cancel] at hplace
    rw [hplace]
    -- the gap begins where the range did
    refine (BufferText.at_iff (b := b'.text.widenGap numdel (biTo - biFrom) biFrom)
      (show biFrom ≤ b'.text.z - (biTo - biFrom) by omega)).mpr ⟨h1, ?_, ?_⟩
    · show biFrom ≤ b'.text.z - (biTo - biFrom)
      omega
    · exact (if_neg (Nat.lt_irrefl biFrom)).symm

theorem deleteRange_eq (r : BufferText.ByteRange b.text) (hne : r.biFrom ≠ r.biTo)
    (hbottom : ¬ (r.biTo = b.text.z ∧ b.text.gpt < r.biFrom)) :
    b.bufferDeleteRange fuel newExtent q r.start r.stop r.biFrom r.biTo =
      if (b.moveGap q (b.text.beside r.biFrom r.biTo)).left then
        some (b.moveGap q (b.text.beside r.biFrom r.biTo))
      else
        (processDeletion fuel newExtent (b.moveGap q (b.text.beside r.biFrom r.biTo)).text
            r.biFrom r.biTo (b.moveGap q (b.text.beside r.biFrom r.biTo)).text.text.gapSize).map
          fun info => ⟨false, ⟨(b.moveGap q (b.text.beside r.biFrom r.biTo)).text.text.widenGap
            (r.stop - r.start) (r.biTo - r.biFrom) r.biFrom, info⟩,
            (b.moveGap q (b.text.beside r.biFrom r.biTo)).quits⟩ := by
  have hle := r.le
  have hmotion : ((if r.biTo < b.text.gpt then b.gapLeft q r.biTo else ⟨false, b, q⟩).andThen
      fun b q => if b.text.gpt < r.biFrom then b.gapRight q r.biFrom else ⟨false, b, q⟩)
        = b.moveGap q (b.text.beside r.biFrom r.biTo) := by
    rw [BufferText.beside]
    by_cases hlow : r.biTo < b.text.gpt
    · have hgpt : ¬ (b.text.movedDown (r.biTo + q.short (b.text.gpt - r.biTo))).gpt
          < r.biFrom := by
        show ¬ r.biTo + q.short (b.text.gpt - r.biTo) < r.biFrom
        omega
      rw [if_pos hlow, if_pos hlow, ExtentText.moveGap, if_pos hlow,
        ExtentText.gapLeft_eq b q (Nat.le_of_lt hlow)]
      simp only [ExtentOutcome.andThen, hgpt, if_false]
      cases q.leaves (b.text.gpt - r.biTo) <;> rfl
    · rw [if_neg hlow, if_neg hlow]
      by_cases hhigh : b.text.gpt < r.biFrom
      · rw [if_pos hhigh, ExtentText.moveGap, if_neg (by omega), if_pos hhigh]
        simp only [ExtentOutcome.andThen, hhigh, if_true, Bool.false_eq_true, if_false]
      · rw [if_neg hhigh, ExtentText.moveGap, if_neg (Nat.lt_irrefl _),
          if_neg (Nat.lt_irrefl _)]
        simp only [ExtentOutcome.andThen, hhigh, Bool.false_eq_true, if_false]
  rw [ExtentText.bufferDeleteRange, if_neg (mt r.empty_iff.mp hne),
    if_neg (fun h => hbottom ⟨r.bottom_iff.mp h.1, h.2⟩)]
  simp only [hmotion]

theorem moveGap_beside (hb : b.text.InText) (hs : b.info.Sound)
    (hin : b.info.In (wholeBuffer b.text)) (r : BufferText.ByteRange b.text)
    (hbottom : ¬ (r.biTo = b.text.z ∧ b.text.gpt < r.biFrom)) :
    ∃ f, b.Moved (b.moveGap q (b.text.beside r.biFrom r.biTo)).text f ∧
      (b.moveGap q (b.text.beside r.biFrom r.biTo)).text.text.gpt ≤ b.text.z ∧
      (b.moveGap q (b.text.beside r.biFrom r.biTo)).text.text.z = b.text.z ∧
      (∃ lost, (b.moveGap q (b.text.beside r.biFrom r.biTo)).text.Spares lost r.biFrom r.biTo
        (b.moveGap q (b.text.beside r.biFrom r.biTo)).text.text.gapSize) ∧
      ((b.moveGap q (b.text.beside r.biFrom r.biTo)).left = true ↔
        DeletionLeaves b.text q r.biFrom r.biTo) := by
  have hle := r.le
  have hz := r.le_z
  have hgz := hb.2
  rw [BufferText.beside]
  by_cases hlow : r.biTo < b.text.gpt
  · have hshort := q.short_le (b.text.gpt - r.biTo)
    have hway : b.text.gpt - r.biTo + (r.biFrom - b.text.gpt) = b.text.gpt - r.biTo := by omega
    rw [if_pos hlow, ExtentText.moveGap, if_pos hlow, ExtentText.gapLeft_eq b q (Nat.le_of_lt hlow)]
    refine ⟨_, ExtentText.movedDown hb hs.toSorted hin (by omega), ?_, rfl,
      ExtentText.Spares.movedDown hb hs hin hle (Nat.le_add_right ..) (by omega), ?_⟩
    · show r.biTo + q.short (b.text.gpt - r.biTo) ≤ b.text.z
      omega
    · rw [DeletionLeaves, hway]
      exact ⟨fun h => ⟨hbottom, Or.inl hlow, h⟩, fun h => h.2.2⟩
  rw [if_neg hlow]
  by_cases hhigh : b.text.gpt < r.biFrom
  · have hshort := q.short_le (r.biFrom - b.text.gpt)
    have hway : b.text.gpt - r.biTo + (r.biFrom - b.text.gpt) = r.biFrom - b.text.gpt := by omega
    rw [if_pos hhigh, ExtentText.moveGap, if_neg (by omega), if_pos hhigh,
      ExtentText.gapRight_eq b q (Nat.le_of_lt hhigh)]
    refine ⟨_, ExtentText.movedUp hb hs.toSorted hin (by omega) (by omega), ?_,
      BufferText.movedUp_z .., ExtentText.Spares.movedUp hb hs hin (by omega) (by omega) hhigh _, ?_⟩
    · show (b.text.movedUp _).gpt ≤ b.text.z
      rw [BufferText.movedUp_gpt]
      omega
    · rw [DeletionLeaves, hway]
      exact ⟨fun h => ⟨hbottom, Or.inr hhigh, h⟩, fun h => h.2.2⟩
  rw [if_neg hhigh, ExtentText.moveGap, if_neg (Nat.lt_irrefl _), if_neg (Nat.lt_irrefl _)]
  exact ⟨id, .refl b, hgz, rfl, ⟨_, .refl hs ..⟩,
    iff_of_false Bool.false_ne_true fun h => h.2.1.elim hlow hhigh⟩

/-- **What a deletion does to a zero-length extent at an edge**: its openness is not looked at. -/
theorem bufferDeleteRange_zeroLength (hb : b.text.InText) (hs : b.info.Sound)
    (hin : b.info.In (wholeBuffer b.text)) (r : BufferText.ByteRange b.text)
    (hne : r.biFrom < r.biTo) (he : e ∈ b.info.extents.byStart.els)
    (hx : x = r.biFrom ∨ x = r.biTo)
    (hat : ∀ endp, b.text.At ((b.info.heap e).endpoint endp) x)
    (hfuel : b.info.extents.numEls < fuel) (newExtent : ι) :
    ∃ o, b.bufferDeleteRange fuel newExtent q r.start r.stop r.biFrom r.biTo = some o ∧
      (o.left = true ↔ DeletionLeaves b.text q r.biFrom r.biTo) ∧
      (o.left = false → ZeroLengthAfter o.text r.biFrom e
        (b.info.detachableP e && !b.info.internalP e)) := by
  have hle := r.le
  have hz := r.le_z
  have hgz := hb.2
  by_cases hbottom : r.biTo = b.text.z ∧ b.text.gpt < r.biFrom
  · have hmem : ∀ endp, (b.info.heap e).endpoint endp = b.text.bytindToMemind x :=
      fun endp => ((BufferText.at_iff hgz).mp (hat endp)).2.2
    obtain ⟨info', heq, hafter⟩ := processDeletion_zeroLength
      (.refl hs r.biFrom r.biTo 0) hle (Or.inr ⟨rfl, hbottom.2⟩) he hx hmem hfuel newExtent
    rw [ExtentText.bufferDeleteRange, if_neg (mt r.empty_iff.mp (Nat.ne_of_lt hne)),
      if_pos ⟨r.bottom_iff.mpr hbottom.1, hbottom.2⟩, heq]
    refine ⟨_, rfl, iff_of_false Bool.false_ne_true fun h => h.1 hbottom, fun _ => ?_⟩
    rw [ZeroLengthAfter]
    split
    · rename_i hcond
      rw [if_pos hcond] at hafter
      exact hafter
    · rename_i hcond
      rw [if_neg hcond] at hafter
      refine ⟨hafter.1, fun endp => ?_⟩
      rw [hafter.2 endp]
      refine (BufferText.at_iff (b := b.text.cutBottom (r.stop - r.start) (r.biTo - r.biFrom))
        (show b.text.gpt ≤ b.text.z - (r.biTo - r.biFrom) by omega)).mpr ⟨r.one_le, ?_, ?_⟩
      · show r.biFrom ≤ b.text.z - (r.biTo - r.biFrom)
        omega
      · show _ = if b.text.gpt < r.biFrom then (r.biFrom : Int) + b.text.gapSize else r.biFrom
        rw [if_pos hbottom.2, Int.sub_zero]
  rw [deleteRange_eq r (Nat.ne_of_lt hne) hbottom]
  obtain ⟨f, hmoved, hgpt, hz', hspares, hleft⟩ := moveGap_beside (q := q) hb hs hin r hbottom
  generalize b.moveGap q (b.text.beside r.biFrom r.biTo) = o at hmoved hgpt hz' hspares hleft ⊢
  cases hquit : o.left with
  | true =>
    refine ⟨o, if_pos rfl, hleft, fun h => ?_⟩
    rw [hquit] at h
    cases h
  | false =>
    obtain ⟨info', heq, hafter⟩ := widened_zeroLength hmoved (hz' ▸ hgpt) hspares r.one_le hle
      (hz' ▸ hz) he hx hat hfuel newExtent (r.stop - r.start)
    rw [if_neg Bool.false_ne_true, heq]
    rw [hquit] at hleft
    exact ⟨_, rfl, hleft, fun _ => hafter⟩

/-! ## The rule -/

/-- The end of a zero-length extent that faces a range is open: its start if the extent is behind
the range. -/
def ExtentInfo.facingOpenP (info : ExtentInfo ι) (e : ι) (behind : Bool) : Bool :=
  if behind then info.startOpenP e else info.endOpenP e

/-- A deletion detaches a zero-length extent, in front of its range or behind it, if this is
detachable and closed on the side of the range, and leaves it at the start of the range otherwise. -/
def TreatsByClosedSide (fuel : Nat) (newExtent : ι) (b : ExtentText ι) (q : Interrupts)
    (r : BufferText.ByteRange b.text) (e : ι) (behind : Bool) : Prop :=
  ∃ o, b.bufferDeleteRange fuel newExtent q r.start r.stop r.biFrom r.biTo = some o ∧
    (o.left = false → ZeroLengthAfter o.text r.biFrom e
      (b.info.detachableP e && !b.info.facingOpenP e behind))

omit [DecidableEq ι] in
theorem ZeroLengthAfter.unique {biFrom : Nat} {d d' : Bool} (h : ZeroLengthAfter b biFrom e d)
    (h' : ZeroLengthAfter b biFrom e d') : d = d' := by
  rw [ZeroLengthAfter] at h h'
  cases d <;> cases d'
  · rfl
  · exact absurd h.1 h'.1
  · exact absurd h'.1 h.1
  · rfl

/-- **Zero-length extents are treated by their closed side** if they are not detachable, or if
only the internal ones are open there. -/
theorem deletion_treatsByClosedSide_iff (hb : b.text.InText) (hs : b.info.Sound)
    (hin : b.info.In (wholeBuffer b.text)) (q : Interrupts) (r : BufferText.ByteRange b.text)
    (hne : r.biFrom < r.biTo) (behind : Bool) (he : e ∈ b.info.extents.byStart.els)
    (hat : ∀ endp, b.text.At ((b.info.heap e).endpoint endp)
      (if behind then r.biTo else r.biFrom))
    (hfuel : b.info.extents.numEls < fuel) (newExtent : ι) :
    TreatsByClosedSide fuel newExtent b q r e behind ↔
      DeletionLeaves b.text q r.biFrom r.biTo ∨
        (b.info.detachableP e = true → b.info.facingOpenP e behind = b.info.internalP e) := by
  have hx : (if behind then r.biTo else r.biFrom) = r.biFrom ∨
      (if behind then r.biTo else r.biFrom) = r.biTo := by
    cases behind
    · exact Or.inl rfl
    · exact Or.inr rfl
  obtain ⟨o, heq, hleft, hafter⟩ := bufferDeleteRange_zeroLength (q := q) hb hs hin r hne he hx
    hat hfuel newExtent
  constructor
  · rintro ⟨o', heq', hafter'⟩
    obtain rfl := Option.some.inj (heq.symm.trans heq')
    by_cases hquit : DeletionLeaves b.text q r.biFrom r.biTo
    · exact Or.inl hquit
    refine Or.inr fun hdetachable => ?_
    have hreturns : o.left = false := Bool.eq_false_iff.mpr (mt hleft.mp hquit)
    have hsame := (hafter' hreturns).unique (hafter hreturns)
    rw [hdetachable, Bool.true_and, Bool.true_and] at hsame
    exact Bool.not_inj hsame
  · intro h
    refine ⟨o, heq, fun hreturns => ?_⟩
    have hquit : ¬ DeletionLeaves b.text q r.biFrom r.biTo := fun hquit => by
      rw [hleft.mpr hquit] at hreturns
      cases hreturns
    have hsame : (b.info.detachableP e && !b.info.facingOpenP e behind)
        = (b.info.detachableP e && !b.info.internalP e) := by
      cases hdetachable : b.info.detachableP e with
      | false => rfl
      | true => rw [h.resolve_left hquit hdetachable]
    rw [hsame]
    exact hafter hreturns

end deletion

/-- Two bytes, and an empty extent between them that is closed on the left and open on the
right. -/
def betweenBytes : ExtentText Bool where
  text := ⟨fun _ => 65, 3, 3, 3, 4, 0⟩
  info :=
    { heap := fun _ => ⟨2, 2, false, true, true, false⟩
      ancestor := id
      extents := ⟨⟨[true], []⟩, ⟨[true], []⟩⟩
      soe := ⟨⟨⟨[], []⟩, ⟨[], []⟩⟩, -1⟩ }

/-- When the first byte is deleted, the extent goes. -/
theorem betweenBytes_detached : TreatsByClosedSide 2 false betweenBytes noQuit
    ⟨1, 2, 1, 2, by decide, by decide, by decide, by decide, by decide⟩ true true :=
  (deletion_treatsByClosedSide_iff ⟨by decide, by decide⟩ (by decide) (by decide) noQuit
    ⟨1, 2, 1, 2, by decide, by decide, by decide, by decide, by decide⟩ (by decide) true
    (List.mem_singleton_self true) (fun endp => by cases endp <;> exact ⟨by decide, rfl⟩)
    (by decide) false).mpr (Or.inr fun _ => rfl)

/-- When the second byte is deleted, the extent should stay, since it is open there. -/
theorem betweenBytes_not_kept : ¬ TreatsByClosedSide 2 false betweenBytes noQuit
    ⟨2, 3, 2, 3, by decide, by decide, by decide, by decide, by decide⟩ true false := by
  rintro ⟨o, heq, hafter⟩
  have hat : ∀ endp, betweenBytes.text.At ((betweenBytes.info.heap true).endpoint endp) 2 :=
    fun endp => by cases endp <;> exact ⟨by decide, rfl⟩
  have hfuel : betweenBytes.info.extents.numEls < 2 := by decide
  obtain ⟨o', heq', hleft, hafter'⟩ := bufferDeleteRange_zeroLength (q := noQuit)
    ⟨by decide, by decide⟩ (by decide) (by decide)
    ⟨2, 3, 2, 3, by decide, by decide, by decide, by decide, by decide⟩ (by decide)
    (List.mem_singleton_self true) (Or.inl rfl) hat hfuel false
  obtain rfl := Option.some.inj (heq.symm.trans heq')
  have hreturns : o.left = false := by
    refine Bool.eq_false_iff.mpr (mt hleft.mp fun h => ?_)
    exact absurd h.2.1 (by decide)
  cases (hafter hreturns).unique (hafter' hreturns)

end XEmacs.Extents

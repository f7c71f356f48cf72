import XEmacs.Extents.MapRule
import XEmacs.Extents.TextExtents

/-!
# Extents and deletions (insdel.c, extents.c)

When text is deleted, the extents that lie within it are detached if they are detachable
(`process_extents_for_deletion`). Then the endpoints of the others are moved out of it, like
markers (`adjust_extents_for_deletion`).
-/

namespace XEmacs.Extents

open Gap GapArrays KeyedLists

variable {ι : Type} [DecidableEq ι]

/-! ## Detaching -/

/-- `process_extents_for_deletion_mapper`. No caller wants the extents destroyed. -/
def processExtentsForDeletionMapper (start stop : Int) : MapFun ι Unit :=
  fun extent info arg =>
    let e := info.heap extent
    if start ≤ e.extentStart ∧ e.extentEnd ≤ stop then
      if info.detachableP extent then
        (extentDetach info extent).map fun info => (info, arg, false)
      else some (info, arg, false)
    else some (info, arg, false)

/-- `ME_END_CLOSED | ME_MIGHT_MODIFY_EXTENTS`. -/
def deletionFlags : MapFlags :=
  { endClosed := true, startOpen := false, allExtents := none, inRegion := none
    negateInRegion := false, includeInternal := false, mightModifyText := false
    mightModifyExtents := true, mightMoveSoe := false }

def processExtentsForDeletion (fuel : Nat) (obj : BufferOrString) (newExtent : ι)
    (info : ExtentInfo ι) (frm upTo : Nat) : Option (ExtentInfo ι) :=
  let start := obj.bytindToMemind frm
  let stop := obj.bytindToMemind upTo
  (mapExtentsBytind fuel obj newExtent info frm upTo
    (processExtentsForDeletionMapper start stop) () none deletionFlags).map Prod.fst

/-! ## Adjusting -/

def adjustExtentsForDeletionMapper : MapFun ι (List ι) :=
  fun extent info list => some (info, list ++ [extent], false)

/-- `ME_ALL_EXTENTS_CLOSED | ME_END_CLOSED | ME_START_OR_END_IN_REGION | ME_INCLUDE_INTERNAL`. -/
def adjustmentFlags : MapFlags :=
  { endClosed := true, startOpen := false, allExtents := some .closed
    inRegion := some .startOrStop, negateInRegion := false, includeInternal := true
    mightModifyText := false, mightModifyExtents := false, mightMoveSoe := false }

/-- The loop of `adjust_extents_for_deletion`. -/
def adjustListed (adjust : Int → Int) (oldsoe newsoe : Int) :
    List ι → ExtentInfo ι → Option (ExtentInfo ι)
  | [], info => some info
  | extent :: list, info =>
    let e := info.heap extent
    let newStart := adjust e.extentStart
    let newEnd := adjust e.extentEnd
    if newStart ≠ e.extentStart ∨ newEnd ≠ e.extentEnd then
      (extentDetach info extent).bind fun info =>
      (extentAttach ((info.setEndpoints extent newStart newEnd).atPos newsoe) extent).bind
        fun info => adjustListed adjust oldsoe newsoe list (info.atPos oldsoe)
    else adjustListed adjust oldsoe newsoe list info

/-- `adjust_extents_for_deletion`. If there are extents then the SOE has been allocated by the
mapping before this one. -/
def adjustExtentsForDeletion (fuel : Nat) (obj : BufferOrString) (newExtent : ι)
    (info : ExtentInfo ι) (frm upTo : Nat) (gapsize numdel movegapsize : Int) :
    Option (ExtentInfo ι) :=
  let adjustTo : Int := upTo + gapsize
  let amount := -numdel - movegapsize
  let adjust x := doMarkerAdjustment x adjustTo adjustTo amount
  -- the list is computed before anything is changed
  (mapExtentsBytind fuel obj newExtent info frm upTo adjustExtentsForDeletionMapper [] none
    adjustmentFlags).bind fun (info, list) =>
  let oldsoe := info.soe.pos
  let newsoe := if 0 ≤ oldsoe then adjust oldsoe else oldsoe
  (adjustListed adjust oldsoe newsoe list info).map (·.atPos newsoe)

/-! ## Deleting -/

/-- What `buffer_delete_range` does with the extents before the gap grows. -/
def processDeletion (fuel : Nat) (newExtent : ι) (b : ExtentText ι) (biFrom biTo : Nat)
    (movegapsize : Int) : Option (ExtentInfo ι) :=
  let obj := wholeBuffer b.text
  (processExtentsForDeletion fuel obj newExtent b.info biFrom biTo).bind fun info =>
  adjustExtentsForDeletion fuel obj newExtent info biFrom biTo b.text.gapSize
    (biTo - biFrom : Nat) movegapsize

def ExtentText.bufferDeleteRange (fuel : Nat) (newExtent : ι) (b : ExtentText ι) (q : Interrupts)
    (start stop biFrom biTo : Nat) : Option (ExtentOutcome ι) :=
  let numdel := stop - start
  let bcNumdel := biTo - biFrom
  if numdel = 0 then some ⟨false, b, q⟩
  -- the gap is not moved just to delete from the bottom
  else if stop = b.text.bufz ∧ b.text.gpt < biFrom then
    (processDeletion fuel newExtent b biFrom biTo 0).map fun info =>
    ⟨false, ⟨b.text.cutBottom numdel bcNumdel, info⟩, q⟩
  else
    let r := (if biTo < b.text.gpt then b.gapLeft q biTo else ⟨false, b, q⟩).andThen fun b q =>
      if b.text.gpt < biFrom then b.gapRight q biFrom else ⟨false, b, q⟩
    if r.left then some r
    else
      let b := r.text
      (processDeletion fuel newExtent b biFrom biTo b.text.gapSize).map fun info =>
      ⟨false, ⟨b.text.widenGap numdel bcNumdel biFrom, info⟩, r.quits⟩

end XEmacs.Extents

/-!
## What a deletion does to each extent (extents.c)

The extents that lie within the range and are detachable and not internal are detached, and no
others (`processExtentsForDeletion_eq`).
-/

namespace XEmacs.Extents

open Gap GapArrays KeyedLists List Function

variable {ι : Type}

/-! ## Detaching -/

/-- An extent that is detached. -/
def Extent.detach (e : Extent) : Extent := { e with extentStart := -1, extentEnd := -1 }

/-- The mapper detaches the extent. -/
def ExtentInfo.detaches (info : ExtentInfo ι) (start stop : Int) (e : ι) : Bool :=
  info.seen deletionFlags e && info.detachableP e &&
    (start ≤ (info.heap e).extentStart && (info.heap e).extentEnd ≤ stop)

/-- Some of the extents for which `P` holds have been detached. -/
structure ExtentInfo.Thinned (info₀ : ExtentInfo ι) (P : ι → Bool) (info : ExtentInfo ι) :
    Prop where
  ancestor : info.ancestor = info₀.ancestor
  kept : ∀ e ∈ info.extents.byStart.els,
    e ∈ info₀.extents.byStart.els ∧ info.heap e = info₀.heap e
  gone : ∀ e, e ∉ info.extents.byStart.els →
    e ∉ info₀.extents.byStart.els ∧ info.heap e = info₀.heap e ∨
      P e = true ∧ info.heap e = (info₀.heap e).detach

namespace ExtentInfo

variable {info₀ info info' : ExtentInfo ι} {P : ι → Bool} {e : ι}

theorem Thinned.refl (info : ExtentInfo ι) (P : ι → Bool) : info.Thinned P info :=
  ⟨rfl, fun _ he => ⟨he, rfl⟩, fun _ he => Or.inl ⟨he, rfl⟩⟩

theorem Thinned.alike (h : info₀.Thinned P info) (halike : info.Alike info') :
    info₀.Thinned P info' := by
  refine ⟨halike.ancestor.trans h.ancestor, fun e he => ?_, fun e he => ?_⟩
  · rw [halike.heap]
    exact h.kept e (halike.extents.mem.mp he)
  · rw [halike.heap]
    exact h.gone e fun he' => he (halike.extents.mem.mpr he')

theorem Thinned.flags (h : info₀.Thinned P info) (e : ι) :
    ∃ start stop, info.heap e = { info₀.heap e with extentStart := start, extentEnd := stop } := by
  by_cases he : e ∈ info.extents.byStart.els
  · exact ⟨_, _, (h.kept e he).2⟩
  · rcases h.gone e he with ⟨-, heq⟩ | ⟨-, heq⟩
    · exact ⟨_, _, heq⟩
    · exact ⟨_, _, heq⟩

theorem Thinned.internalP (h : info₀.Thinned P info) (e : ι) :
    info.internalP e = info₀.internalP e := by
  obtain ⟨start, stop, heq⟩ := h.flags (info₀.ancestor e)
  rw [ExtentInfo.internalP, ExtentInfo.internalP, h.ancestor, heq]

theorem Thinned.detachableP (h : info₀.Thinned P info) (e : ι) :
    info.detachableP e = info₀.detachableP e := by
  obtain ⟨start, stop, heq⟩ := h.flags (info₀.ancestor e)
  rw [ExtentInfo.detachableP, ExtentInfo.detachableP, h.ancestor, heq]

theorem Thinned.seen (h : info₀.Thinned P info) (flags : MapFlags) (e : ι) :
    info.seen flags e = info₀.seen flags e := by
  rw [ExtentInfo.seen, ExtentInfo.seen, h.internalP]

theorem Thinned.detached [DecidableEq ι] (h : info₀.Thinned P info) (hs : info.Sorted)
    (he : e ∈ info.extents.byStart.els) (hP : P e = true) :
    info₀.Thinned P (info.detached e) := by
  refine ⟨h.ancestor, fun a ha => ?_, fun a ha => ?_⟩
  · obtain ⟨hae, ha⟩ := (mem_detached hs).mp ha
    rw [heap_detached_of_ne hae]
    exact h.kept a ha
  · by_cases hae : a = e
    · subst hae
      refine Or.inr ⟨hP, ?_⟩
      have hself : (info.detached a).heap a = (info.heap a).detach := update_self ..
      rw [hself, (h.kept a he).2]
    · rw [heap_detached_of_ne hae]
      exact h.gone a fun ha' => ha ((mem_detached hs).mpr ⟨hae, ha'⟩)

end ExtentInfo

theorem inRegion_of_within {obj : BufferOrString} {info : ExtentInfo ι} {e : ι} {frm upTo : Nat}
    (hle : (info.heap e).extentStart ≤ (info.heap e).extentEnd)
    (hstart : obj.bytindToMemind frm ≤ (info.heap e).extentStart)
    (hend : (info.heap e).extentEnd ≤ obj.bytindToMemind upTo) :
    extentInRegionP obj info e frm upTo deletionFlags = true := by
  simp only [extentInRegionP, deletionFlags, Bool.true_or, Bool.false_and, Bool.not_true,
    Bool.false_eq_true, if_false]
  refine if_neg ?_
  rw [not_or, Int.not_lt, Int.not_lt]
  by_cases hzero : (info.heap e).extentStart = (info.heap e).extentEnd
  · simp only [openness, if_pos hzero, memindToStartind, memindToEndind, Bool.false_eq_true,
      if_false]
    omega
  · have hexs := memindToStartind_le (info.heap e).extentStart (openness info e none).1
    have hexe := le_memindToEndind (info.heap e).extentEnd (openness info e none).2
    simp only [memindToStartind, memindToEndind, Bool.false_eq_true, if_false] at hexs hexe ⊢
    omega

variable [DecidableEq ι]

section detaching

variable {obj : BufferOrString} {frm upTo : Nat} {lost : ι → Bool} {info₀ : ExtentInfo ι}

/-- **The mapper** treats the extents one by one. -/
theorem processMapper_treats
    (hlost : ∀ e ∈ info₀.extents.byStart.els,
      info₀.detaches (obj.bytindToMemind frm) (obj.bytindToMemind upTo) e = true →
        lost e = false) :
    Treats obj (processExtentsForDeletionMapper (obj.bytindToMemind frm)
        (obj.bytindToMemind upTo)) deletionFlags frm upTo lost info₀
      (fun info _ => info.SoundBut lost ∧ info.soe.pos = obj.bytindToMemind frm ∧
        info₀.Thinned (info₀.detaches (obj.bytindToMemind frm) (obj.bytindToMemind upTo)) info)
      (fun e info _ =>
        info₀.detaches (obj.bytindToMemind frm) (obj.bytindToMemind upTo) e = true →
          e ∉ info.extents.byStart.els) where
  sound hinv := ⟨hinv.1, hinv.2.1⟩
  mem hinv e he := (hinv.2.2.kept e he).1
  untouched {info arg} hinv e he := by
    by_cases hmem : e ∈ info.extents.byStart.els
    · exact Or.inr ⟨hmem, (hinv.2.2.kept e hmem).2⟩
    · exact Or.inl fun _ => hmem
  alike hinv halike := ⟨⟨halike.but hinv.1, halike.pos.trans hinv.2.1, hinv.2.2.alike halike⟩,
    fun e hmet hdetaches he => hmet hdetaches (halike.extents.mem.mp he)⟩
  skip {info arg e} hinv he hskip hdetaches := by
    obtain ⟨hsound, -, hthin⟩ := hinv
    have hheap := (hthin.kept e he).2
    rw [ExtentInfo.detaches, Bool.and_eq_true, Bool.and_eq_true, Bool.and_eq_true,
      decide_eq_true_eq, decide_eq_true_eq] at hdetaches
    rw [hthin.seen, hdetaches.1.1, Bool.true_and, inRegion_of_within (hsound.le e he)
      (by rw [hheap]; exact hdetaches.2.1) (by rw [hheap]; exact hdetaches.2.2)] at hskip
    cases hskip
  call {info arg e} hinv he hseen hin := by
    obtain ⟨hsound, hpos, hthin⟩ := hinv
    obtain ⟨hmem₀, hheap⟩ := hthin.kept e he
    have hseen₀ := (hthin.seen deletionFlags e).symm.trans hseen
    by_cases hdetaches : info₀.detaches (obj.bytindToMemind frm) (obj.bytindToMemind upTo) e
        = true
    · obtain ⟨heq, hsound'⟩ := hsound.detach he (hlost e hmem₀ hdetaches)
      have hcond := hdetaches
      rw [ExtentInfo.detaches, Bool.and_eq_true, Bool.and_eq_true, Bool.and_eq_true,
        decide_eq_true_eq, decide_eq_true_eq] at hcond
      refine ⟨info.detached e, arg, ?_, ⟨hsound', (info.soe_pos_detached e).trans hpos,
        hthin.detached hsound.toSorted he hdetaches⟩, fun _ he' => ?_, fun a hmet ha he' => ?_,
        fun a hae => ExtentInfo.heap_detached_of_ne hae, (fun h => nomatch h), ?_, fun _ => ?_⟩
      · rw [processExtentsForDeletionMapper]
        simp only [hheap, hcond.2, and_self, if_true, hthin.detachableP, hcond.1.2, heq,
          Option.map_some]
      · exact ((ExtentInfo.mem_detached hsound.toSorted).mp he').1 rfl
      · exact hmet ha ((ExtentInfo.mem_detached hsound.toSorted).mp he').2
      · show LeavesRest _ (ite _ _ _ : StackOfExtents ι).extents.byStart e
        split
        · exact LeavesRest.delete (hsound.soe.ordered hsound.ordered).nodup e
        · exact LeavesRest.refl _ e
      · exact LeavesRest.delete hsound.ordered.nodup e
    · refine ⟨info, arg, ?_, ⟨hsound, hpos, hthin⟩, fun h => absurd h hdetaches,
        fun a hmet => hmet, fun a _ => rfl, (fun h => nomatch h), .refl _ e, fun _ => .refl _ e⟩
      -- within the region it is not detachable
      rw [ExtentInfo.detaches, hseen₀, Bool.true_and, Bool.and_eq_true, Bool.and_eq_true,
        decide_eq_true_eq, decide_eq_true_eq] at hdetaches
      simp only [processExtentsForDeletionMapper, hheap, hthin.detachableP]
      split
      · rename_i hwithin
        exact if_neg fun hdetachable => hdetaches ⟨hdetachable, hwithin⟩
      · rfl

/-- **The extents that a deletion detaches.** -/
theorem processExtentsForDeletion_eq {info : ExtentInfo ι} (hs : info.SoundBut lost)
    (hle : frm ≤ upTo)
    (hlost : ∀ e ∈ info.extents.byStart.els,
      info.detaches (obj.bytindToMemind frm) (obj.bytindToMemind upTo) e = true →
        info.lostAt lost (obj.bytindToMemind frm) e = false)
    {fuel : Nat} (hfuel : info.extents.numEls < fuel) (newExtent : ι) :
    ∃ info', processExtentsForDeletion fuel obj newExtent info frm upTo = some info' ∧
      info'.SoundBut (info.lostAt lost (obj.bytindToMemind frm)) ∧
      (info.extents.numEls ≠ 0 → info'.soe.pos = obj.bytindToMemind frm) ∧
      info.Thinned (info.detaches (obj.bytindToMemind frm) (obj.bytindToMemind upTo)) info' ∧
      ∀ e, info.detaches (obj.bytindToMemind frm) (obj.bytindToMemind upTo) e = true →
        e ∉ info'.extents.byStart.els := by
  rw [processExtentsForDeletion]
  by_cases hempty : info.extents.numEls = 0
  · have hnone : ∀ e, e ∉ info.extents.byStart.els := by
      rw [eq_nil_of_length_eq_zero hempty]
      exact fun e => not_mem_nil
    refine ⟨info, by rw [mapExtentsBytind, if_pos hempty]; rfl,
      hs.congr fun e he => absurd he (hnone e), fun h => absurd hempty h, .refl info _,
      fun e _ => hnone e⟩
  · obtain ⟨info', arg', heq, ⟨hsound, hpos, hthin⟩, hmet⟩ :=
      (processMapper_treats hlost).mapping hs hle rfl rfl
        (fun h => by rcases h.1 with h | h <;> cases h) (fun h => by cases h.1) hempty ()
        (fun sel hsel => ⟨lostAt_soundBut hsel, rfl, rfl, fun e he => ⟨he, rfl⟩,
          fun e he => Or.inl ⟨he, rfl⟩⟩) hfuel newExtent
    refine ⟨info', by rw [heq]; rfl, hsound, fun _ => hpos, hthin, fun e hdetaches he => ?_⟩
    have hmem := (hthin.kept e he).1
    exact hmet e hmem (hlost e hmem hdetaches) hdetaches he

end detaching

/-! ## Listing -/

section listing

variable {obj : BufferOrString} {frm upTo : Nat} {lost : ι → Bool} {info₀ : ExtentInfo ι}

omit [DecidableEq ι] in
/-- **The mapper** lists the extents one by one. -/
theorem adjustMapper_treats (lost : ι → Bool) :
    Treats obj adjustExtentsForDeletionMapper adjustmentFlags frm upTo lost info₀
      (fun info list => info.SoundBut lost ∧ info.soe.pos = obj.bytindToMemind frm ∧
        info.heap = info₀.heap ∧ info.ancestor = info₀.ancestor ∧
        info₀.extents.Alike info.extents ∧ ∀ e ∈ list, e ∈ info₀.extents.byStart.els)
      (fun e _ list => extentInRegionP obj info₀ e frm upTo adjustmentFlags = true → e ∈ list)
    where
  sound hinv := ⟨hinv.1, hinv.2.1⟩
  mem hinv e he := hinv.2.2.2.2.1.mem.mp he
  untouched {info arg} hinv e he := by
    obtain ⟨-, -, hheap, -, halike, -⟩ := hinv
    exact Or.inr ⟨halike.mem.mpr he, congrFun hheap e⟩
  alike {info info' arg} hinv halike := by
    obtain ⟨hsound, hpos, hheap, hancestor, hels, hlist⟩ := hinv
    exact ⟨⟨halike.but hsound, halike.pos.trans hpos, halike.heap.trans hheap,
      halike.ancestor.trans hancestor, hels.trans halike.extents, hlist⟩, fun e hmet => hmet⟩
  skip {info arg e} hinv he hskip hin := by
    obtain ⟨-, -, hheap, hancestor, -, -⟩ := hinv
    rw [ExtentInfo.inRegion_congr (congrFun hheap e) (by rw [hheap, hancestor]) obj frm upTo
      adjustmentFlags, hin, Bool.and_true] at hskip
    cases hskip
  call {info arg e} hinv he hseen hin := by
    obtain ⟨hsound, hpos, hheap, hancestor, hels, hlist⟩ := hinv
    refine ⟨info, arg ++ [e], rfl, ⟨hsound, hpos, hheap, hancestor, hels, fun a ha => ?_⟩,
      fun _ => mem_append_right _ (mem_singleton_self e),
      fun a hmet ha => mem_append_left _ (hmet ha), fun a _ => rfl, fun _ => rfl,
      .refl _ e, fun _ => .refl _ e⟩
    rcases List.mem_append.mp ha with ha | ha
    · exact hlist a ha
    · rw [List.mem_singleton.mp ha]
      exact hels.mem.mp he

/-- **The extents that are listed**: all that start or end in the range, unless the SOE lacks
them. -/
theorem listing_eq {info : ExtentInfo ι} (hs : info.SoundBut lost) (hle : frm ≤ upTo)
    {fuel : Nat} (hfuel : info.extents.numEls < fuel) (newExtent : ι) :
    ∃ info' list, mapExtentsBytind fuel obj newExtent info frm upTo
        adjustExtentsForDeletionMapper [] none adjustmentFlags = some (info', list) ∧
      info'.SoundBut (info.lostAt lost (obj.bytindToMemind frm)) ∧
      (info.extents.numEls ≠ 0 → info'.soe.pos = obj.bytindToMemind frm) ∧
      info'.heap = info.heap ∧ info'.ancestor = info.ancestor ∧
      info.extents.Alike info'.extents ∧ (∀ e ∈ list, e ∈ info.extents.byStart.els) ∧
      ∀ e ∈ info.extents.byStart.els, info.lostAt lost (obj.bytindToMemind frm) e = false →
        extentInRegionP obj info e frm upTo adjustmentFlags = true → e ∈ list := by
  by_cases hempty : info.extents.numEls = 0
  · have hnone : ∀ e, e ∉ info.extents.byStart.els := by
      rw [eq_nil_of_length_eq_zero hempty]
      exact fun e => not_mem_nil
    exact ⟨info, [], by rw [mapExtentsBytind, if_pos hempty],
      hs.congr fun e he => absurd he (hnone e), fun h => absurd hempty h, rfl, rfl, .refl _,
      fun e he => absurd he not_mem_nil, fun e he => absurd he (hnone e)⟩
  · obtain ⟨info', list, heq, ⟨hsound, hpos, hheap, hancestor, hels, hlist⟩, hmet⟩ :=
      (adjustMapper_treats (info.lostAt lost (obj.bytindToMemind frm))).mapping
        hs hle rfl rfl (fun h => by rcases h.1 with h | h <;> cases h)
        (fun h => by cases h.1) hempty []
        (fun sel hsel => ⟨lostAt_soundBut hsel, rfl, rfl, rfl, .refl _,
          fun e he => absurd he not_mem_nil⟩) hfuel newExtent
    exact ⟨info', list, heq, hsound, fun _ => hpos, hheap, hancestor, hels, hlist, hmet⟩

end listing

/-! ## Adjusting -/

/-- **The loop** maps the endpoints of the extents in the list. -/
theorem adjustListed_eq {f : Int → Int} (hmono : ∀ {x y}, x ≤ y → f x ≤ f y)
    (hnonneg : ∀ {x}, 0 ≤ x → 0 ≤ f x) (hidem : ∀ x, f (f x) = f x) (newsoe : Int) :
    ∀ (list : List ι) {info : ExtentInfo ι} {P : ι → Bool}, info.Holds P →
      (∀ e ∈ list, e ∈ info.extents.byStart.els) →
      (∀ e ∈ list, (info.heap e).map f ≠ info.heap e → P e = info.over info.soe.pos e) →
      ∃ info' P', adjustListed f info.soe.pos newsoe list info = some info' ∧ info'.Holds P' ∧
        (∀ e, e ∈ info'.extents.byStart.els ↔ e ∈ info.extents.byStart.els) ∧
        ∀ e, info'.heap e = if e ∈ list then (info.heap e).map f else info.heap e
  | [], info, P, hs, _, _ => ⟨info, P, rfl, hs, fun _ => Iff.rfl, fun _ => rfl⟩
  | e :: list, info, P, hs, hmem, hP => by
    have he := hmem e (mem_cons_self ..)
    rw [adjustListed]
    have hchanged : f (info.heap e).extentStart ≠ (info.heap e).extentStart ∨
        f (info.heap e).extentEnd ≠ (info.heap e).extentEnd ↔
        (info.heap e).map f ≠ info.heap e := by
      rw [← not_and_or, not_iff_not]
      constructor
      · rintro ⟨hstart, hend⟩
        rw [Extent.map, hstart, hend]
      · intro h
        exact ⟨congrArg Extent.extentStart h, congrArg Extent.extentEnd h⟩
    by_cases hsame : (info.heap e).map f = info.heap e
    · simp only [if_neg (mt hchanged.mp (not_not_intro hsame))]
      obtain ⟨info', P', heq, hs', hmem', hheap⟩ := adjustListed_eq hmono hnonneg hidem newsoe
        list hs (fun a ha => hmem a (mem_cons_of_mem e ha))
        fun a ha => hP a (mem_cons_of_mem e ha)
      refine ⟨info', P', heq, hs', hmem', fun a => ?_⟩
      rw [hheap a]
      by_cases hae : a = e
      · subst hae
        rw [hsame, ite_self, ite_self]
      · simp only [mem_cons, hae, false_or]
    · simp only [if_pos (hchanged.mpr hsame)]
      obtain ⟨hdetach, hattach, hs₁⟩ := hs.replace he (hP e (mem_cons_self ..) hsame)
        (hnonneg (hs.attached e he)) (hmono (hs.le e he)) newsoe
      have hheap₁ := info.heap_replaced e (f (info.heap e).extentStart)
        (f (info.heap e).extentEnd) newsoe
      have hmem₁ := fun a => ExtentInfo.mem_replaced hs.toSorted he
        (f (info.heap e).extentStart) (f (info.heap e).extentEnd) newsoe (a := a)
      rw [hdetach, Option.bind_some, hattach, Option.bind_some]
      generalize info.replaced e (f (info.heap e).extentStart) (f (info.heap e).extentEnd)
        newsoe = info₁ at hs₁ hheap₁ hmem₁
      have hself : info₁.heap e = (info.heap e).map f := by
        rw [hheap₁, update_self]
        rfl
      have hother : ∀ {a}, a ≠ e → info₁.heap a = info.heap a := fun hae => by
        rw [hheap₁, update_of_ne hae]
      have hagain : ((info.heap e).map f).map f = (info.heap e).map f := by
        simp only [Extent.map, hidem]
      have hs₂ : (info₁.atPos info.soe.pos).Holds _ := ⟨hs₁.toSorted.withSoe _, hs₁.soe⟩
      obtain ⟨info', P', heq, hs', hmem', hheap⟩ := adjustListed_eq hmono hnonneg hidem newsoe
        list hs₂ (fun a ha => (hmem₁ a).mpr (hmem a (mem_cons_of_mem e ha)))
        fun a ha hchanges => by
          have hchanges : (info₁.heap a).map f ≠ info₁.heap a := hchanges
          by_cases hae : a = e
          · -- what has been moved is where it should be
            subst hae
            rw [hself] at hchanges
            exact absurd hagain hchanges
          · rw [hother hae] at hchanges
            rw [update_of_ne hae, hP a (mem_cons_of_mem e ha) hchanges]
            show _ = (info₁.heap a).overlaps _
            rw [hother hae]
            rfl
      refine ⟨info', P', heq, hs', fun a => (hmem' a).trans (hmem₁ a), fun a => ?_⟩
      rw [hheap a]
      show (if a ∈ list then (info₁.heap a).map f else info₁.heap a) = _
      by_cases hae : a = e
      · subst hae
        rw [hself, hagain, ite_self, if_pos (mem_cons_self ..)]
      · rw [hother hae]
        simp only [mem_cons, hae, false_or]

end XEmacs.Extents

import XEmacs.Extents.Attach

/-!
# Extents under the motion of the gap (extents.c)

The endpoints of extents are memory indices, and are adjusted like markers when the gap is moved
over them (`adjust_extents`).
-/

namespace XEmacs.Extents

open Gap GapArrays KeyedLists List

variable {ι : Type} [DecidableEq ι]

def setExtentEndpoint (h : ι → Extent) (extent : ι) (val : Int) (endp : Bool) : ι → Extent :=
  let e := h extent
  Function.update h extent
    (if endp then { e with extentEnd := val } else { e with extentStart := val })

/-- The loop of `adjust_extents` over one array. -/
def adjustEndpoints (frm upTo amount : Int) (endp : Bool) :
    List ι → (ι → Extent) → (ι → Extent)
  | [], h => h
  | e :: els, h =>
    if upTo < (h e).endpoint endp then h
    else
      adjustEndpoints frm upTo amount endp els
        (setExtentEndpoint h e (doMarkerAdjustment ((h e).endpoint endp) frm upTo amount) endp)

def adjustExtents (info : ExtentInfo ι) (frm upTo amount : Int) : ExtentInfo ι :=
  if info.extents.numEls = 0 then info
  else
    -- both before any endpoint is changed
    let startpos endp := extentListLocateFromPos info.heap info.extents (frm + 1) endp
    let h := adjustEndpoints frm upTo amount false
      (info.extents.byStart.els.drop (startpos false)) info.heap
    let h := adjustEndpoints frm upTo amount true
      (info.extents.byEnd.els.drop (startpos true)) h
    let soe := info.soe
    { info with
      heap := h
      soe := if 0 ≤ soe.pos then
          { soe with pos := doMarkerAdjustment soe.pos frm upTo amount } else soe }

/-! ## Endpoints mapped -/

/-- An extent with one endpoint elsewhere. -/
def Extent.mapEnd (f : Int → Int) (endp : Bool) (e : Extent) : Extent :=
  if endp then { e with extentEnd := f e.extentEnd } else { e with extentStart := f e.extentStart }

/-- An extent with both endpoints elsewhere. -/
def Extent.map (f : Int → Int) (e : Extent) : Extent :=
  { e with extentStart := f e.extentStart, extentEnd := f e.extentEnd }

theorem Extent.endpoint_map (f : Int → Int) (e : Extent) (endp : Bool) :
    (e.map f).endpoint endp = f (e.endpoint endp) := by
  cases endp <;> rfl

/-- All extents of the list, and the SOE, elsewhere. -/
def ExtentInfo.mapEndpoints (info : ExtentInfo ι) (f : Int → Int) : ExtentInfo ι :=
  { info with
    heap := fun e => if e ∈ info.extents.byStart.els then (info.heap e).map f else info.heap e
    soe := { info.soe with pos := f info.soe.pos } }

section loops

variable {f : Int → Int} {frm upTo amount : Int} {endp : Bool}

theorem mapEnd_of_fixed {e : Extent} (h : f (e.endpoint endp) = e.endpoint endp) :
    e.mapEnd f endp = e := by
  cases endp with
  | false =>
    have h : f e.extentStart = e.extentStart := h
    simp only [Extent.mapEnd, Bool.false_eq_true, if_false, h]
  | true =>
    have h : f e.extentEnd = e.extentEnd := h
    simp only [Extent.mapEnd, if_true, h]

theorem mapEnd_congr {e : Extent} {g : Int → Int} (h : f (e.endpoint endp) = g (e.endpoint endp)) :
    e.mapEnd f endp = e.mapEnd g endp := by
  cases endp with
  | false =>
    have h : f e.extentStart = g e.extentStart := h
    simp only [Extent.mapEnd, Bool.false_eq_true, if_false, h]
  | true =>
    have h : f e.extentEnd = g e.extentEnd := h
    simp only [Extent.mapEnd, if_true, h]

theorem Extent.map_congr {e : Extent} {g : Int → Int} (hstart : f e.extentStart = g e.extentStart)
    (hend : f e.extentEnd = g e.extentEnd) : e.map f = e.map g := by
  rw [Extent.map, Extent.map, hstart, hend]

theorem setExtentEndpoint_eq (h : ι → Extent) (e : ι) (f : Int → Int) (endp : Bool) :
    setExtentEndpoint h e (f ((h e).endpoint endp)) endp
      = Function.update h e ((h e).mapEnd f endp) := by
  cases endp <;> rfl

theorem adjustEndpoints_eq (frm upTo amount : Int) (endp : Bool) :
    ∀ {els : List ι} {h : ι → Extent}, els.Nodup →
      els.Pairwise (fun a b => (h a).endpoint endp ≤ (h b).endpoint endp) →
      (∀ e ∈ els, upTo < (h e).endpoint endp → doMarkerAdjustment ((h e).endpoint endp) frm upTo
        amount = (h e).endpoint endp) →
      ∀ e, adjustEndpoints frm upTo amount endp els h e =
        if e ∈ els then (h e).mapEnd (fun x => doMarkerAdjustment x frm upTo amount) endp else h e
  | [], h, _, _, _, e => rfl
  | a :: els, h, hnodup, horder, hfixed, e => by
    obtain ⟨hne, hnodup⟩ := List.nodup_cons.mp hnodup
    obtain ⟨hbehind, horder⟩ := List.pairwise_cons.mp horder
    rw [adjustEndpoints]
    by_cases hstop : upTo < (h a).endpoint endp
    · rw [if_pos hstop]
      split
      · rename_i he
        have hle : (h a).endpoint endp ≤ (h e).endpoint endp := by
          obtain rfl | he := List.mem_cons.mp he
          · exact Int.le_refl _
          · exact hbehind e he
        exact (mapEnd_of_fixed (hfixed e he (Int.lt_of_lt_of_le hstop hle))).symm
      · rfl
    · have hsame : ∀ b ∈ els, setExtentEndpoint h a
          (doMarkerAdjustment ((h a).endpoint endp) frm upTo amount) endp b = h b :=
        fun b hb => by
          have hba : b ≠ a := fun hba => hne (hba ▸ hb)
          exact Function.update_of_ne hba ..
      rw [if_neg hstop, adjustEndpoints_eq frm upTo amount endp hnodup
        (horder.imp_of_mem fun {b c} hb hc hbc => by rwa [hsame b hb, hsame c hc])
        fun b hb => by
          rw [hsame b hb]
          exact hfixed b (mem_cons_of_mem a hb)]
      by_cases hea : e = a
      · subst hea
        rw [if_neg hne, if_pos (mem_cons_self ..), setExtentEndpoint_eq h e
          (fun x => doMarkerAdjustment x frm upTo amount), Function.update_self]
      · have hother : setExtentEndpoint h a
            (doMarkerAdjustment ((h a).endpoint endp) frm upTo amount) endp e = h e :=
          Function.update_of_ne hea ..
        simp only [hother, mem_cons, hea, false_or]

theorem adjustEndpoints_drop (endp : Bool) {el : ExtentList ι} {h h₀ : ι → Extent} (hordered : el.Ordered h₀)
    (hle : ∀ e ∈ el.byStart.els, (h₀ e).extentStart ≤ (h₀ e).extentEnd)
    (hsame : ∀ e, (h e).endpoint endp = (h₀ e).endpoint endp)
    (hbehind : ∀ e ∈ el.byStart.els, upTo < (h₀ e).endpoint endp →
      doMarkerAdjustment ((h₀ e).endpoint endp) frm upTo amount = (h₀ e).endpoint endp)
    (e : ι) :
    adjustEndpoints frm upTo amount endp
        ((el.array endp).els.drop (extentListLocateFromPos h₀ el (frm + 1) endp)) h e
      = if e ∈ el.byStart.els then (h e).mapEnd (fun x =>
          if frm < x then doMarkerAdjustment x frm upTo amount else x) endp
        else h e := by
  have hmem : ∀ {e}, e ∈ (el.array endp).els.drop
      (extentListLocateFromPos h₀ el (frm + 1) endp) → e ∈ el.byStart.els :=
    fun he => hordered.mem_array.mp (mem_of_mem_drop he)
  have hnodup : (el.array endp).els.Nodup := by
    cases endp with
    | false => exact hordered.nodup
    | true => exact hordered.nodup_byEnd
  have hpairwise : ((el.array endp).els.drop
      (extentListLocateFromPos h₀ el (frm + 1) endp)).Pairwise
        fun a b => (h a).endpoint endp ≤ (h b).endpoint endp :=
    ((hordered.array endp).sublist (drop_sublist ..)).imp fun {a b} hab => by
      rw [hsame, hsame]
      exact Extent.endpoint_le_of_key_le hab
  rw [adjustEndpoints_eq frm upTo amount endp (hnodup.sublist (drop_sublist ..)) hpairwise
    fun e he hlt => by
      rw [hsame] at hlt ⊢
      exact hbehind e (hmem he) hlt]
  by_cases he : e ∈ (el.array endp).els.drop (extentListLocateFromPos h₀ el (frm + 1) endp)
  · have hfrm : frm < (h e).endpoint endp := by
      rw [hordered.mem_drop endp _ hle] at he
      rw [hsame]
      omega
    rw [if_pos he, if_pos (hmem he)]
    refine mapEnd_congr ?_
    rw [if_pos hfrm]
  · rw [if_neg he]
    split
    · rename_i hin
      have hfrm : ¬ frm < (h e).endpoint endp := by
        rw [hordered.mem_drop endp _ hle] at he
        rw [hsame]
        exact fun hlt => he ⟨hin, by omega⟩
      refine (mapEnd_of_fixed ?_).symm
      rw [if_neg hfrm]
    · rfl

theorem adjustExtents_heap {info : ExtentInfo ι} (hs : info.Sorted)
    (hempty : info.extents.numEls ≠ 0) {frm upTo amount : Int}
    (hbehind : ∀ e ∈ info.extents.byStart.els, ∀ endp, upTo < (info.heap e).endpoint endp →
      doMarkerAdjustment ((info.heap e).endpoint endp) frm upTo amount
        = (info.heap e).endpoint endp) (e : ι) :
    (adjustExtents info frm upTo amount).heap e = if e ∈ info.extents.byStart.els then
        (info.heap e).map fun x => if frm < x then doMarkerAdjustment x frm upTo amount else x
      else info.heap e := by
  have hstart := adjustEndpoints_drop false hs.ordered hs.le (fun _ => rfl)
    fun e he => hbehind e he false
  have hend : ∀ e, (adjustEndpoints frm upTo amount false (info.extents.byStart.els.drop
      (extentListLocateFromPos info.heap info.extents (frm + 1) false)) info.heap e).endpoint true
        = (info.heap e).endpoint true := by
    intro e
    refine (congrArg (Extent.endpoint · true) (hstart e)).trans ?_
    split <;> rfl
  rw [adjustExtents, if_neg hempty]
  refine (adjustEndpoints_drop true hs.ordered hs.le hend
    (fun e he => hbehind e he true) e).trans ?_
  have hstart := hstart e
  by_cases he : e ∈ info.extents.byStart.els
  · rw [if_pos he] at hstart
    rw [if_pos he, if_pos he]
    refine (congrArg (Extent.mapEnd _ true) hstart).trans ?_
    rfl
  · rw [if_neg he] at hstart
    rw [if_neg he, if_neg he]
    exact hstart

/-- **The adjustment** maps the endpoints of all extents, those before and behind the range to
themselves. -/
theorem adjustExtents_eq {info : ExtentInfo ι} (hs : info.Sorted)
    (hempty : info.extents.numEls ≠ 0) {frm upTo amount : Int}
    (hfixed : ∀ e ∈ info.extents.byStart.els, ∀ endp,
      (info.heap e).endpoint endp ≤ frm ∨ upTo < (info.heap e).endpoint endp →
        doMarkerAdjustment ((info.heap e).endpoint endp) frm upTo amount
          = (info.heap e).endpoint endp)
    (hneg : ∀ x < 0, doMarkerAdjustment x frm upTo amount = x) :
    adjustExtents info frm upTo amount
      = info.mapEndpoints fun x => doMarkerAdjustment x frm upTo amount := by
  have hheap : ∀ e, (adjustExtents info frm upTo amount).heap e
      = if e ∈ info.extents.byStart.els then
          (info.heap e).map fun x => doMarkerAdjustment x frm upTo amount
        else info.heap e := by
    intro e
    rw [adjustExtents_heap hs hempty fun e he endp hlt => hfixed e he endp (Or.inr hlt)]
    split
    · rename_i he
      have hsame : ∀ endp, (if frm < (info.heap e).endpoint endp then
          doMarkerAdjustment ((info.heap e).endpoint endp) frm upTo amount
        else (info.heap e).endpoint endp)
          = doMarkerAdjustment ((info.heap e).endpoint endp) frm upTo amount := by
        intro endp
        split
        · rfl
        · rename_i hlt
          exact (hfixed e he endp (Or.inl (by omega))).symm
      exact Extent.map_congr (hsame false) (hsame true)
    · rfl
  have hsoe : (adjustExtents info frm upTo amount).soe
      = { info.soe with pos := doMarkerAdjustment info.soe.pos frm upTo amount } := by
    rw [adjustExtents, if_neg hempty]
    dsimp only
    split
    · rfl
    · rw [hneg _ (by omega)]
  have hfields : adjustExtents info frm upTo amount = { info with
      heap := (adjustExtents info frm upTo amount).heap
      soe := (adjustExtents info frm upTo amount).soe } := by
    rw [adjustExtents, if_neg hempty]
  rw [hfields, funext hheap, hsoe, ExtentInfo.mapEndpoints]

end loops

/-! ## What is kept -/

/-- No index gets before another that it was behind, nor does an endpoint get to one that was
before it. -/
structure ExtentInfo.Shifts (info : ExtentInfo ι) (f : Int → Int) : Prop where
  mono : ∀ {x y}, x ≤ y → f x ≤ f y
  lt : ∀ e ∈ info.extents.byStart.els, ∀ endp {x}, x < (info.heap e).endpoint endp →
    f x < f ((info.heap e).endpoint endp)
  nonneg : ∀ {x}, 0 ≤ x → 0 ≤ f x

namespace ExtentInfo

variable {info : ExtentInfo ι} {f g : Int → Int} {e : ι} {lost : ι → Bool}

theorem mapEndpoints_heap (f : Int → Int) (he : e ∈ info.extents.byStart.els) :
    (info.mapEndpoints f).heap e = (info.heap e).map f := if_pos he

omit [DecidableEq ι] in
theorem Shifts.le_iff (hf : info.Shifts f) (he : e ∈ info.extents.byStart.els) (endp : Bool)
    {y : Int} : f ((info.heap e).endpoint endp) ≤ f y ↔ (info.heap e).endpoint endp ≤ y :=
  ⟨fun h => Int.not_lt.mp fun hlt => Int.not_lt.mpr h (hf.lt e he endp hlt), hf.mono⟩

omit [DecidableEq ι] in
theorem Shifts.eq_iff (hf : info.Shifts f) {a b : ι} (ha : a ∈ info.extents.byStart.els)
    (hb : b ∈ info.extents.byStart.els) (endp : Bool) :
    f ((info.heap a).endpoint endp) = f ((info.heap b).endpoint endp)
      ↔ (info.heap a).endpoint endp = (info.heap b).endpoint endp := by
  rw [le_antisymm_iff, le_antisymm_iff, hf.le_iff ha, hf.le_iff hb]

omit [DecidableEq ι] in
theorem Shifts.key_le_iff (hf : info.Shifts f) {a b : ι} (ha : a ∈ info.extents.byStart.els)
    (hb : b ∈ info.extents.byStart.els) (endp : Bool) :
    ((info.heap a).map f).key endp ≤ ((info.heap b).map f).key endp
      ↔ (info.heap a).key endp ≤ (info.heap b).key endp := by
  rw [Extent.key_le_iff, Extent.key_le_iff, Extent.endpoint_map, Extent.endpoint_map,
    Extent.endpoint_map, Extent.endpoint_map, hf.eq_iff ha hb, hf.le_iff hb, ← not_le,
    hf.le_iff hb, not_le]

omit [DecidableEq ι] in
theorem Shifts.equal_iff (hf : info.Shifts f) {a b : ι} (ha : a ∈ info.extents.byStart.els)
    (hb : b ∈ info.extents.byStart.els) :
    ((info.heap a).map f).equal ((info.heap b).map f) = (info.heap a).equal (info.heap b) := by
  rw [Bool.eq_iff_iff, Extent.equal_iff false, Extent.equal_iff false, le_antisymm_iff,
    le_antisymm_iff, hf.key_le_iff ha hb, hf.key_le_iff hb ha]

theorem Sorted.mapEndpoints (hs : info.Sorted) (hf : info.Shifts f) :
    (info.mapEndpoints f).Sorted := by
  have hheap : ∀ {e}, e ∈ info.extents.byStart.els →
      (info.mapEndpoints f).heap e = (info.heap e).map f := fun he => mapEndpoints_heap f he
  have horder : ∀ endp, InOrder (keyOf (info.mapEndpoints f).heap endp)
      (info.extents.array endp).els := by
    intro endp
    refine (hs.ordered.array endp).imp_of_mem fun {a b} ha hb hab => ?_
    have ha := hs.ordered.mem_array.mp ha
    have hb := hs.ordered.mem_array.mp hb
    rw [keyOf, keyOf, hheap ha, hheap hb, hf.key_le_iff ha hb]
    exact hab
  refine ⟨ExtentList.Ordered.iff_ties.mpr ⟨horder false, horder true, hs.ordered.nodup,
    fun e => hs.ordered.mem_byEnd.mp, fun e he => ?_⟩, fun e he => ?_, fun e he => ?_⟩
  · have hequal : ∀ endp, (info.extents.array endp).els.filter
        (fun a => ((info.mapEndpoints f).heap a).equal ((info.mapEndpoints f).heap e))
        = (info.extents.array endp).els.filter fun a => (info.heap a).equal (info.heap e) := by
      intro endp
      refine filter_congr fun a ha => ?_
      have ha := hs.ordered.mem_array.mp ha
      rw [hheap ha, hheap he, hf.equal_iff ha he]
    exact (hequal true).trans ((hs.ordered.ties _).trans (congrArg _ (hequal false).symm))
  · rw [hheap he]
    exact hf.nonneg (hs.attached e he)
  · rw [hheap he]
    exact hf.mono (hs.le e he)

theorem over_mapEndpoints (hf : info.Shifts f) (he : e ∈ info.extents.byStart.els)
    (hover : info.over info.soe.pos e = true) :
    (info.mapEndpoints f).over (info.mapEndpoints f).soe.pos e = true := by
  have hover := info.over_iff.mp hover
  rw [over_iff, mapEndpoints_heap f he]
  exact ⟨hf.mono hover.1, hf.mono hover.2⟩

/-- **The SOE** holds what it held. -/
theorem SoundBut.mapEndpoints (hs : info.SoundBut lost) (hf : info.Shifts f) :
    (info.mapEndpoints f).SoundBut fun e => !(info.over info.soe.pos e && !lost e) := by
  refine ⟨hs.toSorted.mapEndpoints hf, hs.soe.congr hs.ordered fun e he => ?_⟩
  cases hover : info.over info.soe.pos e with
  | false => rw [Bool.false_and, Bool.not_not, Bool.and_false]
  | true => rw [over_mapEndpoints hf he hover, Bool.not_not, Bool.true_and, Bool.true_and]

theorem Shifts.end_eq (hf : info.Shifts f) (he : e ∈ info.extents.byStart.els)
    (hover : (info.mapEndpoints f).over (f info.soe.pos) e = true)
    (hnot : info.over info.soe.pos e = false) :
    (info.heap e).extentEnd < info.soe.pos ∧ f (info.heap e).extentEnd = f info.soe.pos := by
  rw [over_iff, mapEndpoints_heap f he] at hover
  rcases (info.over_eq_false_iff _ _).mp hnot with hlt | hlt
  · exact absurd hover.1 (Int.not_le.mpr (hf.lt e he false hlt))
  · exact ⟨hlt, Int.le_antisymm (hf.mono (Int.le_of_lt hlt)) hover.2⟩

end ExtentInfo

end XEmacs.Extents

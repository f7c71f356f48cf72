import XEmacs.Extents.MapStages

/-!
# Mapping over extents as a scan (extents.c)

A scan of the whole list finds the extents that overlap the region and follow AFTER.
-/

namespace XEmacs.Extents

open GapArrays KeyedLists

variable {ι α : Type} [DecidableEq ι]

/-! ## Functions that leave the extents alone -/

/-- What a function that is called sees: the extents as they were, but for the range extent. -/
structure ExtentInfo.Shows (info : ExtentInfo ι) (newExtent : ι) (info' : ExtentInfo ι) :
    Prop where
  heap : ∀ e, e ≠ newExtent → info'.heap e = info.heap e
  ancestor : ∀ e, e ≠ newExtent → info'.ancestor e = info.ancestor e
  extents : ∀ endp, (info'.extents.array endp).els.filter (· != newExtent)
    = (info.extents.array endp).els

/-- The function does not modify extents or text: it returns what `f` says, and may move the SOE
if the flags say so. -/
def Reads (fn : MapFun ι α) (f : ι → α → α × Bool) (info : ExtentInfo ι) (newExtent : ι)
    (flags : MapFlags) : Prop :=
  ∀ e ∈ info.extents.byStart.els, ∀ info', info.Shows newExtent info' → info'.Sound →
    ∀ arg, ∃ soe, fn e info' arg = some ({ info' with soe := soe }, f e arg) ∧
      ExtentInfo.Sound { info' with soe := soe } ∧
      (flags.mightMoveSoe = false → soe = info'.soe)

/-- No extent has the name yet. -/
structure ExtentInfo.Fresh (info : ExtentInfo ι) (newExtent : ι) : Prop where
  notMem : newExtent ∉ info.extents.byStart.els
  ancestor : ∀ e ∈ info.extents.byStart.els, info.ancestor e ≠ newExtent

omit [DecidableEq ι] in
theorem ExtentInfo.Fresh.ne {info : ExtentInfo ι} {newExtent e : ι} (hnew : info.Fresh newExtent)
    (he : e ∈ info.extents.byStart.els) : e ≠ newExtent := by
  rintro rfl
  exact hnew.notMem he

/-! ## The whole mapping -/

section mapping

variable {obj : BufferOrString} {fn : MapFun ι α} {flags : MapFlags} {info : ExtentInfo ι}
  {frm upTo : Nat} {after : Option ι} {f : ι → α → α × Bool} {fuel : Nat} {newExtent : ι}

theorem mapVisits_empty (hs : info.Sound) (hempty : info.extents.numEls = 0) :
    mapVisits obj flags none info frm upTo after = [] := by
  have hstart : info.extents.byStart.els = [] := List.eq_nil_of_length_eq_zero hempty
  have hend : info.extents.byEnd.els = [] := by
    have hperm := hs.ordered.perm
    rw [hstart] at hperm
    exact hperm.eq_nil
  rw [mapVisits, hstart, hend]
  split <;> rfl

/-- **A mapping without a range extent.** -/
theorem mapExtentsBytind_plain (newExtent : ι) (hs : info.Sound) (after : Option ι) (arg : α)
    (hle : frm ≤ upTo)
    (htext : flags.mightModifyText = false)
    (hcalls : ∀ soe, ExtentInfo.Sound { info with soe := soe } →
      MapLoop.Calls ⟨obj, fn, flags, none, true, false, none⟩ { info with soe := soe } f)
    (hfuel : info.extents.numEls < fuel) :
    ∃ soe info', mapExtentsBytind fuel obj newExtent info frm upTo fn arg after flags
        = some (info', (runUntil f arg (mapVisits obj flags none info frm upTo after)).1) ∧
      ExtentInfo.Steady flags { info with soe := soe } info' ∧
      (info.extents.numEls ≠ 0 → ¬ flags.ByStart → ¬ flags.ByEnd →
        soe.pos = obj.bytindToMemind frm) := by
  rw [mapExtentsBytind]
  by_cases hempty : info.extents.numEls = 0
  · rw [if_pos hempty, mapVisits_empty hs hempty]
    exact ⟨info.soe, info, rfl, steady_refl hs, fun h => absurd hempty h⟩
  · obtain ⟨soe, plan, s', hplan, hstages, hsteady, harg, hpos⟩ :=
      planned_stages hs after arg (obj.bytindToMemind_mono hle) hcalls
        (fun _ h => nomatch h) hfuel
    rw [if_neg hempty]
    simp only [htext, Bool.false_eq_true, if_false, Option.elim_none]
    rw [Option.bind_some, hplan, Option.bind_some, hstages, Option.bind_some, Option.map_some,
      harg]
    exact ⟨soe, s'.info, rfl, hsteady, fun _ => hpos⟩

/-! ### With a range extent -/

/-- The extents with the range extent, not attached yet. -/
def withRange (info : ExtentInfo ι) (range : ι) (e : Extent) : ExtentInfo ι :=
  { info with
    heap := Function.update info.heap range e
    ancestor := Function.update info.ancestor range range }

theorem withRange_heap {e : ι} {r : Extent} (hne : e ≠ newExtent) :
    (withRange info newExtent r).heap e = info.heap e :=
  Function.update_of_ne hne ..

theorem withRange_ancestor {e : ι} {r : Extent} (hne : e ≠ newExtent) :
    (withRange info newExtent r).ancestor e = info.ancestor e :=
  Function.update_of_ne hne ..

theorem withRange_sound (hs : info.Sound) (hnew : info.Fresh newExtent) (r : Extent) :
    (withRange info newExtent r).Sound := by
  have hheap : ExtentInfo.Sound { info with heap := (withRange info newExtent r).heap } :=
    hs.withHeap fun a ha => by
      rw [withRange_heap (hnew.ne ha)]
      exact ⟨rfl, rfl⟩
  exact ⟨⟨hheap.ordered, hheap.attached, hheap.le⟩, hheap.soe⟩

theorem attached_shows (hs : info.Sound) (hnew : info.Fresh newExtent) (r : Extent) :
    info.Shows newExtent ((withRange info newExtent r).attached newExtent) := by
  have hsound := withRange_sound hs hnew r
  refine ⟨fun e hne => withRange_heap (r := r) hne, fun e hne => withRange_ancestor (r := r) hne,
    fun endp => ?_⟩
  have hself : (newExtent != newExtent) = false := bne_self_eq_false _
  have hothers : ∀ a ∈ (info.extents.array endp).els, (a != newExtent) = true :=
    fun a ha => bne_iff_ne.mpr (hnew.ne (hs.ordered.mem_array.mp ha))
  cases endp with
  | false =>
    obtain ⟨l₁, l₂, hl, hl', -, -⟩ := ExtentList.inserted_byStart hsound.ordered.byStart newExtent
    refine (congrArg _ hl').trans ((ExtentList.filter_middle (P := (· != newExtent)) hself).trans ?_)
    rw [← hl]
    exact List.filter_eq_self.mpr hothers
  | true =>
    obtain ⟨l₁, l₂, hl, hl', -, -⟩ := ExtentList.inserted_byEnd hsound.ordered.byEnd newExtent
    refine (congrArg _ hl').trans ((ExtentList.filter_middle (P := (· != newExtent)) hself).trans ?_)
    rw [← hl]
    exact List.filter_eq_self.mpr hothers

theorem ExtentInfo.Shows.filter {info' : ExtentInfo ι}
    (hshow : info.Shows newExtent info') {P Q : ι → Bool} (hself : Q newExtent = false)
    (hs : info.Sound) (hPQ : ∀ a ∈ info.extents.byStart.els, Q a = P a) (endp : Bool) :
    (info'.extents.array endp).els.filter Q = (info.extents.array endp).els.filter P := by
  rw [← List.filter_congr fun a ha => hPQ a (hs.ordered.mem_array.mp ha), ← hshow.extents endp,
    List.filter_filter]
  refine List.filter_congr fun a _ => ?_
  by_cases hae : a = newExtent
  · rw [hae, hself, Bool.false_and]
  · rw [bne_iff_ne.mpr hae, Bool.and_true]

/-- The range extent is not called, and makes no difference to the others. -/
theorem ExtentInfo.Shows.mapVisits {info' : ExtentInfo ι} (hshow : info.Shows newExtent info')
    (hs : info.Sound) (hnew : info.Fresh newExtent)
    (hinternal : info'.internalP newExtent = true)
    (hafter : ∀ a, after = some a → a ∈ info.extents.byStart.els) :
    mapVisits obj flags (some newExtent) info' frm upTo after
      = mapVisits obj flags none info frm upTo after := by
  have hheap : ∀ {a : ι}, a ∈ info.extents.byStart.els → info'.heap a = info.heap a :=
    fun ha => hshow.heap _ (hnew.ne ha)
  have hflags : ∀ {a : ι}, a ∈ info.extents.byStart.els →
      info'.heap (info'.ancestor a) = info.heap (info.ancestor a) := fun {a} ha => by
    rw [hshow.ancestor a (hnew.ne ha), hshow.heap _ (hnew.ancestor a ha)]
  have hskip : ∀ {a : ι}, a ∈ info.extents.byStart.els →
      (info'.internalP a && (!flags.includeInternal || some a == some newExtent))
        = (info.internalP a && (!flags.includeInternal || some a == none)) := fun {a} ha => by
    have hsome : (some a == some newExtent) = false :=
      beq_eq_false_iff_ne.mpr fun h => hnew.ne ha (Option.some.inj h)
    rw [internalP, hflags ha, hsome]
    rfl
  have hself : (!(info'.internalP newExtent && (!flags.includeInternal ||
      some newExtent == some newExtent))) = false := by
    rw [hinternal, beq_self_eq_true, Bool.or_true]
    rfl
  have hfollows : ∀ {a : ι}, a ∈ info.extents.byStart.els →
      info'.follows after a = info.follows after a := fun {a} ha => by
    cases after with
    | none => rfl
    | some x =>
      rw [follows, follows, Option.all_some, Option.all_some, hheap (hafter x rfl), hheap ha]
  have hregion : ∀ {a : ι}, a ∈ info.extents.byStart.els →
      extentInRegionP obj info' a frm upTo flags = extentInRegionP obj info a frm upTo flags :=
    fun {a} ha => inRegion_congr (hheap ha) (hflags ha) obj frm upTo flags
  by_cases hend : flags.ByEnd
  · rw [Extents.mapVisits, Extents.mapVisits, if_pos hend, if_pos hend]
    have hels : info'.extents.byEnd.els.filter (fun e =>
          !(info'.internalP e && (!flags.includeInternal || some e == some newExtent)) &&
            !decide ((info'.heap e).extentEnd < obj.bytindToMemind frm))
        = info.extents.byEnd.els.filter fun e =>
          !(info.internalP e && (!flags.includeInternal || some e == none)) &&
            !decide ((info.heap e).extentEnd < obj.bytindToMemind frm) :=
      hshow.filter (by rw [hself, Bool.false_and]) hs
        (fun a ha => by rw [hskip ha, hheap ha]) true
    have hmem : ∀ {P : ι → Bool} {a : ι}, a ∈ info.extents.byEnd.els.filter P →
        a ∈ info.extents.byStart.els := fun ha => hs.ordered.mem_byEnd.mp (List.mem_of_mem_filter ha)
    rw [hels, dropWhile_congr fun a ha => by rw [hfollows (hmem ha)]]
    exact List.filter_congr fun a ha => hregion (hmem ((List.dropWhile_sublist _).mem ha))
  · rw [Extents.mapVisits, Extents.mapVisits, if_neg hend, if_neg hend]
    refine hshow.filter ?_ hs (fun a ha => ?_) false
    · rw [wanted, hself, Bool.false_and, Bool.false_and]
    · rw [wanted, wanted, hskip ha, hfollows ha, hregion ha]

theorem ExtentInfo.Shows.steady {info₁ info' : ExtentInfo ι}
    {soe : StackOfExtents ι} (hshow : info.Shows newExtent info₁)
    (hsteady : ExtentInfo.Steady flags { info₁ with soe := soe } info') :
    info.Shows newExtent info' := by
  refine ⟨fun e hne => ?_, fun e hne => ?_, fun endp => ?_⟩
  · rw [hsteady.heap]
    exact hshow.heap e hne
  · rw [hsteady.ancestor]
    exact hshow.ancestor e hne
  · rw [hsteady.extents endp]
    exact hshow.extents endp

theorem ExtentInfo.Shows.mem {info' : ExtentInfo ι} {e : ι}
    (hshow : info.Shows newExtent info')
    (he : e ∈ info'.extents.byStart.els) (hne : e ≠ newExtent) : e ∈ info.extents.byStart.els := by
  have hels : info'.extents.byStart.els.filter (· != newExtent) = info.extents.byStart.els :=
    hshow.extents false
  rw [← hels]
  exact List.mem_filter.mpr ⟨he, bne_iff_ne.mpr hne⟩

theorem Reads.calls {info₁ : ExtentInfo ι} {range : Option ι} {soe : StackOfExtents ι}
    (hreads : Reads fn f info newExtent flags) (hshow : info.Shows newExtent info₁)
    (hne : ∀ e ∈ info₁.extents.byStart.els,
      (info₁.internalP e && (!flags.includeInternal || some e == range)) = false →
        e ≠ newExtent) :
    MapLoop.Calls ⟨obj, fn, flags, range, true, false, none⟩ { info₁ with soe := soe } f := by
  intro e he hskip info' hsteady arg
  obtain ⟨soe', heq, hsound, hsoe⟩ := hreads e (hshow.mem he (hne e he hskip)) info'
    (hshow.steady hsteady) hsteady.sound arg
  refine ⟨soe', heq, ⟨hsteady.heap, hsteady.ancestor, hsteady.extents, hsound, fun hmove => ?_⟩,
    hsoe⟩
  show soe'.pos = soe.pos
  rw [hsoe hmove]
  exact hsteady.pos hmove

/-- **The mapping** calls the function on the visits, until it says to stop. -/
theorem mapExtentsBytind_visits (obj : BufferOrString) (hs : info.Sound)
    (hnew : info.Fresh newExtent)
    (hafter : ∀ a, after = some a → a ∈ info.extents.byStart.els) (hle : frm ≤ upTo)
    (hreads : Reads fn f info newExtent flags) (arg : α) (hfuel : info.extents.numEls + 1 < fuel) :
    ∃ info', mapExtentsBytind fuel obj newExtent info frm upTo fn arg after flags
      = some (info', (runUntil f arg (mapVisits obj flags none info frm upTo after)).1) := by
  cases htext : flags.mightModifyText with
  | false =>
    have hshow : info.Shows newExtent info := by
      refine ⟨fun _ _ => rfl, fun _ _ => rfl, fun endp => List.filter_eq_self.mpr fun a ha => ?_⟩
      exact bne_iff_ne.mpr (hnew.ne (hs.ordered.mem_array.mp ha))
    obtain ⟨soe, info', heq, -, -⟩ := mapExtentsBytind_plain newExtent hs after arg hle htext
      (fun soe _ => hreads.calls hshow fun e he _ => hnew.ne he) (Nat.lt_of_succ_lt hfuel)
    exact ⟨info', heq⟩
  | true =>
    rw [mapExtentsBytind]
    by_cases hempty : info.extents.numEls = 0
    · rw [if_pos hempty, mapVisits_empty hs hempty]
      exact ⟨info, rfl⟩
    rw [if_neg hempty]
    generalize hr : (⟨obj.bytindToMemind frm, obj.bytindToMemind upTo, flags.startOpen,
      !flags.endClosed, false, true⟩ : Extent) = r
    have hself : (withRange info newExtent r).heap newExtent = r := Function.update_self ..
    obtain ⟨hattach, hsound⟩ := (withRange_sound hs hnew r).attach hnew.notMem
      (by
        rw [hself, ← hr]
        exact obj.bytindToMemind_nonneg frm)
      (by
        rw [hself, ← hr]
        exact obj.bytindToMemind_mono hle)
    have hshow := attached_shows hs hnew r
    generalize hinfo₁ : (withRange info newExtent r).attached newExtent = info₁
      at hattach hsound hshow
    have hheap : info₁.heap newExtent = r := by
      rw [← hinfo₁]
      exact hself
    have hinternal : info₁.internalP newExtent = true := by
      rw [← hinfo₁]
      show (Function.update info.heap newExtent r
        (Function.update info.ancestor newExtent newExtent newExtent)).internal = true
      rw [Function.update_self, Function.update_self, ← hr]
    have hmem : newExtent ∈ info₁.extents.byStart.els := by
      rw [← hinfo₁]
      exact (ExtentList.mem_inserted (withRange_sound hs hnew r).ordered).mpr (Or.inl rfl)
    have hnum : info₁.extents.numEls < fuel := by
      have hperm : info₁.extents.byStart.els.Perm (newExtent :: info.extents.byStart.els) := by
        obtain ⟨l₁, l₂, hl, hl', -, -⟩ := ExtentList.inserted_byStart
          (withRange_sound hs hnew r).ordered.byStart newExtent
        have hl : info.extents.byStart.els = l₁ ++ l₂ := hl
        rw [← hinfo₁, hl]
        exact (List.Perm.of_eq hl').trans List.perm_middle
      rw [ExtentList.numEls, hperm.length_eq]
      exact hfuel
    have hskip : ∀ e ∈ info₁.extents.byStart.els,
        (info₁.internalP e && (!flags.includeInternal || some e == some newExtent)) = false →
          e ≠ newExtent := by
      rintro e - hskip rfl
      rw [hinternal, beq_self_eq_true, Bool.or_true] at hskip
      cases hskip
    obtain ⟨soe, plan, s', hplan, hstages, hsteady, harg, -⟩ := planned_stages hsound after arg
      (obj.bytindToMemind_mono hle) (fun soe _ => hreads.calls hshow hskip) (fun x hx => by
        obtain rfl := Option.some.inj hx
        rw [hheap, ← hr]
        exact ⟨rfl, rfl⟩) hnum
    obtain ⟨hdetach, -⟩ := hsteady.sound.detach (hsteady.extents.mem.mpr hmem)
    have hrange : attachRange info newExtent (obj.bytindToMemind frm) (obj.bytindToMemind upTo)
        flags = some info₁ := by
      rw [← hattach, ← hr]
      rfl
    simp only [htext, if_true, Option.elim_some]
    rw [hrange, Option.bind_some, hplan, Option.bind_some, hstages, Option.bind_some, hdetach,
      Option.map_some, harg, hshow.mapVisits hs hnew hinternal hafter]
    exact ⟨_, rfl⟩

end mapping

/-! ## The scan -/

/-- A scan of the whole list: the extents that the mapping sees, that overlap the region as the
flags say and that follow AFTER, in the display order. -/
def mapScan (obj : BufferOrString) (flags : MapFlags) (info : ExtentInfo ι) (frm upTo : Nat)
    (after : Option ι) : List ι :=
  info.extents.byStart.els.filter fun e =>
    info.seen flags e && info.follows after e && extentInRegionP obj info e frm upTo flags

/-- The mapping calls a function that modifies nothing on what the scan finds, each extent once,
and in the order of the scan if neither `ME_END_IN_REGION` nor `ME_MIGHT_MOVE_SOE` is given. -/
def MapsAsScan (obj : BufferOrString) (flags : MapFlags) (newExtent : ι) (info : ExtentInfo ι)
    (frm upTo : Nat) (after : Option ι) : Prop :=
  ∀ (α : Type) (fn : MapFun ι α) (f : ι → α → α × Bool), Reads fn f info newExtent flags →
    ∃ visits : List ι, visits.Perm (mapScan obj flags info frm upTo after) ∧
      (flags.inRegion ≠ some .stop → flags.mightMoveSoe = false →
        visits = mapScan obj flags info frm upTo after) ∧
      ∀ arg fuel, info.extents.numEls + 1 < fuel → ∃ info',
        mapExtentsBytind fuel obj newExtent info frm upTo fn arg after flags
          = some (info', (runUntil f arg visits).1)

/-- Where the mapping goes by the ends of the extents, no extent in the region that does not
follow AFTER ends behind one that does, is seen and ends at the start of the region or behind
it. -/
def AfterRespected (obj : BufferOrString) (flags : MapFlags) (info : ExtentInfo ι)
    (frm upTo : Nat) (after : Option ι) : Prop :=
  flags.ByEnd → info.extents.byEnd.els.Pairwise fun a b =>
    (info.seen flags a && !decide ((info.heap a).extentEnd < obj.bytindToMemind frm)) = true →
      info.follows after a = true → info.seen flags b = true →
        extentInRegionP obj info b frm upTo flags = true → info.follows after b = true

omit [DecidableEq ι] in
instance (obj : BufferOrString) (flags : MapFlags) (info : ExtentInfo ι) (frm upTo : Nat)
    (after : Option ι) : Decidable (AfterRespected obj flags info frm upTo after) :=
  inferInstanceAs (Decidable (_ → List.Pairwise _ _))

section scan

variable {obj : BufferOrString} {flags : MapFlags} {info : ExtentInfo ι} {frm upTo : Nat}
  {after : Option ι} {newExtent : ι}

theorem seen_eq (info : ExtentInfo ι) (flags : MapFlags) (e : ι) :
    (!(info.internalP e && (!flags.includeInternal || some e == none))) = info.seen flags e := by
  rw [ExtentInfo.seen, show (some e == none) = false from rfl, Bool.or_false, Bool.not_and,
    Bool.not_not, Bool.or_comm]

theorem wanted_eq (obj : BufferOrString) (flags : MapFlags) (info : ExtentInfo ι)
    (frm upTo : Nat) (after : Option ι) :
    wanted obj flags none info frm upTo after = fun e =>
      info.seen flags e && info.follows after e && extentInRegionP obj info e frm upTo flags := by
  funext e
  rw [wanted, seen_eq]

/-- **The visits are those of the scan** exactly if AFTER is respected. -/
theorem mapVisits_perm_iff (hs : info.Sound) :
    (mapVisits obj flags none info frm upTo after).Perm (mapScan obj flags info frm upTo after) ↔
      AfterRespected obj flags info frm upTo after := by
  by_cases hend : flags.ByEnd
  · -- what is in the region does not end before it
    have hstop : ∀ {e : ι}, extentInRegionP obj info e frm upTo flags = true →
        (!decide ((info.heap e).extentEnd < obj.bytindToMemind frm)) = true := fun hin => by
      rw [decide_eq_false (Int.not_lt.mpr (inRegion_overlaps hin).2)]
      rfl
    have hscan : (mapScan obj flags info frm upTo after).Perm ((info.extents.byEnd.els.filter
        fun e => info.seen flags e &&
          !decide ((info.heap e).extentEnd < obj.bytindToMemind frm)).filter
        fun e => info.follows after e && extentInRegionP obj info e frm upTo flags) := by
      refine (hs.ordered.perm.symm.filter _).trans (.of_eq ?_)
      rw [List.filter_filter]
      refine List.filter_congr fun e _ => ?_
      cases hin : extentInRegionP obj info e frm upTo flags with
      | false => rw [Bool.and_false, Bool.and_false, Bool.false_and]
      | true => rw [hstop hin, Bool.and_true, Bool.and_true, Bool.and_true, Bool.and_comm]
    simp only [mapVisits, if_pos hend, seen_eq]
    rw [hscan.congr_right, dropWhile_perm_iff, List.pairwise_filter, AfterRespected,
      forall_prop_of_true hend]
    refine List.Pairwise.iff fun {a b} => ?_
    constructor
    · intro h ha hqa hb hin
      exact h ha (by rw [hb, hstop hin]; rfl) hqa hin
    · intro h ha hb hqa hin
      exact h ha hqa (Bool.and_eq_true .. ▸ hb).1 hin
  · rw [mapVisits, if_neg hend, wanted_eq]
    exact iff_of_true (.refl _) fun h => absurd h hend

/-- A function that writes down what it is called on. -/
def record : MapFun ι (List ι) := fun e info calls => some (info, calls ++ [e], false)

omit [DecidableEq ι] in
theorem runUntil_record (els : List ι) :
    ∀ calls : List ι, runUntil (fun e calls => (calls ++ [e], false)) calls els
      = (calls ++ els, false) := by
  induction els with
  | nil => exact fun calls => congrArg (·, false) (List.append_nil calls).symm
  | cons e els ih =>
    intro calls
    rw [runUntil, if_neg Bool.false_ne_true, ih, List.append_assoc]
    rfl

theorem MapsAsScan.visits (hs : info.Sound) (hnew : info.Fresh newExtent)
    (hafter : ∀ a, after = some a → a ∈ info.extents.byStart.els) (hle : frm ≤ upTo)
    (hmaps : MapsAsScan obj flags newExtent info frm upTo after) :
    (mapVisits obj flags none info frm upTo after).Perm
      (mapScan obj flags info frm upTo after) := by
  have hreads : Reads record (fun e calls => (calls ++ [e], false)) info newExtent flags :=
    fun e _ info' _ hsound calls => ⟨info'.soe, rfl, hsound, fun _ => rfl⟩
  obtain ⟨visits, hperm, -, hresult⟩ := hmaps (List ι) record _ hreads
  obtain ⟨info₁, heq₁⟩ := hresult [] (info.extents.numEls + 2) (Nat.lt_succ_self _)
  obtain ⟨info₂, heq₂⟩ := mapExtentsBytind_visits obj hs hnew hafter hle hreads []
    (Nat.lt_succ_self (info.extents.numEls + 1))
  have hsame := congrArg Prod.snd (Option.some.inj (heq₁.symm.trans heq₂))
  rw [runUntil_record, runUntil_record] at hsame
  have hvisits : visits = mapVisits obj flags none info frm upTo after := hsame
  rwa [← hvisits]

/-- **Mapping is scanning**, for every region, all flags and every function that leaves the
extents and the text alone, exactly if AFTER is respected. -/
theorem maps_as_scan_iff (obj : BufferOrString) (flags : MapFlags) (newExtent : ι)
    (info : ExtentInfo ι) (frm upTo : Nat) (after : Option ι) (hs : info.Sound)
    (hnew : info.Fresh newExtent) (hafter : ∀ a, after = some a → a ∈ info.extents.byStart.els)
    (hle : frm ≤ upTo) :
    MapsAsScan obj flags newExtent info frm upTo after ↔
      AfterRespected obj flags info frm upTo after := by
  rw [← mapVisits_perm_iff hs]
  refine ⟨MapsAsScan.visits hs hnew hafter hle, fun hperm α fn f hreads => ?_⟩
  refine ⟨_, hperm, fun hflag _ => ?_, fun arg fuel hfuel =>
    mapExtentsBytind_visits obj hs hnew hafter hle hreads arg hfuel⟩
  rw [mapVisits, if_neg fun hend => hflag hend.1, wanted_eq]
  rfl

end scan

/-! ### The ends of extents, with AFTER -/

/-- AFTER, an extent behind it and one around both of them, in a string. -/
def nestedExtents : ExtentInfo (Fin 5) where
  heap e :=
    if e = 0 then ⟨5, 6, false, true, true, false⟩
    else if e = 1 then ⟨6, 7, false, true, true, false⟩
    else ⟨1, 8, false, true, true, false⟩
  ancestor := id
  extents := ⟨⟨[2, 0, 1], []⟩, ⟨[0, 1, 2], []⟩⟩
  soe := ⟨⟨⟨[], []⟩, ⟨[], []⟩⟩, -1⟩

/-- `ME_END_IN_REGION | ME_END_CLOSED`. -/
def endInRegion : MapFlags :=
  ⟨true, false, none, some .stop, false, false, false, false, false⟩

/-- The extent around AFTER starts before it, and is called. -/
theorem nestedExtents_not_maps_as_scan :
    ¬ MapsAsScan (.string 10) endInRegion 3 nestedExtents 0 10 (some 0) := by
  intro hmaps
  have hperm := hmaps.visits (by decide) ⟨by decide, by decide⟩ (by decide) (by decide)
  have hvisited : 2 ∈ mapVisits (.string 10) endInRegion none nestedExtents 0 10 (some 0) := by
    decide
  exact absurd (hperm.mem_iff.mp hvisited) (by decide)

/-- In a region that it ends behind, it is not. -/
theorem nestedExtents_maps_as_scan_iff :
    MapsAsScan (.string 10) endInRegion 3 nestedExtents 0 7 (some 0) :=
  (maps_as_scan_iff (.string 10) endInRegion 3 nestedExtents 0 7 (some 0) (by decide)
    ⟨by decide, by decide⟩ (by decide) (by decide)).mpr (by decide)

end XEmacs.Extents

import XEmacs.Extents.MapVisits

/-!
# The stages of `map_extents` (extents.c)

The extents that a mapping is to call its function on are divided over two stages, as the flags
plan it. In the display order both together go through what is wanted of the whole list
(`SoePlan.mapStages`).
-/

namespace XEmacs.Extents

open GapArrays KeyedLists

variable {ι α : Type}

/-! ## The region -/

section region

variable {obj : BufferOrString} {info : ExtentInfo ι} {e : ι} {frm upTo : Nat} {flags : MapFlags}

theorem memindToStartind_le (x : Int) (o : Bool) :
    2 * x ≤ memindToStartind x o ∧ memindToStartind x o ≤ 2 * x + 1 := by
  cases o <;> simp only [memindToStartind, if_true, Bool.false_eq_true, if_false] <;> omega

theorem le_memindToEndind (x : Int) (o : Bool) :
    2 * x - 1 ≤ memindToEndind x o ∧ memindToEndind x o ≤ 2 * x := by
  cases o <;> simp only [memindToEndind, if_true, Bool.false_eq_true, if_false] <;> omega

theorem inRegion_overlaps (hin : extentInRegionP obj info e frm upTo flags = true) :
    (info.heap e).extentStart ≤ obj.bytindToMemind upTo ∧
      obj.bytindToMemind frm ≤ (info.heap e).extentEnd := by
  simp only [extentInRegionP] at hin
  split at hin
  · cases hin
  rename_i hnot
  rw [not_or, Int.not_lt, Int.not_lt] at hnot
  have hexs := memindToStartind_le (info.heap e).extentStart (openness info e flags.allExtents).1
  have hexe := le_memindToEndind (info.heap e).extentEnd (openness info e flags.allExtents).2
  have hst := memindToStartind_le (obj.bytindToMemind frm) (flags.startOpen && frm != upTo)
  have hen := le_memindToEndind (obj.bytindToMemind upTo) !(flags.endClosed || frm == upTo)
  omega

theorem inRegion_start (hin : extentInRegionP obj info e frm upTo flags = true)
    (hflag : flags.inRegion = some .start ∨ flags.inRegion = some .startAndStop)
    (hneg : flags.negateInRegion = false) :
    obj.bytindToMemind frm ≤ (info.heap e).extentStart := by
  simp only [extentInRegionP, hneg] at hin
  split at hin
  · cases hin
  have hexs := memindToStartind_le (info.heap e).extentStart (openness info e flags.allExtents).1
  have hst := memindToStartind_le (obj.bytindToMemind frm) (flags.startOpen && frm != upTo)
  rcases hflag with hflag | hflag
  all_goals
    simp only [hflag, Bool.false_eq_true, if_false, Bool.and_eq_true, decide_eq_true_eq] at hin
    omega

theorem inRegion_stop (hin : extentInRegionP obj info e frm upTo flags = true)
    (hflag : flags.inRegion = some .stop) (hneg : flags.negateInRegion = false) :
    (info.heap e).extentEnd ≤ obj.bytindToMemind upTo := by
  simp only [extentInRegionP, hneg, hflag] at hin
  split at hin
  · cases hin
  simp only [Bool.false_eq_true, if_false, Bool.and_eq_true, decide_eq_true_eq] at hin
  have hexe := le_memindToEndind (info.heap e).extentEnd (openness info e flags.allExtents).2
  have hen := le_memindToEndind (obj.bytindToMemind upTo) !(flags.endClosed || frm == upTo)
  omega

end region

/-! ## The stages together -/

section stages

variable [DecidableEq ι] {c : MapLoop ι α} {info : ExtentInfo ι} {frm upTo : Nat}
  {after : Option ι} {els : List ι}

/-- The mapping is to call the function on the extent. -/
def wanted (obj : BufferOrString) (flags : MapFlags) (range : Option ι) (info : ExtentInfo ι)
    (frm upTo : Nat) (after : Option ι) (e : ι) : Bool :=
  !(info.internalP e && (!flags.includeInternal || some e == range)) &&
    info.follows after e && extentInRegionP obj info e frm upTo flags

omit [DecidableEq ι] in
theorem initial_not_follows (info : ExtentInfo ι) (after : Option ι) :
    Initial (keyOf info.heap false) fun e => !info.follows after e := by
  intro a b hab hb
  cases after with
  | none => exact hb
  | some x =>
    simp only [ExtentInfo.follows, Option.all_some, Bool.not_eq_true', ← Bool.not_eq_true,
      Extent.less_iff, not_lt] at hb ⊢
    exact le_trans hab hb

omit [DecidableEq ι] in
theorem initial_endpoint_le (h : ι → Extent) (endp : Bool) (en : Int) :
    Initial (keyOf h endp) fun e => (h e).endpoint endp ≤ en :=
  fun _ _ hab hb => decide_eq_true
    (Int.le_trans (Extent.endpoint_le_of_key_le hab) (of_decide_eq_true hb))

theorem visits_byStart (hendp : c.rangeEndp = false)
    (ho : InOrder (keyOf info.heap false) els) :
    c.visits info (c.obj.bytindToMemind frm) (c.obj.bytindToMemind upTo) after els
      = els.filter (wanted c.obj c.flags c.range info frm upTo after) := by
  have ho₁ := ho.sublist (List.filter_sublist (p := fun e => !c.skipsInternal info e))
  have ho₂ := ho₁.sublist (List.filter_sublist (p := fun e => !!info.follows after e))
  rw [MapLoop.visits, hendp, ho₁.dropWhile_eq_filter (initial_not_follows info after),
    ho₂.takeWhile_eq_filter (initial_endpoint_le info.heap false _)]
  simp only [List.filter_filter, BufferOrString.memindToBytind_bytindToMemind, Int.toNat_natCast]
  refine List.filter_congr fun e _ => ?_
  rw [wanted, ← MapLoop.skipsInternal]
  cases hin : extentInRegionP c.obj info e frm upTo c.flags with
  | false => rw [Bool.false_and, Bool.and_false]
  | true =>
    have hstart : (info.heap e).endpoint false ≤ c.obj.bytindToMemind upTo :=
      (inRegion_overlaps hin).1
    rw [decide_eq_true hstart, Bool.not_not, Bool.true_and, Bool.true_and, Bool.and_true,
      Bool.and_comm]

variable {obj : BufferOrString} {fn : MapFun ι α} {flags : MapFlags} {range : Option ι}
  {f : ι → α → α × Bool} {fuel : Nat} {arg : α}

/-- The region that is mapped over, and the range extent if there is one. -/
def Ranges (info : ExtentInfo ι) (range : Option ι) (st en : Int) : Prop :=
  ∀ x, range = some x → (info.heap x).extentStart = st ∧ (info.heap x).extentEnd = en

/-- **The range stage** alone. -/
theorem mapStages_range (rangeEndp : Bool) (start : RangeStart) (st en : Int)
    (after : Option ι) (arg : α)
    (hcalls : MapLoop.Calls ⟨obj, fn, flags, range, false, rangeEndp, none⟩ info f)
    {info' : ExtentInfo ι} (hs : info.Steady flags info') (ho : info.extents.Ordered info.heap)
    (hrange : Ranges info range st en)
    (hpos : start.position info' st rangeEndp ≤ (info'.extents.array rangeEndp).els.length)
    (hfuel : info'.extents.numEls < fuel) :
    ∃ s', ((⟨obj, fn, flags, range, false, rangeEndp, none⟩ : MapLoop ι α).stage fuel
        ⟨info', after, st, en, arg⟩ (start.position info' st rangeEndp)).map Prod.fst = some s' ∧
      info.Steady flags s'.info ∧
      s'.arg = (runUntil f arg (MapLoop.visits ⟨obj, fn, flags, range, false, rangeEndp, none⟩
        info st en after ((info.extents.array rangeEndp).els.drop
          (start.position info' st rangeEndp)))).1 := by
  have hels : (info'.extents.array rangeEndp).els = (info.extents.array rangeEndp).els :=
    hs.extents rangeEndp
  have ht : MapLoop.Through ⟨obj, fn, flags, range, false, rangeEndp, none⟩ info
      ⟨info', after, st, en, arg⟩ ((info'.extents.array rangeEndp).els.drop
        (start.position info' st rangeEndp)) :=
    ⟨fun e he => ho.mem_array.mp (hels ▸ List.mem_of_mem_drop he), hrange,
      fun h => nomatch h⟩
  have hlen : (info'.extents.array rangeEndp).els.length = info'.extents.numEls := by
    have hperm := hs.sound.ordered.perm.length_eq
    cases rangeEndp
    · rfl
    · exact hperm
  obtain ⟨s', stop, heq, hgone⟩ := MapLoop.stage_visits hcalls
    (s := ⟨info', after, st, en, arg⟩) hs hpos ht (Nat.lt_of_le_of_lt (Nat.sub_le ..)
      (hlen ▸ hfuel))
  refine ⟨s', by rw [heq]; rfl, hgone.steady, ?_⟩
  rw [← hels]
  exact congrArg Prod.fst hgone.result

omit [DecidableEq ι] in
theorem steady_refl (hs : info.Sound) : info.Steady flags info :=
  ⟨rfl, rfl, .refl _, hs, fun _ => rfl⟩

/-- **Both stages.** Those in the SOE start at the region's start or before it, the others
behind it. -/
theorem mapStages_both (hs : info.Sound) (hmove : flags.mightMoveSoe = false)
    (hpos : info.soe.pos = obj.bytindToMemind frm)
    (hle : obj.bytindToMemind frm ≤ obj.bytindToMemind upTo)
    (hcalls : MapLoop.Calls ⟨obj, fn, flags, range, true, false, none⟩ info f)
    (hrange : Ranges info range (obj.bytindToMemind frm) (obj.bytindToMemind upTo))
    (hfuel : info.extents.numEls < fuel) :
    ∃ s', mapStages obj fn flags range fuel ⟨true, false, .excluding⟩
        ⟨info, after, obj.bytindToMemind frm, obj.bytindToMemind upTo, arg⟩ = some s' ∧
      info.Steady flags s'.info ∧
      s'.arg = (runUntil f arg (info.extents.byStart.els.filter
        (wanted obj flags range info frm upTo after))).1 := by
  generalize hst : obj.bytindToMemind frm = st at *
  generalize hen : obj.bytindToMemind upTo = en at *
  have ho := hs.ordered
  have hsoe : info.soe.extents.byStart.els = info.extents.byStart.els.filter (info.over st) :=
    hpos ▸ hs.soe.byStart
  have ht : MapLoop.Through ⟨obj, fn, flags, range, true, false, none⟩ info
      ⟨info, after, st, en, arg⟩ info.soe.extents.byStart.els := by
    refine ⟨fun e he => (hs.soe.mem_iff.mp he).1, hrange, fun _ => ⟨hmove, fun e he => ?_⟩⟩
    rw [hsoe, List.mem_filter, ExtentInfo.over_iff] at he
    exact Int.le_trans he.2.1 hle
  have hlen : info.soe.extents.byStart.els.length ≤ info.extents.numEls := by
    rw [hsoe]
    exact List.length_filter_le ..
  obtain ⟨s₁, stop, heq₁, hgone₁⟩ := MapLoop.stage_visits
    (c := ⟨obj, fn, flags, range, true, false, none⟩)
    (s := ⟨info, after, st, en, arg⟩) hcalls (steady_refl hs) (Nat.zero_le _) ht
    (Nat.lt_of_le_of_lt (Nat.sub_le ..) (Nat.lt_of_le_of_lt hlen hfuel))
  have hvisits : ∀ after endp {els : List ι}, InOrder (keyOf info.heap false) els →
      MapLoop.visits ⟨obj, fn, flags, range, endp, false, none⟩ info st en after els
        = els.filter (wanted obj flags range info frm upTo after) := by
    intro after endp els hels
    rw [← hst, ← hen]
    exact visits_byStart rfl hels
  have hdone : (s₁.arg, stop) = runUntil f arg (info.soe.extents.byStart.els.filter
      (wanted obj flags range info frm upTo after)) :=
    hgone₁.result.trans (congrArg _ (hvisits after true (hs.soe.ordered ho).byStart))
  -- the range stage begins behind those that start at `st`
  have hdrop : info.extents.byStart.els.drop
      (extentListLocateFromPos s₁.info.heap s₁.info.extents (st + 1) false)
        = info.extents.byStart.els.filter fun e => !decide ((info.heap e).extentStart < st + 1) := by
    have hels : s₁.info.extents.byStart.els = info.extents.byStart.els := hgone₁.steady.extents false
    rw [hgone₁.steady.sound.ordered.locateFromPos_eq hgone₁.steady.sound.le]
    show info.extents.byStart.els.drop (s₁.info.extents.byStart.els.countP _) = _
    rw [hels, hgone₁.steady.heap]
    exact ho.byStart.drop_countP (ExtentList.Ordered.initial_endpoint false (st + 1))
  have hsplit : info.extents.byStart.els.filter
      (wanted obj flags range info frm upTo after)
      = info.soe.extents.byStart.els.filter
          (wanted obj flags range info frm upTo after) ++
        (info.extents.byStart.els.drop
          (extentListLocateFromPos s₁.info.heap s₁.info.extents (st + 1) false)).filter
            (wanted obj flags range info frm upTo after) := by
    conv_lhs => rw [← ho.byStart.filter_append
      (ExtentList.Ordered.initial_endpoint false (st + 1)), List.filter_append]
    rw [hdrop, hsoe]
    simp only [List.filter_filter]
    refine congrArg (· ++ _) (List.filter_congr fun e _ => ?_)
    cases hw : wanted obj flags range info frm upTo after e with
    | false => rw [Bool.false_and, Bool.false_and]
    | true =>
      rw [wanted, Bool.and_eq_true] at hw
      have hend := (inRegion_overlaps hw.2).2
      rw [Bool.true_and, Bool.true_and, Bool.eq_iff_iff, decide_eq_true_eq, info.over_iff]
      simp only [Extent.endpoint, Bool.false_eq_true, if_false]
      omega
  -- AFTER is forgotten only where all that is left follows it
  have hafter : ∀ e ∈ info.extents.byStart.els.drop
      (extentListLocateFromPos s₁.info.heap s₁.info.extents (st + 1) false),
      wanted obj flags range info frm upTo s₁.after e
        = wanted obj flags range info frm upTo after e := by
    intro e he
    rcases hgone₁.after with hafter | ⟨hnone, a, ha, hfollows⟩
    · rw [hafter]
    · have hlt : keyOf info.heap false a < keyOf info.heap false e := by
        rw [List.drop_zero] at ha
        have hover := info.over_iff.mp (hs.soe.mem_iff.mp ha).2
        rw [hdrop, List.mem_filter, Bool.not_eq_true', decide_eq_false_iff_not] at he
        refine (Extent.key_lt_iff false).mpr (Or.inl ?_)
        simp only [Extent.endpoint, Bool.false_eq_true, if_false]
        omega
      have hfollows' : info.follows after e = true := by
        by_contra hnot
        have hfollows : info.follows after a = true := hfollows
        have hnot' : (!info.follows after a) = true := initial_not_follows info after a e
          (le_of_lt hlt) (show (!info.follows after e) = true by simpa using hnot)
        rw [hfollows] at hnot'
        cases hnot'
      rw [wanted, wanted, hnone, hfollows']
      rfl
  rw [hsplit, runUntil_append, ← hdone]
  cases stop with
  | true =>
    refine ⟨s₁, ?_, hgone₁.steady, rfl⟩
    rw [mapStages]
    simp only [if_true]
    rw [heq₁, Option.bind_some, if_pos rfl]
  | false =>
    obtain ⟨s₂, heq₂, hsteady₂, harg₂⟩ := mapStages_range false .excluding st en s₁.after s₁.arg
      hcalls hgone₁.steady ho hrange
      (hgone₁.steady.sound.ordered.locateFromPos_le false _ hgone₁.steady.sound.le)
      (Nat.lt_of_le_of_lt (Nat.le_of_eq (congrArg List.length (hgone₁.steady.extents false))) hfuel)
    refine ⟨s₂, ?_, hsteady₂, ?_⟩
    · have hs₁ : s₁ = ⟨s₁.info, s₁.after, st, en, s₁.arg⟩ := by
        conv_rhs => rw [← show s₁.st = st from hgone₁.st, ← show s₁.en = en from hgone₁.en]
      rw [mapStages]
      simp only [if_true]
      rw [heq₁, Option.bind_some, if_neg Bool.false_ne_true, ← heq₂, ← hs₁]
      exact congrArg (fun pos => (MapLoop.stage _ fuel s₁ pos).map Prod.fst)
        (by rw [show s₁.st = st from hgone₁.st])
    · rw [harg₂, if_neg Bool.false_ne_true]
      exact congrArg (fun l => (runUntil f s₁.arg l).1)
        ((hvisits s₁.after false (ho.byStart.sublist (List.drop_sublist ..))).trans
          (List.filter_congr hafter))

/-! ## The plan -/

/-- The mapping goes over those that start in the region. -/
def MapFlags.ByStart (flags : MapFlags) : Prop :=
  (flags.inRegion = some .start ∨ flags.inRegion = some .startAndStop) ∧
    flags.negateInRegion = false

/-- The mapping goes over those that end in the region. -/
def MapFlags.ByEnd (flags : MapFlags) : Prop :=
  flags.inRegion = some .stop ∧ flags.negateInRegion = false

instance (flags : MapFlags) : Decidable flags.ByEnd := inferInstanceAs (Decidable (_ ∧ _))

/-- The plan for extents that have to be looked for in the SOE. -/
inductive SoePlan (info : ExtentInfo ι) (flags : MapFlags) : MapPlan → Prop where
  | empty (h : info.soe.extents.numEls = 0) : SoePlan info flags ⟨false, false, .including⟩
  | cover {l₁ l₂ : List ι} (h : info.extents.byStart.els = l₁ ++ l₂)
      (hl₁ : ∀ e ∈ l₁, (info.heap e).extentEnd < info.soe.pos) :
      SoePlan info flags ⟨false, false, .pos l₁.length⟩
  | soe (h : flags.mightMoveSoe = false) : SoePlan info flags ⟨true, false, .excluding⟩

theorem planMap_byStart (info : ExtentInfo ι) (st : Int) (hflags : flags.ByStart) :
    planMap info st flags = some (info, ⟨false, false, .including⟩) :=
  if_pos ⟨hflags.1, by rw [hflags.2]; rfl⟩

theorem planMap_byEnd (info : ExtentInfo ι) (st : Int) (hflags : flags.ByEnd) :
    planMap info st flags = some (info, ⟨false, true, .including⟩) := by
  rw [planMap, if_neg fun h => ?_, if_pos ⟨hflags.1, by rw [hflags.2]; rfl⟩]
  rw [hflags.1] at h
  rcases h.1 with h | h <;> cases h

theorem planMap_soe (hs : info.Sound) (st : Int) (hstart : ¬ flags.ByStart)
    (hend : ¬ flags.ByEnd) :
    ∃ sel plan, planMap info st flags = some ({ info with soe := ⟨sel, st⟩ }, plan) ∧
      ExtentInfo.Sound { info with soe := ⟨sel, st⟩ } ∧
      SoePlan { info with soe := ⟨sel, st⟩ } flags plan := by
  have hneg : ∀ {p : Prop}, (p ∧ (!flags.negateInRegion) = true) ↔
      (p ∧ flags.negateInRegion = false) := by
    intro p
    rw [Bool.not_eq_true']
  obtain ⟨sel, heq, hsound⟩ := soeMove_sound hs st
  rw [planMap, if_neg (mt hneg.mp hstart), if_neg (mt hneg.mp hend), heq, Option.bind_some]
  by_cases hempty : sel.numEls = 0
  · exact ⟨sel, _, if_pos hempty, hsound, .empty hempty⟩
  simp only [if_neg hempty]
  cases hmove : flags.mightMoveSoe with
  | false => exact ⟨sel, _, rfl, hsound, .soe hmove⟩
  | true =>
    obtain ⟨e, els, hels⟩ := List.exists_cons_of_ne_nil (mt List.length_eq_zero_iff.mpr hempty)
    -- the first extent of the SOE is the first of the list that overlaps its position
    have hfilter := hsound.soe.byStart.symm.trans hels
    obtain ⟨l₁, l₂, hl, hl₁, he, -⟩ := List.filter_eq_cons_iff.mp hfilter
    have hl : info.extents.byStart.els = l₁ ++ e :: l₂ := hl
    have hat : extentListAt sel 0 false = some e := by
      show sel.byStart.els[0]? = _
      rw [hels]
      rfl
    have hidx : info.extents.byStart.els.idxOf e = l₁.length := by
      rw [hl, List.idxOf_append_of_notMem fun hmem => hl₁ e hmem he, List.idxOf_cons_self,
        Nat.add_zero]
    have hlocate : extentListLocate info.heap info.extents (info.heap e) (some e) false
        = (l₁.length, true) := by
      rw [locate_of_mem hs.ordered.byStart (hl ▸ List.mem_append_cons_self)]
      exact congrArg (·, true) hidx
    refine ⟨sel, ⟨false, false, .pos l₁.length⟩, ?_, hsound, .cover hl fun a ha => ?_⟩
    · rw [if_pos rfl, hat, Option.bind_some, hlocate]
      rfl
    · have hle := Extent.endpoint_le_of_key_le ((InOrder.append_iff.mp (hl ▸ hs.ordered.byStart)).2.2
        a ha e (List.mem_cons_self ..))
      have hnot : ¬ ((info.heap a).extentStart ≤ st ∧ st ≤ (info.heap a).extentEnd) :=
        mt info.over_iff.mpr (hl₁ a ha)
      have hover : (info.heap e).extentStart ≤ st ∧ st ≤ (info.heap e).extentEnd :=
        info.over_iff.mp he
      simp only [Extent.endpoint, Bool.false_eq_true, if_false] at hle
      show (info.heap a).extentEnd < st
      omega

/-! ## The mapping -/

omit [DecidableEq ι] in
theorem filter_drop_of_take {P : ι → Bool} {n : Nat} {els : List ι}
    (h : ∀ e ∈ els.take n, P e = false) : (els.drop n).filter P = els.filter P := by
  conv_rhs => rw [← List.take_append_drop n els, List.filter_append,
    List.filter_eq_nil_iff.mpr fun e he => by rw [h e he]; decide, List.nil_append]

/-- **The range stage in the display order**, if nothing is wanted before its start. -/
theorem mapStages_byStart (hs : info.Sound) (start : RangeStart) (arg : α)
    (hcalls : MapLoop.Calls ⟨obj, fn, flags, range, true, false, none⟩ info f)
    (hrange : Ranges info range (obj.bytindToMemind frm) (obj.bytindToMemind upTo))
    (hpos : start.position info (obj.bytindToMemind frm) false ≤ info.extents.numEls)
    (hnone : ∀ e ∈ info.extents.byStart.els.take
      (start.position info (obj.bytindToMemind frm) false),
      wanted obj flags range info frm upTo after e = false)
    (hfuel : info.extents.numEls < fuel) :
    ∃ s', mapStages obj fn flags range fuel ⟨false, false, start⟩
        ⟨info, after, obj.bytindToMemind frm, obj.bytindToMemind upTo, arg⟩ = some s' ∧
      info.Steady flags s'.info ∧
      s'.arg = (runUntil f arg (info.extents.byStart.els.filter
        (wanted obj flags range info frm upTo after))).1 := by
  obtain ⟨s', heq, hsteady, harg⟩ := mapStages_range false start _ _ after arg hcalls
    (steady_refl hs) hs.ordered hrange hpos hfuel
  refine ⟨s', heq, hsteady, ?_⟩
  rw [← filter_drop_of_take hnone]
  exact harg.trans (congrArg (fun l => (runUntil f arg l).1)
    (visits_byStart (c := ⟨obj, fn, flags, range, false, false, none⟩) rfl
      (hs.ordered.byStart.sublist (List.drop_sublist ..))))

/-- **The mapping by the SOE** calls the function on what is wanted, in the display order. -/
theorem SoePlan.mapStages {plan : MapPlan} (hplan : SoePlan info flags plan) (hs : info.Sound)
    (hpos : info.soe.pos = obj.bytindToMemind frm)
    (hle : obj.bytindToMemind frm ≤ obj.bytindToMemind upTo) (arg : α)
    (hcalls : MapLoop.Calls ⟨obj, fn, flags, range, true, false, none⟩ info f)
    (hrange : Ranges info range (obj.bytindToMemind frm) (obj.bytindToMemind upTo))
    (hfuel : info.extents.numEls < fuel) :
    ∃ s', Extents.mapStages obj fn flags range fuel plan
        ⟨info, after, obj.bytindToMemind frm, obj.bytindToMemind upTo, arg⟩ = some s' ∧
      info.Steady flags s'.info ∧
      s'.arg = (runUntil f arg (info.extents.byStart.els.filter
        (wanted obj flags range info frm upTo after))).1 := by
  have hunwanted : ∀ e, (info.heap e).extentEnd < obj.bytindToMemind frm →
      wanted obj flags range info frm upTo after e = false := by
    intro e hlt
    rw [wanted]
    cases hin : extentInRegionP obj info e frm upTo flags with
    | false => exact Bool.and_false _
    | true => exact absurd (inRegion_overlaps hin).2 (Int.not_le.mpr hlt)
  cases hplan with
  | empty hempty =>
    refine mapStages_byStart hs .including arg hcalls hrange
      (hs.ordered.locateFromPos_le false _ hs.le) (fun e he => ?_) hfuel
    obtain ⟨hmem, hstart⟩ := (hs.ordered.mem_take false _ hs.le).mp he
    refine hunwanted e (Int.not_le.mp fun hend => ?_)
    -- it would overlap the start of the region
    have hsoe := hs.soe.mem_iff.mpr ⟨hmem, info.over_iff.mpr ⟨hpos ▸ Int.le_of_lt hstart, hpos ▸ hend⟩⟩
    rw [List.eq_nil_of_length_eq_zero hempty] at hsoe
    cases hsoe
  | cover hl hl₁ =>
    rename_i l₁ l₂
    refine mapStages_byStart hs (.pos l₁.length) arg hcalls hrange ?_ (fun e he => ?_) hfuel
    · show l₁.length ≤ info.extents.byStart.els.length
      rw [hl, List.length_append]
      exact Nat.le_add_right ..
    · have he : e ∈ info.extents.byStart.els.take l₁.length := he
      rw [hl, List.take_left] at he
      exact hunwanted e (hpos ▸ hl₁ e he)
  | soe hmove => exact mapStages_both hs hmove hpos hle hcalls hrange hfuel

/-- The extents that the mapping calls the function on, in the order of the calls. -/
def mapVisits (obj : BufferOrString) (flags : MapFlags) (range : Option ι) (info : ExtentInfo ι)
    (frm upTo : Nat) (after : Option ι) : List ι :=
  if flags.ByEnd then
    ((info.extents.byEnd.els.filter fun e =>
        !(info.internalP e && (!flags.includeInternal || some e == range)) &&
          !decide ((info.heap e).extentEnd < obj.bytindToMemind frm)).dropWhile
      fun e => !info.follows after e).filter fun e => extentInRegionP obj info e frm upTo flags
  else info.extents.byStart.els.filter (wanted obj flags range info frm upTo after)

theorem visits_byEnd (hs : info.Sound) (hend : flags.ByEnd) :
    MapLoop.visits ⟨obj, fn, flags, range, false, true, none⟩ info (obj.bytindToMemind frm)
        (obj.bytindToMemind upTo) after (info.extents.byEnd.els.drop
          (extentListLocateFromPos info.heap info.extents (obj.bytindToMemind frm) true))
      = mapVisits obj flags range info frm upTo after := by
  have ho := hs.ordered
  have hdrop : info.extents.byEnd.els.drop
      (extentListLocateFromPos info.heap info.extents (obj.bytindToMemind frm) true)
        = info.extents.byEnd.els.filter fun e =>
            !decide ((info.heap e).extentEnd < obj.bytindToMemind frm) := by
    rw [ho.locateFromPos_eq hs.le]
    exact ho.byEnd.drop_countP (ExtentList.Ordered.initial_endpoint true _)
  have ho₁ : InOrder (keyOf info.heap true) (((info.extents.byEnd.els.filter fun e =>
      !decide ((info.heap e).extentEnd < obj.bytindToMemind frm)).filter fun e =>
        !(info.internalP e && (!flags.includeInternal || some e == range))).dropWhile
          fun e => !info.follows after e) :=
    ho.byEnd.sublist ((List.dropWhile_sublist _).trans
      (List.filter_sublist.trans List.filter_sublist))
  rw [mapVisits, if_pos hend, hdrop, MapLoop.visits]
  simp only [BufferOrString.memindToBytind_bytindToMemind, Int.toNat_natCast,
    MapLoop.skipsInternal]
  rw [ho₁.takeWhile_eq_filter (initial_endpoint_le info.heap true _)]
  simp only [List.filter_filter]
  refine List.filter_congr fun e _ => ?_
  cases hin : extentInRegionP obj info e frm upTo flags with
  | false => rfl
  | true =>
    have hstop : (info.heap e).endpoint true ≤ obj.bytindToMemind upTo :=
      inRegion_stop hin hend.1 hend.2
    rw [decide_eq_true hstop, Bool.true_and]

/-- **The two stages** as they are planned. -/
theorem planned_stages (hs : info.Sound) (after : Option ι) (arg : α)
    (hle : obj.bytindToMemind frm ≤ obj.bytindToMemind upTo)
    (hcalls : ∀ soe, ExtentInfo.Sound { info with soe := soe } →
      MapLoop.Calls ⟨obj, fn, flags, range, true, false, none⟩ { info with soe := soe } f)
    (hrange : Ranges info range (obj.bytindToMemind frm) (obj.bytindToMemind upTo))
    (hfuel : info.extents.numEls < fuel) :
    ∃ soe plan s', planMap info (obj.bytindToMemind frm) flags
        = some ({ info with soe := soe }, plan) ∧
      mapStages obj fn flags range fuel plan ⟨{ info with soe := soe }, after,
        obj.bytindToMemind frm, obj.bytindToMemind upTo, arg⟩ = some s' ∧
      ExtentInfo.Steady flags { info with soe := soe } s'.info ∧
      s'.arg = (runUntil f arg (mapVisits obj flags range info frm upTo after)).1 ∧
      (¬ flags.ByStart → ¬ flags.ByEnd → soe.pos = obj.bytindToMemind frm) := by
  by_cases hend : flags.ByEnd
  · obtain ⟨s', heq, hsteady, harg⟩ := mapStages_range true .including _ _ after arg
      (hcalls info.soe hs) (steady_refl hs) hs.ordered hrange
      (hs.ordered.locateFromPos_le true _ hs.le) hfuel
    refine ⟨info.soe, _, s', planMap_byEnd info _ hend, heq, hsteady, ?_, fun _ h => absurd hend h⟩
    exact harg.trans (congrArg (fun l => (runUntil f arg l).1) (visits_byEnd hs hend))
  rw [mapVisits, if_neg hend]
  by_cases hstart : flags.ByStart
  · have hnone : ∀ e ∈ info.extents.byStart.els.take
        (extentListLocateFromPos info.heap info.extents (obj.bytindToMemind frm) false),
        wanted obj flags range info frm upTo after e = false := by
      intro e he
      have hlt := ((hs.ordered.mem_take false _ hs.le).mp he).2
      rw [wanted]
      cases hin : extentInRegionP obj info e frm upTo flags with
      | false => exact Bool.and_false _
      | true => exact absurd (inRegion_start hin hstart.1 hstart.2) (Int.not_le.mpr hlt)
    obtain ⟨s', heq, hsteady, harg⟩ := mapStages_byStart hs .including arg
      (hcalls info.soe hs) hrange (hs.ordered.locateFromPos_le false _ hs.le) hnone hfuel
    exact ⟨info.soe, _, s', planMap_byStart info _ hstart, heq, hsteady, harg,
      fun h => absurd hstart h⟩
  · obtain ⟨sel, plan, hplan, hsound, hsoe⟩ :=
      planMap_soe hs (obj.bytindToMemind frm) hstart hend
    obtain ⟨s', heq, hsteady, harg⟩ := hsoe.mapStages hsound rfl hle arg
      (hcalls _ hsound) hrange hfuel
    exact ⟨_, plan, s', hplan, heq, hsteady, harg, fun _ _ => rfl⟩

end stages

end XEmacs.Extents

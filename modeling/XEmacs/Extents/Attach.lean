import Mathlib.Logic.Function.Basic
import XEmacs.Extents.Stack

/-!
# Attaching extents (extents.c)

An extent is attached by putting it into the list and, if it is over the position of the SOE,
into the SOE; it is detached by taking it out of both, and then its endpoints are negative.
-/

namespace XEmacs.Extents

open GapArrays KeyedLists

variable {ι : Type} [DecidableEq ι]

/-- `set_extent_start` and `set_extent_end`. -/
def ExtentInfo.setEndpoints (info : ExtentInfo ι) (extent : ι) (start stop : Int) :
    ExtentInfo ι :=
  let e := { info.heap extent with extentStart := start, extentEnd := stop }
  { info with heap := Function.update info.heap extent e }

/-- The position of the SOE set, whatever the SOE holds. -/
def ExtentInfo.atPos (info : ExtentInfo ι) (pos : Int) : ExtentInfo ι :=
  { info with soe := { info.soe with pos := pos } }

def extentAttach (info : ExtentInfo ι) (extent : ι) : Option (ExtentInfo ι) :=
  (extentListInsert info.heap info.extents extent).bind fun el =>
  soeInsert { info with extents := el } extent

def extentDetach (info : ExtentInfo ι) (extent : ι) : Option (ExtentInfo ι) :=
  if (info.heap extent).detachedP then some info
  else
    (extentListDelete info.heap info.extents extent).bind fun el =>
    (soeDelete { info with extents := el } extent).map fun info =>
    info.setEndpoints extent (-1) (-1)

/-! ## Parts of a list that grows and shrinks -/

namespace ExtentList

variable {h : ι → Extent} {el bel sel : ExtentList ι} {P : ι → Bool} {e : ι}

omit [DecidableEq ι] in
theorem filter_middle {l₁ l₂ : List ι} (hP : P e = false) :
    (l₁ ++ e :: l₂).filter P = (l₁ ++ l₂).filter P := by
  rw [List.filter_append, List.filter_append, List.filter_cons_of_neg (by rw [hP]; decide)]

omit [DecidableEq ι] in
theorem Selects.insertRest (hs : bel.Selects P sel) (ho : bel.Ordered h) (hP : P e = false) :
    (bel.inserted h e).Selects P sel := by
  obtain ⟨l₁, l₂, hl, hl', -, -⟩ := inserted_byStart ho.byStart e
  obtain ⟨m₁, m₂, hm, hm', -, -⟩ := inserted_byEnd ho.byEnd e
  refine ⟨?_, ?_⟩
  · rw [hl', filter_middle hP, ← hl]
    exact hs.byStart
  · rw [hm', filter_middle hP, ← hm]
    exact hs.byEnd

theorem Selects.insertBoth (hs : bel.Selects P sel) (ho : bel.Ordered h)
    (he : e ∉ bel.byStart.els) (hP : P e = true) :
    (bel.inserted h e).Selects P (sel.inserted h e) := by
  have hbut : bel.Selects (fun a => P a && a != e) sel := hs.congr ho fun a ha => by
    have hae : a ≠ e := fun hae => he (hae ▸ ha)
    rw [bne_iff_ne.mpr hae, Bool.and_true]
  have hrest := hbut.insertRest (e := e) ho (by rw [bne_self_eq_false, Bool.and_false])
  obtain ⟨l₁, l₂, -, hl', -, hlt⟩ := inserted_byStart ho.byStart e
  have hins := hrest.inserted (ho.inserted he) hl' (by rw [bne_self_eq_false, Bool.and_false])
    fun a ha _ => by
      -- the new extent is behind its equals
      rw [Bool.eq_false_iff, ne_eq, Extent.equal_iff false]
      exact ne_of_gt (hlt a ha)
  refine hins.congr (ho.inserted he) fun a _ => ?_
  by_cases hae : a = e
  · subst hae
    rw [beq_self_eq_true, Bool.or_true, hP]
  · rw [beq_eq_false_iff_ne.mpr hae, bne_iff_ne.mpr hae, Bool.and_true, Bool.or_false]

theorem Ordered.erased (ho : el.Ordered h) (e : ι) : (el.erased e).Ordered h := by
  have hall : el.Selects (fun _ => true) el := ⟨by simp, by simp⟩
  exact (hall.erased ho e).ordered ho

theorem mem_erased (ho : el.Ordered h) {a : ι} :
    a ∈ (el.erased e).byStart.els ↔ a ≠ e ∧ a ∈ el.byStart.els := by
  rw [erased_byStart, ho.nodup.mem_erase_iff]

theorem Selects.eraseRest (hs : bel.Selects P sel) (ho : bel.Ordered h) (hP : P e = false) :
    (bel.erased e).Selects P sel := by
  have hsame : ∀ l : List ι, l.Nodup → (l.erase e).filter P = l.filter P := by
    intro l hl
    rw [hl.erase_eq_filter, List.filter_filter]
    refine List.filter_congr fun a _ => ?_
    by_cases hae : a = e
    · subst hae
      rw [hP, Bool.false_and]
    · rw [bne_iff_ne.mpr hae, Bool.and_true]
  refine ⟨?_, ?_⟩
  · rw [erased_byStart, hsame _ ho.nodup]
    exact hs.byStart
  · rw [erased_byEnd, hsame _ ho.nodup_byEnd]
    exact hs.byEnd

theorem Selects.eraseBoth (hs : bel.Selects P sel) (ho : bel.Ordered h) (e : ι) :
    (bel.erased e).Selects P (sel.erased e) := by
  have hsel := hs.erased ho e
  refine ⟨?_, ?_⟩
  · rw [hsel.byStart, erased_byStart, ho.nodup.erase_eq_filter, List.filter_filter]
  · rw [hsel.byEnd, erased_byEnd, ho.nodup_byEnd.erase_eq_filter, List.filter_filter]

end ExtentList

/-! ## The invariants -/

namespace ExtentInfo

variable {info : ExtentInfo ι} {e : ι} {h' : ι → Extent} {P lost : ι → Bool}

omit [DecidableEq ι] in
theorem Sorted.withHeap (hs : info.Sorted)
    (hh : ∀ a ∈ info.extents.byStart.els, (h' a).extentStart = (info.heap a).extentStart ∧
      (h' a).extentEnd = (info.heap a).extentEnd) :
    Sorted { info with heap := h' } := by
  refine ⟨hs.ordered.congr hh, fun a ha => ?_, fun a ha => ?_⟩
  · show 0 ≤ (h' a).extentStart
    rw [(hh a ha).1]
    exact hs.attached a ha
  · show (h' a).extentStart ≤ (h' a).extentEnd
    rw [(hh a ha).1, (hh a ha).2]
    exact hs.le a ha

omit [DecidableEq ι] in
theorem Sound.withHeap (hs : info.Sound)
    (hh : ∀ a ∈ info.extents.byStart.els, (h' a).extentStart = (info.heap a).extentStart ∧
      (h' a).extentEnd = (info.heap a).extentEnd) :
    Sound { info with heap := h' } := by
  refine ⟨hs.toSorted.withHeap hh, hs.soe.congr hs.ordered fun a ha => ?_⟩
  show _ = (h' a).overlaps _
  rw [Extent.overlaps, (hh a ha).1, (hh a ha).2]
  rfl

/-- What attaching an extent makes of the lists. -/
def attached (info : ExtentInfo ι) (e : ι) : ExtentInfo ι :=
  { info with
    extents := info.extents.inserted info.heap e
    soe := if info.over info.soe.pos e then
        ⟨info.soe.extents.inserted info.heap e, info.soe.pos⟩ else info.soe }

/-- What detaching an extent makes of the lists and of the extent. -/
def detached (info : ExtentInfo ι) (e : ι) : ExtentInfo ι :=
  setEndpoints { info with
    extents := info.extents.erased e
    soe := if info.over info.soe.pos e then ⟨info.soe.extents.erased e, info.soe.pos⟩
      else info.soe } e (-1) (-1)

omit [DecidableEq ι] in
theorem over_eq_false_iff (info : ExtentInfo ι) (pos : Int) (e : ι) :
    info.over pos e = false ↔
      pos < (info.heap e).extentStart ∨ (info.heap e).extentEnd < pos := by
  rw [Bool.eq_false_iff, ne_eq, over_iff, not_and_or, not_le, not_le]

omit [DecidableEq ι] in
theorem soe_pos_attached (info : ExtentInfo ι) (e : ι) :
    (info.attached e).soe.pos = info.soe.pos := by
  rw [attached]
  split <;> rfl

theorem soe_pos_detached (info : ExtentInfo ι) (e : ι) :
    (info.detached e).soe.pos = info.soe.pos := by
  simp only [detached, setEndpoints]
  split <;> rfl

/-- **An extent is attached**, to the SOE too if it is over the position of that. -/
theorem Holds.attach (hs : info.Holds P) (he : e ∉ info.extents.byStart.els)
    (hstart : 0 ≤ (info.heap e).extentStart)
    (hle : (info.heap e).extentStart ≤ (info.heap e).extentEnd) :
    extentAttach info e = some (info.attached e) ∧
      (info.attached e).Holds (Function.update P e (info.over info.soe.pos e)) := by
  have hsorted : Sorted { info with extents := info.extents.inserted info.heap e } := by
    refine ⟨hs.ordered.inserted he, fun a ha => ?_, fun a ha => ?_⟩
    all_goals obtain rfl | ha := (ExtentList.mem_inserted hs.ordered).mp ha
    · exact hstart
    · exact hs.attached a ha
    · exact hle
    · exact hs.le a ha
  have hsoe : info.extents.Selects (Function.update P e (info.over info.soe.pos e))
      info.soe.extents := hs.soe.congr hs.ordered fun a ha => by
    have hae : a ≠ e := fun hae => he (hae ▸ ha)
    rw [Function.update_of_ne hae]
  have hself : Function.update P e (info.over info.soe.pos e) e = info.over info.soe.pos e :=
    Function.update_self ..
  rw [extentAttach, hs.ordered.insert_eq he, Option.bind_some, soeInsert]
  cases hover : info.over info.soe.pos e with
  | true =>
    have hnot := mt (info.over_eq_false_iff _ _).mpr (Bool.not_eq_false _ ▸ hover)
    have hsel : e ∉ info.soe.extents.byStart.els := fun h => he (hs.soe.mem_iff.mp h).1
    simp only [hnot, if_false, (hs.soe.ordered hs.ordered).insert_eq hsel, Option.map_some,
      attached, hover, if_true]
    rw [hover] at hsoe hself
    exact ⟨trivial, hsorted.withSoe _, hsoe.insertBoth hs.ordered he hself⟩
  | false =>
    have hnot := (info.over_eq_false_iff _ _).mp hover
    simp only [hnot, if_true, attached, hover, Bool.false_eq_true, if_false]
    rw [hover] at hsoe hself
    exact ⟨trivial, hsorted, hsoe.insertRest hs.ordered hself⟩

/-- **An extent is detached**, if it is in the SOE just when it is over the position of that. -/
theorem Holds.detach (hs : info.Holds P) (he : e ∈ info.extents.byStart.els)
    (hP : P e = info.over info.soe.pos e) :
    extentDetach info e = some (info.detached e) ∧ (info.detached e).Holds P := by
  have hattached : ¬ (info.heap e).detachedP = true := by
    rw [Extent.detachedP, decide_eq_true_eq, Int.not_lt]
    exact hs.attached e he
  have hsorted : Sorted { info with extents := info.extents.erased e } :=
    ⟨hs.ordered.erased e,
      fun a ha => hs.attached a ((ExtentList.mem_erased hs.ordered).mp ha).2,
      fun a ha => hs.le a ((ExtentList.mem_erased hs.ordered).mp ha).2⟩
  -- the extent is no longer in the list when its endpoints are changed
  have hheap : ∀ a ∈ (info.extents.erased e).byStart.els,
      (Function.update info.heap e
        { info.heap e with extentStart := -1, extentEnd := -1 } a).extentStart
        = (info.heap a).extentStart ∧
      (Function.update info.heap e
        { info.heap e with extentStart := -1, extentEnd := -1 } a).extentEnd
        = (info.heap a).extentEnd := by
    intro a ha
    rw [Function.update_of_ne ((ExtentList.mem_erased hs.ordered).mp ha).1]
    exact ⟨rfl, rfl⟩
  rw [extentDetach, if_neg hattached, hs.ordered.delete_eq he, Option.bind_some, soeDelete]
  cases hover : info.over info.soe.pos e with
  | true =>
    have hnot := mt (info.over_eq_false_iff _ _).mpr (Bool.not_eq_false _ ▸ hover)
    have hsel : e ∈ info.soe.extents.byStart.els :=
      hs.soe.mem_iff.mpr ⟨he, hP.trans hover⟩
    simp only [hnot, if_false, (hs.soe.ordered hs.ordered).delete_eq hsel, Option.map_some,
      detached, hover, if_true]
    exact ⟨trivial, (hsorted.withSoe _).withHeap hheap, hs.soe.eraseBoth hs.ordered e⟩
  | false =>
    have hnot := (info.over_eq_false_iff _ _).mp hover
    simp only [hnot, if_true, Option.map_some, detached, hover, Bool.false_eq_true, if_false]
    exact ⟨trivial, hsorted.withHeap hheap, hs.soe.eraseRest hs.ordered (hP.trans hover)⟩

omit [DecidableEq ι] in
theorem SoundBut.holds (hs : info.SoundBut lost) :
    info.Holds fun e => info.over info.soe.pos e && !lost e := ⟨hs.toSorted, hs.soe⟩

omit [DecidableEq ι] in
theorem over_attached (info : ExtentInfo ι) (e : ι) (pos : Int) :
    (info.attached e).over pos = info.over pos := rfl

theorem heap_detached_of_ne {a : ι} (hae : a ≠ e) :
    (info.detached e).heap a = info.heap a := Function.update_of_ne hae ..

theorem mem_detached (hs : info.Sorted) {a : ι} :
    a ∈ (info.detached e).extents.byStart.els ↔ a ≠ e ∧ a ∈ info.extents.byStart.els :=
  ExtentList.mem_erased hs.ordered

/-- What detaching an extent and attaching it elsewhere, with the SOE at a new position, makes of
the lists. -/
def replaced (info : ExtentInfo ι) (e : ι) (start stop newsoe : Int) : ExtentInfo ι :=
  (((info.detached e).setEndpoints e start stop).atPos newsoe).attached e

theorem heap_replaced (info : ExtentInfo ι) (e : ι) (start stop newsoe : Int) :
    (info.replaced e start stop newsoe).heap = Function.update info.heap e
      { info.heap e with extentStart := start, extentEnd := stop } := by
  have hself : (info.detached e).heap e
      = { info.heap e with extentStart := -1, extentEnd := -1 } := Function.update_self ..
  show Function.update (info.detached e).heap e
    { (info.detached e).heap e with extentStart := start, extentEnd := stop } = _
  rw [hself]
  exact Function.update_idem ..

theorem mem_replaced (hs : info.Sorted) (he : e ∈ info.extents.byStart.els)
    (start stop newsoe : Int) {a : ι} :
    a ∈ (info.replaced e start stop newsoe).extents.byStart.els ↔
      a ∈ info.extents.byStart.els := by
  have hdetached := hs.ordered.erased e
  have hsorted : (info.extents.erased e).Ordered
      ((info.detached e).setEndpoints e start stop).heap := hdetached.congr fun a ha => by
    have hae := ((ExtentList.mem_erased hs.ordered).mp ha).1
    have hheap : ((info.detached e).setEndpoints e start stop).heap a = info.heap a :=
      (Function.update_of_ne hae ..).trans (heap_detached_of_ne hae)
    rw [hheap]
    exact ⟨rfl, rfl⟩
  refine (ExtentList.mem_inserted hsorted).trans ?_
  rw [ExtentList.mem_erased hs.ordered]
  by_cases hae : a = e
  · subst hae
    exact iff_of_true (Or.inl rfl) he
  · simp only [hae, false_or, ne_eq, not_false_eq_true, true_and]

/-- **An extent is put elsewhere.** -/
theorem Holds.replace (hs : info.Holds P) (he : e ∈ info.extents.byStart.els)
    (hP : P e = info.over info.soe.pos e) {start stop : Int} (hstart : 0 ≤ start)
    (hle : start ≤ stop) (newsoe : Int) :
    extentDetach info e = some (info.detached e) ∧
      extentAttach (((info.detached e).setEndpoints e start stop).atPos newsoe) e
        = some (info.replaced e start stop newsoe) ∧
      (info.replaced e start stop newsoe).Holds
        (Function.update P e (decide (start ≤ newsoe) && decide (newsoe ≤ stop))) := by
  obtain ⟨hdetach, hs₁⟩ := hs.detach he hP
  have hne : e ∉ (info.detached e).extents.byStart.els :=
    fun h => ((mem_detached hs.toSorted).mp h).1 rfl
  have hheap : ∀ a ∈ (info.detached e).extents.byStart.els,
      (((info.detached e).setEndpoints e start stop).heap a).extentStart
        = ((info.detached e).heap a).extentStart ∧
      (((info.detached e).setEndpoints e start stop).heap a).extentEnd
        = ((info.detached e).heap a).extentEnd := by
    intro a ha
    have hae : a ≠ e := fun hae => hne (hae ▸ ha)
    have hsame : ((info.detached e).setEndpoints e start stop).heap a
        = (info.detached e).heap a := Function.update_of_ne hae ..
    rw [hsame]
    exact ⟨rfl, rfl⟩
  have hs₂ : (((info.detached e).setEndpoints e start stop).atPos newsoe).Holds P :=
    ⟨(hs₁.toSorted.withHeap hheap).withSoe _, hs₁.soe⟩
  have hself : (((info.detached e).setEndpoints e start stop).atPos newsoe).heap e
      = { (info.detached e).heap e with extentStart := start, extentEnd := stop } :=
    Function.update_self ..
  obtain ⟨hattach, hs₃⟩ := hs₂.attach hne (by rw [hself]; exact hstart)
    (by rw [hself]; exact hle)
  rw [ExtentInfo.over, hself] at hs₃
  exact ⟨hdetach, hattach, hs₃⟩

theorem SoundBut.attach (hs : info.SoundBut lost) (he : e ∉ info.extents.byStart.els)
    (hstart : 0 ≤ (info.heap e).extentStart)
    (hle : (info.heap e).extentStart ≤ (info.heap e).extentEnd) (hlost : lost e = false) :
    extentAttach info e = some (info.attached e) ∧ (info.attached e).SoundBut lost := by
  obtain ⟨heq, hholds⟩ := hs.holds.attach he hstart hle
  refine ⟨heq, hholds.toSorted, hholds.soe.congr hholds.ordered fun a _ => ?_⟩
  rw [soe_pos_attached, over_attached]
  by_cases hae : a = e
  · subst hae
    rw [Function.update_self, hlost, Bool.not_false, Bool.and_true]
  · rw [Function.update_of_ne hae]

theorem SoundBut.detach (hs : info.SoundBut lost) (he : e ∈ info.extents.byStart.els)
    (hlost : lost e = false) :
    extentDetach info e = some (info.detached e) ∧ (info.detached e).SoundBut lost := by
  obtain ⟨heq, hholds⟩ := hs.holds.detach he (by rw [hlost, Bool.not_false, Bool.and_true])
  refine ⟨heq, hholds.toSorted, hholds.soe.congr hholds.ordered fun a ha => ?_⟩
  rw [soe_pos_detached, ExtentInfo.over, ExtentInfo.over,
    heap_detached_of_ne ((mem_detached hs.toSorted).mp ha).1]

theorem Sound.attach (hs : info.Sound) (he : e ∉ info.extents.byStart.els)
    (hstart : 0 ≤ (info.heap e).extentStart)
    (hle : (info.heap e).extentStart ≤ (info.heap e).extentEnd) :
    extentAttach info e = some (info.attached e) ∧ (info.attached e).Sound := by
  have hnone : info.SoundBut fun _ => false := hs.but fun _ _ _ => rfl
  obtain ⟨heq, hbut⟩ := hnone.attach he hstart hle rfl
  exact ⟨heq, hbut.sound fun _ _ _ => rfl⟩

theorem Sound.detach (hs : info.Sound) (he : e ∈ info.extents.byStart.els) :
    extentDetach info e = some (info.detached e) ∧ (info.detached e).Sound := by
  have hnone : info.SoundBut fun _ => false := hs.but fun _ _ _ => rfl
  obtain ⟨heq, hbut⟩ := hnone.detach he rfl
  exact ⟨heq, hbut.sound fun _ _ _ => rfl⟩

end ExtentInfo

end XEmacs.Extents

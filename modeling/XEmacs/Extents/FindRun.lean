import Mathlib.Order.Bounds.Basic
import Mathlib.Order.MinMax
import XEmacs.Extents.Objects

/-!
# The search for extent changes (extents.c)

A run of text is one in which no extent starts or ends. The end of the run at a position is the
first endpoint behind it, which is looked for among the starts in the list and the ends in the
stack of extents only.
-/

namespace XEmacs.Extents

open GapArrays KeyedLists List Option

variable {ι : Type} [DecidableEq ι]

/-- The limit of the search forward. -/
def BufferOrString.endLimit (obj : BufferOrString) (outsideAccessible : Bool) : Int :=
  if outsideAccessible then obj.absoluteEndByte else obj.accessibleEndByte

/-- The limit of the search backward. -/
def BufferOrString.beginLimit (obj : BufferOrString) (outsideAccessible : Bool) : Int :=
  if outsideAccessible then obj.absoluteBeginByte else obj.accessibleBeginByte

def extentFindEndOfRun (obj : BufferOrString) (info : ExtentInfo ι) (pos : Nat)
    (outsideAccessible : Bool) : Option (ExtentInfo ι × Int) :=
  let mempos := obj.bytindToMemind pos
  let limit := obj.endLimit outsideAccessible
  if info.extents.numEls = 0 then some (info, limit)
  else
    (soeMove info mempos).map fun info =>
      let bel := info.extents
      let sel := info.soe.extents
      -- the first start position after `pos`
      let elind1 := extentListLocateFromPos info.heap bel (mempos + 1) false
      let pos1 := (extentListAt bel elind1 false).elim limit fun e =>
        obj.memindToBytind (info.heap e).extentStart
      -- the first end position after `pos`, in the SOE
      let elind2 := extentListLocateFromPos info.heap sel (mempos + 1) true
      let pos2 := (extentListAt sel elind2 true).elim limit fun e =>
        obj.memindToBytind (info.heap e).extentEnd
      (info, min (min pos1 pos2) limit)

def extentFindBeginningOfRun (obj : BufferOrString) (info : ExtentInfo ι) (pos : Nat)
    (outsideAccessible : Bool) : Option (ExtentInfo ι × Int) :=
  let mempos := obj.bytindToMemind pos
  let limit := obj.beginLimit outsideAccessible
  if info.extents.numEls = 0 then some (info, limit)
  else
    (soeMove info mempos).bind fun info =>
      let bel := info.extents
      let sel := info.soe.extents
      let elind1 := extentListLocateFromPos info.heap bel mempos true
      let pos1 :=
        if 0 < elind1 then (extentListAt bel (elind1 - 1) true).map fun e =>
          obj.memindToBytind (info.heap e).extentEnd
        else some limit
      let elind2 := extentListLocateFromPos info.heap sel mempos false
      let pos2 :=
        if 0 < elind2 then (extentListAt sel (elind2 - 1) false).map fun e =>
          obj.memindToBytind (info.heap e).extentStart
        else some limit
      pos1.bind fun pos1 => pos2.map fun pos2 => (info, max (max pos1 pos2) limit)

/-! ## The extents next to a position -/

section neighbours

variable {h : ι → Extent} {el : ExtentList ι} {endp : Bool} {pos : Int} {e : ι}

theorem first_of_some (ho : el.Ordered h)
    (hle : ∀ e ∈ el.byStart.els, (h e).extentStart ≤ (h e).extentEnd)
    (hat : extentListAt el (extentListLocateFromPos h el pos endp) endp = some e) :
    e ∈ el.byStart.els ∧ pos ≤ (h e).endpoint endp ∧
      ∀ a ∈ el.byStart.els, pos ≤ (h a).endpoint endp →
        (h e).endpoint endp ≤ (h a).endpoint endp := by
  have hmem := fun a => ho.mem_drop (e := a) endp pos hle
  have horder := (ho.array endp).sublist
    (drop_sublist (extentListLocateFromPos h el pos endp) (el.array endp).els)
  rw [extentListAt, ← head?_drop] at hat
  obtain ⟨rest, hrest⟩ := List.head?_eq_some_iff.mp hat
  rw [hrest] at hmem horder
  obtain ⟨he, hpos⟩ := (hmem e).mp (mem_cons_self ..)
  refine ⟨he, hpos, fun a ha hapos => ?_⟩
  obtain rfl | ha := List.mem_cons.mp ((hmem a).mpr ⟨ha, hapos⟩)
  · exact le_refl _
  · exact Extent.endpoint_le_of_key_le ((InOrder.cons_iff.mp horder).1 a ha)

theorem first_of_none (ho : el.Ordered h)
    (hle : ∀ e ∈ el.byStart.els, (h e).extentStart ≤ (h e).extentEnd)
    (hat : extentListAt el (extentListLocateFromPos h el pos endp) endp = none) :
    ∀ a ∈ el.byStart.els, (h a).endpoint endp < pos := by
  intro a ha
  by_contra hnot
  have hmem := (ho.mem_drop endp pos hle).mpr ⟨ha, Int.not_lt.mp hnot⟩
  rw [drop_eq_nil_of_le (List.getElem?_eq_none_iff.mp hat)] at hmem
  cases hmem

theorem last_of_pos (ho : el.Ordered h)
    (hle : ∀ e ∈ el.byStart.els, (h e).extentStart ≤ (h e).extentEnd)
    (hlt : 0 < extentListLocateFromPos h el pos endp) :
    ∃ e, extentListAt el (extentListLocateFromPos h el pos endp - 1) endp = some e ∧
      e ∈ el.byStart.els ∧ (h e).endpoint endp < pos ∧
      ∀ a ∈ el.byStart.els, (h a).endpoint endp < pos →
        (h a).endpoint endp ≤ (h e).endpoint endp := by
  have hmem := fun a => ho.mem_take (e := a) endp pos hle
  have hlen := ho.locateFromPos_le endp pos hle
  have horder := (ho.array endp).sublist
    (take_sublist (extentListLocateFromPos h el pos endp) (el.array endp).els)
  have hget := getElem?_eq_getElem (l := (el.array endp).els)
    (show extentListLocateFromPos h el pos endp - 1 < _ by omega)
  have hsplit : (el.array endp).els.take (extentListLocateFromPos h el pos endp)
      = (el.array endp).els.take (extentListLocateFromPos h el pos endp - 1)
        ++ [(el.array endp).els[extentListLocateFromPos h el pos endp - 1]] := by
    rw [take_append_getElem, Nat.sub_add_cancel hlt]
  rw [hsplit] at hmem horder
  generalize (el.array endp).els[extentListLocateFromPos h el pos endp - 1] = e
    at hget hmem horder
  obtain ⟨he, hpos⟩ := (hmem e).mp (mem_append_right _ (mem_singleton_self e))
  refine ⟨e, hget, he, hpos, fun a ha hapos => ?_⟩
  obtain ha | ha := List.mem_append.mp ((hmem a).mpr ⟨ha, hapos⟩)
  · exact Extent.endpoint_le_of_key_le
      ((InOrder.append_iff.mp horder).2.2 a ha e (mem_singleton_self e))
  · rw [List.mem_singleton.mp ha]

theorem last_of_zero (ho : el.Ordered h)
    (hle : ∀ e ∈ el.byStart.els, (h e).extentStart ≤ (h e).extentEnd)
    (hzero : ¬ 0 < extentListLocateFromPos h el pos endp) :
    ∀ a ∈ el.byStart.els, pos ≤ (h a).endpoint endp := by
  intro a ha
  by_contra hnot
  have hmem := (ho.mem_take endp pos hle).mpr ⟨ha, Int.not_le.mp hnot⟩
  rw [Nat.eq_zero_of_not_pos hzero] at hmem
  cases hmem

end neighbours

/-! ## The runs -/

/-- The positions at which attached extents start or end. -/
def ExtentInfo.endpoints (info : ExtentInfo ι) (obj : BufferOrString) : Set Int :=
  {b | ∃ e ∈ info.extents.byStart.els, ∃ endp,
    b = obj.memindToBytind ((info.heap e).endpoint endp)}

theorem isLeast_min {S : Set Int} {limit pos1 pos2 : Int} (h1 : pos1 ∈ insert limit S)
    (h2 : pos2 ∈ insert limit S) (hlow : ∀ b ∈ S, pos1 ≤ b ∨ pos2 ≤ b) :
    IsLeast (insert limit S) (min (min pos1 pos2) limit) := by
  refine ⟨?_, fun b hb => ?_⟩
  · rcases min_choice (min pos1 pos2) limit with h | h <;> rw [h]
    · rcases min_choice pos1 pos2 with h | h <;> rw [h]
      · exact h1
      · exact h2
    · exact Set.mem_insert ..
  · obtain rfl | hb := hb
    · exact min_le_right ..
    · have := hlow b hb
      omega

theorem isGreatest_max {S : Set Int} {limit pos1 pos2 : Int} (h1 : pos1 ∈ insert limit S)
    (h2 : pos2 ∈ insert limit S) (hhigh : ∀ b ∈ S, b ≤ pos1 ∨ b ≤ pos2) :
    IsGreatest (insert limit S) (max (max pos1 pos2) limit) := by
  refine ⟨?_, fun b hb => ?_⟩
  · rcases max_choice (max pos1 pos2) limit with h | h <;> rw [h]
    · rcases max_choice pos1 pos2 with h | h <;> rw [h]
      · exact h1
      · exact h2
    · exact Set.mem_insert ..
  · obtain rfl | hb := hb
    · exact le_max_right ..
    · have := hhigh b hb
      omega

section runs

variable {obj : BufferOrString} {info : ExtentInfo ι}

omit [DecidableEq ι] in
theorem endpoints_of_empty (hempty : info.extents.numEls = 0) : info.endpoints obj = ∅ := by
  have hstart : info.extents.byStart.els = [] := eq_nil_of_length_eq_zero hempty
  refine Set.eq_empty_iff_forall_notMem.mpr ?_
  rintro b ⟨e, he, -⟩
  rw [hstart] at he
  cases he

/-- **The end of a run** is the first endpoint behind the position, or the limit. -/
theorem extentFindEndOfRun_isLeast (hs : info.Sound) (hv : info.In obj) (pos : Nat)
    (outsideAccessible : Bool) :
    ∃ info' r, extentFindEndOfRun obj info pos outsideAccessible = some (info', r) ∧
      info'.Sound ∧
      IsLeast (insert (obj.endLimit outsideAccessible)
        {b ∈ info.endpoints obj | (pos : Int) < b}) r := by
  rw [extentFindEndOfRun]
  by_cases hempty : info.extents.numEls = 0
  · refine ⟨info, _, if_pos hempty, hs, ?_⟩
    rw [endpoints_of_empty hempty, Set.sep_empty, insert_empty_eq]
    exact isLeast_singleton
  obtain ⟨sel, heq, hs'⟩ := soeMove_sound hs (obj.bytindToMemind pos)
  have ho := hs'.soe.ordered hs'.ordered
  have hsel : ∀ e ∈ sel.byStart.els, e ∈ info.extents.byStart.els :=
    fun e he => (hs'.soe.mem_iff.mp he).1
  have hselle := fun e he => hs.le e (hsel e he)
  simp only [hempty, if_false, heq, map_some]
  refine ⟨_, _, rfl, hs', isLeast_min ?_ ?_ ?_⟩
  · cases hat : extentListAt info.extents (extentListLocateFromPos info.heap info.extents
        (obj.bytindToMemind pos + 1) false) false with
    | none => exact .inl rfl
    | some e =>
      obtain ⟨he, hlt, -⟩ := first_of_some hs.ordered hs.le hat
      exact .inr ⟨⟨e, he, false, rfl⟩, (BufferOrString.lt_memindToBytind (hv e he false)).mpr hlt⟩
  · cases hat : extentListAt sel (extentListLocateFromPos info.heap sel
        (obj.bytindToMemind pos + 1) true) true with
    | none => exact .inl rfl
    | some e =>
      obtain ⟨he, hlt, -⟩ := first_of_some ho hselle hat
      exact .inr ⟨⟨e, hsel e he, true, rfl⟩,
        (BufferOrString.lt_memindToBytind (hv e (hsel e he) true)).mpr hlt⟩
  · rintro b ⟨⟨e, he, endp, rfl⟩, hlt⟩
    rw [BufferOrString.lt_memindToBytind (hv e he endp)] at hlt
    have hele := hs.le e he
    by_cases hstart : obj.bytindToMemind pos < (info.heap e).extentStart
    · -- the first start is not behind either end of `e`
      left
      have hendp : (info.heap e).extentStart ≤ (info.heap e).endpoint endp := by
        cases endp
        · exact le_refl _
        · exact hele
      cases hat : extentListAt info.extents (extentListLocateFromPos info.heap info.extents
          (obj.bytindToMemind pos + 1) false) false with
      | none => exact absurd (first_of_none hs.ordered hs.le hat e he) (Int.not_lt.mpr hstart)
      | some e' =>
        obtain ⟨he', -, hfirst⟩ := first_of_some hs.ordered hs.le hat
        exact BufferOrString.memindToBytind_mono (hv e' he' false) (hv e he endp)
          (Int.le_trans (hfirst e he hstart) hendp)
    · -- `e` is over the position and ends behind it
      right
      have hend : endp = true := by
        cases endp
        · exact absurd hlt hstart
        · rfl
      subst hend
      have hlt : obj.bytindToMemind pos < (info.heap e).extentEnd := hlt
      have hmem : e ∈ sel.byStart.els :=
        hs'.soe.mem_iff.mpr ⟨he, ExtentInfo.over_iff.mpr ⟨Int.not_lt.mp hstart, Int.le_of_lt hlt⟩⟩
      cases hat : extentListAt sel (extentListLocateFromPos info.heap sel
          (obj.bytindToMemind pos + 1) true) true with
      | none => exact absurd (first_of_none ho hselle hat e hmem) (Int.not_lt.mpr hlt)
      | some e' =>
        obtain ⟨he', -, hfirst⟩ := first_of_some ho hselle hat
        exact BufferOrString.memindToBytind_mono (hv e' (hsel e' he') true) (hv e he true)
          (hfirst e hmem hlt)

/-- **The beginning of a run** is the last endpoint before the position, or the limit. -/
theorem extentFindBeginningOfRun_isGreatest (hs : info.Sound) (hv : info.In obj) (pos : Nat)
    (outsideAccessible : Bool) :
    ∃ info' r, extentFindBeginningOfRun obj info pos outsideAccessible = some (info', r) ∧
      info'.Sound ∧
      IsGreatest (insert (obj.beginLimit outsideAccessible)
        {b ∈ info.endpoints obj | b < (pos : Int)}) r := by
  rw [extentFindBeginningOfRun]
  by_cases hempty : info.extents.numEls = 0
  · refine ⟨info, _, if_pos hempty, hs, ?_⟩
    rw [endpoints_of_empty hempty, Set.sep_empty, insert_empty_eq]
    exact isGreatest_singleton
  obtain ⟨sel, heq, hs'⟩ := soeMove_sound hs (obj.bytindToMemind pos)
  have ho := hs'.soe.ordered hs'.ordered
  have hsel : ∀ e ∈ sel.byStart.els, e ∈ info.extents.byStart.els :=
    fun e he => (hs'.soe.mem_iff.mp he).1
  have hselle := fun e he => hs.le e (hsel e he)
  simp only [hempty, if_false, heq, bind_some]
  -- the last end, and with it every endpoint of an extent that ends before the position
  have hpos1 : ∃ pos1, (if 0 < extentListLocateFromPos info.heap info.extents
        (obj.bytindToMemind pos) true then
      (extentListAt info.extents (extentListLocateFromPos info.heap info.extents
        (obj.bytindToMemind pos) true - 1) true).map fun e =>
          obj.memindToBytind (info.heap e).extentEnd
      else some (obj.beginLimit outsideAccessible)) = some pos1 ∧
      pos1 ∈ insert (obj.beginLimit outsideAccessible)
        {b ∈ info.endpoints obj | b < (pos : Int)} ∧
      ∀ e ∈ info.extents.byStart.els, (info.heap e).extentEnd < obj.bytindToMemind pos →
        obj.memindToBytind (info.heap e).extentEnd ≤ pos1 := by
    by_cases hlt : 0 < extentListLocateFromPos info.heap info.extents
        (obj.bytindToMemind pos) true
    · obtain ⟨e, hat, he, hepos, hlast⟩ := last_of_pos hs.ordered hs.le hlt
      refine ⟨_, by rw [if_pos hlt, hat]; rfl, .inr ⟨⟨e, he, true, rfl⟩,
        (BufferOrString.memindToBytind_lt (hv e he true)).mpr hepos⟩, fun a ha hapos => ?_⟩
      exact BufferOrString.memindToBytind_mono (hv a ha true) (hv e he true) (hlast a ha hapos)
    · refine ⟨_, if_neg hlt, .inl rfl, fun a ha hapos => ?_⟩
      exact absurd (last_of_zero hs.ordered hs.le hlt a ha) (Int.not_le.mpr hapos)
  -- the last start in the SOE
  have hpos2 : ∃ pos2, (if 0 < extentListLocateFromPos info.heap sel
        (obj.bytindToMemind pos) false then
      (extentListAt sel (extentListLocateFromPos info.heap sel
        (obj.bytindToMemind pos) false - 1) false).map fun e =>
          obj.memindToBytind (info.heap e).extentStart
      else some (obj.beginLimit outsideAccessible)) = some pos2 ∧
      pos2 ∈ insert (obj.beginLimit outsideAccessible)
        {b ∈ info.endpoints obj | b < (pos : Int)} ∧
      ∀ e ∈ sel.byStart.els, (info.heap e).extentStart < obj.bytindToMemind pos →
        obj.memindToBytind (info.heap e).extentStart ≤ pos2 := by
    by_cases hlt : 0 < extentListLocateFromPos info.heap sel (obj.bytindToMemind pos) false
    · obtain ⟨e, hat, he, hepos, hlast⟩ := last_of_pos ho hselle hlt
      refine ⟨_, by rw [if_pos hlt, hat]; rfl, .inr ⟨⟨e, hsel e he, false, rfl⟩,
        (BufferOrString.memindToBytind_lt (hv e (hsel e he) false)).mpr hepos⟩,
        fun a ha hapos => ?_⟩
      exact BufferOrString.memindToBytind_mono (hv a (hsel a ha) false) (hv e (hsel e he) false)
        (hlast a ha hapos)
    · refine ⟨_, if_neg hlt, .inl rfl, fun a ha hapos => ?_⟩
      exact absurd (last_of_zero ho hselle hlt a ha) (Int.not_le.mpr hapos)
  obtain ⟨pos1, heq1, h1, hlast1⟩ := hpos1
  obtain ⟨pos2, heq2, h2, hlast2⟩ := hpos2
  simp only [heq1, heq2, bind_some, map_some]
  refine ⟨_, _, rfl, hs', isGreatest_max h1 h2 ?_⟩
  rintro b ⟨⟨e, he, endp, rfl⟩, hlt⟩
  rw [BufferOrString.memindToBytind_lt (hv e he endp)] at hlt
  have hele := hs.le e he
  by_cases hend : (info.heap e).extentEnd < obj.bytindToMemind pos
  · left
    have hendp : (info.heap e).endpoint endp ≤ (info.heap e).extentEnd := by
      cases endp
      · exact hele
      · exact le_refl _
    exact Int.le_trans (BufferOrString.memindToBytind_mono (hv e he endp) (hv e he true) hendp)
      (hlast1 e he hend)
  · right
    have hstart : endp = false := by
      cases endp
      · rfl
      · exact absurd hlt hend
    subst hstart
    exact hlast2 e (hs'.soe.mem_iff.mpr ⟨he, ExtentInfo.over_iff.mpr
      ⟨Int.le_of_lt hlt, Int.not_lt.mp hend⟩⟩) hlt

/-- **The search for extent changes is exact** in a buffer or string with its extents in order
and a sound SOE. -/
theorem extentFindRun_exact (obj : BufferOrString) (info : ExtentInfo ι) (hs : info.Sound)
    (hv : info.In obj) (pos : Nat) (outsideAccessible : Bool) :
    (∃ info' r, extentFindEndOfRun obj info pos outsideAccessible = some (info', r) ∧
      IsLeast (insert (obj.endLimit outsideAccessible)
        {b ∈ info.endpoints obj | (pos : Int) < b}) r) ∧
    ∃ info' r, extentFindBeginningOfRun obj info pos outsideAccessible = some (info', r) ∧
      IsGreatest (insert (obj.beginLimit outsideAccessible)
        {b ∈ info.endpoints obj | b < (pos : Int)}) r := by
  obtain ⟨info₁, r₁, heq₁, -, h₁⟩ := extentFindEndOfRun_isLeast hs hv pos outsideAccessible
  obtain ⟨info₂, r₂, heq₂, -, h₂⟩ :=
    extentFindBeginningOfRun_isGreatest hs hv pos outsideAccessible
  exact ⟨⟨info₁, r₁, heq₁, h₁⟩, info₂, r₂, heq₂, h₂⟩

/-- Three bytes with a gap of four bytes behind the first one: an extent over the first byte, and
an empty one between the other two. -/
def threeBytes : BufferOrString := .buffer ⟨fun _ => 65, 2, 4, 4, 4, 0⟩ 1 4

def byteAndPoint : ExtentInfo Bool where
  heap k := if k then ⟨7, 7, false, false, true, false⟩ else ⟨1, 2, false, true, true, false⟩
  ancestor := id
  extents := ⟨⟨[false, true], []⟩, ⟨[false, true], []⟩⟩
  soe := ⟨⟨⟨[], []⟩, ⟨[], []⟩⟩, -1⟩

/-- Between the first two bytes, the runs on both sides end at the two extents. -/
theorem byteAndPoint_exact :
    ((∃ info' r, extentFindEndOfRun threeBytes byteAndPoint 2 false = some (info', r) ∧
      IsLeast (insert (threeBytes.endLimit false)
        {b ∈ byteAndPoint.endpoints threeBytes | (2 : Nat) < b}) r) ∧
    ∃ info' r, extentFindBeginningOfRun threeBytes byteAndPoint 2 false = some (info', r) ∧
      IsGreatest (insert (threeBytes.beginLimit false)
        {b ∈ byteAndPoint.endpoints threeBytes | b < (2 : Nat)}) r) ∧
    (extentFindEndOfRun threeBytes byteAndPoint 2 false).map Prod.snd = some 3 :=
  ⟨extentFindRun_exact threeBytes byteAndPoint (by decide) (by decide) 2 false, by decide⟩

end runs

end XEmacs.Extents

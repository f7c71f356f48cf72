import XEmacs.Extents.ExtentLists

/-!
# The stack of extents (extents.c)

Beside the list of the extents attached to it, a buffer or string has a stack of extents (SOE): a
second list, of those that overlap a position.
-/

namespace XEmacs.Extents

open GapArrays KeyedLists

variable {ι : Type}

/-- `struct stack_of_extents`. -/
structure StackOfExtents (ι : Type) where
  extents : ExtentList ι
  pos : Int

/-- `struct extent_info`, with the extents themselves and, for each of them, what
`extent_ancestor` gives. -/
structure ExtentInfo (ι : Type) where
  heap : ι → Extent
  ancestor : ι → ι
  extents : ExtentList ι
  soe : StackOfExtents ι

section functions

variable [DecidableEq ι]

def soeInsert (info : ExtentInfo ι) (extent : ι) : Option (ExtentInfo ι) :=
  let soe := info.soe
  if soe.pos < (info.heap extent).extentStart ∨ (info.heap extent).extentEnd < soe.pos then
    some info
  else
    (extentListInsert info.heap soe.extents extent).map fun sel =>
      { info with soe := { soe with extents := sel } }

def soeDelete (info : ExtentInfo ι) (extent : ι) : Option (ExtentInfo ι) :=
  let soe := info.soe
  if soe.pos < (info.heap extent).extentStart ∨ (info.heap extent).extentEnd < soe.pos then
    some info
  else
    (extentListDelete info.heap soe.extents extent).map fun sel =>
      { info with soe := { soe with extents := sel } }

/-- The loop of stage 1 of `soe_move`. The extents behind the deleted one move down, so all are
deleted from one position. -/
def soeDeleteFrom (h : ι → Extent) (start : Nat) (endp : Bool) :
    Nat → ExtentList ι → Option (ExtentList ι)
  | 0, sel => some sel
  | n + 1, sel =>
    (extentListAt sel start endp).bind fun e =>
    (extentListDelete h sel e).bind (soeDeleteFrom h start endp n)

/-- The loop of stage 2 of `soe_move`, over the extents on the way. -/
def soeInsertOver (h : ι → Extent) (forward : Bool) (pos : Int) :
    List ι → ExtentList ι → Option (ExtentList ι)
  | [], sel => some sel
  | e :: way, sel =>
    if if forward then pos < (h e).extentStart else (h e).extentEnd < pos then
      -- all further extents lie on the far side of `pos` and thus cannot overlap
      some sel
    else if if forward then pos ≤ (h e).extentEnd else (h e).extentStart ≤ pos then
      (extentListInsert h sel e).bind (soeInsertOver h forward pos way)
    else soeInsertOver h forward pos way sel

def soeMove (info : ExtentInfo ι) (pos : Int) : Option (ExtentInfo ι) :=
  let h := info.heap
  let soe := info.soe
  let sel := soe.extents
  let bel := info.extents
  if soe.pos = pos then some info
  else
    let forward : Bool := soe.pos < pos
    let stage1 :=
      if sel.numEls = 0 then some sel
      else if forward then
        soeDeleteFrom h 0 true (extentListLocateFromPos h sel pos true) sel
      else
        let start := extentListLocateFromPos h sel (pos + 1) false
        soeDeleteFrom h start false (sel.numEls - start) sel
    -- forward from the first extent that starts behind the old position, or backward from the
    -- last one that ends before it
    let way :=
      if forward then
        bel.byStart.els.drop (extentListLocateFromPos h bel (soe.pos + 1) false)
      else (bel.byEnd.els.take (extentListLocateFromPos h bel soe.pos true)).reverse
    (stage1.bind (soeInsertOver h forward pos way)).map fun sel =>
      { info with soe := ⟨sel, pos⟩ }

end functions

/-! ## The invariants -/

/-- The extent overlaps a position, both of its endpoints taken for closed. -/
def Extent.overlaps (e : Extent) (pos : Int) : Bool :=
  e.extentStart ≤ pos && pos ≤ e.extentEnd

theorem Extent.overlaps_iff {e : Extent} {pos : Int} :
    e.overlaps pos = true ↔ e.extentStart ≤ pos ∧ pos ≤ e.extentEnd := by
  rw [overlaps, Bool.and_eq_true, decide_eq_true_eq, decide_eq_true_eq]

/-- The two arrays of the list are in step, and no extent in it is detached or ends before it
starts. -/
structure ExtentInfo.Sorted (info : ExtentInfo ι) : Prop where
  ordered : info.extents.Ordered info.heap
  attached : ∀ e ∈ info.extents.byStart.els, 0 ≤ (info.heap e).extentStart
  le : ∀ e ∈ info.extents.byStart.els, (info.heap e).extentStart ≤ (info.heap e).extentEnd

/-- The extents over a position. -/
def ExtentInfo.over (info : ExtentInfo ι) (pos : Int) (e : ι) : Bool := (info.heap e).overlaps pos

/-- The SOE holds a part of the list. -/
structure ExtentInfo.Holds (info : ExtentInfo ι) (P : ι → Bool) : Prop extends info.Sorted where
  soe : info.extents.Selects P info.soe.extents

/-- The SOE holds the extents over its position, in the order of the list. -/
structure ExtentInfo.Sound (info : ExtentInfo ι) : Prop extends info.Sorted where
  soe : info.extents.Selects (info.over info.soe.pos) info.soe.extents

/-- The SOE lacks some of the extents over its position. -/
structure ExtentInfo.SoundBut (info : ExtentInfo ι) (lost : ι → Bool) : Prop
    extends info.Sorted where
  soe : info.extents.Selects (fun e => info.over info.soe.pos e && !lost e) info.soe.extents

theorem ExtentInfo.over_iff {info : ExtentInfo ι} {pos : Int} {e : ι} :
    info.over pos e = true ↔
      (info.heap e).extentStart ≤ pos ∧ pos ≤ (info.heap e).extentEnd :=
  Extent.overlaps_iff

theorem ExtentInfo.Sound.but {info : ExtentInfo ι} (hs : info.Sound) {lost : ι → Bool}
    (hlost : ∀ e ∈ info.extents.byStart.els, info.over info.soe.pos e = true → lost e = false) :
    info.SoundBut lost := by
  refine ⟨hs.toSorted, hs.soe.congr hs.ordered fun e he => ?_⟩
  cases hover : info.over info.soe.pos e with
  | false => rfl
  | true => rw [hlost e he hover]; rfl

theorem ExtentInfo.SoundBut.sound {info : ExtentInfo ι} {lost : ι → Bool}
    (hs : info.SoundBut lost)
    (hlost : ∀ e ∈ info.extents.byStart.els, info.over info.soe.pos e = true → lost e = false) :
    info.Sound := by
  refine ⟨hs.toSorted, hs.soe.congr hs.ordered fun e he => ?_⟩
  cases hover : info.over info.soe.pos e with
  | false => rfl
  | true => rw [hlost e he hover]; rfl

theorem ExtentInfo.SoundBut.congr {info : ExtentInfo ι} {lost lost' : ι → Bool}
    (hs : info.SoundBut lost)
    (hlost : ∀ e ∈ info.extents.byStart.els, info.over info.soe.pos e = true →
      lost e = lost' e) : info.SoundBut lost' := by
  refine ⟨hs.toSorted, hs.soe.congr hs.ordered fun e he => ?_⟩
  cases hover : info.over info.soe.pos e with
  | false => rfl
  | true => rw [hlost e he hover]

theorem ExtentInfo.Sorted.withSoe {info : ExtentInfo ι} (hs : info.Sorted)
    (soe : StackOfExtents ι) : ExtentInfo.Sorted { info with soe := soe } :=
  ⟨hs.ordered, hs.attached, hs.le⟩

instance [DecidableEq ι] (info : ExtentInfo ι) : Decidable info.Sorted :=
  decidable_of_iff (info.extents.Ordered info.heap ∧
      (∀ e ∈ info.extents.byStart.els, 0 ≤ (info.heap e).extentStart) ∧
      ∀ e ∈ info.extents.byStart.els, (info.heap e).extentStart ≤ (info.heap e).extentEnd)
    ⟨fun h => ⟨h.1, h.2.1, h.2.2⟩, fun h => ⟨h.1, h.2, h.3⟩⟩

instance [DecidableEq ι] (info : ExtentInfo ι) : Decidable info.Sound :=
  decidable_of_iff (info.Sorted ∧
      info.extents.Selects (info.over info.soe.pos) info.soe.extents)
    ⟨fun h => ⟨h.1, h.2⟩, fun h => ⟨h.1, h.2⟩⟩

/-! ## Motion -/

section motion

variable [DecidableEq ι] {h : ι → Extent} {bel sel : ExtentList ι} {P : ι → Bool} {pos : Int}

/-- **Stage 1** takes the extents of a stretch of one array out of both. -/
theorem soeDeleteFrom_selects (hb : bel.Ordered h) {endp : Bool} {A B : List ι} :
    ∀ {D : List ι} {sel : ExtentList ι} {P : ι → Bool}, bel.Selects P sel →
      (sel.array endp).els = A ++ (D ++ B) →
      ∃ sel', soeDeleteFrom h A.length endp D.length sel = some sel' ∧
        bel.Selects (fun e => P e && e ∉ D) sel'
  | [], sel, P, hs, _ => ⟨sel, rfl, by simpa using hs⟩
  | d :: D, sel, P, hs, hsel => by
    have ho := hs.ordered hb
    have hat : extentListAt sel A.length endp = some d := by
      rw [extentListAt, hsel, List.getElem?_append_right (Nat.le_refl _), Nat.sub_self]
      rfl
    have hmem : d ∈ sel.byStart.els :=
      ho.mem_array.mp (List.mem_of_getElem? hat)
    have hnodup : (sel.array endp).els.Nodup := by
      cases endp
      · exact ho.nodup
      · exact ho.nodup_byEnd
    have hrest : ((sel.erased d).array endp).els = A ++ (D ++ B) := by
      have herase : ((sel.erased d).array endp).els = (sel.array endp).els.erase d := by
        cases endp
        · exact sel.erased_byStart d
        · exact sel.erased_byEnd d
      rw [hsel, List.cons_append, List.nodup_middle] at hnodup
      rw [herase, hsel, List.erase_append_right _ fun hd => hnodup.notMem
        (List.mem_append_left _ hd), List.cons_append, List.erase_cons_head]
    obtain ⟨sel', heq, hs'⟩ := soeDeleteFrom_selects hb (hs.erased hb d) hrest
    refine ⟨sel', ?_, ?_⟩
    · rw [List.length_cons, soeDeleteFrom, hat, Option.bind_some, ho.delete_eq hmem,
        Option.bind_some, heq]
    · refine hs'.congr hb fun e _ => ?_
      simp only [List.mem_cons, not_or, bne, Bool.and_assoc, Bool.decide_and, decide_not,
        beq_eq_decide]

/-- The extents on a way through one of the orders: those that are equal come in the order in
which they are put in, and behind one on the far side of the position all are. -/
structure Way (h : ι → Extent) (bel : ExtentList ι) (forward : Bool) (pos : Int) (way : List ι) :
    Prop where
  mem : ∀ e ∈ way, e ∈ bel.byStart.els
  nodup : way.Nodup
  ties : ∀ e rest l₁ l₂, e :: rest <:+ way → bel.byStart.els = l₁ ++ e :: l₂ →
    ∀ a ∈ l₂, (h a).equal (h e) = true → a ∈ rest
  far : ∀ e rest, e :: rest <:+ way →
    (if forward then pos < (h e).extentStart else (h e).extentEnd < pos) →
    ∀ a ∈ rest, if forward then pos < (h a).extentStart else (h a).extentEnd < pos

/-- **Stage 2**: the extents on the way that overlap the position are put in. -/
theorem Way.insertOver {way₀ : List ι} {forward : Bool} (hway : Way h bel forward pos way₀)
    (hb : bel.Ordered h) :
    ∀ {way : List ι} {sel : ExtentList ι} {P : ι → Bool}, way <:+ way₀ → bel.Selects P sel →
      (∀ e ∈ way, P e = false) →
      ∃ sel', soeInsertOver h forward pos way sel = some sel' ∧
        bel.Selects (fun e => P e || (e ∈ way && (h e).overlaps pos)) sel'
  | [], sel, P, _, hs, _ => ⟨sel, rfl, by simpa using hs⟩
  | e :: way, sel, P, hsuffix, hs, hP => by
    have hPe := hP e (List.mem_cons_self ..)
    have hPway := fun a ha => hP a (List.mem_cons_of_mem e ha)
    have hsuffix' := (List.suffix_cons e way).trans hsuffix
    have hne := (List.nodup_cons.mp (hsuffix.sublist.nodup hway.nodup)).1
    rw [soeInsertOver]
    by_cases hfar : if forward then pos < (h e).extentStart else (h e).extentEnd < pos
    · -- none of the extents from here on overlaps
      have hnone : ∀ a ∈ e :: way, (h a).overlaps pos = false := by
        intro a ha
        have hfar' : if forward then pos < (h a).extentStart else (h a).extentEnd < pos := by
          obtain rfl | ha := List.mem_cons.mp ha
          · exact hfar
          · exact hway.far e way hsuffix hfar a ha
        refine Bool.eq_false_iff.mpr fun hover => ?_
        have := Extent.overlaps_iff.mp hover
        cases forward
        · exact Int.not_lt.mpr this.2 hfar'
        · exact Int.not_lt.mpr this.1 hfar'
      rw [if_pos hfar]
      refine ⟨sel, rfl, hs.congr hb fun a _ => ?_⟩
      by_cases ha : a ∈ e :: way
      · rw [hnone a ha, Bool.and_false, Bool.or_false]
      · rw [decide_eq_false ha, Bool.false_and, Bool.or_false]
    rw [if_neg hfar]
    have hover : (if forward then pos ≤ (h e).extentEnd else (h e).extentStart ≤ pos) ↔
        (h e).overlaps pos = true := by
      rw [Extent.overlaps_iff]
      cases forward
      · exact ⟨fun h => ⟨h, Int.not_lt.mp hfar⟩, fun h => h.1⟩
      · exact ⟨fun h => ⟨Int.not_lt.mp hfar, h⟩, fun h => h.2⟩
    by_cases hself : (h e).overlaps pos = true
    · obtain ⟨l₁, l₂, hl⟩ := List.append_of_mem (hway.mem e (hsuffix.mem (List.mem_cons_self ..)))
      have hnotin : e ∉ sel.byStart.els := by
        intro he
        rw [(hs.mem_iff.mp he).2] at hPe
        cases hPe
      -- the equals of `e` that are behind it are still to come
      have hins := hs.inserted hb hl hPe fun a ha hPa => by
        refine Bool.eq_false_iff.mpr fun haeq => ?_
        rw [hPway a (hway.ties e way l₁ l₂ hsuffix hl a ha haeq)] at hPa
        cases hPa
      obtain ⟨sel', heq, hs'⟩ := hway.insertOver hb hsuffix' hins fun a ha => by
        rw [hPway a ha, Bool.false_or, beq_eq_false_iff_ne]
        rintro rfl
        exact hne ha
      rw [if_pos (hover.mpr hself), (hs.ordered hb).insert_eq hnotin, Option.bind_some]
      refine ⟨sel', heq, hs'.congr hb fun a _ => ?_⟩
      by_cases hae : a = e
      · subst hae
        simp [hself]
      · simp [beq_eq_false_iff_ne.mpr hae, hae]
    · obtain ⟨sel', heq, hs'⟩ := hway.insertOver hb hsuffix' hs hPway
      rw [if_neg (mt hover.mp hself)]
      refine ⟨sel', heq, hs'.congr hb fun a _ => ?_⟩
      by_cases hae : a = e
      · subst hae
        simp [hself]
      · simp [hae]

omit [DecidableEq ι] in
theorem way_forward (hb : bel.Ordered h) (n : Nat) (pos : Int) :
    Way h bel true pos (bel.byStart.els.drop n) := by
  refine ⟨fun e he => List.mem_of_mem_drop he, hb.nodup.sublist (List.drop_sublist ..), ?_, ?_⟩
  · intro e rest l₁ l₂ hsuffix hl a ha _
    obtain ⟨A, hA⟩ := hsuffix.trans (List.drop_suffix ..)
    have hnodup := hb.nodup
    rw [← hA] at hnodup
    have hne := (List.nodup_middle.mp hnodup).notMem
    obtain ⟨-, -, rfl⟩ := (List.append_cons_inj_of_notMem
      (fun h => hne (List.mem_append_left _ h))
      fun h => hne (List.mem_append_right _ h)).mp (hA.trans hl)
    exact ha
  · intro e rest hsuffix hfar a ha
    have ho := hb.byStart.sublist (hsuffix.trans (List.drop_suffix ..)).sublist
    have hle := Extent.endpoint_le_of_key_le ((InOrder.cons_iff.mp ho).1 a ha)
    exact Int.lt_of_lt_of_le hfar hle

theorem way_backward (hb : bel.Ordered h) (n : Nat) (pos : Int) :
    Way h bel false pos (bel.byEnd.els.take n).reverse := by
  refine ⟨fun e he => hb.mem_byEnd.mp (List.mem_of_mem_take (List.mem_reverse.mp he)),
    List.nodup_reverse.mpr (hb.nodup_byEnd.sublist (List.take_sublist ..)), ?_, ?_⟩
  · intro e rest l₁ l₂ hsuffix hl a ha haeq
    obtain ⟨A, hA⟩ := hsuffix
    have hm : bel.byEnd.els = rest.reverse ++ e :: (A.reverse ++ bel.byEnd.els.drop n) := by
      have htake := congrArg List.reverse hA
      rw [List.reverse_reverse, List.reverse_append, List.reverse_cons, List.append_assoc] at htake
      conv_lhs => rw [← List.take_append_drop n bel.byEnd.els, ← htake]
      simp only [List.append_assoc, List.cons_append, List.nil_append]
    -- equal extents stand the other way round in the e-order
    have hmem : a ∈ rest.reverse.filter fun a => (h a).equal (h e) := by
      rw [(hb.ties_split hl hm).1]
      exact List.mem_reverse.mpr (List.mem_filter.mpr ⟨ha, haeq⟩)
    exact List.mem_reverse.mp (List.mem_of_mem_filter hmem)
  · intro e rest hsuffix hfar a ha
    have ho := hb.byEnd.sublist ((List.reverse_sublist.mpr hsuffix.sublist).trans
      (by rw [List.reverse_reverse]; exact List.take_sublist ..))
    rw [List.reverse_cons, InOrder.append_iff] at ho
    have hle := Extent.endpoint_le_of_key_le
      (ho.2.2 a (List.mem_reverse.mpr ha) e (List.mem_singleton_self e))
    exact Int.lt_of_le_of_lt hle hfar

/-! ### From position to position -/

variable {info : ExtentInfo ι} {lost : ι → Bool}

/-- Stage 1 leaves the extents that overlap both positions. -/
theorem ExtentInfo.SoundBut.stage1 (hs : info.SoundBut lost) (pos : Int) :
    ∃ sel, (if info.soe.extents.numEls = 0 then some info.soe.extents
      else if info.soe.pos < pos then
        soeDeleteFrom info.heap 0 true
          (extentListLocateFromPos info.heap info.soe.extents pos true) info.soe.extents
      else
        soeDeleteFrom info.heap
          (extentListLocateFromPos info.heap info.soe.extents (pos + 1) false) false
          (info.soe.extents.numEls
            - extentListLocateFromPos info.heap info.soe.extents (pos + 1) false)
          info.soe.extents) = some sel ∧
      info.extents.Selects (fun e => info.over info.soe.pos e && !lost e && info.over pos e)
        sel := by
  have ho := hs.soe.ordered hs.ordered
  have hle : ∀ e ∈ info.soe.extents.byStart.els,
      (info.heap e).extentStart ≤ (info.heap e).extentEnd :=
    fun e he => hs.le e (hs.soe.mem_iff.mp he).1
  split
  · rename_i hempty
    have hstart : info.soe.extents.byStart.els = [] := List.eq_nil_of_length_eq_zero hempty
    refine ⟨_, rfl, hs.soe.congr hs.ordered fun e he => ?_⟩
    have hnot : (info.over info.soe.pos e && !lost e) = false := by
      refine Bool.eq_false_iff.mpr fun hover => ?_
      have hmem := hs.soe.mem_iff.mpr ⟨he, hover⟩
      rw [hstart] at hmem
      cases hmem
    rw [hnot, Bool.false_and]
  split
  · -- those that end before `pos` are the first ones in the e-order
    rename_i hlt
    have hmem := fun e => ho.mem_take (e := e) true pos hle
    have hlen := List.length_take_of_le (ho.locateFromPos_le true pos hle)
    obtain ⟨sel, heq, hsel⟩ := soeDeleteFrom_selects hs.ordered (A := []) hs.soe
      (List.take_append_drop (extentListLocateFromPos info.heap info.soe.extents pos true)
        (info.soe.extents.array true).els).symm
    rw [hlen] at heq
    refine ⟨sel, heq, hsel.congr hs.ordered fun e he => ?_⟩
    rw [Bool.eq_iff_iff, Bool.and_eq_true, Bool.and_eq_true, Bool.and_eq_true, Bool.and_eq_true,
      decide_eq_true_eq, hmem, hs.soe.mem_iff, Bool.and_eq_true, ExtentInfo.over_iff,
      ExtentInfo.over_iff]
    simp only [Extent.endpoint, if_true]
    grind
  · -- those that start behind `pos` are the last ones in the display order
    rename_i hlt
    have hmem := fun e => ho.mem_drop (e := e) false (pos + 1) hle
    have hlen :=
      List.length_take_of_le (ho.locateFromPos_le false (pos + 1) hle)
    have hsplit := List.take_append_drop
      (extentListLocateFromPos info.heap info.soe.extents (pos + 1) false)
      (info.soe.extents.array false).els
    rw [← List.append_nil (List.drop _ _)] at hsplit
    obtain ⟨sel, heq, hsel⟩ := soeDeleteFrom_selects hs.ordered hs.soe hsplit.symm
    rw [hlen, List.length_drop] at heq
    refine ⟨sel, heq, hsel.congr hs.ordered fun e he => ?_⟩
    rw [Bool.eq_iff_iff, Bool.and_eq_true, Bool.and_eq_true, Bool.and_eq_true, Bool.and_eq_true,
      decide_eq_true_eq, hmem, hs.soe.mem_iff, Bool.and_eq_true, ExtentInfo.over_iff,
      ExtentInfo.over_iff]
    simp only [Extent.endpoint, Bool.false_eq_true, if_false]
    grind

/-- **The SOE moved** holds the extents over the new position, but for those that it lacked and
that are over both positions. -/
theorem ExtentInfo.SoundBut.move (hs : info.SoundBut lost) (pos : Int) :
    ∃ sel, soeMove info pos = some { info with soe := ⟨sel, pos⟩ } ∧
      info.extents.Selects
        (fun e => info.over pos e && !(info.over info.soe.pos e && lost e)) sel := by
  rw [soeMove]
  by_cases hpos : info.soe.pos = pos
  · rw [if_pos hpos]
    subst hpos
    refine ⟨info.soe.extents, rfl, hs.soe.congr hs.ordered fun e _ => ?_⟩
    cases info.over info.soe.pos e <;> rfl
  rw [if_neg hpos]
  obtain ⟨sel₁, heq₁, hsel₁⟩ := hs.stage1 pos
  simp only [decide_eq_true_eq] at heq₁ ⊢
  rw [heq₁, Option.bind_some]
  -- both ways have the same end
  have hway : ∀ {forward : Bool} {way : List ι}, Way info.heap info.extents forward pos way →
      (∀ e ∈ way, info.over info.soe.pos e = false) →
      (∀ e ∈ info.extents.byStart.els, info.over pos e = true →
        info.over info.soe.pos e = true ∨ e ∈ way) →
      ∃ sel, (soeInsertOver info.heap forward pos way sel₁).map
          (fun sel => { info with soe := ⟨sel, pos⟩ }) = some { info with soe := ⟨sel, pos⟩ } ∧
        info.extents.Selects
          (fun e => info.over pos e && !(info.over info.soe.pos e && lost e)) sel := by
    intro forward way hway hnot hall
    obtain ⟨sel, heq, hsel⟩ := hway.insertOver hs.ordered (List.suffix_refl way) hsel₁
      fun e he => by rw [hnot e he, Bool.false_and, Bool.false_and]
    rw [heq]
    refine ⟨sel, rfl, hsel.congr hs.ordered fun e he => ?_⟩
    show (info.over info.soe.pos e && !lost e && info.over pos e ||
      (decide (e ∈ way) && info.over pos e)) = _
    cases hover : info.over pos e with
    | false => rw [Bool.and_false, Bool.and_false, Bool.or_false, Bool.false_and]
    | true =>
      rw [Bool.and_true, Bool.and_true, Bool.true_and]
      -- what is on the way was not over the old position, and all else was
      cases hold : info.over info.soe.pos e with
      | true =>
        have hway : e ∉ way := fun he => by
          rw [hnot e he] at hold
          cases hold
        rw [decide_eq_false hway, Bool.true_and, Bool.true_and, Bool.or_false]
      | false =>
        have hway : e ∈ way := (hall e he hover).resolve_left (by rw [hold]; decide)
        rw [decide_eq_true hway, Bool.or_true, Bool.false_and, Bool.not_false]
  by_cases hlt : info.soe.pos < pos
  · have hmem := fun e => hs.ordered.mem_drop (e := e) false (info.soe.pos + 1) hs.le
    simp only [hlt, decide_true, if_true]
    refine hway (way_forward hs.ordered _ pos) (fun e he => ?_) fun e he hover => ?_
    · have hstart := ((hmem e).mp he).2
      simp only [Extent.endpoint, Bool.false_eq_true, if_false] at hstart
      exact Bool.eq_false_iff.mpr fun hover => by
        have := ExtentInfo.over_iff.mp hover
        omega
    · have hstart := mt (fun h => (hmem e).mpr ⟨he, h⟩)
      simp only [Extent.endpoint, Bool.false_eq_true, if_false] at hstart
      rw [ExtentInfo.over_iff] at hover ⊢
      by_contra hnot
      rw [not_or] at hnot
      have := hstart hnot.2
      omega
  · have hmem := fun e => hs.ordered.mem_take (e := e) true info.soe.pos hs.le
    simp only [hlt, decide_false, if_false]
    refine hway (way_backward hs.ordered _ pos) (fun e he => ?_) fun e he hover => ?_
    · have hend := ((hmem e).mp (List.mem_reverse.mp he)).2
      simp only [Extent.endpoint, if_true] at hend
      exact Bool.eq_false_iff.mpr fun hover => by
        have := ExtentInfo.over_iff.mp hover
        omega
    · have hend := mt (fun h => List.mem_reverse.mpr ((hmem e).mpr ⟨he, h⟩))
      simp only [Extent.endpoint, if_true] at hend
      rw [ExtentInfo.over_iff] at hover ⊢
      by_contra hnot
      rw [not_or] at hnot
      have := hend hnot.2
      omega

theorem soeMove_eq (hs : info.Sound) (pos : Int) :
    ∃ sel, soeMove info pos = some { info with soe := ⟨sel, pos⟩ } ∧
      info.extents.Selects (info.over pos) sel := by
  have hnone : info.SoundBut fun _ => false := hs.but fun _ _ _ => rfl
  obtain ⟨sel, heq, hsel⟩ := hnone.move pos
  refine ⟨sel, heq, hsel.congr hs.ordered fun e _ => ?_⟩
  rw [Bool.and_false, Bool.not_false, Bool.and_true]

theorem soeMove_sound (hs : info.Sound) (pos : Int) :
    ∃ sel, soeMove info pos = some { info with soe := ⟨sel, pos⟩ } ∧
      ExtentInfo.Sound { info with soe := ⟨sel, pos⟩ } := by
  obtain ⟨sel, heq, hsel⟩ := soeMove_eq hs pos
  exact ⟨sel, heq, hs.toSorted.withSoe _, hsel⟩

end motion

end XEmacs.Extents

import XEmacs.Extents.MapStages

/-!
# A rule for mappings that change the extents (extents.c)

A function that is mapped may change the lists that are mapped over, as long as it touches no
extent but the one it is called on: what is left of the array stays as it is, wherever the extent
goes (`LeavesRest`).
-/

namespace XEmacs.Extents

open GapArrays KeyedLists List Option

variable {ι α : Type}

/-! ## What is left of an array -/

/-- From a marker behind `e` on, the array stays as it is. -/
def LeavesRest (t t' : TrackedList ι) (e : ι) : Prop :=
  ∀ m done rest, t.els = done ++ e :: rest → markerPos t m = some (done.length + 1) →
    ∃ done', t'.els = done' ++ rest ∧ markerPos t' m = some done'.length

namespace LeavesRest

variable {t t' : TrackedList ι} {e : ι}

theorem refl (t : TrackedList ι) (e : ι) : LeavesRest t t e := by
  intro m done rest hels hm
  refine ⟨done ++ [e], ?_, ?_⟩
  · rw [hels, append_assoc, singleton_append]
  · rw [hm, length_append, length_singleton]

theorem delete [DecidableEq ι] (hnodup : t.els.Nodup) (e : ι) :
    LeavesRest t (t.delete (t.els.idxOf e) 1) e := by
  intro m done rest hels hm
  rw [hels, nodup_middle] at hnodup
  have hnot : e ∉ done := fun he => hnodup.notMem (mem_append_left _ he)
  have hidx : t.els.idxOf e = done.length := by
    rw [hels, idxOf_append_of_notMem hnot, idxOf_cons_self, Nat.add_zero]
  refine ⟨done, ?_, ?_⟩
  · rw [ExtentList.delete_idxOf, hels, erase_append_right _ hnot, erase_cons_head]
  · rw [markerPos_delete, hm, hidx]
    simp only [map_some, BytePositions.deletedAt]
    congr 1
    grind

end LeavesRest

/-! ## The rule -/

/-- What the SOE lacks when it has been moved to a position. -/
def ExtentInfo.lostAt (info : ExtentInfo ι) (lost : ι → Bool) (pos : Int) (e : ι) : Bool :=
  info.over pos e && (info.over info.soe.pos e && lost e)

theorem lostAt_soundBut {info : ExtentInfo ι} {pos : Int} {sel : ExtentList ι}
    (hs : ExtentInfo.SoundBut { info with soe := ⟨sel, pos⟩ }
      (fun e => info.over info.soe.pos e && lost e)) :
    ExtentInfo.SoundBut { info with soe := ⟨sel, pos⟩ } (info.lostAt lost pos) := by
  refine hs.congr fun e _ hover => ?_
  have hover : info.over pos e = true := hover
  rw [ExtentInfo.lostAt, hover, Bool.true_and]

/-- A function treats the extents of a region, in a list where the SOE lacks what is `lost`: it
keeps `Inv` and changes no extent but the one it is called on, and then that one is `Met`. What
is not met is as it was. -/
structure Treats (obj : BufferOrString) (fn : MapFun ι α) (flags : MapFlags) (frm upTo : Nat)
    (lost : ι → Bool) (info₀ : ExtentInfo ι) (Inv : ExtentInfo ι → α → Prop)
    (Met : ι → ExtentInfo ι → α → Prop) : Prop where
  sound : ∀ {info arg}, Inv info arg →
    info.SoundBut lost ∧ info.soe.pos = obj.bytindToMemind frm
  mem : ∀ {info arg}, Inv info arg → ∀ e ∈ info.extents.byStart.els,
    e ∈ info₀.extents.byStart.els
  untouched : ∀ {info arg}, Inv info arg → ∀ e ∈ info₀.extents.byStart.els,
    Met e info arg ∨ e ∈ info.extents.byStart.els ∧ info.heap e = info₀.heap e
  alike : ∀ {info info' arg}, Inv info arg → info.Alike info' →
    Inv info' arg ∧ ∀ e, Met e info arg → Met e info' arg
  skip : ∀ {info arg e}, Inv info arg → e ∈ info.extents.byStart.els →
    (info.seen flags e && extentInRegionP obj info e frm upTo flags) = false → Met e info arg
  call : ∀ {info arg e}, Inv info arg → e ∈ info.extents.byStart.els →
    info.seen flags e = true → extentInRegionP obj info e frm upTo flags = true →
    ∃ info' arg', fn e info arg = some (info', arg', false) ∧ Inv info' arg' ∧
      Met e info' arg' ∧ (∀ a, Met a info arg → Met a info' arg') ∧
      (∀ a, a ≠ e → info'.heap a = info.heap a) ∧
      (flags.mightModifyExtents = false → info' = info) ∧
      LeavesRest info.soe.extents.byStart info'.soe.extents.byStart e ∧
      ((info.over (obj.bytindToMemind frm) e = true → lost e = true) →
        LeavesRest info.extents.byStart info'.extents.byStart e)

namespace Treats

variable [DecidableEq ι] {obj : BufferOrString} {fn : MapFun ι α} {flags : MapFlags}
  {frm upTo : Nat} {lost : ι → Bool} {info₀ : ExtentInfo ι} {Inv : ExtentInfo ι → α → Prop}
  {Met : ι → ExtentInfo ι → α → Prop} {posm : Option Nat} {onSoe : Bool} {s : MapState ι α}
  {els : List ι} {pos : Nat}

/-- How far the loop of a stage is: what is behind it is met, and so is what was met before. -/
structure Going (obj : BufferOrString) (frm upTo : Nat) (lost : ι → Bool)
    (Inv : ExtentInfo ι → α → Prop) (Met : ι → ExtentInfo ι → α → Prop) (onSoe : Bool)
    (els : List ι) (s₀ : MapState ι α) (rest : List ι) (s : MapState ι α) : Prop where
  inv : Inv s.info s.arg
  after : s.after = none
  st : s.st = obj.bytindToMemind frm
  en : s.en = obj.bytindToMemind upTo
  met : ∀ e, e ∈ els ∨ Met e s₀.info s₀.arg → e ∈ rest ∨ Met e s.info s.arg
  away : onSoe = false → ∀ e ∈ rest, s.info.over (obj.bytindToMemind frm) e = true →
    lost e = true

/-- How it ends. -/
structure Gone (obj : BufferOrString) (frm upTo : Nat) (Inv : ExtentInfo ι → α → Prop)
    (Met : ι → ExtentInfo ι → α → Prop) (els : List ι) (s₀ s : MapState ι α) (stop : Bool) :
    Prop where
  inv : Inv s.info s.arg
  after : s.after = none
  st : s.st = obj.bytindToMemind frm
  en : s.en = obj.bytindToMemind upTo
  met : ∀ e, e ∈ els ∨ Met e s₀.info s₀.arg → Met e s.info s.arg
  stop : stop = false

omit [DecidableEq ι] in
theorem Going.alike {s₀ : MapState ι α} {rest : List ι} {info' : ExtentInfo ι}
    (ht : Treats obj fn flags frm upTo lost info₀ Inv Met)
    (hg : Going obj frm upTo lost Inv Met onSoe els s₀ rest s) (h : s.info.Alike info') :
    Going obj frm upTo lost Inv Met onSoe els s₀ rest { s with info := info' } := by
  obtain ⟨hinv, hmet⟩ := ht.alike hg.inv h
  refine ⟨hinv, hg.after, hg.st, hg.en, fun e he => (hg.met e he).imp_right (hmet e),
    fun honSoe e he hover => hg.away honSoe e he ?_⟩
  have hover : info'.over (obj.bytindToMemind frm) e = true := hover
  rwa [ExtentInfo.over, h.heap] at hover

omit [DecidableEq ι] in
theorem mem_list (ht : Treats obj fn flags frm upTo lost info₀ Inv Met) {info : ExtentInfo ι}
    {arg : α} (hinv : Inv info arg) {e : ι}
    (he : e ∈ ((info.list onSoe).array false).els) : e ∈ info.extents.byStart.els := by
  cases onSoe with
  | false => exact he
  | true => exact ((ht.sound hinv).1.soe.mem_iff.mp he).1

/-- **A round.** -/
theorem round (ht : Treats obj fn flags frm upTo lost info₀ Inv Met)
    (hle : obj.bytindToMemind frm ≤ obj.bytindToMemind upTo)
    (hposm : posm.isSome = flags.mightModifyExtents) {s₀ : MapState ι α} (rest : List ι)
    (s : MapState ι α) (pos : Nat)
    (hI : Going obj frm upTo lost Inv Met onSoe els s₀ rest s ∧
      ∃ done, MapLoop.At ⟨obj, fn, flags, none, onSoe, false, posm⟩ s pos done rest) :
    ∃ x, MapLoop.round ⟨obj, fn, flags, none, onSoe, false, posm⟩ s pos = some x ∧
      x.Leads (fun rest s pos => Going obj frm upTo lost Inv Met onSoe els s₀ rest s ∧
          ∃ done, MapLoop.At ⟨obj, fn, flags, none, onSoe, false, posm⟩ s pos done rest)
        (Gone obj frm upTo Inv Met els s₀) rest := by
  obtain ⟨hg, done, hat⟩ := hI
  cases rest with
  | nil =>
    exact ⟨_, hat.round_nil, hg.inv, hg.after, hg.st, hg.en,
      fun e he => (hg.met e he).resolve_left not_mem_nil, rfl⟩
  | cons e rest =>
    have hmoved := hat.moved
    have hg := hg.alike ht (MapLoop.alike_moveMarker
      ⟨obj, fn, flags, none, onSoe, false, posm⟩ s (done.length + 1))
    rw [← MapLoop.moveMarker_eq] at hg
    rw [hat.round_cons]
    generalize MapLoop.moveMarker _ s (done.length + 1) = s at hmoved hg ⊢
    obtain ⟨info, after, st, en, arg⟩ := s
    obtain ⟨hinv, rfl, rfl, rfl, hmet, haway⟩ := hg
    have hels : ((info.list onSoe).array false).els = done ++ e :: rest := by
      have hels := hmoved.els
      rwa [append_assoc, singleton_append] at hels
    have hlist : (info.list onSoe).Ordered info.heap := by
      cases onSoe
      · exact (ht.sound hinv).1.ordered
      · exact (ht.sound hinv).1.soe.ordered (ht.sound hinv).1.ordered
    have hmem : ∀ a ∈ e :: rest, a ∈ info.extents.byStart.els := fun a ha =>
      ht.mem_list hinv (hels ▸ mem_append_right _ ha)
    have hne : e ∉ rest := by
      have hnodup := (List.nodup_append.mp (hels ▸ hlist.nodup)).2.1
      exact (List.nodup_cons.mp hnodup).1
    have hnext : ∀ {info' : ExtentInfo ι} {arg' : α}, Inv info' arg' → Met e info' arg' →
        (∀ a, Met a info arg → Met a info' arg') → (∀ a, a ≠ e → info'.heap a = info.heap a) →
        Going obj frm upTo lost Inv Met onSoe els s₀ rest
          ⟨info', none, obj.bytindToMemind frm, obj.bytindToMemind upTo, arg'⟩ := by
      intro info' arg' hinv' hmet' hstable hheap
      refine ⟨hinv', rfl, rfl, rfl, fun a ha => ?_, fun honSoe a ha hover => ?_⟩
      · rcases hmet a ha with ha | ha
        · obtain rfl | ha := List.mem_cons.mp ha
          · exact Or.inr hmet'
          · exact Or.inl ha
        · exact Or.inr (hstable a ha)
      · refine haway honSoe a (mem_cons_of_mem e ha) ?_
        have hae : a ≠ e := fun hae => hne (hae ▸ ha)
        rwa [ExtentInfo.over, hheap a hae] at hover
    have hskip : MapLoop.skipsInternal ⟨obj, fn, flags, none, onSoe, false, posm⟩ info e
        = !info.seen flags e := by
      have hnone : (some e == none) = false := rfl
      simp only [MapLoop.skipsInternal, ExtentInfo.seen, hnone, Bool.or_false, Bool.not_or,
        Bool.not_not, Bool.and_comm]
    cases hseen : info.seen flags e with
    | false =>
      rw [MapLoop.process, if_pos (by rw [hskip, hseen]; rfl)]
      exact ⟨_, rfl, e, rest, rfl, hnext hinv (ht.skip hinv (hmem e (mem_cons_self ..))
        (by rw [hseen]; rfl)) (fun _ h => h) (fun _ _ => rfl), _, hmoved⟩
    | true =>
    simp only [MapLoop.process, hskip, hseen, Bool.not_true, Bool.false_eq_true, if_false,
      any_none, MapLoop.fetchRange, elim_none,
      BufferOrString.memindToBytind_bytindToMemind, Int.toNat_natCast]
    have hunwanted : ∀ a ∈ e :: rest, extentInRegionP obj info a frm upTo flags = false →
        Met a info arg := fun a ha hin =>
      ht.skip hinv (hmem a ha) (by rw [hin, Bool.and_false])
    split
    · -- behind the region all extents are
      rename_i hend
      have hlt : ∀ a ∈ e :: rest, extentInRegionP obj info a frm upTo flags = false := by
        intro a ha
        have horder := (InOrder.append_iff.mp (hels ▸ hlist.byStart)).2.1
        have hkey : (info.heap e).endpoint false ≤ (info.heap a).endpoint false := by
          obtain rfl | ha := List.mem_cons.mp ha
          · exact Int.le_refl _
          · exact Extent.endpoint_le_of_key_le ((InOrder.cons_iff.mp horder).1 a ha)
        refine Bool.eq_false_iff.mpr fun hin => ?_
        exact Int.not_lt.mpr (inRegion_overlaps hin).1 (Int.lt_of_lt_of_le hend hkey)
      cases onSoe with
      | false =>
        refine ⟨_, rfl, hinv, rfl, rfl, rfl, fun a ha => ?_, rfl⟩
        rcases hmet a ha with ha | ha
        · exact hunwanted a ha (hlt a ha)
        · exact ha
      | true =>
        -- the extents of the SOE start before the end of the region
        obtain ⟨hsound, hpos⟩ := ht.sound hinv
        have hover := (hsound.soe.mem_iff.mp (hels ▸ mem_append_cons_self)).2
        rw [Bool.and_eq_true, ExtentInfo.over_iff, hpos] at hover
        exact absurd (Int.le_trans hover.1.1 hle) (Int.not_le.mpr hend)
    · cases hin : extentInRegionP obj info e frm upTo flags with
      | false =>
        exact ⟨_, rfl, e, rest, rfl, hnext hinv (hunwanted e (mem_cons_self ..) hin)
          (fun _ h => h) (fun _ _ => rfl), _, hmoved⟩
      | true =>
        obtain ⟨info', arg', heq, hinv', hmet', hstable, hheap, hsame, hsoe, hmain⟩ :=
          ht.call hinv (hmem e (mem_cons_self ..)) hseen hin
        rw [if_pos rfl, heq]
        refine ⟨_, rfl, e, rest, rfl, hnext hinv' hmet' hstable hheap, ?_⟩
        cases hm : posm with
        | none =>
          rw [hm] at hposm hmoved
          rw [hsame hposm.symm]
          exact ⟨_, hmoved.els, hmoved.position⟩
        | some m =>
          have hposition : markerPos ((info.list onSoe).array false) m
              = some (done.length + 1) := by
            have hposition := hmoved.position
            rw [hm, length_append, length_singleton] at hposition
            exact hposition
          have hleaves : LeavesRest ((info.list onSoe).array false)
              ((info'.list onSoe).array false) e := by
            cases onSoe with
            | false => exact hmain (haway rfl e (mem_cons_self ..))
            | true => exact hsoe
          obtain ⟨done', hels', hm'⟩ := hleaves m done rest hels hposition
          exact ⟨done', hels', hm'⟩

/-- **A stage** meets the extents it goes through. -/
theorem stage (ht : Treats obj fn flags frm upTo lost info₀ Inv Met)
    (hle : obj.bytindToMemind frm ≤ obj.bytindToMemind upTo) (onSoe : Bool) {info : ExtentInfo ι}
    {arg : α} (hinv : Inv info arg) (hpos : pos ≤ ((info.list onSoe).array false).els.length)
    (haway : onSoe = false → ∀ e ∈ info.extents.byStart.els.drop pos,
      info.over (obj.bytindToMemind frm) e = true → lost e = true)
    {fuel : Nat} (hfuel : ((info.list onSoe).array false).els.length - pos < fuel) :
    ∃ info' arg', MapLoop.stage ⟨obj, fn, flags, none, onSoe, false, none⟩ fuel
        ⟨info, none, obj.bytindToMemind frm, obj.bytindToMemind upTo, arg⟩ pos
        = some (⟨info', none, obj.bytindToMemind frm, obj.bytindToMemind upTo, arg'⟩, false) ∧
      Inv info' arg' ∧
      ∀ e, e ∈ ((info.list onSoe).array false).els.drop pos ∨ Met e info arg →
        Met e info' arg' := by
  have hstage : ∃ s' stop, MapLoop.stage ⟨obj, fn, flags, none, onSoe, false, none⟩ fuel
      ⟨info, none, obj.bytindToMemind frm, obj.bytindToMemind upTo, arg⟩ pos = some (s', stop) ∧
      Gone obj frm upTo Inv Met (((info.list onSoe).array false).els.drop pos)
        ⟨info, none, obj.bytindToMemind frm, obj.bytindToMemind upTo, arg⟩ s' stop := by
    refine MapLoop.stage_of_loop hpos (fun posm info' hposm halike hat => ?_)
      fun s info' stop hgone halike => ?_
    · obtain ⟨hinv', hmet'⟩ := ht.alike hinv halike
      refine MapLoop.loop_of_round (ht.round hle hposm) _ ⟨⟨hinv', rfl, rfl, rfl,
        fun e he => he.imp_right (hmet' e), fun honSoe e he hover => ?_⟩, _, hat⟩ ?_
      · subst honSoe
        have hover : info'.over (obj.bytindToMemind frm) e = true := hover
        rw [ExtentInfo.over, halike.heap] at hover
        exact haway rfl e he hover
      · rw [length_drop]
        exact hfuel
    · obtain ⟨hinv', hmet'⟩ := ht.alike hgone.inv halike
      exact ⟨hinv', hgone.after, hgone.st, hgone.en, fun e he => hmet' e (hgone.met e he),
        hgone.stop⟩
  obtain ⟨⟨info', _, _, _, arg'⟩, stop, heq, hinv', hafter, hst, hen, hmet, hstop⟩ := hstage
  subst hafter hst hen hstop
  exact ⟨info', arg', heq, hinv', hmet⟩

omit [DecidableEq ι] in
theorem met_of_before (ht : Treats obj fn flags frm upTo lost info₀ Inv Met)
    {info : ExtentInfo ι} {arg : α} (hinv : Inv info arg) {e : ι}
    (he : e ∈ info₀.extents.byStart.els)
    (hend : (info₀.heap e).extentEnd < obj.bytindToMemind frm) : Met e info arg := by
  rcases ht.untouched hinv e he with hmet | ⟨hmem, hheap⟩
  · exact hmet
  · refine ht.skip hinv hmem ?_
    cases hin : extentInRegionP obj info e frm upTo flags with
    | false => exact Bool.and_false _
    | true =>
      have hover := (inRegion_overlaps hin).2
      rw [hheap] at hover
      exact absurd hover (Int.not_le.mpr hend)

omit [DecidableEq ι] in
theorem length_le (ht : Treats obj fn flags frm upTo lost info₀ Inv Met) {info : ExtentInfo ι}
    {arg : α} (hinv : Inv info arg) (onSoe : Bool) :
    ((info.list onSoe).array false).els.length ≤ info₀.extents.numEls := by
  have hsound := (ht.sound hinv).1
  have hle := hsound.ordered.nodup.length_le_of_subset (ht.mem hinv)
  cases onSoe with
  | false => exact hle
  | true =>
    refine Nat.le_trans ?_ hle
    show info.soe.extents.byStart.els.length ≤ _
    rw [hsound.soe.byStart]
    exact length_filter_le ..

/-- **The two stages** meet all that the SOE does not lack. -/
theorem stages (ht : Treats obj fn flags frm upTo lost info₀ Inv Met)
    (hle : obj.bytindToMemind frm ≤ obj.bytindToMemind upTo) {info : ExtentInfo ι} {arg : α}
    (hinv : Inv info arg) (hels : info.extents.byStart.els = info₀.extents.byStart.els)
    (hheap : info.heap = info₀.heap) {fuel : Nat} (hfuel : info₀.extents.numEls < fuel) :
    ∃ info' arg', mapStages obj fn flags none fuel
        (if info.soe.extents.numEls = 0 then ⟨false, false, .including⟩
          else ⟨true, false, .excluding⟩)
        ⟨info, none, obj.bytindToMemind frm, obj.bytindToMemind upTo, arg⟩
        = some ⟨info', none, obj.bytindToMemind frm, obj.bytindToMemind upTo, arg'⟩ ∧
      Inv info' arg' ∧
      ∀ e ∈ info₀.extents.byStart.els, lost e = false → Met e info' arg' := by
  obtain ⟨hsound, hpos⟩ := ht.sound hinv
  have hsoe : ∀ {e}, e ∈ info₀.extents.byStart.els → lost e = false →
      info.over (obj.bytindToMemind frm) e = true → e ∈ info.soe.extents.byStart.els := by
    intro e he hlost hover
    rw [hsound.soe.mem_iff, hels, hpos, hover, hlost]
    exact ⟨he, rfl⟩
  have hfuel' : ∀ {info arg} onSoe pos, Inv info arg →
      ((info.list onSoe).array false).els.length - pos < fuel :=
    fun onSoe pos hinv => Nat.lt_of_le_of_lt (Nat.sub_le ..)
      (Nat.lt_of_le_of_lt (ht.length_le hinv onSoe) hfuel)
  by_cases hempty : info.soe.extents.numEls = 0
  · obtain ⟨info', arg', heq, hinv', hmet⟩ := ht.stage hle false hinv
      (hsound.ordered.locateFromPos_le false (obj.bytindToMemind frm) hsound.le)
      (fun _ e he hover => by
        -- the SOE lacks all that it should hold
        by_contra hlost
        have hmem := hsoe (hels ▸ mem_of_mem_drop he) (Bool.not_eq_true _ ▸ hlost) hover
        rw [eq_nil_of_length_eq_zero hempty] at hmem
        cases hmem) (hfuel' false _ hinv)
    refine ⟨info', arg', ?_, hinv', fun e he hlost => ?_⟩
    · rw [if_pos hempty, mapStages]
      simp only [Bool.false_eq_true, if_false, bind_some]
      show (MapLoop.stage _ fuel _ (extentListLocateFromPos info.heap info.extents
        (obj.bytindToMemind frm) false)).map Prod.fst = _
      rw [heq, map_some]
    · by_cases hstart : obj.bytindToMemind frm ≤ (info₀.heap e).extentStart
      · refine hmet e (Or.inl ((hsound.ordered.mem_drop false _ hsound.le).mpr ⟨hels ▸ he, ?_⟩))
        rw [hheap]
        exact hstart
      · refine ht.met_of_before hinv' he (Int.not_le.mp fun hend => ?_)
        have hmem := hsoe he hlost (info.over_iff.mpr
          (by rw [hheap]; exact ⟨Int.le_of_lt (Int.not_le.mp hstart), hend⟩))
        rw [eq_nil_of_length_eq_zero hempty] at hmem
        cases hmem
  · obtain ⟨info₁, arg₁, heq₁, hinv₁, hmet₁⟩ := ht.stage hle true hinv (Nat.zero_le _)
      (fun h => by cases h) (hfuel' true 0 hinv)
    have hsound₁ := (ht.sound hinv₁).1
    have hdrop := fun e => hsound₁.ordered.mem_drop (e := e) false
      (obj.bytindToMemind frm + 1) hsound₁.le
    obtain ⟨info', arg', heq, hinv', hmet⟩ := ht.stage hle false hinv₁
      (hsound₁.ordered.locateFromPos_le false (obj.bytindToMemind frm + 1) hsound₁.le)
      (fun _ e he hover => by
        have hstart : obj.bytindToMemind frm + 1 ≤ (info₁.heap e).extentStart :=
          ((hdrop e).mp he).2
        have hover := (info₁.over_iff.mp hover).1
        omega) (hfuel' false _ hinv₁)
    refine ⟨info', arg', ?_, hinv', fun e he hlost => ?_⟩
    · rw [if_neg hempty, mapStages]
      simp only [if_true]
      rw [heq₁, bind_some, if_neg Bool.false_ne_true]
      show (MapLoop.stage _ fuel _ (extentListLocateFromPos info₁.heap info₁.extents
        (obj.bytindToMemind frm + 1) false)).map Prod.fst = _
      rw [heq, map_some]
    · by_cases hover : info.over (obj.bytindToMemind frm) e = true
      · exact hmet e (Or.inr (hmet₁ e (Or.inl (hsoe he hlost hover))))
      by_cases hstart : obj.bytindToMemind frm + 1 ≤ (info₀.heap e).extentStart
      · rcases ht.untouched hinv₁ e he with hdone | ⟨hmem, hsame⟩
        · exact hmet e (Or.inr hdone)
        · exact hmet e (Or.inl ((hdrop e).mpr ⟨hmem, by rw [hsame]; exact hstart⟩))
      · refine ht.met_of_before hinv' he (Int.not_le.mp fun hend => hover ?_)
        rw [info.over_iff, hheap]
        omega

/-- **The mapping** meets all that the SOE does not lack at the start of the region. -/
theorem mapping {info : ExtentInfo ι} {lost₀ : ι → Bool} (hs : info.SoundBut lost₀)
    (ht : Treats obj fn flags frm upTo lost info Inv Met) (hle : frm ≤ upTo)
    (htext : flags.mightModifyText = false) (hmove : flags.mightMoveSoe = false)
    (hstart : ¬ flags.ByStart) (hend : ¬ flags.ByEnd) (hempty : info.extents.numEls ≠ 0)
    (arg : α) (hinv : ∀ sel, ExtentInfo.SoundBut
      { info with soe := ⟨sel, obj.bytindToMemind frm⟩ }
      (fun e => info.over info.soe.pos e && lost₀ e) →
        Inv { info with soe := ⟨sel, obj.bytindToMemind frm⟩ } arg)
    {fuel : Nat} (hfuel : info.extents.numEls < fuel) (newExtent : ι) :
    ∃ info' arg', mapExtentsBytind fuel obj newExtent info frm upTo fn arg none flags
        = some (info', arg') ∧ Inv info' arg' ∧
      ∀ e ∈ info.extents.byStart.els, lost e = false → Met e info' arg' := by
  obtain ⟨sel, hsoe, hsel⟩ := hs.move (obj.bytindToMemind frm)
  have hplan : planMap info (obj.bytindToMemind frm) flags
      = some ({ info with soe := ⟨sel, obj.bytindToMemind frm⟩ },
          if sel.numEls = 0 then ⟨false, false, .including⟩ else ⟨true, false, .excluding⟩) := by
    have hneg : ∀ {p : Prop}, (p ∧ (!flags.negateInRegion) = true) ↔
        (p ∧ flags.negateInRegion = false) := by
      intro p
      rw [Bool.not_eq_true']
    rw [planMap, if_neg (mt hneg.mp hstart), if_neg (mt hneg.mp hend), hsoe, bind_some]
    simp only [hmove, Bool.false_eq_true, if_false]
    split <;> rfl
  obtain ⟨info', arg', heq, hinv', hmet⟩ := ht.stages (obj.bytindToMemind_mono hle)
    (hinv sel ⟨hs.toSorted.withSoe _, hsel⟩) rfl rfl hfuel
  refine ⟨info', arg', ?_, hinv', hmet⟩
  rw [mapExtentsBytind, if_neg hempty]
  simp only [htext, Bool.false_eq_true, if_false, elim_none]
  rw [bind_some, hplan, bind_some, heq, bind_some, map_some]

end Treats

end XEmacs.Extents

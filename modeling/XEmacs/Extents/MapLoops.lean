import XEmacs.Extents.MapExtents

/-!
# The loop of `map_extents` (extents.c)

A mapping goes through an array once.
-/

namespace XEmacs.Extents

open BytePositions GapArrays KeyedLists List Option

/-! ## Markers -/

section markers

variable {ι : Type} (t : TrackedList ι) (m : Nat)

theorem lookup_map_snd {β : Type*} (f : Nat × β → β) :
    ∀ l : List (Nat × β), (l.map fun p => (p.1, f p)).lookup m
      = (l.lookup m).map fun b => f (m, b)
  | [] => rfl
  | (k, b) :: l => by
    rw [map_cons, List.lookup_cons, List.lookup_cons]
    by_cases hk : m = k
    · subst hk
      rw [beq_self_eq_true]
      rfl
    · rw [beq_eq_false_iff_ne.mpr hk]
      exact lookup_map_snd f l

theorem markerPos_track (pos : Nat) : markerPos (t.track m pos) m = some pos :=
  lookup_cons_self

theorem markerPos_move (pos : Nat) :
    markerPos (t.move m pos) m = (markerPos t m).map fun _ => pos := by
  have hsnd : (fun p : Nat × Nat => if p.1 = m then (p.1, pos) else p)
      = fun p => (p.1, if p.1 = m then pos else p.2) := by
    funext p
    split <;> rfl
  rw [markerPos, TrackedList.move, hsnd, lookup_map_snd m fun p => if p.1 = m then pos else p.2]
  simp only [if_true]
  rfl

theorem markerPos_delete (start numdel : Nat) :
    markerPos (t.delete start numdel) m = (markerPos t m).map (deletedAt start (start + numdel)) :=
  lookup_map_snd m (fun p => deletedAt start (start + numdel) p.2) t.positions

end markers

/-! ## Extents with other tracked positions -/

variable {ι α : Type}

/-- Arrays of the same elements. -/
def ExtentList.Alike (el el' : ExtentList ι) : Prop :=
  ∀ endp, (el'.array endp).els = (el.array endp).els

namespace ExtentList

variable {h : ι → Extent} {el el' el'' bel bel' sel sel' : ExtentList ι} {P : ι → Bool}

theorem Alike.refl (el : ExtentList ι) : el.Alike el := fun _ => rfl

theorem Alike.trans (h : el.Alike el') (h' : el'.Alike el'') : el.Alike el'' :=
  fun endp => (h' endp).trans (h endp)

theorem Alike.mem (hel : el.Alike el') {e : ι} : e ∈ el'.byStart.els ↔ e ∈ el.byStart.els := by
  have hstart : el'.byStart.els = el.byStart.els := hel false
  rw [hstart]

theorem Ordered.alike (ho : el.Ordered h) (hel : el.Alike el') : el'.Ordered h := by
  have hstart : el'.byStart.els = el.byStart.els := hel false
  have hend : el'.byEnd.els = el.byEnd.els := hel true
  refine ⟨?_, ?_, ?_, ?_⟩
  · rw [hstart]
    exact ho.byStart
  · rw [hend]
    exact ho.byEnd
  · rw [hstart]
    exact ho.nodup
  · rw [hstart, hend]
    exact ho.ties

theorem Selects.alike (hs : bel.Selects P sel) (hbel : bel.Alike bel') (hsel : sel.Alike sel') :
    bel'.Selects P sel' :=
  ⟨(hsel false).trans (hs.byStart.trans (congrArg _ (hbel false).symm)),
    (hsel true).trans (hs.byEnd.trans (congrArg _ (hbel true).symm))⟩

theorem alike_modify (el : ExtentList ι) (endp : Bool) {f : TrackedList ι → TrackedList ι}
    (hf : ∀ t, (f t).els = t.els) : el.Alike (el.modify endp f) := by
  intro endp'
  cases endp <;> cases endp'
  · exact hf _
  · rfl
  · rfl
  · exact hf _

end ExtentList

/-- Nothing but tracked positions may differ. -/
structure ExtentInfo.Alike (info info' : ExtentInfo ι) : Prop where
  heap : info'.heap = info.heap
  ancestor : info'.ancestor = info.ancestor
  extents : info.extents.Alike info'.extents
  soe : info.soe.extents.Alike info'.soe.extents
  pos : info'.soe.pos = info.soe.pos

namespace ExtentInfo

variable {info info' info'' : ExtentInfo ι}

theorem Alike.refl (info : ExtentInfo ι) : info.Alike info :=
  ⟨rfl, rfl, fun _ => rfl, fun _ => rfl, rfl⟩

theorem Alike.but {lost : ι → Bool} (h : info.Alike info') (hs : info.SoundBut lost) :
    info'.SoundBut lost := by
  have hover : info'.over info'.soe.pos = info.over info.soe.pos := by
    funext e
    rw [ExtentInfo.over, ExtentInfo.over, h.heap, h.pos]
  refine ⟨⟨?_, fun e he => ?_, fun e he => ?_⟩, ?_⟩
  · rw [h.heap]
    exact hs.ordered.alike h.extents
  · rw [h.heap]
    exact hs.attached e (h.extents.mem.mp he)
  · rw [h.heap]
    exact hs.le e (h.extents.mem.mp he)
  · rw [hover]
    exact hs.soe.alike h.extents h.soe

theorem Alike.sound (h : info.Alike info') (hs : info.Sound) : info'.Sound := by
  have hnone : info.SoundBut fun _ => false := hs.but fun _ _ _ => rfl
  exact (h.but hnone).sound fun _ _ _ => rfl

theorem Alike.array (h : info.Alike info') (onSoe endp : Bool) :
    ((info'.list onSoe).array endp).els = ((info.list onSoe).array endp).els := by
  cases onSoe
  · exact h.extents endp
  · exact h.soe endp

theorem alike_modify (info : ExtentInfo ι) (onSoe endp : Bool)
    {f : TrackedList ι → TrackedList ι} (hf : ∀ t, (f t).els = t.els) :
    info.Alike (info.modify onSoe endp f) := by
  cases onSoe
  · exact ⟨rfl, rfl, info.extents.alike_modify endp hf, fun _ => rfl, rfl⟩
  · exact ⟨rfl, rfl, fun _ => rfl, info.soe.extents.alike_modify endp hf, rfl⟩

theorem array_modify (info : ExtentInfo ι) (onSoe endp : Bool)
    (f : TrackedList ι → TrackedList ι) :
    ((info.modify onSoe endp f).list onSoe).array endp = f ((info.list onSoe).array endp) := by
  cases onSoe <;> cases endp <;> rfl

end ExtentInfo

/-! ## The loop -/

/-- An invariant goes on with one extent less, or the loop ends as is wanted. -/
def Round.Leads (I : List ι → MapState ι α → Nat → Prop)
    (Post : MapState ι α → Bool → Prop) (rest : List ι) : Round ι α → Prop
  | .goOn s pos => ∃ e rest', rest = e :: rest' ∧ I rest' s pos
  | .ended s => Post s false
  | .stopped s => Post s true

namespace MapLoop

variable [DecidableEq ι] {c : MapLoop ι α} {s : MapState ι α} {pos : Nat} {e : ι}
  {done rest : List ι}

/-- The mapping has done a part of the array. -/
structure At (c : MapLoop ι α) (s : MapState ι α) (pos : Nat) (done rest : List ι) : Prop where
  els : (c.array s).els = done ++ rest
  position : c.position s pos = some done.length

theorem At.round_nil (hat : c.At s pos done []) : c.round s pos = some (.ended s) := by
  have hget : (c.array s).els[done.length]? = none := by
    rw [hat.els, append_nil]
    exact getElem?_eq_none (Nat.le_refl _)
  rw [round, hat.position, bind_some, hget]

theorem At.round_cons (hat : c.At s pos done (e :: rest)) :
    c.round s pos = c.process (c.moveMarker s (done.length + 1)) (done.length + 1) e := by
  have hget : (c.array s).els[done.length]? = some e := by
    rw [hat.els, getElem?_append_right (Nat.le_refl _), Nat.sub_self]
    rfl
  rw [round, hat.position, bind_some, hget]

omit [DecidableEq ι] in
theorem moveMarker_eq (c : MapLoop ι α) (s : MapState ι α) (pos : Nat) :
    c.moveMarker s pos = { s with info := (c.moveMarker s pos).info } := by
  rw [moveMarker]
  cases c.posm <;> rfl

omit [DecidableEq ι] in
theorem alike_moveMarker (c : MapLoop ι α) (s : MapState ι α) (pos : Nat) :
    s.info.Alike (c.moveMarker s pos).info := by
  rw [moveMarker]
  cases c.posm with
  | none => exact ExtentInfo.Alike.refl _
  | some m => exact s.info.alike_modify _ _ fun t => rfl

omit [DecidableEq ι] in
theorem array_moveMarker {m : Nat} (hm : c.posm = some m) (s : MapState ι α) (pos : Nat) :
    c.array (c.moveMarker s pos) = (c.array s).move m pos := by
  rw [moveMarker, hm]
  exact s.info.array_modify ..

omit [DecidableEq ι] in
theorem At.moved (hat : c.At s pos done (e :: rest)) :
    c.At (c.moveMarker s (done.length + 1)) (done.length + 1) (done ++ [e]) rest := by
  have hels : (c.array (c.moveMarker s (done.length + 1))).els = (c.array s).els :=
    (alike_moveMarker c s _).array ..
  refine ⟨?_, ?_⟩
  · rw [hels, hat.els, append_assoc, singleton_append]
  · have hposition := hat.position
    rw [MapLoop.position] at hposition ⊢
    rw [length_append, length_singleton]
    cases hm : c.posm with
    | none => rfl
    | some m =>
      rw [hm, elim_some] at hposition
      rw [elim_some, array_moveMarker hm, markerPos_move, hposition]
      rfl

/-- **The rule of the loop.** -/
theorem loop_of_round {I : List ι → MapState ι α → Nat → Prop}
    {Post : MapState ι α → Bool → Prop}
    (hround : ∀ rest s pos, I rest s pos → ∃ r, c.round s pos = some r ∧ r.Leads I Post rest) :
    ∀ (rest : List ι) {fuel : Nat} {s : MapState ι α} {pos : Nat}, I rest s pos →
      rest.length < fuel → ∃ s' stop, c.loop fuel s pos = some (s', stop) ∧ Post s' stop
  | rest, 0, s, pos, _, hfuel => nomatch hfuel
  | rest, fuel + 1, s, pos, hI, hfuel => by
    obtain ⟨r, heq, hr⟩ := hround rest s pos hI
    rw [loop, heq, bind_some]
    cases r with
    | ended s => exact ⟨s, false, rfl, hr⟩
    | stopped s => exact ⟨s, true, rfl, hr⟩
    | goOn s pos =>
      obtain ⟨e, rest', rfl, hI'⟩ := hr
      exact loop_of_round hround rest' hI' (Nat.lt_of_succ_lt_succ hfuel)

omit [DecidableEq ι] in
theorem At.congr {s' : MapState ι α} (hat : c.At s pos done rest)
    (harray : c.array s' = c.array s) : c.At s' pos done rest := by
  refine ⟨harray ▸ hat.els, ?_⟩
  have hposition := hat.position
  rw [MapLoop.position] at hposition ⊢
  rwa [harray]

theorem stage_of_loop {fuel : Nat} {Post : MapState ι α → Bool → Prop}
    (hpos : pos ≤ (c.array s).els.length)
    (hloop : ∀ posm info, posm.isSome = c.flags.mightModifyExtents → s.info.Alike info →
      MapLoop.At { c with posm := posm } { s with info := info } pos
        ((c.array s).els.take pos) ((c.array s).els.drop pos) →
      ∃ s' stop, MapLoop.loop { c with posm := posm } fuel { s with info := info } pos
        = some (s', stop) ∧ Post s' stop)
    (hPost : ∀ s info stop, Post s stop → s.info.Alike info → Post { s with info := info } stop) :
    ∃ s' stop, c.stage fuel s pos = some (s', stop) ∧ Post s' stop := by
  have htake : ((c.array s).els.take pos).length = pos := length_take_of_le hpos
  rw [stage]
  cases hmodify : c.flags.mightModifyExtents with
  | false =>
    exact hloop none s.info hmodify.symm (.refl _)
      ⟨(take_append_drop ..).symm, congrArg _ htake.symm⟩
  | true =>
    have htrack : s.info.Alike
        (s.info.modify c.onSoe c.rangeEndp (·.track (freshName (c.array s)) pos)) :=
      s.info.alike_modify _ _ fun t => rfl
    obtain ⟨s', stop, heq, hs'⟩ := hloop (some (freshName (c.array s))) _ hmodify.symm htrack
      ⟨by
        rw [take_append_drop]
        exact htrack.array c.onSoe c.rangeEndp,
      by
        rw [htake]
        show markerPos (((s.info.modify c.onSoe c.rangeEndp _).list c.onSoe).array
          c.rangeEndp) _ = _
        rw [ExtentInfo.array_modify, markerPos_track]⟩
    simp only [if_true]
    rw [heq]
    exact ⟨_, stop, rfl, hPost s' _ stop hs' (s'.info.alike_modify _ _ fun t => rfl)⟩

end MapLoop

end XEmacs.Extents

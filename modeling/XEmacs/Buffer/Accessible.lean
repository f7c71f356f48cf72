import XEmacs.Buffer.Sound
import XEmacs.Lib.Runs

/-!
# Accessible regions of buffers that share a text

A change made through one buffer of a family is a change of the text of all.
-/

namespace XEmacs.Buffer

open BytePositions Runs

variable {n : Nat}

/-- What is expected of the positions of a buffer at all times. -/
structure BufferPositions.Accessible (t : BufferText) (buf : BufferPositions) : Prop where
  beg_le_begv : 1 ≤ buf.begv.buf
  begv_le_pt : buf.begv.buf ≤ buf.pt.buf
  pt_le_zv : buf.pt.buf ≤ buf.zv.buf
  zv_le_z : buf.zv.buf ≤ t.z.buf
  begv_byt : buf.begv.byt = bytind t.text buf.begv.buf
  pt_byt : buf.pt.byt = bytind t.text buf.pt.buf
  zv_byt : buf.zv.byt = bytind t.text buf.zv.buf

theorem BufferText.Exact.accessible_iff {t : BufferText} (h : t.Exact)
    (buf : BufferPositions) : buf.Accessible t ↔ buf.Sound t.text := by
  have hz : t.z.buf = t.text.length + 1 := congrArg Pos.buf h.z_eq
  constructor
  · rintro ⟨hbegv, hpt, hzv, hend, hbegv', hpt', hzv'⟩
    exact ⟨⟨⟨by omega, by omega, hpt'⟩, ⟨hbegv, by omega, hbegv'⟩, ⟨by omega, by omega, hzv'⟩⟩,
      hpt, hzv⟩
  · rintro ⟨⟨hpt, hbegv, hzv⟩, hbegvle, hlezv⟩
    exact ⟨hbegv.one_le, hbegvle, hlezv, hz ▸ hzv.le_end, hbegv.byt_eq, hpt.byt_eq,
      hzv.byt_eq⟩

/-- The accessible region of every member is as expected. -/
def Family.Accessible (f : Family n) : Prop :=
  ∀ j, (f.members j).Accessible f.text

/-- A text with exact cached data, and every member sound. -/
structure Family.Sound (f : Family n) : Prop where
  text : f.text.Exact
  members : ∀ j, (f.members j).Sound f.text.text

theorem Family.Sound.soundAt {f : Family n} (h : f.Sound) (i : Fin n) : f.SoundAt i :=
  ⟨h.text, h.members i⟩

theorem Family.accessible_iff {f : Family n} (h : f.text.Exact) : f.Accessible ↔ f.Sound :=
  ⟨fun hf => ⟨h, fun j => (h.accessible_iff _).mp (hf j)⟩,
    fun hf j => (h.accessible_iff _).mpr (hf.members j)⟩

theorem initBufferText_allSound : (initBufferText (n + 1)).Sound :=
  ⟨(initBufferText_sound 0).text, fun j => (initBufferText_sound j).member⟩

/-- An insertion or a deletion suits the positions of all members. -/
def BufferOp.Suits (i : Fin n) (f : Family n) : BufferOp n → Prop
  | insert pos c _ =>
    ∀ j, InsertFits f.text.text ((f.members i).clip (pos.getD (f.members i).pt.buf)) c
      (f.members j)
  | delete start stop =>
    let a := max start (f.members i).begv.buf
    let b := min stop (f.members i).zv.buf
    a < b → ∀ j, DeleteFits f.text.text a b (f.members j)
  | _ => True

instance (i : Fin n) (f : Family n) : (op : BufferOp n) → Decidable (op.Suits i f)
  | .insert .. => inferInstanceAs (Decidable (∀ _ : Fin n, _))
  | .delete .. => inferInstanceAs (Decidable (_ → ∀ _ : Fin n, _))
  | .replaceChar .. | .gotoChar _ | .narrow .. | .widen | .bufposToBytind _
  | .bytindToBufpos _ | .convertedElsewhere => inferInstanceAs (Decidable True)

section Step

variable {f : Family n} {i : Fin n}

theorem OnlyMember.sound {f' : Family n} (h : OnlyMember i f f') (hf : f.Sound)
    (hi : f'.SoundAt i) : f'.Sound := by
  refine ⟨hi.text, fun j => ?_⟩
  by_cases hj : j = i
  · exact hj ▸ hi.member
  · rw [h.members j hj, h.text_eq]
    exact hf.members j

theorem bufferInsertString1_sound_iff (h : f.Sound) (pos : Option Nat) (c : List Emchar)
    {ends : List (Fin n × Nat)}
    (hends : EndsTrue f ((f.members i).clip (pos.getD (f.members i).pt.buf)) c ends) :
    (bufferInsertString1 f i pos c ends).Sound ↔ (BufferOp.insert pos c ends).Suits i f := by
  obtain ⟨f', htext, hmembers, honly, hsound⟩ :=
    bufferInsertString1_spec (h.soundAt i) pos c rfl hends
  obtain ⟨hlo, hhi⟩ := (h.members i).clip (pos.getD (f.members i).pt.buf)
  have hp := Nat.le_trans (h.members i).true.begv.one_le hlo
  have hp' := Nat.le_trans hhi (h.members i).true.zv.le_end
  refine Iff.trans ?_ (forall_congr' fun j => (h.members j).inserted_iff hp hp' c)
  constructor
  · intro hf j
    by_cases hj : j = i
    · exact hj ▸ (h.members i).inserted hlo hhi c
    · rw [← hmembers j, ← htext, ← honly.members j hj, ← honly.text_eq]
      exact hf.members j
  · intro hf
    refine ⟨hsound.text, fun j => ?_⟩
    by_cases hj : j = i
    · exact hj ▸ hsound.member
    · rw [honly.members j hj, honly.text_eq, hmembers j, htext]
      exact hf j

theorem bufferDeleteRange_sound_iff (h : f.Sound) (start stop : Nat) :
    (bufferDeleteRange f i start stop).Sound ↔ (BufferOp.delete start stop).Suits i f := by
  rcases bufferDeleteRange_clip f i start stop with ⟨hle, heq⟩ | ⟨hab, heq⟩
  · rw [heq]
    exact ⟨fun _ hab => absurd hab (Nat.not_lt.mpr hle), fun _ => h⟩
  · have hlo : (f.members i).begv.buf ≤ max start (f.members i).begv.buf :=
      Nat.le_max_right ..
    have hhi : min stop (f.members i).zv.buf ≤ (f.members i).zv.buf := Nat.min_le_right ..
    have ha := Nat.le_trans (h.members i).true.begv.one_le hlo
    have hb := Nat.le_trans hhi (h.members i).true.zv.le_end
    obtain ⟨htext, hsound, hmembers, -⟩ := bufferDeleteRange_spec (h.soundAt i) hab hlo hhi
    rw [heq]
    refine Iff.trans ⟨fun hf _ j => ?_, fun hf => ⟨hsound.text, fun j => ?_⟩⟩
      (forall_congr' fun hab => forall_congr' fun j => (h.members j).deleted_iff ha hab hb)
    · rw [← hmembers j, ← htext]
      exact hf.members j
    · rw [hmembers j, htext]
      exact hf hab j

theorem BufferOp.run_sound_iff (h : f.Sound) (op : BufferOp n) (hop : op.InStep i f) :
    (op.run i f).Sound ↔ op.Suits i f := by
  have hi := h.soundAt i
  cases op with
  | insert pos c ends => exact bufferInsertString1_sound_iff h pos c hop
  | delete start stop => exact bufferDeleteRange_sound_iff h start stop
  | replaceChar pos ch =>
    refine iff_of_true ?_ trivial
    simp only [BufferOp.run]
    split
    case isTrue hpos =>
      obtain ⟨hsound, hwidths, hmembers⟩ := bufferReplaceChar_sound hi hpos.1 hpos.2 ch
      refine ⟨hsound.text, fun j => ?_⟩
      rw [hmembers]
      exact (h.members j).congr hwidths
    case isFalse => exact h
  | gotoChar x =>
    obtain ⟨hsound, honly⟩ := gotoChar_sound hi x
    exact iff_of_true (honly.sound h hsound) trivial
  | narrow start stop =>
    obtain ⟨hsound, honly⟩ := narrowToRegion_sound hi start stop
    exact iff_of_true (honly.sound h hsound) trivial
  | widen =>
    obtain ⟨hsound, honly⟩ := widenBuffer_sound hi
    exact iff_of_true (honly.sound h hsound) trivial
  | bufposToBytind x =>
    obtain ⟨hsound, honly⟩ := run_bufposToBytind_sound hi x
    exact iff_of_true (honly.sound h hsound) trivial
  | bytindToBufpos x =>
    obtain ⟨hsound, honly⟩ := run_bytindToBufpos_sound hi x
    exact iff_of_true (honly.sound h hsound) trivial
  | convertedElsewhere =>
    exact iff_of_true ⟨⟨h.text.mule, h.text.z_eq⟩, h.members⟩ trivial

end Step

/-! ## Runs -/

/-- An operation through one of the members. -/
structure MemberOp (n : Nat) where
  member : Fin n
  op : BufferOp n

namespace MemberOp

def step (f : Family n) (o : MemberOp n) : Option (Family n) :=
  some (o.op.run o.member f)

/-- An operation suits all members and converts no extent endpoints out of step. -/
def Suits (f : Family n) (o : MemberOp n) : Prop :=
  o.op.InStep o.member f ∧ o.op.Suits o.member f

/-- An insertion converts no extent endpoints. -/
def NoEnds (o : MemberOp n) : Prop :=
  ∀ pos c ends, o.op = .insert pos c ends → ends = []

instance (f : Family n) (o : MemberOp n) : Decidable (o.Suits f) :=
  inferInstanceAs (Decidable (_ ∧ _))

theorem NoEnds.inStep {o : MemberOp n} (h : o.NoEnds) (f : Family n) :
    o.op.InStep o.member f := by
  obtain ⟨i, op⟩ := o
  cases op with
  | insert pos c ends =>
    obtain rfl : ends = [] := h pos c ends rfl
    exact fun _ he => absurd he List.not_mem_nil
  | _ => trivial

end MemberOp

/-- **The accessible regions of buffers that share a text**: from any sound family, in a
run of operations through any members, every accessible region is as expected in every
state if every insertion and deletion suits all members, and, where insertions convert
no extent endpoints, only if. -/
theorem accessible_of_suits {f : Family n} (hf : f.Sound) (l : List (MemberOp n)) :
    (StepsMeet MemberOp.step MemberOp.Suits f l →
      Always MemberOp.step Family.Accessible f l) ∧
    ((∀ o ∈ l, o.NoEnds) → Always MemberOp.step Family.Accessible f l →
      StepsMeet MemberOp.step MemberOp.Suits f l) := by
  have hstep : ∀ (f : Family n) (o : MemberOp n), f.Sound → o.Suits f →
      ∃ f', o.step f = some f' ∧ f'.Sound :=
    fun f o hf ho => ⟨_, rfl, (BufferOp.run_sound_iff hf o.op ho.1).mpr ho.2⟩
  refine ⟨fun hl => (Always.of_step hstep hf hl).imp
    fun f hf => (Family.accessible_iff hf.text).mpr hf, fun hends hl => ?_⟩
  refine StepsMeet.of_always (Q := MemberOp.NoEnds) hstep (fun f o f' hf hends ho hrun => ?_)
    hf hends hl
  have hrun : o.op.run o.member f = f' := Option.some.inj hrun
  have hsound := o.op.run_sound (hf.soundAt o.member) (hends.inStep f)
  rw [← hrun, Family.accessible_iff hsound.text, BufferOp.run_sound_iff hf o.op (hends.inStep f)]
  exact fun hsuits => ho ⟨hends.inStep f, hsuits⟩

/-- An insertion through the first buffer, which the second is narrowed to a part of. -/
def narrowed : List (MemberOp 2) :=
  [⟨0, .insert none (List.replicate 5 letterA) []⟩, ⟨1, .narrow 4 6⟩]

/-- A deletion through the second, which the first includes, and an insertion of as many
bytes before the second. -/
theorem accessible_of_suits_narrowed :
    Always MemberOp.step Family.Accessible (initBufferText 2)
      (narrowed ++ [⟨1, .delete 4 5⟩, ⟨0, .insert (some 1) [letterA] []⟩]) :=
  (accessible_of_suits initBufferText_allSound _).1
    (by decide)

/-- A deletion before the region of the second buffer moves its point out of it. -/
theorem narrowed_not_accessible :
    ¬ Always MemberOp.step Family.Accessible (initBufferText 2)
      (narrowed ++ [⟨0, .delete 1 3⟩]) := by
  intro h
  rw [← List.append_nil (narrowed ++ _)] at h
  obtain ⟨f, hrun, haccessible⟩ := h.exists_after
  have hwrong : ((after MemberOp.step (initBufferText 2) (narrowed ++ [⟨0, .delete 1 3⟩])).map
      fun f => ((f.members 1).begv.buf, (f.members 1).pt.buf)) = some (4, 2) := by decide
  rw [hrun, Option.map_some, Option.some.injEq, Prod.mk.injEq] at hwrong
  have := (haccessible 1).begv_le_pt
  omega

end XEmacs.Buffer

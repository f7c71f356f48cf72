import XEmacs.Buffer.GapSplice
import XEmacs.Lib.Runs

/-!
# The gap buffer refines its contents

The abstract buffer is a list of bytes and its changes are splices.
-/

namespace XEmacs.Gap

open BytePositions ByteMemory Interrupts BufferText

/-- A change of the text, in byte positions; a deletion also has its range in characters. -/
inductive Change where
  | insert (ind : Nat) (s : List Bufbyte)
  | delete (start stop biFrom biTo : Nat)

namespace Change

variable (machine : Machine)

/-- What the code does. -/
def run (b : BufferText) (q : Interrupts) : Change → Outcome
  | insert ind s => b.bufferInsertString1 machine q ind s
  | delete start stop biFrom biTo => b.bufferDeleteRange q start stop biFrom biTo

/-- What the change is on the contents. -/
def splice (l : List Bufbyte) : Change → List Bufbyte
  | insert ind s => insertAt l ind s
  | delete _ _ biFrom biTo => deleteRange l biFrom biTo

/-- The positions lie in the text, and those of a range in characters are those in bytes. -/
def Fits (b : BufferText) : Change → Prop
  | insert ind _ => 1 ≤ ind ∧ ind ≤ b.z
  | delete start stop biFrom biTo =>
    1 ≤ biFrom ∧ biFrom ≤ biTo ∧ biTo ≤ b.z ∧ (stop - start = 0 ↔ biFrom = biTo) ∧
      (stop = b.bufz ↔ biTo = b.z)

/-- The condition under which the change is a splice. -/
def Meets (b : BufferText) (q : Interrupts) : Change → Prop
  | insert ind s => InsertSplices machine b q ind s.length
  | delete _ _ biFrom biTo => DeleteSplices b q biFrom biTo

end Change

/-- A text between two changes, what the user will type, and the contents it should have. -/
structure Session where
  text : BufferText
  quits : Interrupts
  expected : List Bufbyte

/-- One change on both sides. -/
def Session.step (machine : Machine) (s : Session) (c : Change) : Option Session :=
  let r := c.run machine s.text s.quits
  some ⟨r.text, r.quits, if r.left then s.expected else c.splice s.expected⟩

/-- The gap lies in the text and holds its sentinel, and the contents are the expected
ones. -/
structure Session.Refines (s : Session) : Prop where
  inText : s.text.InText
  one_le_gapSize : 1 ≤ s.text.gapSize
  contents : s.text.contents = s.expected

namespace BufferText

variable {machine : Machine} {b : BufferText} {q : Interrupts}

/-- The shape of a text between two changes. -/
def Sound (b : BufferText) : Prop := b.InText ∧ 1 ≤ b.gapSize

theorem sound_movedTo {ind t : Nat} (hb : b.Sound) (ht : b.OnWay ind t) (h1 : 1 ≤ ind)
    (hz : ind ≤ b.z) : (b.movedTo ind t).Sound :=
  ⟨movedTo_inText ht hb.1 h1 hz, Nat.le_trans hb.2 (movedTo_gapSize b ind t)⟩

theorem sound_makeRoom {n : Nat} (hb : b.Sound)
    (h : b.gapCanHoldSize n = true ∨ (b.growth machine n).isNone = true ∨
      q.Quiet (b.z - b.gpt)) : (b.makeRoom machine q n).text.Sound := by
  by_cases hleft : (b.makeRoom machine q n).left = true
  · rw [makeRoom_eq machine b q n hb.2] at hleft ⊢
    by_cases hhold : b.gapCanHoldSize n = true
    · rw [if_pos hhold]
      exact hb
    rw [if_neg hhold] at hleft ⊢
    cases hgrow : b.growth machine n with
    | none => exact hb
    | some grown =>
      obtain ⟨increment, new⟩ := grown
      rw [hgrow] at h hleft
      rcases h with h | h | h
      · exact absurd h hhold
      · cases h
      · obtain ⟨hgpt, hz, -⟩ := b.inBlock_sizes new
        simp only [joinEndGap_eq (b.inBlock new) q increment (by rw [hgpt, hz]; exact hb.1.2),
          hz, hgpt, h.2, Bool.false_eq_true, if_false] at hleft
  · obtain ⟨hgpt, hz, hroom, -⟩ :=
      makeRoom_returned hb.1 hb.2 (Bool.eq_false_iff.mpr hleft)
    refine ⟨?_, by omega⟩
    rw [InText, hgpt, hz]
    exact hb.1

theorem sound_fillGap {s : List Bufbyte} (hb : b.InText) (hroom : s.length + 1 ≤ b.gapSize) :
    (b.fillGap s).Sound := by
  obtain ⟨h1, hz⟩ := hb
  refine ⟨⟨?_, ?_⟩, ?_⟩
  · show 1 ≤ b.gpt + s.length
    omega
  · show b.gpt + s.length ≤ b.z + s.length
    omega
  · show 1 ≤ b.gapSize - s.length
    omega

theorem sound_cutBottom {biFrom : Nat} (hb : b.Sound) (hfrom : b.gpt ≤ biFrom)
    (hz : biFrom ≤ b.z) (numdel : Nat) : (b.cutBottom numdel (b.z - biFrom)).Sound := by
  refine ⟨⟨hb.1.1, ?_⟩, hb.2⟩
  show b.gpt ≤ b.z - (b.z - biFrom)
  omega

theorem sound_widenGap (hg : 1 ≤ b.gapSize) {biFrom biTo : Nat} (h1 : 1 ≤ biFrom)
    (hle : biFrom ≤ biTo) (hz : biTo ≤ b.z) (numdel : Nat) :
    (b.widenGap numdel (biTo - biFrom) biFrom).Sound := by
  refine ⟨⟨h1, ?_⟩, Nat.le_trans hg (Nat.le_add_right ..)⟩
  show biFrom ≤ b.z - (biTo - biFrom)
  omega

theorem sound_insert {ind : Nat} {s : List Bufbyte} (hb : b.Sound) (h1 : 1 ≤ ind)
    (hz : ind ≤ b.z) (h : InsertSplices machine b q ind s.length) :
    (b.bufferInsertString1 machine q ind s).text.Sound := by
  by_cases hmax : machine.emacsIntMax < s.length + b.bufz
  · rw [bufferInsertString1, if_pos hmax]
    exact hb
  have ht := b.stopAt_onWay q ind
  have hstop := b.stopAt_eq_iff q ind
  rw [insert_eq machine b q ind s hmax]
  generalize b.stopAt q ind = t at ht hstop ⊢
  have hmoved := sound_movedTo hb ht h1 hz
  by_cases hleft : ind ≠ b.gpt ∧ q.leaves (b.way ind) = true
  · rw [if_pos hleft]
    exact hmoved
  rw [if_neg hleft, Outcome.andThen]
  have hroom : ((b.movedTo ind t).makeRoom machine (b.afterMove q ind) s.length).text.Sound := by
    refine sound_makeRoom hmoved ?_
    rcases h with h | h | h | h
    · rw [h, gapCanHoldSize]
      exact Or.inl (decide_eq_true hmoved.2)
    · exact absurd h hmax
    · exact absurd h hleft
    · by_cases hshort : q.short (b.way ind) = 0
      · rw [if_neg (not_not_intro hshort)] at h
        obtain rfl := hstop.mpr hshort
        have hsizes := sameSizes_there b t
        rw [hsizes.gapCanHoldSize, hsizes.growth, movedTo_gpt ht, movedTo_z]
        exact h
      · rw [if_pos hshort] at h
        have hsizes := sameSizes_short ht hz fun hti => hshort (hstop.mp hti)
        rw [hsizes.growth]
        exact Or.inr (Or.inl h.2)
  split_ifs with hleft'
  · exact hroom
  · exact sound_fillGap hroom.1
      (makeRoom_returned hmoved.1 hmoved.2 (Bool.eq_false_iff.mpr hleft')).2.2.1

theorem sound_delete (hb : b.Sound) (r : ByteRange b) :
    (b.bufferDeleteRange q r.start r.stop r.biFrom r.biTo).text.Sound := by
  have hbz := r.le_z
  by_cases hne : r.biFrom = r.biTo
  · rw [bufferDeleteRange, if_pos (r.empty_iff.mpr hne)]
    exact hb
  by_cases hbottom : r.biTo = b.z ∧ b.gpt < r.biFrom
  · rw [bufferDeleteRange, if_neg (mt r.empty_iff.mp hne),
      if_pos ⟨r.bottom_iff.mpr hbottom.1, hbottom.2⟩, hbottom.1]
    exact sound_cutBottom hb (Nat.le_of_lt hbottom.2) (Nat.le_trans r.le hbz) _
  rw [delete_eq b q r hne hbottom]
  obtain ⟨hfrom, hto⟩ := b.beside_bounds r
  have ht := b.stopAt_onWay q (b.beside r.biFrom r.biTo)
  have hmoved := sound_movedTo hb ht (Nat.le_trans r.one_le hfrom) (Nat.le_trans hto hbz)
  rw [moveGap_eq]
  split_ifs
  · exact sound_widenGap hb.2 r.one_le r.le hbz _
  · rw [Outcome.andThen]
    split_ifs
    · exact hmoved
    · exact sound_widenGap hmoved.2 r.one_le r.le (by rw [movedTo_z]; exact hbz) _

end BufferText

theorem Session.refines_step {machine : Machine} {s : Session} (c : Change)
    (hs : s.Refines) (hfit : c.Fits s.text) (hc : c.Meets machine s.text s.quits) :
    ∃ s', s.step machine c = some s' ∧ s'.Refines := by
  obtain ⟨hin, hgap, hcontents⟩ := hs
  refine ⟨_, rfl, ?_⟩
  cases c with
  | insert ind bytes =>
    obtain ⟨h1, hz⟩ := hfit
    obtain ⟨hin', hgap'⟩ := sound_insert ⟨hin, hgap⟩ h1 hz hc
    have hsplice := splices_of_insertSplices hin hgap h1 hz hc
    rw [Outcome.Splices, hcontents] at hsplice
    exact ⟨hin', hgap', hsplice⟩
  | delete start stop biFrom biTo =>
    obtain ⟨h1, hle, hz, hempty, hbottom⟩ := hfit
    obtain ⟨hin', hgap'⟩ := sound_delete (q := s.quits) ⟨hin, hgap⟩
      ⟨start, stop, biFrom, biTo, h1, hle, hz, hempty, hbottom⟩
    have hsplice := splices_of_deleteSplices hin hgap
      ⟨start, stop, biFrom, biTo, h1, hle, hz, hempty, hbottom⟩ hc
    rw [Outcome.Splices, hcontents] at hsplice
    exact ⟨hin', hgap', hsplice⟩

/-- **The gap buffer refines a byte string**: the motion of the gap alone never changes the
contents, and an insertion or a deletion is a splice of them if and only if its condition
is met. -/
theorem gap_buffer_splices (machine : Machine) (b : GapBuffer) (q : Interrupts) :
    (∀ pos, 1 ≤ pos → pos ≤ b.z →
      (b.moveGap q pos).text.contents = b.contents) ∧
    (∀ ind n, 1 ≤ ind → ind ≤ b.z →
      ((∀ (m : Nat → Bufbyte) (s : List Bufbyte), s.length = n →
        ({ b.toBufferText with beg := m }.bufferInsertString1 machine q ind s).Splices
          { b.toBufferText with beg := m }.contents
          (insertAt { b.toBufferText with beg := m }.contents ind s)) ↔
        InsertSplices machine b.toBufferText q ind n)) ∧
    (∀ r : ByteRange b.toBufferText,
      ((∀ m : Nat → Bufbyte,
        ({ b.toBufferText with beg := m }.bufferDeleteRange q r.start r.stop r.biFrom
          r.biTo).Splices { b.toBufferText with beg := m }.contents
          (deleteRange { b.toBufferText with beg := m }.contents r.biFrom r.biTo)) ↔
        DeleteSplices b.toBufferText q r.biFrom r.biTo)) :=
  ⟨fun _ h1 hz => moveGap_keeps ⟨b.one_le_gpt, b.gpt_le_z⟩ b.one_le_gapSize q h1 hz,
    fun _ _ h1 hz =>
      insert_splices_iff ⟨b.one_le_gpt, b.gpt_le_z⟩ b.one_le_gapSize h1 hz,
    fun r => delete_splices_iff ⟨b.one_le_gpt, b.gpt_le_z⟩ b.one_le_gapSize r⟩

/-- Two bytes with a gap of two between them, and an end gap of five. -/
def twoBytes : GapBuffer where
  beg := memcpy (fun _ => 0) 1 [97, 0, 0, 98]
  gpt := 2
  z := 3
  bufz := 3
  gapSize := 2
  endGapSize := 5
  one_le_gpt := by decide
  gpt_le_z := by decide
  one_le_gapSize := by decide

/-- A machine with no more memory. -/
def fullMachine : Machine := ⟨1000, fun _ => none⟩

def noQuit : Interrupts := ⟨.nil, false, [], []⟩

/-- A critical quit is typed when the gap is moved first, and the user continues. -/
def criticalQuit : Interrupts := ⟨.nil, false, [.critical], [true]⟩

/-- Without a quit the two bytes are inserted, and a byte is deleted. -/
theorem gap_buffer_splices_twoBytes :
    (twoBytes.bufferInsertString1 fullMachine noQuit 2 [65, 66]).Splices twoBytes.contents
      (insertAt twoBytes.contents 2 [65, 66]) ∧
    (twoBytes.bufferDeleteRange noQuit 1 2 1 2).Splices twoBytes.contents
      (deleteRange twoBytes.contents 1 2) :=
  ⟨((gap_buffer_splices fullMachine twoBytes noQuit).2.1 2 2 (by decide) (by decide)).mpr
      (by decide) twoBytes.beg [65, 66] rfl,
    ((gap_buffer_splices fullMachine twoBytes noQuit).2.2
      ⟨1, 2, 1, 2, by decide, by decide, by decide, by decide, by decide⟩).mpr
      (by decide) twoBytes.beg⟩

/-- The motion that gives the end gap to the gap is stopped by a critical quit although it
is inhibited: the byte after the gap is lost. -/
theorem critical_quit_loses_byte :
    ¬ (twoBytes.bufferInsertString1 fullMachine criticalQuit 2 [65, 66]).Splices
      twoBytes.contents (insertAt twoBytes.contents 2 [65, 66]) := by
  show ¬ _ = _
  decide

end XEmacs.Gap

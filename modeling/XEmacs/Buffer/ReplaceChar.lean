import XEmacs.Buffer.Sound

/-!
# Replacing a character (insdel.c)

`buffer_replace_char` overwrites a character by one of the same width. One of another width
replaces it by a deletion and an insertion, and the position is made valid in between as if a
character were still to be there.
-/

namespace XEmacs.Buffer

open BytePositions Option

variable {n : Nat}

/-- The position of a character made valid: moved into the accessible region, if that has
characters. -/
def BufferPositions.clipChar (buf : BufferPositions) (pos : Nat) : Option Nat :=
  let pos := if pos < buf.begv.buf then buf.begv.buf else pos
  let pos := if pos ≥ buf.zv.buf then buf.zv.buf - 1 else pos
  if pos < buf.begv.buf then none else some pos

/-- `buffer_replace_char` at an accessible position, with the extent endpoints that an insertion
converts. -/
def Family.bufferReplaceChar (f : Family n) (i : Fin n) (pos : Nat) (ch : Emchar)
    (ends : List (Fin n × Nat)) : Family n :=
  let (ind, f) := f.bufposToBytind i pos
  match f.text.text[scanBytind f.text.text ind - 1]? with
  | none => f
  | some cur =>
    if cur.width = ch.width then
      match (f.members i).clipChar pos with
      | none => f
      | some pos =>
        let (ind, f) := f.bufposToBytind i pos
        { f with
          text := { f.text with text := f.text.text.set (scanBytind f.text.text ind - 1) ch } }
    else
      -- whether the deletion moves point back to the position of the insertion
      let movepoint : Bool := pos + 1 = (f.members i).pt.buf
      let f := bufferDeleteRange f i pos (pos + 1)
      match (f.members i).clipChar pos with
      | none => f
      | some pos => bufferInsertString1 f i (if movepoint then none else some pos) [ch] ends

/-- The character at a position is replaced, and point stays where it is. -/
structure ReplacesChar (f : Family n) (i : Fin n) (pos : Nat) (ch : Emchar) (f' : Family n) :
    Prop where
  text : f'.text.text = f.text.text.set (pos - 1) ch
  point : (f'.members i).pt.buf = (f.members i).pt.buf

/-- The replacement does not have to come behind the last character of the accessible region: it
overwrites the old one, or there are more characters behind. Or point is there, and there are
characters before; or the character before is the same, and point is not in between. -/
def ReplaceFits (f : Family n) (i : Fin n) (pos : Nat) (ch : Emchar) : Prop :=
  (∃ cur ∈ f.text.text[pos - 1]?, cur.width = ch.width) ∨
    pos + 1 < (f.members i).zv.buf ∨
    (f.members i).begv.buf < pos ∧
      ((f.members i).pt.buf = pos + 1 ∨
        f.text.text[pos - 2]? = some ch ∧ (f.members i).pt.buf ≠ pos)

/-- An insertion that moves point does not convert the endpoint of an extent in another buffer
of the family while `PT` of that buffer is out of step. -/
def ReplaceInStep (f : Family n) (i : Fin n) (pos : Nat) (ch : Emchar)
    (ends : List (Fin n × Nat)) : Prop :=
  (f.members i).pt.buf = pos + 1 →
    ∀ e ∈ ends, e.1 ≠ i →
      (((bufferDeleteRange f i pos (pos + 1)).members e.1).moveZv ch.width 1).True
        (f.text.text.set (pos - 1) ch)

/-! ## Conversions -/

theorem convertFunc_text (c : Coord) (buf : BufferPositions) (t : BufferText) (x : Nat) :
    (convertFunc c buf t x).2.text = t.text := by
  unfold convertFunc
  split
  · rfl
  · split
    · rfl
    · split
      · rfl
      · dsimp only
        split <;> rfl

theorem bytindToBufpos_text (buf : BufferPositions) (t : BufferText) (x : Nat) :
    (bytindToBufpos buf t x).2.text = t.text := by
  unfold bytindToBufpos
  split
  · rfl
  · exact convertFunc_text .byt buf t x

theorem Family.convertEnd_same (f : Family n) (e : Fin n × Nat) :
    (f.convertEnd e).text.text = f.text.text ∧ (f.convertEnd e).members = f.members := by
  unfold Family.convertEnd
  split
  · exact ⟨bytindToBufpos_text .., rfl⟩
  · exact ⟨rfl, rfl⟩

theorem convertEnds_same (ends : List (Fin n × Nat)) (f : Family n) :
    (ends.foldl Family.convertEnd f).text.text = f.text.text ∧
      (ends.foldl Family.convertEnd f).members = f.members := by
  induction ends generalizing f with
  | nil => exact ⟨rfl, rfl⟩
  | cons e ends ih =>
    obtain ⟨htext, hmembers⟩ := f.convertEnd_same e
    obtain ⟨htext', hmembers'⟩ := ih (f.convertEnd e)
    exact ⟨htext'.trans htext, hmembers'.trans hmembers⟩

/-! ## The insertion -/

section insertion

variable {f : Family n} {i : Fin n} {pos p : Nat} {ch : Emchar}
  {ends : List (Fin n × Nat)}

theorem bufferInsertString1_at (h : f.SoundAt i) (hlo : (f.members i).begv.buf ≤ p)
    (hhi : p ≤ (f.members i).zv.buf) (c : List Emchar) (ends : List (Fin n × Nat)) :
    (bufferInsertString1 f i (some p) c ends).text.text = insertAt f.text.text p c ∧
      ((bufferInsertString1 f i (some p) c ends).members i).pt.buf
        = if p < (f.members i).pt.buf then (f.members i).pt.buf + c.length
          else (f.members i).pt.buf := by
  have hp : 1 ≤ p := Nat.le_trans h.member.true.begv.one_le hlo
  have hp' : p ≤ f.text.text.length + 1 := Nat.le_trans hhi h.member.true.zv.le_end
  have hclip : (f.members i).clip p = p := by
    simp only [BufferPositions.clip]
    split
    · omega
    · split <;> omega
  obtain ⟨t, hconv, hkeeps, -⟩ := h.trueAt.bufposToBytind hp hp'
  have hpt := (h.member.true.pt.inserted_pt hp hp' c).2
  unfold bufferInsertString1 insertString
  simp only [getD_some, hclip, hconv, hkeeps.text_eq,
    scanBytind_bytind f.text.text hp hp', isNone_some, Bool.false_eq_true, if_false]
  obtain ⟨htext, hmembers⟩ := convertEnds_same ends
    { text := { t with
        text := insertAt f.text.text p c
        z := t.z.shove (byteLength Emchar.width c) c.length
        mule := muleSignalInsertedRegion (textBytes (insertAt f.text.text p c)) t.mule p
          (byteLength Emchar.width c) c.length }
      members := fun j => (f.members j).moveZv (byteLength Emchar.width c) c.length }
  refine ⟨htext, ?_⟩
  rw [hmembers]
  exact hpt

theorem bufferInsertString1_atPoint (h : f.SoundAt i) (c : List Emchar)
    (hends : EndsTrue f (f.members i).pt.buf c ends) :
    (bufferInsertString1 f i none c ends).text.text
        = insertAt f.text.text (f.members i).pt.buf c ∧
      ((bufferInsertString1 f i none c ends).members i).pt.buf
        = (f.members i).pt.buf + c.length := by
  have hlo := h.member.begv_le
  have hhi := h.member.le_zv
  have hp := h.member.true.pt.one_le
  have hp' := h.member.true.pt.le_end
  have hclip : (f.members i).clip (f.members i).pt.buf = (f.members i).pt.buf := by
    simp only [BufferPositions.clip]
    split
    · omega
    · split <;> omega
  obtain ⟨f', heq, htext, hsound, hmembers, -⟩ := insertString_spec h hlo hhi c hends
  have hend : bytind f.text.text (f.members i).pt.buf + byteLength Emchar.width c
      = bytind f'.text.text ((f.members i).pt.buf + c.length) := by
    rw [htext]
    exact (bytePos_insertAt_after hp hp' (Nat.le_refl _)).symm
  have hset : PointSet f' _ i ((f.members i).pt.buf + c.length) := hsound.trueAt.biBufSetPt
    (by rw [hmembers i]
        show (f.members i).begv.buf ≤ _
        omega)
    (by rw [hmembers i]
        exact Nat.add_le_add_right hhi _)
  unfold bufferInsertString1
  simp only [getD_none, hclip, heq, isNone_none, if_true]
  rw [hend]
  refine ⟨hset.text_eq.trans htext, ?_⟩
  rw [hset.members, Function.update_self]

end insertion

/-! ## The replacement -/

section replacement

variable {f : Family n} {i : Fin n} {pos p : Nat} {cur ch : Emchar}
  {ends : List (Fin n × Nat)}

/-- What is left of a buffer when the character at a position is deleted. -/
structure CharDeleted (f : Family n) (i : Fin n) (pos : Nat) (f' : Family n) : Prop where
  sound : f'.SoundAt i
  text : f'.text.text = deleteRange f.text.text pos (pos + 1)
  begv : (f'.members i).begv.buf = (f.members i).begv.buf
  zv : (f'.members i).zv.buf = (f.members i).zv.buf - 1
  point : (f'.members i).pt.buf
    = if pos < (f.members i).pt.buf then (f.members i).pt.buf - 1 else (f.members i).pt.buf

theorem bufferDeleteRange_char (h : f.SoundAt i) (hlo : (f.members i).begv.buf ≤ pos)
    (hhi : pos < (f.members i).zv.buf) :
    CharDeleted f i pos (bufferDeleteRange f i pos (pos + 1)) := by
  have hpos : 1 ≤ pos := Nat.le_trans h.member.true.begv.one_le hlo
  have hend : pos + 1 ≤ f.text.text.length + 1 := Nat.le_trans hhi h.member.true.zv.le_end
  obtain ⟨htext, hsound, hmembers, -⟩ :=
    bufferDeleteRange_spec h (Nat.lt_succ_self pos) hlo hhi
  have hpt := (h.member.true.pt.deleted_pt hpos (Nat.lt_succ_self pos) hend).2
  refine ⟨hsound, htext, by rw [hmembers]; rfl, ?_, ?_⟩
  · rw [hmembers]
    show (f.members i).zv.buf - (pos + 1 - pos) = _
    omega
  · rw [hmembers, hpt]
    split
    · rw [if_neg (by omega)]
      omega
    · rfl

theorem clipChar_eq {buf : BufferPositions} (hone : 1 ≤ buf.begv.buf)
    (hlo : buf.begv.buf ≤ pos) : buf.clipChar pos =
      if pos < buf.zv.buf then some pos
      else if buf.begv.buf < buf.zv.buf then some (buf.zv.buf - 1) else none := by
  simp only [BufferPositions.clipChar, if_neg (Nat.not_lt.mpr hlo)]
  by_cases hzv : pos < buf.zv.buf
  · rw [if_pos hzv, if_neg (Nat.not_le.mpr hzv), if_neg (Nat.not_lt.mpr hlo)]
  · rw [if_neg hzv, if_pos (Nat.not_lt.mp hzv)]
    by_cases hbegv : buf.begv.buf < buf.zv.buf
    · rw [if_pos hbegv, if_neg (by omega)]
    · rw [if_neg hbegv, if_pos (by omega)]

theorem bufferReplaceChar_same (h : f.SoundAt i) (hlo : (f.members i).begv.buf ≤ pos)
    (hhi : pos < (f.members i).zv.buf) (hcur : f.text.text[pos - 1]? = some cur)
    (hw : cur.width = ch.width) (ends : List (Fin n × Nat)) :
    ReplacesChar f i pos ch (f.bufferReplaceChar i pos ch ends) := by
  have hpos : 1 ≤ pos := Nat.le_trans h.member.true.begv.one_le hlo
  have hpos' : pos ≤ f.text.text.length + 1 :=
    Nat.le_trans (Nat.le_of_lt hhi) h.member.true.zv.le_end
  obtain ⟨t, hconv, hkeeps, -⟩ := h.trueAt.bufposToBytind hpos hpos'
  have htext : ({ f with text := t } : Family n).text.text = f.text.text := hkeeps.text_eq
  obtain ⟨t', hconv', hkeeps', -⟩ := (h.keeps hkeeps).trueAt.bufposToBytind hpos (by
    rw [htext]; exact hpos')
  rw [htext] at hconv'
  have hclip := clipChar_eq h.member.true.begv.one_le hlo
  rw [if_pos hhi] at hclip
  unfold Family.bufferReplaceChar
  simp only [hconv, hconv', hkeeps.text_eq, hkeeps'.text_eq, scanBytind_bytind _ hpos hpos', hcur,
    hw, if_true, hclip]
  exact ⟨rfl, rfl⟩

theorem bufferReplaceChar_other (h : f.SoundAt i) (hlo : (f.members i).begv.buf ≤ pos)
    (hhi : pos < (f.members i).zv.buf) (hcur : f.text.text[pos - 1]? = some cur)
    (hw : cur.width ≠ ch.width) (ends : List (Fin n × Nat)) :
    ∃ f', CharDeleted f i pos f' ∧
      f'.members = (bufferDeleteRange f i pos (pos + 1)).members ∧
      f.bufferReplaceChar i pos ch ends = ((f'.members i).clipChar pos).elim f' fun p =>
        bufferInsertString1 f' i (if pos + 1 = (f.members i).pt.buf then none else some p)
          [ch] ends := by
  have hpos : 1 ≤ pos := Nat.le_trans h.member.true.begv.one_le hlo
  have hpos' : pos ≤ f.text.text.length + 1 :=
    Nat.le_trans (Nat.le_of_lt hhi) h.member.true.zv.le_end
  obtain ⟨t, hconv, hkeeps, -⟩ := h.trueAt.bufposToBytind hpos hpos'
  have htext : ({ f with text := t } : Family n).text.text = f.text.text := hkeeps.text_eq
  have hsound := h.keeps hkeeps
  obtain ⟨-, -, hmembers, -⟩ := bufferDeleteRange_spec h (Nat.lt_succ_self pos) hlo hhi
  obtain ⟨-, -, hmembers', -⟩ := bufferDeleteRange_spec hsound (Nat.lt_succ_self pos) hlo hhi
  have hdeleted := bufferDeleteRange_char hsound hlo hhi
  refine ⟨bufferDeleteRange { f with text := t } i pos (pos + 1), ⟨hdeleted.sound, ?_,
    hdeleted.begv, hdeleted.zv, hdeleted.point⟩, funext fun j => ?_, ?_⟩
  · rw [hdeleted.text, htext]
  · rw [hmembers, hmembers', htext]
  · unfold Family.bufferReplaceChar
    simp only [hconv, hkeeps.text_eq, scanBytind_bytind _ hpos hpos', hcur, if_neg hw,
      decide_eq_true_eq]
    split <;> rename_i hclip <;> rw [hclip] <;> rfl

theorem BufferPositions.movePt_of_le {buf : BufferPositions} {ind : Nat}
    (h : buf.pt.byt ≤ ind) (length cclen : Nat) : buf.movePt ind length cclen = buf := by
  rw [BufferPositions.movePt, if_neg (Nat.not_lt.mpr h)]

theorem ReplaceInStep.endsTrue {f' : Family n} (hstep : ReplaceInStep f i pos ch ends)
    (hdeleted : CharDeleted f i pos f')
    (hmembers : f'.members = (bufferDeleteRange f i pos (pos + 1)).members)
    (htext : insertAt f'.text.text pos [ch] = f.text.text.set (pos - 1) ch)
    (hpoint : (f.members i).pt.buf = pos + 1) : EndsTrue f' pos [ch] ends := by
  have hpt : (f'.members i).pt.buf = pos := by
    rw [hdeleted.point, hpoint, if_pos (Nat.lt_succ_self pos), Nat.add_sub_cancel]
  have hwidth : byteLength Emchar.width [ch] = ch.width := Nat.add_zero _
  intro e he
  by_cases hi : e.1 = i
  · rw [hi]
    have hinserted := (hdeleted.sound.member.inserted (p := pos)
      (hpt ▸ hdeleted.sound.member.begv_le) (hpt ▸ hdeleted.sound.member.le_zv) [ch]).true
    have hbyt := hdeleted.sound.member.true.pt.byt_eq
    rw [hpt] at hbyt
    -- `PT` is not moved, since it is not behind the insertion
    have hkept : (f'.members i).inserted (bytind f'.text.text pos) (byteLength Emchar.width [ch])
        [ch].length = (f'.members i).moveZv (byteLength Emchar.width [ch]) [ch].length :=
      @BufferPositions.movePt_of_le ((f'.members i).moveZv _ _) _ (Nat.le_of_eq hbyt) _ _
    rw [hkept] at hinserted
    exact hinserted
  · rw [htext, hwidth, hmembers]
    exact hstep hpoint e he hi

/-! ## Where the character comes -/

/-- **`buffer_replace_char`** replaces a character exactly where the replacement fits. -/
theorem bufferReplaceChar_replaces_iff (h : f.SoundAt i) (hlo : (f.members i).begv.buf ≤ pos)
    (hhi : pos < (f.members i).zv.buf) (hstep : ReplaceInStep f i pos ch ends) :
    ReplacesChar f i pos ch (f.bufferReplaceChar i pos ch ends) ↔ ReplaceFits f i pos ch := by
  have hone := h.member.true.begv.one_le
  have hpos : 1 ≤ pos := Nat.le_trans hone hlo
  have hend : pos ≤ f.text.text.length :=
    Nat.le_of_lt_succ (Nat.lt_of_lt_of_le hhi h.member.true.zv.le_end)
  have hzv := h.member.le_zv
  have hcur := List.getElem?_eq_getElem (show pos - 1 < f.text.text.length by omega)
  by_cases hw : f.text.text[pos - 1].width = ch.width
  · exact iff_of_true (bufferReplaceChar_same h hlo hhi hcur hw ends) (.inl ⟨_, hcur, hw⟩)
  have hother : ¬ ∃ cur ∈ f.text.text[pos - 1]?, cur.width = ch.width := by
    rintro ⟨cur, hmem, hcw⟩
    rw [hcur] at hmem
    cases hmem
    exact hw hcw
  obtain ⟨f', hdeleted, hmembers, heq⟩ := bufferReplaceChar_other h hlo hhi hcur hw ends
  have hset : insertAt f'.text.text pos [ch] = f.text.text.set (pos - 1) ch := by
    rw [hdeleted.text]
    exact insertAt_deleteRange_eq_set hpos hend ch
  have hclip := clipChar_eq
    (hdeleted.begv ▸ h.member.true.begv.one_le) (hdeleted.begv ▸ hlo)
  rw [hdeleted.begv, hdeleted.zv] at hclip
  rw [heq, hclip, ReplaceFits]
  -- nothing is left of the accessible region
  by_cases hleft : (f.members i).begv.buf < (f.members i).zv.buf - 1
  swap
  · rw [if_neg (by omega), if_neg hleft, Option.elim_none]
    refine iff_of_false (fun hreplaces => ?_) (by
      rintro (hcw | hlt | ⟨hlt, -⟩)
      · exact hother hcw
      · omega
      · omega)
    have hlen := congrArg List.length hreplaces.text
    rw [hdeleted.text, length_deleteRange hpos (Nat.le_succ pos) (by omega),
      List.length_set] at hlen
    omega
  have hsome : (if pos < (f.members i).zv.buf - 1 then some pos
      else if (f.members i).begv.buf < (f.members i).zv.buf - 1 then
        some ((f.members i).zv.buf - 1 - 1) else none)
      = some (if pos < (f.members i).zv.buf - 1 then pos else pos - 1) := by
    rw [if_pos hleft]
    split
    · rfl
    · rw [show (f.members i).zv.buf - 1 - 1 = pos - 1 by omega]
  rw [hsome, Option.elim_some]
  by_cases hpoint : pos + 1 = (f.members i).pt.buf
  · -- the deletion moves point back to the position of the insertion
    have hpt : (f'.members i).pt.buf = pos := by
      rw [hdeleted.point, if_pos (by omega)]
      omega
    obtain ⟨htext, hpt'⟩ := bufferInsertString1_atPoint hdeleted.sound [ch]
      (hpt.symm ▸ hstep.endsTrue hdeleted hmembers hset hpoint.symm)
    rw [if_pos hpoint]
    refine iff_of_true ⟨?_, ?_⟩ ?_
    · rw [htext, hpt, hset]
    · rw [hpt', hpt, ← hpoint]
      rfl
    · by_cases hlast : pos + 1 < (f.members i).zv.buf
      · exact .inr (.inl hlast)
      · exact .inr (.inr ⟨by omega, .inl hpoint.symm⟩)
  rw [if_neg hpoint]
  by_cases hlast : pos + 1 < (f.members i).zv.buf
  · -- the position stays what it is
    rw [if_pos (by omega)]
    obtain ⟨htext, hpt⟩ := bufferInsertString1_at hdeleted.sound (p := pos)
      (by rw [hdeleted.begv]; omega) (by rw [hdeleted.zv]; omega) [ch] ends
    refine iff_of_true ⟨htext.trans hset, ?_⟩ (.inr (.inl hlast))
    have hpoint' := hdeleted.point
    rw [hpt, List.length_singleton]
    split at hpoint' <;> split <;> omega
  · -- the position is in front of the last character that is left
    rw [if_neg (by omega)]
    obtain ⟨htext, hpt⟩ := bufferInsertString1_at hdeleted.sound (p := pos - 1)
      (by rw [hdeleted.begv]; omega) (by rw [hdeleted.zv]; omega) [ch] ends
    have hpoint' := hdeleted.point
    rw [if_neg (by omega)] at hpoint'
    rw [hdeleted.text] at htext
    rw [hpoint', List.length_singleton] at hpt
    have hpred := insertAt_deleteRange_pred_iff (l := f.text.text) (p := pos) (by omega) hend ch
    constructor
    · rintro ⟨htext', hpt'⟩
      rw [htext] at htext'
      rw [hpt] at hpt'
      refine .inr (.inr ⟨by omega, .inr ⟨hpred.mp htext', fun heq => ?_⟩⟩)
      rw [if_pos (by omega)] at hpt'
      omega
    · rintro (hcw | hlt | ⟨-, heq | ⟨hch, hne⟩⟩)
      · exact absurd hcw hother
      · omega
      · omega
      · refine ⟨htext.trans (hpred.mpr hch), ?_⟩
        rw [hpt, if_neg (by omega)]

end replacement

/-- A buffer with two letters and point at the start. -/
def twoLetters : Family 1 :=
  gotoChar (bufferInsertString1 (initBufferText 1) 0 none [letterA, letterA] []) 0 1

theorem twoLetters_sound : twoLetters.SoundAt 0 := by
  have hempty : (initBufferText 1).SoundAt 0 := initBufferText_sound 0
  have hfilled := BufferOp.run_sound hempty (.insert none [letterA, letterA] [])
    fun e he => absurd he List.not_mem_nil
  exact BufferOp.run_sound hfilled (.gotoChar 1) trivial

/-- A wider character in place of the first letter. -/
theorem twoLetters_replaces :
    ReplacesChar twoLetters 0 1 hiraganaA (twoLetters.bufferReplaceChar 0 1 hiraganaA []) :=
  (bufferReplaceChar_replaces_iff twoLetters_sound (by decide) (by decide)
    fun _ e he => absurd he List.not_mem_nil).mpr (.inr (.inl (by decide)))

/-- In place of the last letter, it comes before the first one. -/
theorem twoLetters_misplaced :
    twoLetters.SoundAt 0 ∧ (twoLetters.members 0).begv.buf ≤ 2 ∧
      2 < (twoLetters.members 0).zv.buf ∧
      (twoLetters.bufferReplaceChar 0 2 hiraganaA []).text.text = [hiraganaA, letterA] ∧
      ¬ ReplacesChar twoLetters 0 2 hiraganaA
        (twoLetters.bufferReplaceChar 0 2 hiraganaA []) := by
  have htext : (twoLetters.bufferReplaceChar 0 2 hiraganaA []).text.text
      = [hiraganaA, letterA] := by decide
  refine ⟨twoLetters_sound, by decide, by decide, htext, fun h => ?_⟩
  have hreplaced := h.text
  rw [htext] at hreplaced
  exact absurd hreplaced (by decide)

end XEmacs.Buffer

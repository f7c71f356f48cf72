import XEmacs.Buffer.Family
import XEmacs.Buffer.Hooks

/-!
# The positions of a buffer under a change

An insertion moves `ZV` of every buffer that shares the text and a deletion too, wherever the
change is; neither moves `BEGV`; `PT` is moved like a marker. That is right for a buffer whose
accessible region includes the change.
-/

namespace XEmacs.Buffer

open BytePositions

/-- The positions of a buffer are true and in order. -/
structure BufferPositions.Sound (text : List Emchar) (buf : BufferPositions) : Prop where
  true : buf.True text
  begv_le : buf.begv.buf ≤ buf.pt.buf
  le_zv : buf.pt.buf ≤ buf.zv.buf

/-- The positions of a buffer after an insertion. -/
def BufferPositions.inserted (buf : BufferPositions) (ind length cclen : Nat) :
    BufferPositions :=
  (buf.moveZv length cclen).movePt ind length cclen

/-- The number of bytes of the characters between two positions. -/
abbrev bytesBetween (text : List Emchar) (a b : Nat) : Nat :=
  byteLength Emchar.width (between text a b)

/-- An insertion of `c` at `p` suits a buffer that is narrowed to a region behind it if
as many bytes come before `BEGV` as there were, and one that is narrowed to a region
before it if the characters `ZV` is moved over have as many bytes as `c`. -/
structure InsertFits (text : List Emchar) (p : Nat) (c : List Emchar)
    (buf : BufferPositions) : Prop where
  begv : p < buf.begv.buf →
    byteLength Emchar.width ((c ++ between text p buf.begv.buf).take (buf.begv.buf - p))
      = bytesBetween text p buf.begv.buf
  zv : buf.zv.buf < p →
    byteLength Emchar.width ((between text buf.zv.buf p ++ c).take c.length)
      = byteLength Emchar.width c

/-- A deletion from `a` up to `b` suits a buffer whose `BEGV` is behind `a` if as many
characters as are deleted come between `BEGV` and point, and `BEGV` is at the same byte
afterwards; one whose `ZV` is before `b` if as many come between point and `ZV`, and
have as many bytes. -/
structure DeleteFits (text : List Emchar) (a b : Nat) (buf : BufferPositions) : Prop where
  begv : a < buf.begv.buf →
    buf.begv.buf + (b - a) ≤ buf.pt.buf ∧
      bytesBetween text b (buf.begv.buf + (b - a)) = bytesBetween text a buf.begv.buf
  zv : buf.zv.buf < b →
    buf.pt.buf + (b - a) ≤ buf.zv.buf ∧
      bytesBetween text (buf.zv.buf - (b - a)) buf.zv.buf = bytesBetween text a b

instance (text : List Emchar) (p : Nat) (c : List Emchar) (buf : BufferPositions) :
    Decidable (InsertFits text p c buf) :=
  decidable_of_iff (_ ∧ _) ⟨fun h => ⟨h.1, h.2⟩, fun h => ⟨h.begv, h.zv⟩⟩

instance (text : List Emchar) (a b : Nat) (buf : BufferPositions) :
    Decidable (DeleteFits text a b buf) :=
  decidable_of_iff (_ ∧ _) ⟨fun h => ⟨h.1, h.2⟩, fun h => ⟨h.begv, h.zv⟩⟩

section Fits

variable {text : List Emchar} {buf : BufferPositions}

theorem InsertFits.of_within {p : Nat} (c : List Emchar) (hlo : buf.begv.buf ≤ p)
    (hhi : p ≤ buf.zv.buf) : InsertFits text p c buf :=
  ⟨fun h => absurd h (Nat.not_lt.mpr hlo), fun h => absurd h (Nat.not_lt.mpr hhi)⟩

theorem DeleteFits.of_within {a b : Nat} (hlo : buf.begv.buf ≤ a) (hhi : b ≤ buf.zv.buf) :
    DeleteFits text a b buf :=
  ⟨fun h => absurd h (Nat.not_lt.mpr hlo), fun h => absurd h (Nat.not_lt.mpr hhi)⟩

theorem TruePos.inserted_pt {p : Nat} (hpt : TruePos text buf.pt) (hp : 1 ≤ p)
    (hp' : p ≤ text.length + 1) (c : List Emchar) :
    TruePos (insertAt text p c)
      (buf.inserted (bytind text p) (byteLength Emchar.width c) c.length).pt ∧
    (buf.inserted (bytind text p) (byteLength Emchar.width c) c.length).pt.buf
      = if p < buf.pt.buf then buf.pt.buf + c.length else buf.pt.buf := by
  have hcmp : buf.pt.byt > bytind text p ↔ p < buf.pt.buf :=
    TruePos.byt_lt_iff (p := ⟨p, bytind text p⟩) ⟨hp, hp', rfl⟩ hpt
  show TruePos _ (if buf.pt.byt > bytind text p then _ else buf.pt) ∧
    (if buf.pt.byt > bytind text p then _ else buf.pt : Pos).buf = _
  simp only [hcmp]
  split
  case isTrue hlt => exact ⟨hpt.insert_after hp hp' (Nat.le_of_lt hlt), rfl⟩
  case isFalse hge => exact ⟨hpt.insert_before hp' (Nat.not_lt.mp hge), rfl⟩

/-- **What an insertion does to another buffer's positions.** -/
theorem BufferPositions.Sound.inserted_iff {p : Nat} (h : buf.Sound text) (hp : 1 ≤ p)
    (hp' : p ≤ text.length + 1) (c : List Emchar) :
    (buf.inserted (bytind text p) (byteLength Emchar.width c) c.length).Sound
      (insertAt text p c) ↔ InsertFits text p c buf := by
  have hbegv := h.begv_le
  have hzv := h.le_zv
  have hend := h.true.zv.le_end
  have hone := h.true.begv.one_le
  obtain ⟨hpt, hptbuf⟩ := h.true.pt.inserted_pt hp hp' c
  have hbegvtrue : TruePos (insertAt text p c) buf.begv ↔ (p < buf.begv.buf →
      byteLength Emchar.width ((c ++ between text p buf.begv.buf).take (buf.begv.buf - p))
        = bytesBetween text p buf.begv.buf) := by
    rcases Nat.lt_or_ge p buf.begv.buf with hlt | hge
    · have hnew : bytind (insertAt text p c) buf.begv.buf = _ :=
        bytePos_insertAt_unmoved hp hp' (Nat.le_of_lt hlt)
      have hold : bytind text buf.begv.buf = _ :=
        bytePos_eq_add_between text hp (Nat.le_of_lt hlt)
      have hbyt := h.true.begv.byt_eq
      refine ⟨fun htrue _ => ?_, fun heq => ⟨hone, ?_, ?_⟩⟩
      · have := htrue.byt_eq
        simp only [bytesBetween]
        omega
      · rw [length_insertAt]
        omega
      · have := heq hlt
        simp only [bytesBetween] at this
        omega
    · exact ⟨fun _ hlt => absurd hlt (Nat.not_lt.mpr hge),
        fun _ => h.true.begv.insert_before hp' hge⟩
  have hzvtrue : TruePos (insertAt text p c) (buf.zv.shove (byteLength Emchar.width c) c.length)
      ↔ (buf.zv.buf < p →
        byteLength Emchar.width ((between text buf.zv.buf p ++ c).take c.length)
          = byteLength Emchar.width c) := by
    rcases Nat.lt_or_ge buf.zv.buf p with hlt | hge
    · have hnew : bytind (insertAt text p c) (buf.zv.buf + c.length) = _ :=
        bytePos_insertAt_moved h.true.zv.one_le (Nat.le_of_lt hlt) hp'
      have hbyt : buf.zv.byt = bytePos Emchar.width text buf.zv.buf := h.true.zv.byt_eq
      refine ⟨fun htrue _ => ?_, fun heq => ⟨?_, ?_, ?_⟩⟩
      · have : buf.zv.byt + byteLength Emchar.width c
            = bytind (insertAt text p c) (buf.zv.buf + c.length) := htrue.byt_eq
        omega
      · exact Nat.le_trans h.true.zv.one_le (Nat.le_add_right ..)
      · rw [length_insertAt]
        show buf.zv.buf + c.length ≤ _
        omega
      · show buf.zv.byt + byteLength Emchar.width c
            = bytind (insertAt text p c) (buf.zv.buf + c.length)
        have := heq hlt
        omega
    · exact ⟨fun _ hlt => absurd hlt (Nat.not_lt.mpr hge),
        fun _ => h.true.zv.insert_after hp hp' hge⟩
  constructor
  · intro hsound
    exact ⟨hbegvtrue.mp hsound.true.begv, hzvtrue.mp hsound.true.zv⟩
  · intro hfits
    refine ⟨⟨hpt, hbegvtrue.mpr hfits.begv, hzvtrue.mpr hfits.zv⟩, ?_, ?_⟩
    · rw [hptbuf]
      show buf.begv.buf ≤ _
      split <;> omega
    · rw [hptbuf]
      show _ ≤ buf.zv.buf + c.length
      split <;> omega

theorem TruePos.deleted_pt {a b : Nat} (hpt : TruePos text buf.pt) (ha : 1 ≤ a) (hab : a < b)
    (hb : b ≤ text.length + 1) :
    TruePos (deleteRange text a b)
      (buf.deleted ⟨a, bytind text a⟩ ⟨b, bytind text b⟩).pt ∧
    (buf.deleted ⟨a, bytind text a⟩ ⟨b, bytind text b⟩).pt.buf
      = if a < buf.pt.buf then if buf.pt.buf < b then a else buf.pt.buf - (b - a)
        else buf.pt.buf := by
  have hab' : a ≤ b := Nat.le_of_lt hab
  have hstart : TruePos text ⟨a, bytind text a⟩ := ⟨ha, Nat.le_trans hab' hb, rfl⟩
  have hstop : TruePos text ⟨b, bytind text b⟩ := ⟨Nat.le_trans ha hab', hb, rfl⟩
  have hcmpa : bytind text a < buf.pt.byt ↔ a < buf.pt.buf := hstart.byt_lt_iff hpt
  have hcmpb : buf.pt.byt < bytind text b ↔ buf.pt.buf < b := hpt.byt_lt_iff hstop
  unfold BufferPositions.deleted
  simp only [hcmpa, hcmpb]
  split
  case isTrue hpa =>
    split
    case isTrue => exact ⟨hstart.delete_before ha hab' hb (Nat.le_refl _), rfl⟩
    case isFalse hpb => exact ⟨hpt.delete_after ha hab' hb (Nat.not_lt.mp hpb), rfl⟩
  case isFalse hpa => exact ⟨hpt.delete_before ha hab' hb (Nat.not_lt.mp hpa), rfl⟩

/-- **What a deletion does to another buffer's positions.** -/
theorem BufferPositions.Sound.deleted_iff {a b : Nat} (h : buf.Sound text) (ha : 1 ≤ a)
    (hab : a < b) (hb : b ≤ text.length + 1) :
    (buf.deleted ⟨a, bytind text a⟩ ⟨b, bytind text b⟩).Sound (deleteRange text a b) ↔
      DeleteFits text a b buf := by
  have hab' : a ≤ b := Nat.le_of_lt hab
  have hbegv := h.begv_le
  have hzv := h.le_zv
  have hend := h.true.zv.le_end
  have hone := h.true.begv.one_le
  have hlen := length_deleteRange ha hab' hb
  have hsplit : bytind text b = bytind text a + bytesBetween text a b :=
    bytePos_eq_add_between text ha hab'
  obtain ⟨hpt, hptbuf⟩ := h.true.pt.deleted_pt ha hab hb
  have hbegvtrue : a < buf.begv.buf → buf.begv.buf + (b - a) ≤ text.length + 1 →
      (TruePos (deleteRange text a b) buf.begv ↔
        bytesBetween text b (buf.begv.buf + (b - a)) = bytesBetween text a buf.begv.buf) := by
    intro hlt hfit
    have hnew : bytind (deleteRange text a b) buf.begv.buf = _ :=
      bytePos_deleteRange_unmoved ha hab' hb (Nat.le_of_lt hlt)
    have hold : bytind text buf.begv.buf = _ :=
      bytePos_eq_add_between text ha (Nat.le_of_lt hlt)
    have hbyt := h.true.begv.byt_eq
    refine ⟨fun htrue => ?_, fun heq => ⟨hone, ?_, ?_⟩⟩
    · have := htrue.byt_eq
      simp only [bytesBetween]
      omega
    · rw [hlen]
      omega
    · simp only [bytesBetween] at heq
      omega
  have hzvtrue : buf.zv.buf < b → buf.pt.buf + (b - a) ≤ buf.zv.buf →
      (TruePos (deleteRange text a b)
        ⟨buf.zv.buf - (b - a), buf.zv.byt - (bytind text b - bytind text a)⟩ ↔
        bytesBetween text (buf.zv.buf - (b - a)) buf.zv.buf = bytesBetween text a b) := by
    intro hlt hfit
    have hnew : bytind (deleteRange text a b) (buf.zv.buf - (b - a))
        = bytind text (buf.zv.buf - (b - a)) :=
      bytePos_deleteRange_before (show a ≤ text.length + 1 by omega)
        (show buf.zv.buf - (b - a) ≤ a by omega)
    have hold : bytind text buf.zv.buf = bytind text (buf.zv.buf - (b - a))
        + bytesBetween text (buf.zv.buf - (b - a)) buf.zv.buf :=
      bytePos_eq_add_between text (show 1 ≤ buf.zv.buf - (b - a) by omega)
        (Nat.sub_le ..)
    have hbyt := h.true.zv.byt_eq
    have hpos : 1 ≤ bytind text (buf.zv.buf - (b - a)) := one_le_bytePos _ _
    refine ⟨fun htrue => ?_, fun heq => ⟨?_, ?_, ?_⟩⟩
    · have : buf.zv.byt - (bytind text b - bytind text a)
          = bytind (deleteRange text a b) (buf.zv.buf - (b - a)) := htrue.byt_eq
      omega
    · show 1 ≤ buf.zv.buf - (b - a)
      omega
    · rw [hlen]
      show buf.zv.buf - (b - a) ≤ _
      omega
    · show buf.zv.byt - (bytind text b - bytind text a)
          = bytind (deleteRange text a b) (buf.zv.buf - (b - a))
      omega
  constructor
  · intro hsound
    have hle : buf.begv.buf ≤ _ := hsound.begv_le
    have hge : _ ≤ buf.zv.buf - (b - a) := hsound.le_zv
    rw [hptbuf] at hle hge
    refine ⟨fun hlt => ?_, fun hlt => ?_⟩
    · rw [if_pos (show a < buf.pt.buf by omega)] at hle
      have hfit : buf.begv.buf + (b - a) ≤ buf.pt.buf := by
        split at hle <;> omega
      exact ⟨hfit, (hbegvtrue hlt (by omega)).mp hsound.true.begv⟩
    · have hone' : 1 ≤ buf.zv.buf - (b - a) := hsound.true.zv.one_le
      have hfit : buf.pt.buf + (b - a) ≤ buf.zv.buf := by
        rw [if_pos (show buf.pt.buf < b by omega)] at hge
        split at hge <;> omega
      exact ⟨hfit, (hzvtrue hlt hfit).mp hsound.true.zv⟩
  · intro hfits
    have hfit₁ := fun hlt => (hfits.begv hlt).1
    have hfit₂ := fun hlt => (hfits.zv hlt).1
    refine ⟨⟨hpt, ?_, ?_⟩, ?_, ?_⟩
    · rcases Nat.lt_or_ge a buf.begv.buf with hlt | hge
      · have := hfit₁ hlt
        exact (hbegvtrue hlt (by omega)).mpr (hfits.begv hlt).2
      · exact h.true.begv.delete_before ha hab' hb hge
    · rcases Nat.lt_or_ge buf.zv.buf b with hlt | hge
      · exact (hzvtrue hlt (hfit₂ hlt)).mpr (hfits.zv hlt).2
      · exact h.true.zv.delete_after ha hab' hb hge
    · rw [hptbuf]
      show buf.begv.buf ≤ _
      split <;> [split; skip] <;> omega
    · rw [hptbuf]
      show _ ≤ buf.zv.buf - (b - a)
      split <;> [split; skip] <;> omega

theorem BufferPositions.Sound.inserted {p : Nat} (h : buf.Sound text)
    (hlo : buf.begv.buf ≤ p) (hhi : p ≤ buf.zv.buf) (c : List Emchar) :
    (buf.inserted (bytind text p) (byteLength Emchar.width c) c.length).Sound
      (insertAt text p c) :=
  (h.inserted_iff (Nat.le_trans h.true.begv.one_le hlo)
    (Nat.le_trans hhi h.true.zv.le_end) c).mpr (InsertFits.of_within c hlo hhi)

theorem BufferPositions.Sound.deleted {a b : Nat} (h : buf.Sound text) (hab : a < b)
    (hlo : buf.begv.buf ≤ a) (hhi : b ≤ buf.zv.buf) :
    (buf.deleted ⟨a, bytind text a⟩ ⟨b, bytind text b⟩).Sound (deleteRange text a b) :=
  (h.deleted_iff (Nat.le_trans h.true.begv.one_le hlo) hab
    (Nat.le_trans hhi h.true.zv.le_end)).mpr (DeleteFits.of_within hlo hhi)

end Fits

end XEmacs.Buffer

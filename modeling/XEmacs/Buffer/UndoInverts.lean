import XEmacs.Buffer.Undo
import Mathlib.Tactic.Common

/-!
# Undo inverts editing

`Inverts` says what a list of records is good for: undone in a buffer with the text `t` they give
the text `t₀`, whatever point and the modification counts are. Recording keeps it
(`recordInsert_tracks`, `recordDelete_tracks`).
-/

namespace XEmacs.Buffer

open BytePositions List

namespace UndoBuffer

/-- The records, undone in a text `t`, give `t₀`. -/
def Inverts (modtime : BitVec 32) (t₀ : List Emchar) :
    List UndoRecord → List Emchar → Prop
  | [], t => t = t₀
  | .boundary :: _, _ => False
  | .point _ :: rs, t => Inverts modtime t₀ rs t
  | .modtime high low :: rs, t =>
    BitVec.ofNat 32 ((high <<< 16) + low) = modtime ∧ Inverts modtime t₀ rs t
  | .inserted beg stop :: rs, t =>
    (1 ≤ beg ∧ beg ≤ stop ∧ stop ≤ t.length + 1) ∧
      Inverts modtime t₀ rs (deleteRange t beg stop)
  | .deleted string pos :: rs, t =>
    (string ≠ [] ∧ 1 ≤ pos.natAbs ∧ pos.natAbs ≤ t.length + 1) ∧
      Inverts modtime t₀ rs (insertAt t pos.natAbs string)

/-- An undo list that is empty or starts with a boundary. -/
def AtBoundary (list : List UndoRecord) : Prop :=
  ∀ r ∈ list.head?, r = .boundary

theorem atBoundary_nil : AtBoundary [] := fun _ h => nomatch h

instance (list : List UndoRecord) : Decidable (AtBoundary list) :=
  match list with
  | [] => isTrue fun _ h => nomatch h
  | r :: _ => decidable_of_iff (r = .boundary)
      ⟨fun h _ hr => Option.some.inj hr ▸ h, fun h => h r rfl⟩

/-- The undo list has records on top of `base` that give `t₀` from the text `t`. -/
structure Tracks (base : List UndoRecord) (t₀ : List Emchar) (b : UndoBuffer)
    (t : List Emchar) (rs : List UndoRecord) : Prop where
  list_eq : b.undoList = rs ++ base
  inverts : Inverts b.modtime t₀ rs t
  last : b.lastUndoBuffer = true ∨ AtBoundary b.undoList

/-- An insertion at `p` is joined to the newest record. -/
def Joins (b : UndoBuffer) (p : Nat) : Prop :=
  b.saveModiff < b.modiff ∧ ∃ beg list, b.undoList = .inserted beg p :: list

/-! ## Recording -/

section Recording

variable {base rs : List UndoRecord} {t₀ t : List Emchar} {b : UndoBuffer}

theorem modtimeRecord_eq (modtime : BitVec 32) :
    ∃ high low, modtimeRecord modtime = .modtime high low ∧
      BitVec.ofNat 32 ((high <<< 16) + low) = modtime := by
  refine ⟨_, _, rfl, ?_⟩
  have hlt := modtime.isLt
  have hlow : modtime.toNat &&& 0xFFFF = modtime.toNat % 2 ^ 16 :=
    Nat.and_two_pow_sub_one_eq_mod _ 16
  have hhigh : (modtime.toNat >>> 16) &&& 0xFFFF = modtime.toNat >>> 16 % 2 ^ 16 :=
    Nat.and_two_pow_sub_one_eq_mod _ 16
  rw [hlow, hhigh, Nat.shiftLeft_eq, Nat.shiftRight_eq_div_pow]
  apply BitVec.eq_of_toNat_eq
  rw [BitVec.toNat_ofNat]
  omega

theorem undoBoundary_of_atBoundary (h : AtBoundary b.undoList) : b.undoBoundary = b := by
  unfold undoBoundary
  split
  · rfl
  · rfl
  case h_3 hnil hcons =>
    obtain ⟨r, list, hlist⟩ := exists_cons_of_ne_nil hnil
    have := h r (by rw [hlist]; rfl)
    exact absurd (this ▸ hlist) (hcons list)

theorem undoPrelude_eq (h : b.lastUndoBuffer = true ∨ AtBoundary b.undoList) :
    b.undoPrelude = { b with
      lastUndoBuffer := true
      undoList :=
        if b.modiff ≤ b.saveModiff then modtimeRecord b.modtime :: b.undoList
        else b.undoList } := by
  have hfirst : (if b.lastUndoBuffer then b
      else { b.undoBoundary with lastUndoBuffer := true })
      = { b with lastUndoBuffer := true } := by
    rcases h with hlast | hb
    · rw [if_pos hlast, ← hlast]
    · split
      case isTrue hlast => rw [← hlast]
      case isFalse => rw [undoBoundary_of_atBoundary hb]
  unfold undoPrelude
  rw [hfirst]
  simp only
  split
  · rfl
  · rfl

theorem Tracks.undoPrelude (h : Tracks base t₀ b t rs) :
    ∃ rs', Tracks base t₀ b.undoPrelude t rs' ∧ b.undoPrelude.lastUndoBuffer = true ∧
      (b.saveModiff < b.modiff ∧ rs' = rs ∧ b.undoPrelude.undoList = b.undoList ∨
        rs' ≠ [] ∧ ∀ beg stop list, b.undoPrelude.undoList ≠ .inserted beg stop :: list) := by
  rw [undoPrelude_eq h.last]
  by_cases hle : b.modiff ≤ b.saveModiff
  · obtain ⟨high, low, heq, hmodtime⟩ := modtimeRecord_eq b.modtime
    rw [if_pos hle, heq]
    refine ⟨.modtime high low :: rs, ⟨?_, ⟨hmodtime, h.inverts⟩, .inl rfl⟩, rfl,
      .inr ⟨cons_ne_nil _ _, fun _ _ _ => ?_⟩⟩
    · show _ :: b.undoList = _
      rw [h.list_eq, cons_append]
    · show UndoRecord.modtime high low :: b.undoList ≠ _
      rw [Ne, List.cons.injEq]
      exact fun hcons => nomatch hcons.1
  · rw [if_neg hle]
    exact ⟨rs, ⟨h.list_eq, h.inverts, .inl rfl⟩, rfl,
      .inl ⟨Nat.not_le.mp hle, rfl, rfl⟩⟩

/-- **Recording an insertion** keeps the records useful for the text after it, except
that it may be joined to the newest record there was before. -/
theorem Tracks.recordInsert (h : Tracks base t₀ b t rs) {p : Nat} (hp : 1 ≤ p)
    (hp' : p ≤ t.length + 1) (c : List Emchar) (hjoins : rs ≠ [] ∨ ¬ b.Joins p) :
    ∃ rs', rs' ≠ [] ∧
      Tracks base t₀ (b.recordInsert p c.length) (insertAt t p c) rs' := by
  obtain ⟨rs₁, h₁, hlast, hrs⟩ := h.undoPrelude
  have hlen := length_insertAt t p c
  have hpush : Tracks base t₀ (b.undoPrelude.push (.inserted p (p + c.length)))
      (insertAt t p c) (.inserted p (p + c.length) :: rs₁) := by
    refine ⟨congrArg _ h₁.list_eq, ⟨⟨hp, Nat.le_add_right .., ?_⟩, ?_⟩, .inl hlast⟩
    · omega
    · rw [deleteRange_insertAt hp (Nat.le_refl _) hp', deleteRange_self]
      exact h₁.inverts
  unfold UndoBuffer.recordInsert
  simp only
  split
  case h_1 first stop list heq =>
    split
    case isTrue hstop =>
      -- the insertion is joined to a record of those on top
      subst hstop
      obtain ⟨rs₂, rfl⟩ : ∃ rs₂, rs₁ = .inserted first stop :: rs₂ := by
        rcases hrs with ⟨hmodified, rfl, hsame⟩ | ⟨-, hhead⟩
        · rcases hjoins with hne | hjoins
          · obtain ⟨r, rs₂, rfl⟩ := exists_cons_of_ne_nil hne
            rw [h₁.list_eq, cons_append, List.cons.injEq] at heq
            exact ⟨rs₂, by rw [heq.1]⟩
          · exact absurd ⟨hmodified, first, list, hsame ▸ heq⟩ hjoins
        · exact absurd heq (hhead first stop list)
      have hlist : list = rs₂ ++ base := by
        have := heq.symm.trans h₁.list_eq
        rw [cons_append, List.cons.injEq] at this
        exact this.2
      obtain ⟨⟨hfirst, hle, -⟩, hinverts⟩ := h₁.inverts
      refine ⟨.inserted first (stop + c.length) :: rs₂, cons_ne_nil _ _, ?_,
        ⟨⟨hfirst, ?_, ?_⟩, ?_⟩,
        .inl hlast⟩
      · rw [hlist, cons_append]
      · omega
      · omega
      · rw [deleteRange_insertAt hfirst hle hp']
        exact hinverts
    case isFalse => exact ⟨_, cons_ne_nil _ _, hpush⟩
  case h_2 => exact ⟨_, cons_ne_nil _ _, hpush⟩

theorem natAbs_deletedPos (b : UndoBuffer) (beg length : Nat) :
    (b.deletedPos beg length).natAbs = beg := by
  unfold deletedPos
  split <;> omega

/-- **Recording a deletion** keeps the records useful for the text after it. -/
theorem Tracks.recordDelete (h : Tracks base t₀ b b.text rs) {a k : Nat} (ha : 1 ≤ a)
    (hk : 1 ≤ k) (hak : a + k ≤ b.text.length + 1) :
    ∃ rs', rs' ≠ [] ∧
      Tracks base t₀ (b.recordDelete a k) (deleteRange b.text a (a + k)) rs' := by
  obtain ⟨rs₁, h₁, hlast, -⟩ := h.undoPrelude
  have htext : b.undoPrelude.text = b.text := by rw [undoPrelude_eq h.last]
  -- with or without a record of point
  obtain ⟨b₂, rs₂, h₂, hlast₂, heq⟩ : ∃ b₂ rs₂, Tracks base t₀ b₂ b.text rs₂ ∧
      b₂.lastUndoBuffer = true ∧ b.recordDelete a k = b₂.push (.deleted (between b.text a (a + k))
        (b.undoPrelude.deletedPos a k)) := by
    unfold UndoBuffer.recordDelete
    simp only
    rw [← htext]
    split
    case h_1 pos _ =>
      split
      case isTrue =>
        exact ⟨b.undoPrelude.push (.point pos), .point pos :: rs₁,
          ⟨congrArg _ h₁.list_eq, htext.symm ▸ h₁.inverts, .inl hlast⟩, hlast, rfl⟩
      case isFalse => exact ⟨b.undoPrelude, rs₁, htext.symm ▸ h₁, hlast, rfl⟩
    case h_2 => exact ⟨b.undoPrelude, rs₁, htext.symm ▸ h₁, hlast, rfl⟩
  have hdeleted : (between b.text a (a + k)).length = k := by
    rw [length_between ha hak]
    omega
  rw [heq]
  refine ⟨_ :: rs₂, cons_ne_nil _ _, congrArg _ h₂.list_eq, ⟨⟨?_, ?_, ?_⟩, ?_⟩, ?_⟩
  · rintro hnil
    rw [hnil, length_nil] at hdeleted
    omega
  · rw [natAbs_deletedPos]
    exact ha
  · rw [natAbs_deletedPos, length_deleteRange ha (Nat.le_add_right ..) hak]
    omega
  · rw [natAbs_deletedPos, insertAt_deleteRange ha (Nat.le_add_right ..) hak]
    exact h₂.inverts
  · exact .inl hlast₂

end Recording

/-! ## Changes -/

section Changes

variable {base rs : List UndoRecord} {t₀ t : List Emchar} {b : UndoBuffer}

theorem undoBoundary_frame (b : UndoBuffer) :
    ∃ list, b.undoBoundary = { b with undoList := list } := by
  unfold undoBoundary
  split
  · exact ⟨b.undoList, rfl⟩
  · exact ⟨b.undoList, rfl⟩
  · exact ⟨_, rfl⟩

theorem undoPrelude_frame (b : UndoBuffer) :
    ∃ list last, b.undoPrelude = { b with undoList := list, lastUndoBuffer := last } := by
  obtain ⟨list, heq⟩ := b.undoBoundary_frame
  unfold UndoBuffer.undoPrelude
  rw [heq]
  simp only
  split
  · split <;> exact ⟨_, _, rfl⟩
  · split <;> exact ⟨_, _, rfl⟩

theorem recordInsert_frame (b : UndoBuffer) (beg length : Nat) :
    ∃ list last, b.recordInsert beg length
      = { b with undoList := list, lastUndoBuffer := last } := by
  obtain ⟨list, last, heq⟩ := b.undoPrelude_frame
  unfold UndoBuffer.recordInsert
  rw [heq]
  simp only
  split
  · split <;> exact ⟨_, _, rfl⟩
  · exact ⟨_, _, rfl⟩

theorem recordDelete_frame (b : UndoBuffer) (beg length : Nat) :
    ∃ list last, b.recordDelete beg length
      = { b with undoList := list, lastUndoBuffer := last } := by
  obtain ⟨list, last, heq⟩ := b.undoPrelude_frame
  unfold UndoBuffer.recordDelete
  rw [heq]
  simp only
  split
  · split <;> exact ⟨_, _, rfl⟩
  · exact ⟨_, _, rfl⟩

theorem clip_bounds (b : UndoBuffer) (pos : Nat) :
    1 ≤ b.clip pos ∧ b.clip pos ≤ b.text.length + 1 := by
  unfold clip z
  omega

theorem clip_of_le {pos : Nat} (hpos : 1 ≤ pos) (hpos' : pos ≤ b.text.length + 1) :
    b.clip pos = pos := by
  unfold clip z
  omega

@[simp]
theorem bufferInsertString1_text (b : UndoBuffer) (pos : Option Nat) (c : List Emchar) :
    (b.bufferInsertString1 pos c).text = insertAt b.text (b.clip (pos.getD b.pt)) c := by
  obtain ⟨list, last, heq⟩ := b.recordInsert_frame (b.clip (pos.getD b.pt)) c.length
  unfold bufferInsertString1
  simp only [heq]

@[simp]
theorem bufferInsertString1_modtime (b : UndoBuffer) (pos : Option Nat) (c : List Emchar) :
    (b.bufferInsertString1 pos c).modtime = b.modtime := by
  obtain ⟨list, last, heq⟩ := b.recordInsert_frame (b.clip (pos.getD b.pt)) c.length
  unfold bufferInsertString1
  simp only [heq]

theorem bufferDeleteRange_self (b : UndoBuffer) (start : Nat) :
    b.bufferDeleteRange start start = b := by
  unfold bufferDeleteRange
  simp only [if_pos (show min start b.z ≤ max start 1 by omega)]

theorem bufferDeleteRange_text (b : UndoBuffer) {start stop : Nat} (h : 1 ≤ start)
    (h' : stop ≤ b.text.length + 1) (hle : start ≤ stop) :
    (b.bufferDeleteRange start stop).text = deleteRange b.text start stop := by
  rcases Nat.lt_or_eq_of_le hle with hlt | rfl
  · have hstart : max start 1 = start := Nat.max_eq_left h
    have hstop : min stop b.z = stop := Nat.min_eq_left h'
    obtain ⟨list, last, heq⟩ := b.recordDelete_frame start (stop - start)
    unfold bufferDeleteRange
    simp only [hstart, hstop, if_neg (Nat.not_le.mpr hlt), heq]
  · rw [bufferDeleteRange_self, deleteRange_self]

@[simp]
theorem bufferDeleteRange_modtime (b : UndoBuffer) (start stop : Nat) :
    (b.bufferDeleteRange start stop).modtime = b.modtime := by
  obtain ⟨list, last, heq⟩ :=
    b.recordDelete_frame (max start 1) (min stop b.z - max start 1)
  unfold bufferDeleteRange
  simp only [heq]
  split <;> rfl

theorem Tracks.bufferInsertString1 (h : Tracks base t₀ b b.text rs) (pos : Option Nat)
    (c : List Emchar) (hjoins : rs ≠ [] ∨ ¬ b.Joins (b.clip (pos.getD b.pt))) :
    ∃ rs', rs' ≠ [] ∧ Tracks base t₀ (b.bufferInsertString1 pos c)
      (b.bufferInsertString1 pos c).text rs' := by
  obtain ⟨hp, hp'⟩ := b.clip_bounds (pos.getD b.pt)
  obtain ⟨rs', hne, hrs'⟩ := h.recordInsert hp hp' c hjoins
  refine ⟨rs', hne, ?_⟩
  rw [bufferInsertString1_text]
  exact ⟨hrs'.list_eq, hrs'.inverts, hrs'.last⟩

theorem Tracks.bufferDeleteRange (h : Tracks base t₀ b b.text rs) {start stop : Nat}
    (hstart : 1 ≤ start) (hlt : start < stop) (hstop : stop ≤ b.text.length + 1) :
    ∃ rs', rs' ≠ [] ∧ Tracks base t₀ (b.bufferDeleteRange start stop)
      (b.bufferDeleteRange start stop).text rs' := by
  obtain ⟨rs', hne, hrs'⟩ := h.recordDelete hstart (k := stop - start) (by omega) (by omega)
  refine ⟨rs', hne, ?_⟩
  rw [bufferDeleteRange_text b hstart hstop (Nat.le_of_lt hlt)]
  rw [show start + (stop - start) = stop by omega] at hrs'
  have hstart' : max start 1 = start := Nat.max_eq_left hstart
  have hstop' : min stop b.z = stop := Nat.min_eq_left hstop
  unfold UndoBuffer.bufferDeleteRange
  simp only [hstart', hstop', if_neg (Nat.not_le.mpr hlt)]
  exact ⟨hrs'.list_eq, hrs'.inverts, hrs'.last⟩

theorem bufferDeleteRange_clip (b : UndoBuffer) (start stop : Nat) :
    b.bufferDeleteRange start stop = b ∨ ∃ a c, 1 ≤ a ∧ a < c ∧ c ≤ b.text.length + 1 ∧
      b.bufferDeleteRange start stop = b.bufferDeleteRange a c := by
  by_cases hle : min stop b.z ≤ max start 1
  · left
    unfold UndoBuffer.bufferDeleteRange
    simp only [if_pos hle]
  · right
    refine ⟨max start 1, min stop b.z, Nat.le_max_right .., Nat.not_le.mp hle,
      Nat.min_le_right .., ?_⟩
    unfold UndoBuffer.bufferDeleteRange
    rw [Nat.max_eq_left (Nat.le_max_right start 1), Nat.min_eq_left (Nat.min_le_right stop b.z)]

theorem AtBoundary.not_joins (h : AtBoundary b.undoList) (p : Nat) : ¬ b.Joins p := by
  rintro ⟨-, beg, list, heq⟩
  exact nomatch h (.inserted beg p) (by rw [heq]; rfl)

theorem Tracks.not_joins (h : Tracks base t₀ b t rs) (hbase : AtBoundary base) (p : Nat) :
    rs ≠ [] ∨ ¬ b.Joins p := by
  by_cases hrs : rs = []
  · right
    have hlist : b.undoList = base := by rw [h.list_eq, hrs, nil_append]
    exact AtBoundary.not_joins (hlist ▸ hbase) p
  · exact .inl hrs

theorem Tracks.bufferReplaceChar (h : Tracks base t₀ b b.text rs) {pos : Nat}
    (hpos : 1 ≤ pos) (ch : Emchar) : ∃ rs', Tracks base t₀ (b.bufferReplaceChar pos ch)
      (b.bufferReplaceChar pos ch).text rs' := by
  unfold UndoBuffer.bufferReplaceChar
  split
  case h_1 => exact ⟨rs, h⟩
  case h_2 cur hcur =>
    have hpos' := (List.getElem?_eq_some_iff.mp hcur).1
    have hle : pos + 1 ≤ b.text.length + 1 := by omega
    split
    case isTrue =>
      -- a deletion and an insertion are recorded, then the text is changed in one step
      obtain ⟨rs₁, hne, h₁⟩ := h.recordDelete hpos (Nat.le_refl 1) hle
      obtain ⟨rs₂, -, h₂⟩ := h₁.recordInsert hpos
        (by rw [length_deleteRange hpos (Nat.le_add_right ..) hle]; omega) [ch] (.inl hne)
      rw [insertAt_deleteRange_eq_set hpos (by omega)] at h₂
      obtain ⟨list, last, heq⟩ := b.recordDelete_frame pos 1
      obtain ⟨list', last', heq'⟩ := (b.recordDelete pos 1).recordInsert_frame pos 1
      have htext : (b.recordChange pos 1).text = b.text := by
        rw [recordChange, heq', heq]
      refine ⟨rs₂, h₂.list_eq, ?_, h₂.last⟩
      show Inverts _ _ _ ((b.recordChange pos 1).text.set (pos - 1) ch)
      rw [htext]
      exact h₂.inverts
    case isFalse =>
      obtain ⟨rs₁, hne, h₁⟩ := h.bufferDeleteRange hpos (Nat.lt_succ_self pos) hle
      have hinsert : ∀ p, ∃ rs', Tracks base t₀
          ((b.bufferDeleteRange pos (pos + 1)).bufferInsertString1 p [ch])
          ((b.bufferDeleteRange pos (pos + 1)).bufferInsertString1 p [ch]).text rs' := by
        intro p
        obtain ⟨rs₂, -, h₂⟩ := h₁.bufferInsertString1 p [ch] (.inl hne)
        exact ⟨rs₂, h₂⟩
      simp only
      split
      · split
        · exact ⟨rs₁, h₁⟩
        · exact hinsert _
      · split
        · exact ⟨rs₁, h₁⟩
        · exact hinsert _

/-- **Edits behind a boundary** leave records that invert them on top of the undo
list. -/
theorem Tracks.edits (h : Tracks base t₀ b b.text rs) (hbase : AtBoundary base)
    (l : List Edit) :
    ∃ rs', Tracks base t₀ (b.edits l) (b.edits l).text rs' := by
  induction l generalizing b rs with
  | nil => exact ⟨rs, h⟩
  | cons e l ih =>
    obtain ⟨rs₁, h₁⟩ : ∃ rs₁, Tracks base t₀ (e.run b) (e.run b).text rs₁ := by
      cases e with
      | insert pos c =>
        obtain ⟨rs₁, -, h₁⟩ := h.bufferInsertString1 pos c (h.not_joins hbase _)
        exact ⟨rs₁, h₁⟩
      | delete start stop =>
        show ∃ rs₁, Tracks _ _ (b.bufferDeleteRange start stop)
          (b.bufferDeleteRange start stop).text rs₁
        rcases b.bufferDeleteRange_clip start stop with heq | ⟨a, c, ha, hac, hc, heq⟩
        · rw [heq]
          exact ⟨rs, h⟩
        · rw [heq]
          obtain ⟨rs₁, -, h₁⟩ := h.bufferDeleteRange ha hac hc
          exact ⟨rs₁, h₁⟩
      | replaceChar pos ch =>
        simp only [Edit.run]
        split
        case isTrue hpos => exact h.bufferReplaceChar hpos ch
        case isFalse => exact ⟨rs, h⟩
      | gotoChar pos => exact ⟨rs, h.list_eq, h.inverts, h.last⟩
      | startCommand last => exact ⟨rs, h.list_eq, h.inverts, h.last⟩
    exact ih h₁

end Changes

/-! ## Undoing -/

section Undoing

variable {base list rs : List UndoRecord} {t₀ t₁ : List Emchar} {b : UndoBuffer}

/-- **The rule for undoing**: records that give `t₁` do give it, up to a boundary, and
whatever the changes made on the way keep is kept. -/
theorem undoToBoundary_rule (I : List UndoRecord → UndoBuffer → Prop)
    (hpoint : ∀ rs b pos p, I (.point pos :: rs) b → I rs (b.setPt p))
    (hmodtime : ∀ rs b high low, I (.modtime high low :: rs) b → I rs b.setBufferUnmodified)
    (hinserted : ∀ rs b beg stop, I (.inserted beg stop :: rs) b → 1 ≤ beg → beg ≤ stop →
      stop ≤ b.text.length + 1 → I rs ((b.setPt beg).bufferDeleteRange beg stop))
    (hdeleted : ∀ rs b string pos p, I (.deleted string pos :: rs) b → string ≠ [] →
      1 ≤ pos.natAbs → pos.natAbs ≤ b.text.length + 1 →
      I rs (((b.setPt pos.natAbs).bufferInsertString1 none string).setPt p))
    (hlist : AtBoundary list) (h : Inverts b.modtime t₁ rs b.text) (hI : I rs b) :
    ∃ b', undoToBoundary (rs ++ list) b = .ok (list.tail, b') ∧ b'.text = t₁ ∧ I [] b' := by
  induction rs generalizing b with
  | nil =>
    refine ⟨b, ?_, h, hI⟩
    cases list with
    | nil => rfl
    | cons r list =>
      obtain rfl : r = .boundary := hlist r rfl
      rfl
  | cons r rs ih =>
    cases r with
    | boundary => exact absurd h id
    | point pos => exact ih (b := b.setPt (b.clip pos)) h (hpoint rs b pos _ hI)
    | modtime high low =>
      obtain ⟨heq, h⟩ := h
      obtain ⟨b', hrun, htext, hb'⟩ := ih (b := b.setBufferUnmodified) h (hmodtime rs b _ _ hI)
      refine ⟨b', ?_, htext, hb'⟩
      rw [cons_append, undoToBoundary, if_neg (not_not_intro heq), hrun]
    | inserted beg stop =>
      obtain ⟨⟨hbeg, hle, hstop⟩, h⟩ := h
      have hclip : b.clip beg = beg := clip_of_le hbeg (Nat.le_trans hle hstop)
      obtain ⟨b', hrun, htext, hb'⟩ := ih (b := (b.setPt beg).bufferDeleteRange beg stop)
        (by rw [bufferDeleteRange_text (b.setPt beg) hbeg hstop hle, bufferDeleteRange_modtime]
            exact h)
        (hinserted rs b beg stop hI hbeg hle hstop)
      refine ⟨b', ?_, htext, hb'⟩
      have hregion : (b.gotoChar beg).deleteRegion beg stop
          = .ok ((b.setPt beg).bufferDeleteRange beg stop) := by
        rw [gotoChar, hclip, deleteRegion, if_pos ⟨⟨hbeg, Nat.le_trans hle hstop⟩,
          Nat.le_trans hbeg hle, hstop⟩, Nat.min_eq_left hle, Nat.max_eq_right hle]
      rw [cons_append, undoToBoundary,
        if_neg (show ¬ (beg < 1 ∨ stop > b.z) by unfold z; omega), hregion]
      exact hrun
    | deleted string pos =>
      obtain ⟨⟨hne, hpos, hpos'⟩, h⟩ := h
      have hclip : b.clip pos.natAbs = pos.natAbs := clip_of_le hpos hpos'
      have hih : ∀ p, ∃ b', undoToBoundary (rs ++ list)
          (((b.setPt pos.natAbs).bufferInsertString1 none string).setPt p)
            = .ok (list.tail, b') ∧ b'.text = t₁ ∧ I [] b' := by
        refine fun p => ih ?_ (hdeleted rs b string pos p hI hne hpos hpos')
        show Inverts ((b.setPt pos.natAbs).bufferInsertString1 none string).modtime t₁ rs
          ((b.setPt pos.natAbs).bufferInsertString1 none string).text
        rw [bufferInsertString1_modtime, bufferInsertString1_text]
        show Inverts b.modtime t₁ rs (insertAt b.text (b.clip pos.natAbs) string)
        rw [hclip]
        exact h
      rw [cons_append, undoToBoundary]
      rcases Int.natAbs_eq pos with hsign | hsign
      · -- point goes back to the start of the inserted text
        obtain ⟨b', hrun, htext, hb'⟩ := hih pos.natAbs
        refine ⟨b', ?_, htext, hb'⟩
        rw [if_neg (by omega), if_neg (by unfold z; omega),
          show pos.toNat = pos.natAbs by omega]
        exact hrun
      · obtain ⟨b', hrun, htext, hb'⟩ :=
          hih ((b.setPt pos.natAbs).bufferInsertString1 none string).pt
        refine ⟨b', ?_, htext, hb'⟩
        rw [if_pos (by omega), if_neg (by unfold z; omega),
          show (-pos).toNat = pos.natAbs by omega]
        exact hrun

theorem primitiveUndo_of_inverts (hlist : AtBoundary list)
    (h : Inverts b.modtime t₁ rs b.text) :
    ∃ b', primitiveUndo 1 (rs ++ list) b = .ok (list.tail, b') ∧ b'.text = t₁ := by
  obtain ⟨b', hrun, htext, -⟩ := undoToBoundary_rule (fun _ _ => True)
    (fun _ _ _ _ _ => trivial) (fun _ _ _ _ _ => trivial) (fun _ _ _ _ _ _ _ _ => trivial)
    (fun _ _ _ _ _ _ _ _ _ => trivial) hlist h trivial
  exact ⟨b', by rw [primitiveUndo, hrun]; rfl, htext⟩

/-- The first change that undoing the records makes is an insertion at `p`, not preceded
by a record of the modification time. -/
def NextInsertsAt (p : Nat) : List UndoRecord → Prop
  | .point _ :: rs => NextInsertsAt p rs
  | .inserted beg stop :: rs => beg = stop ∧ NextInsertsAt p rs
  | .deleted _ pos :: _ => pos.natAbs = p
  | _ => False

instance (p : Nat) : (rs : List UndoRecord) → Decidable (NextInsertsAt p rs)
  | [] | .boundary :: _ | .modtime .. :: _ => inferInstanceAs (Decidable False)
  | .point _ :: rs => instDecidableNextInsertsAt p rs
  | .inserted _ _ :: rs =>
    have := instDecidableNextInsertsAt p rs
    inferInstanceAs (Decidable (_ ∧ _))
  | .deleted _ _ :: _ => inferInstanceAs (Decidable (_ = _))

/-- Undoing the records joins an insertion to the newest record there is. -/
def UndoJoins (b : UndoBuffer) (rs : List UndoRecord) : Prop :=
  b.saveModiff < b.modiff ∧
    ∃ beg p list, b.undoList = .inserted beg p :: list ∧ NextInsertsAt p rs

instance (b : UndoBuffer) (rs : List UndoRecord) : Decidable (UndoJoins b rs) :=
  match h : b.undoList with
  | .inserted beg p :: list =>
    decidable_of_iff (b.saveModiff < b.modiff ∧ NextInsertsAt p rs)
      ⟨fun hj => ⟨hj.1, beg, p, list, h, hj.2⟩, fun ⟨hm, _, _, _, heq, hnext⟩ => by
        rw [h, List.cons.injEq, UndoRecord.inserted.injEq] at heq
        exact ⟨hm, heq.1.2 ▸ hnext⟩⟩
  | [] | .boundary :: _ | .modtime .. :: _ | .point _ :: _ | .deleted .. :: _ =>
    isFalse fun ⟨_, _, _, _, heq, _⟩ => nomatch h.symm.trans heq

theorem nextInsertsAt_append (hlist : AtBoundary list) (p : Nat) :
    NextInsertsAt p (rs ++ list) ↔ NextInsertsAt p rs := by
  induction rs with
  | nil =>
    cases list with
    | nil => rfl
    | cons r list =>
      obtain rfl : r = .boundary := hlist r rfl
      rfl
  | cons r rs ih =>
    cases r with
    | point pos => exact ih
    | inserted beg stop => exact and_congr Iff.rfl ih
    | _ => rfl

theorem undoJoins_deleted {string : List Emchar} {pos : Int} :
    UndoJoins b (.deleted string pos :: rs) ↔ b.Joins pos.natAbs := by
  constructor
  · rintro ⟨hmodified, beg, p, list, heq, rfl⟩
    exact ⟨hmodified, beg, list, heq⟩
  · rintro ⟨hmodified, beg, list, heq⟩
    exact ⟨hmodified, beg, _, list, heq, rfl⟩

/-- The records on top of `base` invert the changes, and stay on top when `rs` are
undone. -/
def Stays (base : List UndoRecord) (t₀ : List Emchar) (rs : List UndoRecord)
    (b : UndoBuffer) : Prop :=
  ∃ rs', Tracks base t₀ b b.text rs' ∧ (rs' ≠ [] ∨ ¬ UndoJoins b rs)

theorem Tracks.setPt {rs : List UndoRecord} (h : Tracks base t₀ b b.text rs) (p : Nat) :
    Tracks base t₀ (b.setPt p) (b.setPt p).text rs :=
  ⟨h.list_eq, h.inverts, h.last⟩

theorem Stays.inserted {beg stop : Nat} (h : Stays base t₀ (.inserted beg stop :: rs) b)
    (hbeg : 1 ≤ beg) (hle : beg ≤ stop) (hstop : stop ≤ b.text.length + 1) :
    Stays base t₀ rs ((b.setPt beg).bufferDeleteRange beg stop) := by
  obtain ⟨rs', h, hjoins⟩ := h
  rcases Nat.lt_or_eq_of_le hle with hlt | rfl
  · obtain ⟨rs'', hne, hrs''⟩ := (h.setPt beg).bufferDeleteRange hbeg hlt hstop
    exact ⟨rs'', hrs'', .inl hne⟩
  · rw [bufferDeleteRange_self]
    refine ⟨rs', h.setPt beg, hjoins.imp id fun hj => ?_⟩
    rintro ⟨hmodified, first, p, list, heq, hnext⟩
    exact hj ⟨hmodified, first, p, list, heq, rfl, hnext⟩

theorem Stays.deleted {string : List Emchar} {pos : Int}
    (h : Stays base t₀ (.deleted string pos :: rs) b) (hpos : 1 ≤ pos.natAbs)
    (hpos' : pos.natAbs ≤ b.text.length + 1) (p : Nat) :
    Stays base t₀ rs (((b.setPt pos.natAbs).bufferInsertString1 none string).setPt p) := by
  obtain ⟨rs', h, hjoins⟩ := h
  have hclip : (b.setPt pos.natAbs).clip pos.natAbs = pos.natAbs := clip_of_le hpos hpos'
  obtain ⟨rs'', hne, hrs''⟩ := (h.setPt pos.natAbs).bufferInsertString1 none string
    (hjoins.imp id fun hj hjoin => hj (undoJoins_deleted.mpr (hclip ▸ hjoin)))
  exact ⟨rs'', hrs''.setPt p, .inl hne⟩

theorem Stays.undo (hlist : AtBoundary list) (h : Inverts b.modtime t₁ rs b.text)
    (hstays : Stays base t₀ rs b) :
    ∃ b', undoToBoundary (rs ++ list) b = .ok (list.tail, b') ∧ b'.text = t₁ ∧
      Stays base t₀ [] b' :=
  undoToBoundary_rule (Stays base t₀)
    (fun _ _ _ p ⟨rs', h, hjoins⟩ => ⟨rs', h.setPt p, hjoins⟩)
    (fun _ _ _ _ ⟨rs', h, _⟩ => ⟨rs', ⟨h.list_eq, h.inverts, h.last⟩,
      .inr fun hj => Nat.lt_irrefl _ hj.1⟩)
    (fun _ _ _ _ h => h.inserted) (fun _ _ _ _ p h _ hpos hpos' => h.deleted hpos hpos' p)
    hlist h hstays

theorem Tracks.recordInsert_joined {t : List Emchar} (h : Tracks base t₀ b t [])
    {p : Nat} (c : List Emchar) (hjoins : b.Joins p) :
    ∃ base', base'.length = base.length ∧
      Tracks base' (insertAt t p c) (b.recordInsert p c.length) (insertAt t p c) [] := by
  obtain ⟨hmodified, beg, list, heq⟩ := hjoins
  have hlast : b.lastUndoBuffer = true := by
    refine h.last.resolve_right fun hb => ?_
    exact nomatch hb (.inserted beg p) (by rw [heq]; rfl)
  have hbase : base = .inserted beg p :: list := h.list_eq.symm.trans heq
  refine ⟨.inserted beg (p + c.length) :: list, by rw [hbase, length_cons,
    length_cons], ?_⟩
  unfold UndoBuffer.recordInsert
  rw [undoPrelude_eq h.last, if_neg (Nat.not_le.mpr hmodified), heq]
  simp only [if_pos]
  exact ⟨rfl, rfl, .inl rfl⟩

theorem Tracks.bufferInsertString1_joined (h : Tracks base t₀ b b.text []) (pos : Option Nat)
    (c : List Emchar) (hjoins : b.Joins (b.clip (pos.getD b.pt))) :
    ∃ base', base'.length = base.length ∧
      Tracks base' (b.bufferInsertString1 pos c).text (b.bufferInsertString1 pos c)
        (b.bufferInsertString1 pos c).text [] := by
  obtain ⟨base', hlength, h'⟩ := h.recordInsert_joined c hjoins
  exact ⟨base', hlength, h'.list_eq, rfl, h'.last⟩

/-- An insertion has been joined to the newest record there was, of `N`, or will be: the
records on top do not give `t₀`, since they give a longer text. -/
def Lost (N : Nat) (t₀ : List Emchar) (rs : List UndoRecord) (b : UndoBuffer) : Prop :=
  ∃ base t rs', base.length = N ∧ Tracks base t b b.text rs' ∧
    (t₀.length < t.length ∨ rs' = [] ∧ t = t₀ ∧ UndoJoins b rs)

variable {N : Nat}

theorem Lost.inserted {beg stop : Nat} (h : Lost N t₀ (.inserted beg stop :: rs) b)
    (hbeg : 1 ≤ beg) (hle : beg ≤ stop) (hstop : stop ≤ b.text.length + 1) :
    Lost N t₀ rs ((b.setPt beg).bufferDeleteRange beg stop) := by
  obtain ⟨base, t, rs', hN, h, hlonger⟩ := h
  rcases Nat.lt_or_eq_of_le hle with hlt | rfl
  · obtain ⟨rs'', -, hrs''⟩ := (h.setPt beg).bufferDeleteRange hbeg hlt hstop
    refine ⟨base, t, rs'', hN, hrs'', .inl (hlonger.resolve_right ?_)⟩
    rintro ⟨-, -, -, first, p, list, heq, hself, -⟩
    omega
  · rw [bufferDeleteRange_self]
    refine ⟨base, t, rs', hN, h.setPt beg, hlonger.imp id ?_⟩
    rintro ⟨hnil, ht, hmodified, first, p, list, heq, -, hnext⟩
    exact ⟨hnil, ht, hmodified, first, p, list, heq, hnext⟩

theorem Lost.deleted {string : List Emchar} {pos : Int}
    (h : Lost N t₀ (.deleted string pos :: rs) b) (hne : string ≠ []) (hpos : 1 ≤ pos.natAbs)
    (hpos' : pos.natAbs ≤ b.text.length + 1) (p : Nat) :
    Lost N t₀ rs (((b.setPt pos.natAbs).bufferInsertString1 none string).setPt p) := by
  obtain ⟨base, t, rs', hN, h, hlonger⟩ := h
  have hclip : (b.setPt pos.natAbs).clip pos.natAbs = pos.natAbs := clip_of_le hpos hpos'
  by_cases hjoins : rs' = [] ∧ (b.setPt pos.natAbs).Joins pos.natAbs
  · obtain ⟨rfl, hjoins⟩ := hjoins
    obtain ⟨base', hlength, h'⟩ :=
      (h.setPt pos.natAbs).bufferInsertString1_joined none string (hclip.symm ▸ hjoins)
    refine ⟨base', _, [], hlength.trans hN, h'.setPt p, .inl ?_⟩
    have ht : b.text = t := h.inverts
    have := List.length_pos_iff.mpr hne
    rw [bufferInsertString1_text, length_insertAt]
    show t₀.length < b.text.length + string.length
    rw [ht]
    rcases hlonger with hlt | ⟨-, rfl, -⟩ <;> omega
  · obtain ⟨rs'', -, hrs''⟩ := (h.setPt pos.natAbs).bufferInsertString1 none string
      (by
        show rs' ≠ [] ∨ ¬ (b.setPt pos.natAbs).Joins ((b.setPt pos.natAbs).clip pos.natAbs)
        rw [hclip]
        exact not_and_or.mp hjoins)
    refine ⟨base, t, rs'', hN, hrs''.setPt p, .inl (hlonger.resolve_right ?_)⟩
    rintro ⟨hnil, -, hjoin⟩
    exact hjoins ⟨hnil, undoJoins_deleted.mp hjoin⟩

theorem Lost.undo (hlist : AtBoundary list) (h : Inverts b.modtime t₁ rs b.text)
    (hlost : Lost N t₀ rs b) :
    ∃ b', undoToBoundary (rs ++ list) b = .ok (list.tail, b') ∧ b'.text = t₁ ∧
      Lost N t₀ [] b' :=
  undoToBoundary_rule (Lost N t₀)
    (fun _ _ _ p ⟨base, t, rs', hN, h, hlonger⟩ => ⟨base, t, rs', hN, h.setPt p, hlonger⟩)
    (fun _ _ _ _ ⟨base, t, rs', hN, h, hlonger⟩ =>
      ⟨base, t, rs', hN, ⟨h.list_eq, h.inverts, h.last⟩,
        .inl (hlonger.resolve_right fun hj => by
          obtain ⟨-, -, -, _, _, _, -, hnext⟩ := hj
          exact hnext)⟩)
    (fun _ _ _ _ h => h.inserted)
    (fun _ _ _ _ p h hne hpos hpos' => h.deleted hne hpos hpos' p) hlist h hlost

end Undoing

/-! ## The law -/

/-- The records pushed since a state. -/
def pushedSince (b b₁ : UndoBuffer) : List UndoRecord :=
  b.undoList.take (b.undoList.length - b₁.undoList.length)

/-- The state an undo of edits starts in: right after them, or behind another boundary. -/
def beforeUndo (b₀ : UndoBuffer) (l : List Edit) (boundary : Bool) : UndoBuffer :=
  if boundary then (b₀.edits l).undoBoundary else b₀.edits l

/-- Undoing the records of the edits restores the text, and undoing the records that
this has pushed restores the text after the edits. -/
def UndoInverts (b₀ : UndoBuffer) (l : List Edit) (boundary : Bool) : Prop :=
  ∃ list b₂, primitiveUndo 1 (b₀.edits l).undoList (beforeUndo b₀ l boundary)
      = .ok (list, b₂) ∧ b₂.text = b₀.text ∧
    ∃ list' b₃, primitiveUndo 1 (b₂.pushedSince (beforeUndo b₀ l boundary)) b₂
        = .ok (list', b₃) ∧ b₃.text = (b₀.edits l).text

theorem Tracks.pushedSince {base rs : List UndoRecord} {t₀ t : List Emchar}
    {b b₁ : UndoBuffer} (h : Tracks base t₀ b t rs)
    (hbase : base.length = b₁.undoList.length) : b.pushedSince b₁ = rs := by
  rw [UndoBuffer.pushedSince, h.list_eq, length_append, hbase, Nat.add_sub_cancel,
    take_left]

theorem Tracks.beforeUndo {b₀ : UndoBuffer} {l : List Edit} {base rs : List UndoRecord}
    {t₀ : List Emchar} (h : Tracks base t₀ (b₀.edits l) (b₀.edits l).text rs)
    (boundary : Bool) :
    (beforeUndo b₀ l boundary).text = (b₀.edits l).text ∧
      (beforeUndo b₀ l boundary).modtime = (b₀.edits l).modtime ∧
      Tracks (beforeUndo b₀ l boundary).undoList (b₀.edits l).text
        (beforeUndo b₀ l boundary) (beforeUndo b₀ l boundary).text [] := by
  have htracks : Tracks (b₀.edits l).undoList (b₀.edits l).text (b₀.edits l)
      (b₀.edits l).text [] := ⟨rfl, rfl, h.last⟩
  unfold UndoBuffer.beforeUndo
  cases boundary with
  | false => exact ⟨rfl, rfl, htracks⟩
  | true =>
    rw [if_pos rfl]
    rcases h.last with hlast | hb
    · obtain ⟨list, heq⟩ := (b₀.edits l).undoBoundary_frame
      rw [heq]
      exact ⟨rfl, rfl, rfl, rfl, .inl hlast⟩
    · rw [undoBoundary_of_atBoundary hb]
      exact ⟨rfl, rfl, htracks⟩

/-- **Undo inverts editing**: behind a boundary, undoing the records of any edits restores
the text, and undoing the records of that undo restores the text after the edits, if and
only if the undo does not join an insertion to the newest record of the edits. -/
theorem undoInverts_iff (b₀ : UndoBuffer) (h₀ : AtBoundary b₀.undoList) (l : List Edit)
    (boundary : Bool) : UndoInverts b₀ l boundary ↔
      ¬ UndoJoins (beforeUndo b₀ l boundary) (b₀.edits l).undoList := by
  have hstart : Tracks b₀.undoList b₀.text b₀ b₀.text [] :=
    ⟨(List.nil_append _).symm, rfl, .inr h₀⟩
  obtain ⟨rs, h⟩ := hstart.edits h₀ l
  obtain ⟨htext, hmodtime, h₁⟩ := h.beforeUndo boundary
  have hinverts : Inverts (beforeUndo b₀ l boundary).modtime b₀.text rs
      (beforeUndo b₀ l boundary).text := by
    rw [htext, hmodtime]
    exact h.inverts
  have hjoins : UndoJoins (beforeUndo b₀ l boundary) (b₀.edits l).undoList ↔
      UndoJoins (beforeUndo b₀ l boundary) rs := by
    rw [h.list_eq, UndoJoins, UndoJoins]
    simp only [nextInsertsAt_append h₀]
  rw [hjoins]
  constructor
  · rintro ⟨list, b₂, hrun, -, list', b₃, hrun', htext₃⟩ hj
    obtain ⟨b', hundo, -, base, t, rs', hN, h', hlonger⟩ :=
      Lost.undo h₀ hinverts ⟨_, _, [], rfl, h₁, .inr ⟨rfl, rfl, hj⟩⟩
    have hb' : b' = b₂ := by
      rw [h.list_eq, primitiveUndo, hundo] at hrun
      exact congrArg Prod.snd (Except.ok.inj hrun)
    subst hb'
    obtain ⟨b'', hundo', htext'⟩ := primitiveUndo_of_inverts atBoundary_nil h'.inverts
    rw [List.append_nil, ← h'.pushedSince hN, hrun'] at hundo'
    have hb'' : b₃ = b'' := congrArg Prod.snd (Except.ok.inj hundo')
    have hlt : (b₀.edits l).text.length < t.length := by
      refine hlonger.resolve_right ?_
      rintro ⟨-, -, -, _, _, _, -, hnext⟩
      exact hnext
    rw [← htext₃, hb'', htext'] at hlt
    exact Nat.lt_irrefl _ hlt
  · intro hj
    obtain ⟨b₂, hundo, htext₂, rs', h', -⟩ := Stays.undo h₀ hinverts ⟨[], h₁, .inr hj⟩
    obtain ⟨b₃, hundo', htext₃⟩ := primitiveUndo_of_inverts atBoundary_nil h'.inverts
    rw [List.append_nil] at hundo'
    refine ⟨b₀.undoList.tail, b₂, ?_, htext₂, [], b₃, ?_, htext₃⟩
    · rw [h.list_eq, primitiveUndo, hundo]
      rfl
    · rw [h'.pushedSince rfl]
      exact hundo'

/-- An unmodified buffer with two letters, behind a boundary. -/
def twoLetters : UndoBuffer where
  text := [letterA, hiraganaA]
  pt := 2
  undoList := [.boundary]
  modiff := 1
  saveModiff := 1
  modtime := 0x12345678
  lastUndoBuffer := false
  lastPointPosition := some 2

/-- A replacement, an insertion that is joined to its record and a deletion. -/
theorem undoInverts_twoLetters :
    UndoInverts twoLetters
      [.replaceChar 2 hiraganaA, .insert (some 3) [letterA], .delete 1 2] false :=
  (undoInverts_iff twoLetters (by decide) _ false).mpr (by decide)

/-- A deletion and an empty insertion at its place: the undo inserts the character again,
which is joined to the record of the empty insertion, and pushes nothing. -/
theorem emptyInsertion_not_undoInverts :
    ¬ UndoInverts twoLetters [.delete 1 2, .insert (some 1) []] false := by
  rintro ⟨list, b₂, hrun, htext₂, list', b₃, hrun', htext₃⟩
  have hundo : (primitiveUndo 1 (twoLetters.edits [.delete 1 2, .insert (some 1) []]).undoList
      (beforeUndo twoLetters [.delete 1 2, .insert (some 1) []] false)).toOption.map
        (fun r => (r.2.pushedSince
          (beforeUndo twoLetters [.delete 1 2, .insert (some 1) []] false), r.2.text.length))
      = some ([], 2) := by decide
  rw [hrun] at hundo
  have hpair := Option.some.inj hundo
  have hpushed : b₂.pushedSince (beforeUndo twoLetters [.delete 1 2, .insert (some 1) []] false)
      = [] := congrArg Prod.fst hpair
  have hlength : b₂.text.length = 2 := congrArg Prod.snd hpair
  rw [hpushed] at hrun'
  obtain rfl : b₂ = b₃ := congrArg Prod.snd (Except.ok.inj hrun')
  rw [htext₃] at hlength
  exact absurd hlength (by decide)

end UndoBuffer

end XEmacs.Buffer

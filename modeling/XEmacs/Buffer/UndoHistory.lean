import XEmacs.Buffer.UndoInverts

/-!
# The history of a buffer

The command loop pushes a boundary before a command, unless the command goes on with the one
before (then the two are one here). The texts at the boundaries are a stack.
-/

namespace XEmacs.Buffer

open BytePositions List

namespace UndoBuffer

/-- A buffer, and the texts at the boundaries of its undo list, the last one first. -/
structure History where
  buffer : UndoBuffer
  texts : List (List Emchar)

/-- A command: a boundary, unless there is one, and edits. -/
def History.command (h : History) (l : List Edit) : History where
  buffer := h.buffer.undoBoundary.edits l
  texts := if AtBoundary h.buffer.undoList then h.texts else h.buffer.text :: h.texts

/-- The records between the boundaries give one text after the other. -/
def Unwinds (modtime : BitVec 32) : List (List Emchar) → List UndoRecord → List Emchar → Prop
  | [], _, _ => True
  | t₁ :: texts, list, t => ∃ rs base, list = rs ++ base ∧ AtBoundary base ∧
      Inverts modtime t₁ rs t ∧ Unwinds modtime texts base.tail t₁

/-- The records give the texts, and there was a text at the beginning. -/
structure History.Sound (h : History) : Prop where
  nonempty : h.texts ≠ []
  unwinds : Unwinds h.buffer.modtime h.texts h.buffer.undoList h.buffer.text

variable {b : UndoBuffer} {h : History} {list : List UndoRecord} {texts : List (List Emchar)}

/-! ## Commands -/

theorem bufferReplaceChar_modtime (b : UndoBuffer) (pos : Nat) (ch : Emchar) :
    (b.bufferReplaceChar pos ch).modtime = b.modtime := by
  rw [bufferReplaceChar]
  split
  · rfl
  · split_ifs
    · obtain ⟨list, last, hdelete⟩ := b.recordDelete_frame pos 1
      obtain ⟨list', last', hinsert⟩ := (b.recordDelete pos 1).recordInsert_frame pos 1
      simp only [recordChange, hinsert]
      rw [hdelete]
    · simp only
      split_ifs <;> simp

theorem edits_modtime (b : UndoBuffer) (l : List Edit) : (b.edits l).modtime = b.modtime := by
  induction l generalizing b with
  | nil => rfl
  | cons e l ih =>
    refine (ih (e.run b)).trans ?_
    cases e with
    | insert pos c => exact b.bufferInsertString1_modtime pos c
    | delete start stop => exact b.bufferDeleteRange_modtime start stop
    | replaceChar pos ch =>
      rw [Edit.run]
      split_ifs
      · exact b.bufferReplaceChar_modtime pos ch
      · rfl
    | gotoChar pos => rfl
    | startCommand last => rfl

theorem Unwinds.atBoundary {modtime : BitVec 32} {t : List Emchar} (hlist : AtBoundary list)
    (htexts : texts ≠ []) (hunwinds : Unwinds modtime texts list t) :
    ∃ older, texts = t :: older ∧ Unwinds modtime older list.tail t := by
  cases texts with
  | nil => exact absurd rfl htexts
  | cons t₁ older =>
    obtain ⟨rs, base, rfl, -, hinverts, holder⟩ := hunwinds
    cases rs with
    | nil =>
      obtain rfl : t = t₁ := hinverts
      exact ⟨older, rfl, holder⟩
    | cons r rs =>
      obtain rfl : r = .boundary := hlist r rfl
      cases hinverts

/-- **A command keeps the stack**: its records go on top of a boundary for the text it began
with, and the ones below stay. -/
theorem History.Sound.command (hs : h.Sound) (l : List Edit) : (h.command l).Sound := by
  obtain ⟨buffer, texts⟩ := h
  obtain ⟨hne, hunwinds⟩ := hs
  -- the text is on top of the stack when the edits begin
  obtain ⟨older, htexts, hbase, hframe, holder⟩ : ∃ older,
      (if AtBoundary buffer.undoList then texts else buffer.text :: texts) =
        buffer.text :: older ∧ AtBoundary buffer.undoBoundary.undoList ∧
      (buffer.undoBoundary.modtime = buffer.modtime ∧ buffer.undoBoundary.text = buffer.text) ∧
      Unwinds buffer.modtime older buffer.undoBoundary.undoList.tail buffer.text := by
    by_cases hlist : AtBoundary buffer.undoList
    · obtain ⟨older, heq, holder⟩ := hunwinds.atBoundary hlist hne
      rw [if_pos hlist, undoBoundary_of_atBoundary hlist]
      exact ⟨older, heq, hlist, ⟨rfl, rfl⟩, holder⟩
    · have hpush : buffer.undoBoundary = buffer.push .boundary := by
        rw [undoBoundary]
        split
        case h_1 heq => exact absurd (heq ▸ atBoundary_nil) hlist
        case h_2 heq => exact absurd (fun r hr => by rw [heq] at hr; cases hr; rfl) hlist
        case h_3 => rfl
      rw [if_neg hlist, hpush]
      refine ⟨texts, rfl, fun r hr => ?_, ⟨rfl, rfl⟩, hunwinds⟩
      cases hr
      rfl
  have hstart : Tracks buffer.undoBoundary.undoList buffer.undoBoundary.text buffer.undoBoundary
      buffer.undoBoundary.text [] :=
    ⟨(List.nil_append _).symm, rfl, .inr hbase⟩
  obtain ⟨rs, htracks⟩ := hstart.edits hbase l
  rw [History.command, htexts]
  refine ⟨cons_ne_nil _ _, rs, _, htracks.list_eq, hbase, ?_, ?_⟩
  · rw [← hframe.2]
    exact htracks.inverts
  · rw [edits_modtime, hframe.1]
    exact holder

theorem History.Sound.commands (hs : h.Sound) (l : List (List Edit)) :
    (l.foldl History.command h).Sound := by
  induction l generalizing h with
  | nil => exact hs
  | cons c l ih => exact ih (hs.command c)

/-! ## Undoing to a boundary -/

theorem Unwinds.primitiveUndo (hunwinds : Unwinds b.modtime texts list b.text) {n : Nat}
    {t : List Emchar} (ht : texts[n]? = some t) :
    ∃ rest b', primitiveUndo (n + 1) list b = .ok (rest, b') ∧ b'.text = t := by
  induction n generalizing texts list b with
  | zero =>
    cases texts with
    | nil => cases ht
    | cons t₁ texts =>
      cases ht
      obtain ⟨rs, base, rfl, hbase, hinverts, -⟩ := hunwinds
      obtain ⟨b', hundo, htext⟩ := primitiveUndo_of_inverts hbase hinverts
      exact ⟨_, b', hundo, htext⟩
  | succ n ih =>
    cases texts with
    | nil => cases ht
    | cons t₁ texts =>
      obtain ⟨rs, base, rfl, hbase, hinverts, holder⟩ := hunwinds
      -- the modification time stays, so that the older records still fit
      obtain ⟨b₁, hundo, htext, hmodtime⟩ :=
        undoToBoundary_rule (fun _ b₁ => b₁.modtime = b.modtime) (fun _ _ _ _ hm => hm)
          (fun _ _ _ _ hm => hm)
          (fun _ b₁ beg stop hm _ _ _ => ((b₁.setPt beg).bufferDeleteRange_modtime beg stop).trans hm)
          (fun _ b₁ string pos _ hm _ _ _ =>
            ((b₁.setPt pos.natAbs).bufferInsertString1_modtime none string).trans hm)
          hbase hinverts rfl
      rw [← htext, ← hmodtime] at holder
      obtain ⟨rest, b', hrest, ht'⟩ := ih holder ht
      exact ⟨rest, b', by rw [UndoBuffer.primitiveUndo, hundo]; exact hrest, ht'⟩

/-- **The undo list is a stack of texts**: after any commands, undoing the records up to one of the
boundaries gives the text that there was when it was pushed. -/
theorem undo_history (b : UndoBuffer) (hb : AtBoundary b.undoList) (commands : List (List Edit))
    {n : Nat} {t : List Emchar}
    (ht : (commands.foldl History.command ⟨b, [b.text]⟩).texts[n]? = some t) :
    ∃ rest b', primitiveUndo (n + 1)
        (commands.foldl History.command ⟨b, [b.text]⟩).buffer.undoList
        (commands.foldl History.command ⟨b, [b.text]⟩).buffer = .ok (rest, b') ∧
      b'.text = t := by
  have hs : (⟨b, [b.text]⟩ : History).Sound :=
    ⟨cons_ne_nil _ _, [], _, rfl, hb, rfl, trivial⟩
  exact (hs.commands commands).unwinds.primitiveUndo ht

/-- A letter is inserted, then one is deleted and another is replaced: undoing both commands gives
the two letters again. -/
theorem undo_history_twoLetters :
    ∃ rest b', primitiveUndo 2
        ([[Edit.insert (some 3) [letterA]], [.delete 1 2, .replaceChar 1 letterA]].foldl
          History.command ⟨twoLetters, [twoLetters.text]⟩).buffer.undoList
        ([[Edit.insert (some 3) [letterA]], [.delete 1 2, .replaceChar 1 letterA]].foldl
          History.command ⟨twoLetters, [twoLetters.text]⟩).buffer = .ok (rest, b') ∧
      b'.text = twoLetters.text :=
  undo_history twoLetters (by decide) _ (n := 1) (by decide)

end UndoBuffer

end XEmacs.Buffer

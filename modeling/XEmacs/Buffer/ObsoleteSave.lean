import XEmacs.Buffer.UndoInverts

/-!
# Undoing over an obsolete save (undo.c)

A record of a modification time is there to mark the buffer unmodified when it is undone. If the
file has been saved since then, the record is obsolete and must not do so.
-/

namespace XEmacs.Buffer

open BytePositions List

namespace UndoBuffer

/-- A record of a modification time other than the buffer's. -/
def Obsolete (modtime : BitVec 32) : UndoRecord → Prop
  | .modtime high low => BitVec.ofNat 32 ((high <<< 16) + low) ≠ modtime
  | _ => False

instance (modtime : BitVec 32) (r : UndoRecord) : Decidable (Obsolete modtime r) := by
  cases r <;> unfold Obsolete <;> infer_instance

/-- A record undone; an obsolete one only does not mark the buffer unmodified. -/
def undoRecord (b : UndoBuffer) : UndoRecord → Except UndoError UndoBuffer
  | .boundary => .ok b
  | .point pos => .ok (b.setPt (b.clip pos))
  | .modtime high low =>
    .ok (if Obsolete b.modtime (.modtime high low) then b else b.setBufferUnmodified)
  | .inserted beg stop =>
    if beg < 1 ∨ stop > b.z then .error .outsideVisible
    else (b.gotoChar beg).deleteRegion beg stop
  | .deleted string pos =>
    if pos.natAbs < 1 ∨ pos.natAbs > b.z then .error .outsideVisible
    else
      let b := (b.setPt pos.natAbs).bufferInsertString1 none string
      .ok (if pos < 0 then b else b.setPt pos.natAbs)

/-- Records undone one after the other. -/
def undoRecords (rs : List UndoRecord) (b : UndoBuffer) : Except UndoError UndoBuffer :=
  rs.foldlM undoRecord b

/-- The records of a list up to the next boundary. -/
def group (list : List UndoRecord) : List UndoRecord := list.takeWhile (· ≠ .boundary)

/-- What comes after the next boundary. -/
def afterGroup (list : List UndoRecord) : List UndoRecord :=
  (list.dropWhile (· ≠ .boundary)).tail

/-- The records of the changes that led from the text `t₀` to the text `t`, saves or not. -/
def Reverts (t₀ : List Emchar) : List UndoRecord → List Emchar → Prop
  | [], t => t = t₀
  | .boundary :: rs, t => Reverts t₀ rs t
  | .point _ :: rs, t => Reverts t₀ rs t
  | .modtime _ _ :: rs, t => Reverts t₀ rs t
  | .inserted beg stop :: rs, t =>
    (1 ≤ beg ∧ beg ≤ stop ∧ stop ≤ t.length + 1) ∧ Reverts t₀ rs (deleteRange t beg stop)
  | .deleted string pos :: rs, t =>
    (1 ≤ pos.natAbs ∧ pos.natAbs ≤ t.length + 1) ∧ Reverts t₀ rs (insertAt t pos.natAbs string)

/-- Where the units of COUNT start. -/
def units : Nat → List UndoRecord → UndoBuffer → List (List UndoRecord × UndoBuffer)
  | 0, _, _ => []
  | count + 1, list, b =>
    (list, b) :: match undoToBoundary list b with
      | .error _ => []
      | .ok (rest, b') => units count rest b'

/-- The unit that starts here undoes all records up to the next boundary: the buffer is as they
make it, none of them is left, and the text is what it was at that boundary. -/
def UndoesGroup (list : List UndoRecord) (b : UndoBuffer) : Prop :=
  ∀ rest b', undoToBoundary list b = .ok (rest, b') →
    undoRecords (group list) b = .ok b' ∧
      (rest = afterGroup list ∨ rest = .boundary :: afterGroup list) ∧
      ∀ t₀, Reverts t₀ (group list) b.text → b'.text = t₀

/-! ### One unit -/

section unit

variable {list rest : List UndoRecord} {b b' : UndoBuffer} {r : UndoRecord}

theorem group_cons (h : r ≠ .boundary) : group (r :: list) = r :: group list :=
  takeWhile_cons_of_pos (decide_eq_true h)

theorem afterGroup_cons (h : r ≠ .boundary) : afterGroup (r :: list) = afterGroup list :=
  congrArg List.tail (dropWhile_cons_of_pos (decide_eq_true h))

theorem undoToBoundary_obsolete (hobsolete : Obsolete b.modtime r) :
    undoToBoundary (r :: list) b = .ok (list, b) := by
  cases r with
  | modtime high low => exact if_pos hobsolete
  | _ => exact absurd hobsolete id

theorem undoToBoundary_cons (hr : r ≠ .boundary) (hobsolete : ¬ Obsolete b.modtime r) :
    undoToBoundary (r :: list) b = undoRecord b r >>= undoToBoundary list := by
  cases r with
  | boundary => exact absurd rfl hr
  | point pos => rfl
  | modtime high low =>
    have hsame : ¬ BitVec.ofNat 32 ((high <<< 16) + low) ≠ b.modtime := hobsolete
    rw [undoToBoundary, if_neg hsame, undoRecord, if_neg hobsolete]
    rfl
  | inserted beg stop =>
    rw [undoToBoundary, undoRecord]
    split
    · rfl
    · rfl
  | deleted string pos =>
    rw [undoToBoundary, undoRecord]
    by_cases hpos : pos < 0
    · have habs : (-pos).toNat = pos.natAbs := by omega
      rw [if_pos hpos, habs]
      by_cases hin : pos.natAbs < 1 ∨ pos.natAbs > b.z
      · rw [if_pos hin, if_pos (by omega)]
        rfl
      · rw [if_neg hin, if_neg (by omega)]
        simp only [if_pos hpos]
        rfl
    · have habs : pos.toNat = pos.natAbs := by omega
      rw [if_neg hpos, habs]
      by_cases hin : pos.natAbs < 1 ∨ pos.natAbs > b.z
      · rw [if_pos hin, if_pos (by omega)]
        rfl
      · rw [if_neg hin, if_neg (by omega)]
        simp only [if_neg hpos]
        rfl

theorem deleteRegion_modtime {start stop : Nat} (h : b.deleteRegion start stop = .ok b') :
    b'.modtime = b.modtime := by
  rw [deleteRegion] at h
  split at h
  · cases h
    exact bufferDeleteRange_modtime b _ _
  · cases h

theorem undoRecord_modtime (h : undoRecord b r = .ok b') : b'.modtime = b.modtime := by
  cases r with
  | boundary =>
    cases h
    rfl
  | point pos =>
    cases h
    rfl
  | modtime high low =>
    cases h
    split
    · rfl
    · rfl
  | inserted beg stop =>
    rw [undoRecord] at h
    split at h
    · cases h
    · exact (deleteRegion_modtime h :)
  | deleted string pos =>
    rw [undoRecord] at h
    split at h
    · cases h
    · cases h
      split
      · exact bufferInsertString1_modtime _ none string
      · exact bufferInsertString1_modtime _ none string

theorem undoToBoundary_cases (h : undoToBoundary list b = .ok (rest, b')) :
    ((∀ r ∈ group list, ¬ Obsolete b.modtime r) ∧ undoRecords (group list) b = .ok b' ∧
        rest = afterGroup list) ∨
      ∃ newer r, list = newer ++ r :: rest ∧ (∀ x ∈ newer, x ≠ .boundary) ∧
        (∀ x ∈ newer, ¬ Obsolete b.modtime x) ∧ Obsolete b.modtime r ∧
        undoRecords newer b = .ok b' := by
  induction list generalizing b with
  | nil =>
    cases h
    exact .inl ⟨nofun, rfl, rfl⟩
  | cons r list ih =>
    by_cases hr : r = .boundary
    · subst hr
      cases h
      exact .inl ⟨nofun, rfl, rfl⟩
    by_cases hobsolete : Obsolete b.modtime r
    · rw [undoToBoundary_obsolete hobsolete] at h
      cases h
      exact .inr ⟨[], _, rfl, nofun, nofun, hobsolete, rfl⟩
    rw [undoToBoundary_cons hr hobsolete] at h
    cases hundo : undoRecord b r with
    | error e =>
      rw [hundo] at h
      cases h
    | ok b₁ =>
      rw [hundo] at h
      have hfold : ∀ rs, undoRecords (r :: rs) b = undoRecords rs b₁ := by
        intro rs
        rw [undoRecords, foldlM_cons, hundo]
        rfl
      have hmodtime := undoRecord_modtime hundo
      rcases ih h with ⟨hall, hrun, hrest⟩ | ⟨newer, r', hlist, hnone, hall, hr', hrun⟩
      · refine .inl ⟨?_, ?_, ?_⟩
        · rw [group_cons hr, forall_mem_cons]
          exact ⟨hobsolete, hmodtime ▸ hall⟩
        · rw [group_cons hr, hfold, hrun]
        · rw [afterGroup_cons hr, hrest]
      · refine .inr ⟨r :: newer, r', by rw [hlist]; rfl, ?_, ?_, hmodtime ▸ hr', ?_⟩
        · exact List.forall_mem_cons.mpr ⟨hr, hnone⟩
        · exact List.forall_mem_cons.mpr ⟨hobsolete, hmodtime ▸ hall⟩
        · rw [hfold, hrun]

theorem group_append {newer : List UndoRecord} (h : ∀ x ∈ newer, x ≠ .boundary) :
    group (newer ++ list) = newer ++ group list :=
  takeWhile_append_of_pos fun x hx => decide_eq_true (h x hx)

theorem afterGroup_append {newer : List UndoRecord} (h : ∀ x ∈ newer, x ≠ .boundary) :
    afterGroup (newer ++ list) = afterGroup list :=
  congrArg List.tail (dropWhile_append_of_pos fun x hx => decide_eq_true (h x hx))

theorem length_afterGroup_le : (afterGroup list).length ≤ list.length := by
  have hdrop := (dropWhile_sublist (· ≠ UndoRecord.boundary) (l := list)).length_le
  rw [afterGroup, length_tail]
  exact Nat.le_trans (Nat.sub_le _ 1) hdrop

theorem group_eq_nil_iff :
    group list = [] ↔ list = afterGroup list ∨ list = .boundary :: afterGroup list := by
  cases list with
  | nil => exact ⟨fun _ => .inl rfl, fun _ => rfl⟩
  | cons r list =>
    by_cases hr : r = .boundary
    · subst hr
      exact ⟨fun _ => .inr rfl, fun _ => rfl⟩
    · rw [group_cons hr, afterGroup_cons hr]
      refine ⟨nofun, fun h => ?_⟩
      rcases h with h | h
      · have hle : (afterGroup list).length ≤ list.length := length_afterGroup_le
        rw [← h, length_cons] at hle
        omega
      · exact absurd (List.cons.inj h).1 hr

theorem undoRecords_modtime {rs : List UndoRecord} (h : undoRecords rs b = .ok b') :
    b'.modtime = b.modtime := by
  induction rs generalizing b with
  | nil =>
    cases h
    rfl
  | cons r rs ih =>
    rw [undoRecords, foldlM_cons] at h
    cases hundo : undoRecord b r with
    | error e =>
      rw [hundo] at h
      cases h
    | ok b₁ =>
      rw [hundo] at h
      exact (ih h).trans (undoRecord_modtime hundo)

theorem undoRecord_obsolete (h : Obsolete b.modtime r) : undoRecord b r = .ok b := by
  cases r with
  | modtime high low => exact congrArg Except.ok (if_pos h)
  | _ => exact absurd h id

theorem undoRecords_text {rs : List UndoRecord} {t₀ : List Emchar}
    (h : undoRecords rs b = .ok b') (hreverts : Reverts t₀ rs b.text) : b'.text = t₀ := by
  induction rs generalizing b with
  | nil =>
    cases h
    exact hreverts
  | cons r rs ih =>
    rw [undoRecords, foldlM_cons] at h
    cases hundo : undoRecord b r with
    | error e =>
      rw [hundo] at h
      cases h
    | ok b₁ =>
      rw [hundo] at h
      refine ih h ?_
      cases r with
      | boundary =>
        cases hundo
        exact hreverts
      | point pos =>
        cases hundo
        exact hreverts
      | modtime high low =>
        cases hundo
        split
        · exact hreverts
        · exact hreverts
      | inserted beg stop =>
        obtain ⟨⟨hbeg, hle, hstop⟩, hreverts⟩ := hreverts
        have hz : b.z = b.text.length + 1 := rfl
        rw [undoRecord, if_neg (by omega), gotoChar, clip_of_le hbeg (by omega), deleteRegion,
          if_pos ⟨⟨hbeg, Nat.le_trans hle hstop⟩, Nat.le_trans hbeg hle, hstop⟩,
          Nat.min_eq_left hle, Nat.max_eq_right hle] at hundo
        cases hundo
        rw [bufferDeleteRange_text (b.setPt beg) hbeg hstop hle]
        exact hreverts
      | deleted string pos =>
        obtain ⟨⟨hpos, hpos'⟩, hreverts⟩ := hreverts
        have hz : b.z = b.text.length + 1 := rfl
        have htext : ((b.setPt pos.natAbs).bufferInsertString1 none string).text
            = insertAt b.text pos.natAbs string := by
          rw [bufferInsertString1_text]
          exact congrArg (insertAt b.text · string) (clip_of_le hpos hpos')
        rw [undoRecord, if_neg (by omega)] at hundo
        cases hundo
        split
        · exact htext ▸ hreverts
        · exact (htext ▸ hreverts :)

theorem undoesGroup_iff (h : undoToBoundary list b = .ok (rest, b')) :
    UndoesGroup list b ↔ ∀ r ∈ (group list).dropLast, ¬ Obsolete b.modtime r := by
  have hunit : UndoesGroup list b ↔ undoRecords (group list) b = .ok b' ∧
      (rest = afterGroup list ∨ rest = .boundary :: afterGroup list) := by
    refine ⟨fun hall => ⟨(hall rest b' h).1, (hall rest b' h).2.1⟩, fun hthis rest₁ b₁ h₁ => ?_⟩
    rw [h] at h₁
    cases h₁
    exact ⟨hthis.1, hthis.2, fun t₀ => undoRecords_text hthis.1⟩
  rw [hunit]
  rcases undoToBoundary_cases h with ⟨hall, hrun, hrest⟩ | ⟨newer, r, rfl, hnone, hall, hr, hrun⟩
  · exact ⟨fun _ x hx => hall x (dropLast_subset _ hx), fun _ => ⟨hrun, .inl hrest⟩⟩
  have hcons : r ≠ .boundary := by
    rintro rfl
    exact hr
  rw [group_append hnone, afterGroup_append hnone, group_cons hcons, afterGroup_cons hcons,
    ← group_eq_nil_iff]
  constructor
  · rintro ⟨-, hnil⟩
    rw [hnil, dropLast_concat]
    exact hall
  · intro hlast
    have hnil : group rest = [] := by
      by_contra hne
      refine hlast r ?_ hr
      rw [dropLast_append_of_ne_nil (cons_ne_nil _ _), dropLast_cons_of_ne_nil hne]
      exact mem_append_right newer (mem_cons_self ..)
    refine ⟨?_, hnil⟩
    have hobsolete : undoRecord b' r = .ok b' :=
      undoRecord_obsolete ((undoRecords_modtime hrun).symm ▸ hr)
    rw [hnil, undoRecords, foldlM_append, ← undoRecords, hrun]
    show undoRecord b' r >>= pure = .ok b'
    rw [hobsolete]
    rfl

end unit

theorem units_end {count : Nat} {list rest : List UndoRecord} {b b' : UndoBuffer}
    (h : primitiveUndo count list b = .ok (rest, b')) :
    ∀ u ∈ units count list b, u.2.modtime = b.modtime ∧
      ∃ rest' b'', undoToBoundary u.1 u.2 = .ok (rest', b'') := by
  induction count generalizing list b with
  | zero => exact nofun
  | succ count ih =>
    rw [primitiveUndo] at h
    cases hunit : undoToBoundary list b with
    | error e =>
      rw [hunit] at h
      cases h
    | ok result =>
      obtain ⟨list₁, b₁⟩ := result
      rw [hunit] at h
      have hmodtime : b₁.modtime = b.modtime := by
        rcases undoToBoundary_cases hunit with ⟨-, hrun, -⟩ | ⟨_, _, -, -, -, -, hrun⟩
        · exact undoRecords_modtime hrun
        · exact undoRecords_modtime hrun
      rw [units, hunit]
      refine List.forall_mem_cons.mpr ⟨⟨rfl, list₁, b₁, hunit⟩, fun u hu => ?_⟩
      obtain ⟨hsame, hends⟩ := ih h u hu
      exact ⟨hsame.trans hmodtime, hends⟩

/-- The letter was inserted, the file saved, the letter inserted again, and the file saved again,
all in one command. -/
def savedTwice : UndoBuffer where
  text := [letterA, letterA]
  pt := 3
  undoList := [.inserted 2 3, .modtime 0 2, .inserted 1 2, .modtime 0 1, .boundary]
  modiff := 4
  saveModiff := 4
  modtime := 3
  lastUndoBuffer := true
  lastPointPosition := some 1

/-- A list with a boundary between the two insertions. -/
def twoCommands : List UndoRecord := [.inserted 2 3, .boundary, .inserted 1 2, .modtime 0 1]

end UndoBuffer

end XEmacs.Buffer

import Mathlib.Data.List.Induction
import XEmacs.Lib.BoyerMoore
import XEmacs.Lib.Machines
import XEmacs.Search.Buffers

/-!
# The Boyer-Moore search of a buffer (search.c)

`boyer_moore` searches for the bytes of a pattern, in either direction.
-/

namespace XEmacs.TextSearch

open BoyerMoore BytePositions Buffer Machines List

/-- What a search comes to: the position returned, or how many matches are missing, as a
negative number; and the registers, if they have been set. -/
structure Found where
  value : ℤ
  regs : Option (Nat × Nat)
deriving DecidableEq

/-! ## The table -/

/-- `BM_tab` and `stride_for_teases`, while the loop over the pattern is at `i`. -/
structure BmTable where
  bmTab : Bufbyte → ℤ
  strideForTeases : ℤ
  i : ℤ

/-- The body of the loop over the pattern, for the byte `j`. -/
def BmTable.enter (direction dirlen infinity : ℤ) (s : BmTable) (j : Bufbyte) : BmTable :=
  let i := if s.i + direction = dirlen then infinity else s.i + direction
  { bmTab := Function.update s.bmTab j (dirlen - i)
    strideForTeases := if i = infinity then s.bmTab j else s.strideForTeases
    i := i }

/-- The table for a pattern, whose bytes are in the direction of the search. -/
def bmTable (direction dirlen infinity : ℤ) (pat : List Bufbyte) : BmTable :=
  pat.foldl (BmTable.enter direction dirlen infinity) ⟨fun _ => dirlen, 0, 0⟩

theorem foldl_enter {direction : ℤ} (infinity : ℤ) {len : Nat} (hdirection : direction ≠ 0)
    {l : List Bufbyte} (h : l.length < len) :
    let s := l.foldl (BmTable.enter direction (len * direction) infinity)
      ⟨fun _ => len * direction, 0, 0⟩
    (∀ x, s.bmTab x = ((len - l.length + l.reverse.findIdx (· == x) : Nat) : ℤ) * direction) ∧
      s.i = l.length * direction := by
  induction l using List.reverseRecOn with
  | nil => exact ⟨fun x => rfl, (zero_mul _).symm⟩
  | append_singleton l y ih =>
    rw [length_append, length_singleton] at h
    obtain ⟨htab, hl⟩ := ih (by omega)
    have hi : (l.length : ℤ) * direction + direction ≠ len * direction := by
      rw [← add_one_mul]
      intro heq
      have := mul_right_cancel₀ hdirection heq
      omega
    rw [foldl_append, foldl_cons, foldl_nil, BmTable.enter, hl, if_neg hi]
    refine ⟨fun x => ?_, ?_⟩
    · simp only [Function.update_apply, htab, length_append, length_singleton,
        reverse_append, reverse_singleton, singleton_append, findIdx_cons]
      by_cases hx : x = y
      · rw [if_pos hx, hx, beq_self_eq_true, cond_true, ← add_one_mul, ← sub_mul]
        congr 1
        omega
      · rw [if_neg hx, beq_eq_false_iff_ne.mpr (Ne.symm hx), cond_false]
        congr 2
        omega
    · rw [length_append, length_singleton, Nat.cast_add, Nat.cast_one, add_one_mul]

theorem bmTable_spec {direction : ℤ} (infinity : ℤ) (hdirection : direction ≠ 0) {pat : List Bufbyte}
    (hpat : pat ≠ []) :
    let s := bmTable direction (pat.length * direction) infinity pat
    (∀ x, s.bmTab x = if x = pat.getLast hpat then pat.length * direction - infinity
        else (stride pat x : ℤ) * direction) ∧
      s.strideForTeases = (stride pat (pat.getLast hpat) : ℤ) * direction := by
  have hlen : pat.dropLast.length + 1 = pat.length := by
    have := List.length_pos_iff.mpr hpat
    rw [length_dropLast]
    omega
  obtain ⟨htab, hi⟩ := foldl_enter infinity hdirection
    (show pat.dropLast.length < pat.length by omega)
  have hlast : (pat.dropLast.length : ℤ) * direction + direction = pat.length * direction := by
    rw [← add_one_mul, ← hlen, Nat.cast_add, Nat.cast_one]
  have hstride : ∀ x, ((pat.length - pat.dropLast.length
      + pat.dropLast.reverse.findIdx (· == x) : Nat) : ℤ) = stride pat x := by
    intro x
    rw [stride]
    omega
  have hfold : bmTable direction (pat.length * direction) infinity pat
      = (pat.dropLast.foldl (BmTable.enter direction (pat.length * direction) infinity)
          ⟨fun _ => pat.length * direction, 0, 0⟩).enter direction (pat.length * direction)
            infinity (pat.getLast hpat) := by
    conv_lhs => rw [bmTable, ← dropLast_append_getLast hpat]
    rw [foldl_append, dropLast_append_getLast hpat]
    rfl
  rw [hfold, BmTable.enter, hi, if_pos hlast]
  refine ⟨fun x => ?_, ?_⟩
  · simp only [Function.update_apply, htab, hstride]
  · simp only [if_true, htab, hstride]

/-! ## The search -/

/-- What does not change in a search. `pat i` is the byte `i * direction` from `base_pat`. -/
structure BmCall where
  direction : ℤ
  len : ℤ
  lim : ℤ
  pat : List Bufbyte
  infinity : ℤ
  table : BmTable

def BmCall.dirlen (call : BmCall) : ℤ := call.len * call.direction

/-- Where a search stands: before a clump, or in the loops over one, which is searched by
pointers or by positions. In these `cursor` is the pointer or the position, and `pos` the
position before the clump. -/
inductive BmState where
  | clump (pos n : ℤ) (regs : Option (Nat × Nat))
  | loops (pointers : Bool) (pos limit cursor n : ℤ) (regs : Option (Nat × Nat))

/-- The loop that compares the pattern with the text behind `cursor`, where `i` is
`(k - 1) * direction`; it ends with `i` and `cursor`. -/
def compareLoop (fetch : ℤ → Bufbyte) (direction : ℤ) (pat : List Bufbyte) :
    Nat → ℤ → ℤ × ℤ
  | 0, cursor => (-direction, cursor)
  | k + 1, cursor =>
    if pat.getD k 0 ≠ fetch (cursor - direction) then (k * direction, cursor - direction)
    else compareLoop fetch direction pat k (cursor - direction)

theorem compareLoop_spec (fetch : ℤ → Bufbyte) (direction : ℤ) (pat : List Bufbyte) (k : Nat)
    (cursor : ℤ) :
    (compareLoop fetch direction pat k cursor = (-direction, cursor - k * direction) ∧
        ∀ j < k, pat.getD j 0 = fetch (cursor - (k - j : Nat) * direction)) ∨
      ∃ j < k, compareLoop fetch direction pat k cursor
          = (j * direction, cursor - (k - j : Nat) * direction) ∧
        pat.getD j 0 ≠ fetch (cursor - (k - j : Nat) * direction) := by
  induction k generalizing cursor with
  | zero =>
    refine .inl ⟨?_, fun j hj => absurd hj (Nat.not_lt_zero j)⟩
    rw [compareLoop, Nat.cast_zero, zero_mul, sub_zero]
  | succ k ih =>
    have hback : ∀ j ≤ k, cursor - direction - (k - j : Nat) * direction
        = cursor - (k + 1 - j : Nat) * direction := by
      intro j hj
      rw [Nat.succ_sub hj, Nat.cast_succ, add_one_mul]
      omega
    rw [compareLoop]
    by_cases hk : pat.getD k 0 = fetch (cursor - direction)
    · rw [if_neg (not_not.mpr hk)]
      obtain ⟨hloop, hsame⟩ | ⟨j, hj, hloop, hdiffer⟩ := ih (cursor - direction)
      · refine .inl ⟨?_, fun j hj => ?_⟩
        · rw [hloop, Nat.cast_succ, add_one_mul]
          congr 1
          omega
        · obtain hlt | rfl := Nat.lt_succ_iff_lt_or_eq.mp hj
          · rw [hsame j hlt, hback j (Nat.le_of_lt hlt)]
          · rw [Nat.add_sub_cancel_left, Nat.cast_one, one_mul]
            exact hk
      · rw [hback j (Nat.le_of_lt hj)] at hloop hdiffer
        exact .inr ⟨j, Nat.lt_succ_of_lt hj, hloop, hdiffer⟩
    · rw [if_pos hk]
      refine .inr ⟨k, Nat.lt_succ_self k, ?_, ?_⟩
      · rw [Nat.add_sub_cancel_left, Nat.cast_one, one_mul]
      · rw [Nat.add_sub_cancel_left, Nat.cast_one, one_mul]
        exact hk

namespace SearchBuffer

/-- `bytind_to_bufpos`: the character position with this byte position. -/
def bytindToBufpos (b : SearchBuffer) (x : Nat) : Nat :=
  ((List.range' 1 (b.chars.length + 1)).find? (bytind b.chars · = x)).getD 0

/-- `BI_BUF_BYTE_ADDRESS`, as a memory index. -/
def address (b : SearchBuffer) (pos : ℤ) : ℤ := b.byteAddress pos.toNat

/-- The byte at a pointer, or at a position. -/
def fetchByte (b : SearchBuffer) (pointers : Bool) (cursor : ℤ) : Bufbyte :=
  b.beg (if pointers then cursor.toNat else b.byteAddress cursor.toNat)

/-- The position of `cursor`. -/
def positionOf (b : SearchBuffer) (pointers : Bool) (pos cursor : ℤ) : ℤ :=
  if pointers then pos + (cursor - b.address pos) else cursor

/-- The search of one clump, up to `limit`, or the way to it. -/
def bmStep (b : SearchBuffer) (call : BmCall) : BmState → Except Empty (Outcome BmState Found)
  | .clump pos n regs =>
    if n = 0 then .ok (.done ⟨b.bytindToBufpos pos.toNat, regs⟩)
    else if (call.lim - pos - if 0 < call.direction then 1 else 0) * call.direction < 0 then
      .ok (.done ⟨n * (0 - call.direction), regs⟩)
    else
      let limit := pos - call.dirlen + call.direction
      let limit :=
        if 0 < call.direction then (b.ceilingOf limit.toNat : ℤ) - 1
        else b.floorOf (limit + 1).toNat
      let limit :=
        if 0 < call.direction then min (call.lim - 1) (min limit (pos + 20000))
        else max call.lim (max limit (pos - 20000))
      if 20 < (limit - pos) * call.direction then
        .ok (.next (.loops true pos (b.address limit) (b.address pos) n regs))
      else
        -- a clump that has to be done the hard way because it covers a discontinuity
        let limit :=
          if 0 < call.direction then (b.ceilingOf (pos - call.dirlen + 1).toNat : ℤ) - 1
          else b.floorOf (pos - call.dirlen).toNat
        let limit :=
          if 0 < call.direction then min (limit + call.len) (call.lim - 1)
          else max (limit - call.len) call.lim
        .ok (.next (.loops false pos limit pos n regs))
  | .loops pointers pos limit cursor n regs =>
    let fetch := b.fetchByte pointers
    if 0 ≤ (limit - cursor) * call.direction then
      let cursor := cursor + call.table.bmTab (fetch cursor)
      .ok (.next (.loops pointers pos limit cursor n regs))
    else if (cursor - limit) * call.direction ≤ call.len then
      -- a small overrun is genuine
      let pos := b.positionOf pointers pos cursor
      if (call.lim - pos) * call.direction < 0 then .ok (.done ⟨(0 - n) * call.direction, regs⟩)
      else .ok (.next (.clump pos n regs))
    else
      -- a large overrun is a hit
      let cursor := cursor - call.infinity
      let (i, back) :=
        compareLoop fetch call.direction call.pat (call.len - 1).toNat cursor
      let cursor := back + (call.dirlen - i - call.direction)
      if i + call.direction = 0 then
        let cursor := cursor - call.direction
        let bytstart := b.positionOf pointers pos cursor +
          if 0 < call.direction then 1 - call.len else 0
        let bufstart := b.bytindToBufpos bytstart.toNat
        let bufend := b.bytindToBufpos (bytstart + call.len).toNat
        let n := n - call.direction
        if n ≠ 0 then
          .ok (.next (.loops pointers pos limit (cursor + call.dirlen) n
            (some (bufstart, bufend))))
        else
          .ok (.done ⟨if 0 < call.direction then bufend else bufstart, some (bufstart, bufend)⟩)
      else
        .ok (.next (.loops pointers pos limit (cursor + call.table.strideForTeases) n regs))

/-- What `boyer_moore` sets up for a search for the bytes `basePat`. -/
def bmCall (basePat : List Bufbyte) (pos lim : Nat) (n : ℤ) : BmCall :=
  let direction : ℤ := if 0 < n then 1 else -1
  let len : ℤ := basePat.length
  let dirlen := len * direction
  let infinity := dirlen - (lim + pos + len + len) * direction
  let pat := if direction < 0 then basePat.reverse else basePat
  { direction := direction
    len := len
    lim := lim
    pat := pat
    infinity := dirlen - infinity
    table := bmTable direction dirlen infinity pat }

/-- `boyer_moore` without translation, between byte positions, returns this. -/
def BoyerMoore (b : SearchBuffer) (basePat : List Bufbyte) (pos lim : Nat) (n : ℤ) :
    Found → Prop :=
  let call := bmCall basePat pos lim n
  Ends (b.bmStep call)
    (.clump (pos + (call.dirlen - if 0 < call.direction then call.direction else 0)) n none)

end SearchBuffer

end XEmacs.TextSearch

import XEmacs.Buffer.Text
import Mathlib.Data.Int.Notation
import Mathlib.Data.List.GetD

/-!
# Streams with buffers (lstream.c, lstream.h)

An Lstream stands between the program and a device that takes or gives as many bytes as it likes
at a time, or fails. In character mode it passes on whole characters.
-/

namespace XEmacs.Lstreams

open List

open Buffer (Bufbyte repBytesByFirstByte bufbyteFirstByteP Emchar textBytes)

/-- `Lstream_buffering`. -/
inductive Buffering
  | unbuffered
  | lineBuffered
  | blockBuffered
  | blocknBuffered
  | unlimited
deriving DecidableEq

/-- How a function fails. -/
inductive Fault
  | signal (reason : String)
  /-- It reads what is in memory before the data. -/
  | beforeData

/-- `Lstream_internal_error`. -/
def internalError {α : Type} (reason : String) : Except Fault α :=
  .error (.signal ("Internal error: " ++ reason))

/-- The reader of a stream. The answer to each call, with the number of bytes that are asked for,
is how many it gives at most; it is negative for an error. -/
structure Reader where
  source : List Bufbyte
  answers : ℕ → ℕ → ℤ
  calls : ℕ

/-- A call of the reader. -/
def Reader.read (r : Reader) (size : ℕ) : Option (List Bufbyte) × Reader :=
  let answer := r.answers r.calls size
  let r := { r with calls := r.calls + 1 }
  if answer < 0 then (none, r)
  else
    (some (r.source.take (min answer.toNat size)),
      { r with source := r.source.drop (min answer.toNat size) })

/-- The writer of a stream. The answer to each call, with the bytes that are passed to it, is how
many of them it takes; it is negative for an error. -/
structure Writer where
  answers : ℕ → List Bufbyte → ℤ
  calls : ℕ
  /-- What it has taken. -/
  handed : List Bufbyte
  /-- What has been passed to it, each with what was kept back. -/
  passed : List (List Bufbyte × List Bufbyte)

/-- A call of the writer. -/
def Writer.write (w : Writer) (data back : List Bufbyte) : ℤ × Writer :=
  let answer := min (w.answers w.calls data) data.length
  (answer, { w with
    calls := w.calls + 1
    handed := w.handed ++ data.take answer.toNat
    passed := w.passed ++ [(data, back)] })

/-- The flusher of a stream, with the answer to each call. -/
structure Flusher where
  answers : ℕ → ℤ
  calls : ℕ

/-- `Lstream`. A buffer is the bytes in it, with its allocated size. -/
structure Lstream where
  reader : Option Reader
  writer : Option Writer
  flusher : Option Flusher
  buffering : Buffering
  bufferingSize : ℕ
  inBuffer : List Bufbyte
  inBufferSize : ℕ
  inBufferInd : ℕ
  outBuffer : List Bufbyte
  outBufferSize : ℕ
  ungetBuffer : List Bufbyte
  ungetBufferSize : ℕ
  byteCount : ℤ
  /-- `LSTREAM_FL_IS_OPEN`. -/
  isOpen : Bool
  /-- `LSTREAM_FL_READ`. -/
  flagRead : Bool
  /-- `LSTREAM_FL_WRITE`. -/
  flagWrite : Bool
  /-- `LSTREAM_FL_NO_PARTIAL_CHARS`. -/
  noPartialChars : Bool

def defaultBlockBufferingSize : ℕ := 512

def intMax : ℕ := 0x7FFFFFFF

/-- `Lstream_set_buffering`. -/
def setBuffering (lstr : Lstream) (buffering : Buffering) (bufferingSize : ℕ) : Lstream :=
  { lstr with
    buffering := buffering
    bufferingSize := match buffering with
      | .unbuffered => 0
      | .blockBuffered => defaultBlockBufferingSize
      | .blocknBuffered => bufferingSize
      | .lineBuffered | .unlimited => intMax }

/-- `Lstream_new`; the mode is `"r"` or `"w"`, with a `c` for character mode. -/
def lstreamNew (reader : Option Reader) (writer : Option Writer) (flusher : Option Flusher)
    (read noPartialChars : Bool) : Lstream :=
  setBuffering
    { reader := reader, writer := writer, flusher := flusher,
      buffering := .blockBuffered, bufferingSize := 0,
      inBuffer := [], inBufferSize := 0, inBufferInd := 0, outBuffer := [], outBufferSize := 0,
      ungetBuffer := [], ungetBufferSize := 0, byteCount := 0, isOpen := true,
      flagRead := read, flagWrite := !read, noPartialChars := noPartialChars }
    .blockBuffered 0

/-- The loop of `DO_REALLOC`. -/
def double (size needed : ℕ) : ℕ :=
  if 0 < size ∧ size < needed then double (2 * size) needed else size
termination_by needed - size

/-- The size that `DO_REALLOC` makes. -/
def doRealloc (size needed : ℕ) : ℕ :=
  if size < needed then double (max size 32) needed else size

theorem le_double {size : ℕ} (hsize : 0 < size) (needed : ℕ) : needed ≤ double size needed := by
  fun_induction double size needed with
  | case1 size _ ih => exact ih (by omega)
  | case2 size h => omega

theorem le_doRealloc (size needed : ℕ) : needed ≤ doRealloc size needed := by
  rw [doRealloc]
  split
  · exact le_double (by omega) needed
  · omega

/-! ### Whole characters -/

def byteAsciiP (byte : Bufbyte) : Bool := byte < 0x80

/-- `VALIDATE_CHARPTR_BACKWARD`, from a place in the data. -/
def validateCharptrBackward (data : List Bufbyte) : ℕ → Except Fault ℕ
  | 0 => if bufbyteFirstByteP (data.getD 0 0) then .ok 0 else .error .beforeData
  | ptr + 1 =>
    if bufbyteFirstByteP (data.getD (ptr + 1) 0) then .ok (ptr + 1)
    else validateCharptrBackward data ptr

/-- The size of the data without an incomplete character at the end. -/
def chopped (data : List Bufbyte) : Except Fault ℕ :=
  if byteAsciiP (data.getD (data.length - 1) 0) then .ok data.length
  else do
    let dataend ← validateCharptrBackward data (data.length - 1)
    if dataend + repBytesByFirstByte (data.getD dataend 0) ≠ data.length then return dataend
    else return data.length

/-- The data ends with a whole character. -/
def EndsWhole (data : List Bufbyte) : Prop := ∃ (front : List Bufbyte) (c : Emchar),
  data = front ++ c.bytes

/-- The data does not begin in the middle of a character. -/
def StartsChar (data : List Bufbyte) : Prop := ∀ b ∈ data.head?, bufbyteFirstByteP b = true

/-- The place between two parts of a text is no place in a character. -/
def Boundary (front back : List Bufbyte) : Prop :=
  front = [] ∨ EndsWhole front ∨ back ≠ [] ∧ StartsChar back

theorem exists_first (data : List Bufbyte) : (∀ b ∈ data, bufbyteFirstByteP b = false) ∨
    ∃ front f rest, data = front ++ f :: rest ∧ bufbyteFirstByteP f = true ∧
      ∀ b ∈ rest, bufbyteFirstByteP b = false := by
  induction data with
  | nil => exact .inl nofun
  | cons b data ih =>
    obtain hnone | ⟨front, f, rest, rfl, hf, hrest⟩ := ih
    · cases hb : bufbyteFirstByteP b with
      | false => exact .inl (List.forall_mem_cons.mpr ⟨hb, hnone⟩)
      | true => exact .inr ⟨[], b, data, rfl, hb, hnone⟩
    · exact .inr ⟨b :: front, f, rest, rfl, hf, hrest⟩

theorem validateCharptrBackward_of_first {data : List Bufbyte} {ptr : ℕ}
    (h : bufbyteFirstByteP (data.getD ptr 0) = true) :
    validateCharptrBackward data ptr = .ok ptr := by
  cases ptr <;> exact if_pos h

theorem validateCharptrBackward_eq {front rest : List Bufbyte} {f : Bufbyte}
    (hf : bufbyteFirstByteP f = true) (hrest : ∀ b ∈ rest, bufbyteFirstByteP b = false) {i : ℕ}
    (hi : i ≤ rest.length) :
    validateCharptrBackward (front ++ f :: rest) (front.length + i) = .ok front.length := by
  induction i with
  | zero =>
    refine validateCharptrBackward_of_first ?_
    rwa [Nat.add_zero, getD_append_right _ _ _ _ (Nat.le_refl _), Nat.sub_self]
  | succ i ih =>
    have hget : (front ++ f :: rest).getD (front.length + i + 1) 0 = rest[i] := by
      rw [getD_append_right _ _ _ _ (by omega), Nat.add_assoc, Nat.add_sub_cancel_left,
        getD_cons_succ, getD_eq_getElem]
    have hnot : ¬ bufbyteFirstByteP ((front ++ f :: rest).getD (front.length + i + 1) 0) = true := by
      rw [hget, hrest _ (getElem_mem _)]
      exact Bool.false_ne_true
    exact (if_neg hnot).trans (ih (Nat.le_of_succ_le hi))

theorem chopped_eq {front rest : List Bufbyte} {f : Bufbyte} (hf : bufbyteFirstByteP f = true)
    (hrest : ∀ b ∈ rest, bufbyteFirstByteP b = false) :
    chopped (front ++ f :: rest) =
      .ok (if rest.length + 1 = repBytesByFirstByte f then (front ++ f :: rest).length
        else front.length) := by
  have hlength : (front ++ f :: rest).length - 1 = front.length + rest.length := by
    rw [length_append, length_cons]
    omega
  have hfirst : (front ++ f :: rest).getD front.length 0 = f := by
    rw [getD_append_right _ _ _ _ (Nat.le_refl _), Nat.sub_self, getD_cons_zero]
  rw [chopped, hlength]
  split
  · -- The last byte is ASCII, so it is the character.
    rename_i hascii
    have hnil : rest = [] := by
      rcases eq_nil_or_concat rest with rfl | ⟨rest, b, rfl⟩
      · rfl
      · have hb := hrest b (by simp)
        rw [getD_append_right _ _ _ _ (by omega), Nat.add_sub_cancel_left, length_concat,
          getD_cons_succ, concat_eq_append,
          getD_append_right _ _ _ _ (Nat.le_refl _), Nat.sub_self,
          getD_cons_zero] at hascii
        simp only [byteAsciiP, bufbyteFirstByteP, decide_eq_true_eq, decide_eq_false_iff_not,
          UInt8.lt_iff_toNat_lt] at hascii hb
        have h1 : (0x80 : UInt8).toNat = 128 := rfl
        have h2 : (0xA0 : UInt8).toNat = 160 := rfl
        omega
    subst hnil
    rw [length_nil, Nat.add_zero, hfirst] at hascii
    have hrep : repBytesByFirstByte f = 1 := if_pos (of_decide_eq_true hascii)
    exact congrArg Except.ok (if_pos hrep.symm).symm
  · rw [validateCharptrBackward_eq hf hrest (Nat.le_refl _)]
    simp only [bind, Except.bind, hfirst, length_append, length_cons]
    split <;> split <;> first | rfl | omega

theorem chopped_spec {data : List Bufbyte} (h : ∃ b ∈ data, bufbyteFirstByteP b = true) :
    ∃ size, chopped data = .ok size ∧ size ≤ data.length ∧
      (size = data.length ∧ EndsWhole data ∨
        size < data.length ∧ StartsChar (data.drop size)) := by
  obtain hnone | ⟨front, f, rest, rfl, hf, hrest⟩ := exists_first data
  · obtain ⟨b, hb, hfirst⟩ := h
    rw [hnone b hb] at hfirst
    cases hfirst
  · refine ⟨_, chopped_eq hf hrest, ?_⟩
    split
    · exact ⟨Nat.le_refl _, .inl ⟨rfl, front, ⟨f, rest, hf, hrest, ‹_›⟩, rfl⟩⟩
    · rw [length_append, length_cons, drop_left]
      refine ⟨Nat.le_add_right _ _, .inr ⟨by omega, fun b hb => ?_⟩⟩
      cases hb
      exact hf

/-- The data ends with some of the bytes of a character. -/
def Incomplete (data : List Bufbyte) : Prop := ∃ front f rest, data = front ++ f :: rest ∧
  bufbyteFirstByteP f = true ∧ (∀ b ∈ rest, bufbyteFirstByteP b = false) ∧
    rest.length + 1 < repBytesByFirstByte f

/-- The data has no bytes of characters without those before them. -/
def NoStray (data : List Bufbyte) : Prop :=
  ∀ front b back, data = front ++ b :: back → bufbyteFirstByteP b = false → Incomplete front

theorem StartsChar.exists_first {data : List Bufbyte} (h : StartsChar data) (hne : data ≠ []) :
    ∃ b ∈ data, bufbyteFirstByteP b = true := by
  obtain ⟨b, data, rfl⟩ := exists_cons_of_ne_nil hne
  exact ⟨b, mem_cons_self .., h b rfl⟩

/-! ### Text -/

variable {front back front' back' data rest : List Bufbyte} {f f' : Bufbyte}

theorem last_first_unique (h : front ++ f :: back = front' ++ f' :: back')
    (hf : bufbyteFirstByteP f = true) (hf' : bufbyteFirstByteP f' = true)
    (hback : ∀ b ∈ back, bufbyteFirstByteP b = false)
    (hback' : ∀ b ∈ back', bufbyteFirstByteP b = false) : f = f' ∧ back = back' := by
  have hnot {b : Bufbyte} {l : List Bufbyte} (hb : bufbyteFirstByteP b = true)
      (hl : ∀ b ∈ l, bufbyteFirstByteP b = false) : b ∉ l := fun hmem => by
    rw [hl b hmem] at hb
    cases hb
  obtain ⟨l, rfl, hl⟩ | ⟨l, rfl, hl⟩ := List.append_eq_append_iff.mp h
  · cases l with
    | nil => exact List.cons.inj hl
    | cons b l =>
      obtain ⟨-, rfl⟩ := List.cons.inj hl
      exact absurd (by simp) (hnot hf' hback)
  · cases l with
    | nil =>
      obtain ⟨rfl, rfl⟩ := List.cons.inj hl
      exact ⟨rfl, rfl⟩
    | cons b l =>
      obtain ⟨-, rfl⟩ := List.cons.inj hl
      exact absurd (by simp) (hnot hf hback')

theorem EndsWhole.not_incomplete (h : EndsWhole data) : ¬ Incomplete data := by
  obtain ⟨front, c, rfl⟩ := h
  rintro ⟨front', f, rest, heq, hf, hrest, hlt⟩
  obtain ⟨rfl, rfl⟩ := last_first_unique heq c.first_firstByteP hf c.rest_firstByteP hrest
  exact Nat.lt_irrefl _ (c.length_rest ▸ hlt)

theorem Incomplete.of_append (h : Incomplete (front ++ data)) (hboundary : Boundary front data) :
    Incomplete data := by
  obtain ⟨front', f, rest, heq, hf, hrest, hlt⟩ := h
  obtain ⟨l, rfl, hl⟩ | ⟨l, rfl, hl⟩ := List.append_eq_append_iff.mp heq
  · exact ⟨l, f, rest, hl, hf, hrest, hlt⟩
  · cases l with
    | nil => exact ⟨[], f, rest, hl.symm, hf, hrest, hlt⟩
    | cons b l =>
      -- The character begins in the front, and all of the data is in it.
      obtain ⟨rfl, rfl⟩ : f = b ∧ rest = l ++ data := List.cons.inj hl
      obtain hnil | hwhole | ⟨hne, hstarts⟩ := hboundary
      · exact absurd hnil (by simp)
      · rw [length_append] at hlt
        exact absurd ⟨front', f, l, rfl, hf, fun b hb => hrest b (mem_append_left _ hb),
          by omega⟩ hwhole.not_incomplete
      · obtain ⟨b, data, rfl⟩ := exists_cons_of_ne_nil hne
        have hb := hrest b (by simp)
        rw [hstarts b rfl] at hb
        cases hb

theorem Incomplete.append_left (h : Incomplete data) (front : List Bufbyte) :
    Incomplete (front ++ data) := by
  obtain ⟨front', f, rest, rfl, hf, hrest, hlt⟩ := h
  exact ⟨front ++ front', f, rest, (append_assoc ..).symm, hf, hrest, hlt⟩

theorem not_incomplete_nil : ¬ Incomplete [] := by
  rintro ⟨front, f, rest, heq, -⟩
  exact absurd heq (by simp)

theorem NoStray.startsChar (h : NoStray data) : StartsChar data := by
  cases data with
  | nil => exact nofun
  | cons b data =>
    rintro b ⟨⟩
    by_contra hnot
    exact not_incomplete_nil (h [] b data rfl (Bool.not_eq_true _ ▸ hnot))

theorem NoStray.of_boundary (h : NoStray (front ++ back)) (hboundary : Boundary front back) :
    NoStray back := by
  intro front' b back' heq hb
  have hincomplete : Incomplete (front ++ front') :=
    h (front ++ front') b back' (by rw [heq, append_assoc]) hb
  refine hincomplete.of_append (hboundary.imp_right (Or.imp_right fun ⟨_, hstarts⟩ => ?_))
  cases front' with
  | nil =>
    rw [heq] at hstarts
    rw [hstarts b rfl] at hb
    cases hb
  | cons b' front' =>
    rw [heq] at hstarts
    exact ⟨cons_ne_nil _ _, hstarts⟩

theorem NoStray.text_append (h : NoStray data) (text : List Emchar) :
    NoStray (textBytes text ++ data) := by
  induction text with
  | nil => exact h
  | cons c text ih =>
    intro front b back heq hb
    rw [textBytes, flatMap_cons, append_assoc] at heq
    obtain ⟨l, rfl, hl⟩ | ⟨l, hl, hl'⟩ := List.append_eq_append_iff.mp heq
    · exact (ih l b back hl hb).append_left _
    · cases l with
      | nil => exact absurd (ih [] b back hl'.symm hb) not_incomplete_nil
      | cons b' l =>
        -- The byte is one of this character.
        obtain ⟨rfl, -⟩ := List.cons.inj hl'
        cases front with
        | nil =>
          rw [Emchar.bytes] at hl
          obtain ⟨rfl, -⟩ := List.cons.inj hl
          rw [c.first_firstByteP] at hb
          cases hb
        | cons f front =>
          obtain ⟨rfl, hrest⟩ : c.first = f ∧ c.rest = front ++ b :: l := List.cons.inj hl
          refine ⟨[], c.first, front, rfl, c.first_firstByteP, fun b hb => ?_, ?_⟩
          · exact c.rest_firstByteP b (hrest ▸ mem_append_left _ hb)
          · have hlength := c.length_rest
            rw [hrest, length_append, length_cons] at hlength
            omega

theorem noStray_nil : NoStray [] := fun _ _ _ heq => absurd heq.symm (by simp)

end XEmacs.Lstreams

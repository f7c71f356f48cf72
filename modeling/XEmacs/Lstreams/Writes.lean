import XEmacs.Lstreams.Stream
import XEmacs.Lib.Fallible
import XEmacs.Lib.Runs

/-!
# Writing to streams (lstream.c)

What is written goes to the out buffer and from there to the writer. Together with what the
writer has taken the buffer is all that has been accepted (`total`).
-/

namespace XEmacs.Lstreams

open Buffer (Bufbyte bufbyteFirstByteP textBytes)
open Fallible Runs List

/-! ### The functions -/

/-- A call of the flusher, if there is one. -/
def flusherCall (lstr : Lstream) : ℤ × Lstream :=
  match lstr.flusher with
  | none => (0, lstr)
  | some f => (f.answers f.calls, { lstr with flusher := some { f with calls := f.calls + 1 } })

/-- How much of the out buffer can be passed to the writer. -/
def passable (lstr : Lstream) : Except Fault ℕ :=
  if lstr.noPartialChars then chopped lstr.outBuffer else .ok lstr.outBuffer.length

/-- The writer is passed some of the out buffer, and what it takes is removed. -/
def passOn (lstr : Lstream) (w : Writer) (size : ℕ) : ℤ × Lstream :=
  let r := w.write (lstr.outBuffer.take size) (lstr.outBuffer.drop size)
  (r.1, { lstr with
    writer := some r.2
    outBuffer := if r.1 ≥ lstr.outBuffer.length then [] else lstr.outBuffer.drop r.1.toNat })

theorem passOn_length {lstr : Lstream} {w : Writer} {size : ℕ} (hne : lstr.outBuffer ≠ [])
    (h : 0 < (passOn lstr w size).1) :
    (passOn lstr w size).2.outBuffer.length < lstr.outBuffer.length := by
  have hpos := length_pos_of_ne_nil hne
  rw [passOn] at h ⊢
  dsimp only at h ⊢
  split
  · exact hpos
  · rw [length_drop]
    omega

/-- `Lstream_flush_out`. -/
def flushOut (lstr : Lstream) : Except Fault (ℤ × Lstream) :=
  if lstr.outBuffer = [] then .ok (flusherCall lstr)
  else if !lstr.isOpen then internalError "lstream not open"
  else if !lstr.flagWrite then internalError "lstream not open for writing"
  else match lstr.writer with
    | none => internalError "lstream has no writer"
    | some w =>
      match passable lstr with
      | .error e => .error e
      | .ok size =>
        if size = 0 then .ok (flusherCall lstr)
        else
          let r := passOn lstr w size
          if r.1 = 0 then .ok (0, r.2)
          else if 0 < r.1 then flushOut r.2
          else .ok (-1, r.2)
termination_by lstr.outBuffer.length
decreasing_by
  exact passOn_length ‹_› ‹_›

def lstreamAdding (lstr : Lstream) (num : ℕ) (force : Bool) : ℕ × Lstream :=
  let size := num + lstr.outBuffer.length
  if size ≤ lstr.outBufferSize then (num, lstr)
  else if size > lstr.bufferingSize ∧ force = false then
    if lstr.bufferingSize ≤ lstr.outBuffer.length then (0, lstr)
    else (lstr.bufferingSize - lstr.outBuffer.length,
      { lstr with outBufferSize := doRealloc lstr.outBufferSize lstr.bufferingSize })
  else (size - lstr.outBuffer.length,
    { lstr with outBufferSize := doRealloc lstr.outBufferSize size })

/-- The part of `Lstream_write_1` that finds out how much can be added, with
`couldnt_write_last_time`. -/
def chunkToAdd (couldntWriteLastTime : Bool) (size : ℕ) (lstr : Lstream) : ℕ × Bool × Lstream :=
  let (chunk, lstr) := lstreamAdding lstr size false
  if chunk = 0 then
    if couldntWriteLastTime then
      let (chunk, lstr) := lstreamAdding lstr size true
      (chunk, couldntWriteLastTime, lstr)
    else (chunk, true, lstr)
  else (chunk, couldntWriteLastTime, lstr)

theorem lstreamAdding_spec (lstr : Lstream) (num : ℕ) (force : Bool) : ∃ chunk size,
    lstreamAdding lstr num force = (chunk, { lstr with outBufferSize := size }) ∧ chunk ≤ num ∧
      (lstr.outBuffer.length ≤ lstr.outBufferSize → lstr.outBuffer.length + chunk ≤ size) ∧
        (force = true → chunk = num) := by
  rw [lstreamAdding]
  split
  · exact ⟨_, _, rfl, Nat.le_refl _, fun _ => by omega, fun _ => rfl⟩
  · split
    · rename_i hforce
      have hnot : force = true → False := by rw [hforce.2]; exact Bool.false_ne_true
      split
      · exact ⟨_, _, rfl, Nat.zero_le _, id, fun h => (hnot h).elim⟩
      · have hroom := le_doRealloc lstr.outBufferSize lstr.bufferingSize
        exact ⟨_, _, rfl, by omega, fun _ => by omega, fun h => (hnot h).elim⟩
    · have hroom := le_doRealloc lstr.outBufferSize (num + lstr.outBuffer.length)
      exact ⟨_, _, rfl, by omega, fun _ => by omega, fun _ => by omega⟩

theorem chunkToAdd_spec (couldntWriteLastTime : Bool) (num : ℕ) (lstr : Lstream) :
    ∃ chunk couldntWrite size, chunkToAdd couldntWriteLastTime num lstr =
        (chunk, couldntWrite, { lstr with outBufferSize := size }) ∧ chunk ≤ num ∧
      (lstr.outBuffer.length ≤ lstr.outBufferSize → lstr.outBuffer.length + chunk ≤ size) ∧
        (chunk = 0 → num = 0 ∨ couldntWriteLastTime = false ∧ couldntWrite = true) := by
  obtain ⟨chunk, size, hadding, hle, hroom, -⟩ := lstreamAdding_spec lstr num false
  rw [chunkToAdd, hadding]
  dsimp only
  split
  · split
    · obtain ⟨chunk, size', hadding, hle, hroom', hforce⟩ :=
        lstreamAdding_spec { lstr with outBufferSize := size } num true
      rw [hadding]
      refine ⟨_, _, _, rfl, hle, fun hsize => hroom' ?_, fun hzero => .inl ?_⟩
      · exact Nat.le_trans (Nat.le_add_right _ _) (hroom hsize)
      · exact (hforce rfl).symm.trans hzero
    · rename_i hcould
      exact ⟨_, _, _, rfl, hle, hroom, fun _ => .inr ⟨Bool.eq_false_iff.mpr hcould, rfl⟩⟩
  · rename_i hne
    exact ⟨_, _, _, rfl, hle, hroom, fun hzero => absurd hzero hne⟩

theorem chunkToAdd_lt {couldntWriteLastTime : Bool} {num : ℕ} {lstr : Lstream}
    (h : num - (chunkToAdd couldntWriteLastTime num lstr).1 ≠ 0) :
    2 * (num - (chunkToAdd couldntWriteLastTime num lstr).1) +
        (if (chunkToAdd couldntWriteLastTime num lstr).2.1 then 0 else 1) <
      2 * num + if couldntWriteLastTime then 0 else 1 := by
  obtain ⟨chunk, couldntWrite, size, heq, -, -, hzero⟩ :=
    chunkToAdd_spec couldntWriteLastTime num lstr
  rw [heq] at h ⊢
  dsimp only at h ⊢
  obtain rfl | hpos := Nat.eq_zero_or_pos chunk
  · obtain rfl | ⟨rfl, rfl⟩ := hzero rfl
    · exact absurd rfl h
    · simp
  · split <;> split <;> omega

/-- Bytes are added to the out buffer. -/
def store (lstr : Lstream) (data : List Bufbyte) : Lstream :=
  { lstr with
    outBuffer := lstr.outBuffer ++ data
    byteCount := lstr.byteCount + data.length }

/-- The loop of `Lstream_write_1`. -/
def writeLoop (couldntWriteLastTime : Bool) (off : ℕ) (data : List Bufbyte) (lstr : Lstream) :
    Except Fault (ℤ × Lstream) :=
  let r := chunkToAdd couldntWriteLastTime data.length lstr
  let lstr₁ := store r.2.2 (data.take r.1)
  if data.length - r.1 = 0 then .ok ((off + r.1 : ℕ), lstr₁)
  else match flushOut lstr₁ with
    | .error e => .error e
    | .ok (rc, lstr₂) =>
      if rc < 0 then .ok (if off + r.1 = 0 then -1 else (off + r.1 : ℕ), lstr₂)
      else writeLoop r.2.1 (off + r.1) (data.drop r.1) lstr₂
termination_by 2 * data.length + if couldntWriteLastTime then 0 else 1
decreasing_by
  rw [length_drop]
  exact chunkToAdd_lt ‹_›

def lstreamWrite1 (lstr : Lstream) (data : List Bufbyte) : Except Fault (ℤ × Lstream) :=
  if !lstr.isOpen then internalError "lstream not open"
  else if !lstr.flagWrite then internalError "lstream not open for writing"
  else writeLoop false 0 data lstr

def newline : Bufbyte := 0x0A

def lstreamFputc (lstr : Lstream) (c : Bufbyte) : Except Fault (ℤ × Lstream) := do
  let (retval, lstr) ← lstreamWrite1 lstr [c]
  if retval ≥ 0 ∧ lstr.buffering = .lineBuffered ∧ c = newline then flushOut lstr
  else return (if retval < 0 then -1 else 0, lstr)

def lstreamPutc (lstr : Lstream) (c : Bufbyte) : Except Fault (ℤ × Lstream) :=
  if lstr.outBuffer.length ≥ lstr.outBufferSize then lstreamFputc lstr c
  else if lstr.buffering = .lineBuffered ∧ c = newline then flushOut (store lstr [c])
  else .ok (0, store lstr [c])

/-- The loop of `Lstream_write`. -/
def putLoop (i : ℕ) (lstr : Lstream) : List Bufbyte → Except Fault (ℕ × Lstream)
  | [] => .ok (i, lstr)
  | c :: data =>
    match lstreamPutc lstr c with
    | .error e => .error e
    | .ok (rc, lstr) => if rc < 0 then .ok (i, lstr) else putLoop (i + 1) lstr data

def lstreamWrite (lstr : Lstream) (data : List Bufbyte) : Except Fault (ℤ × Lstream) :=
  if data = [] then .ok (0, lstr)
  else if lstr.buffering ≠ .lineBuffered then lstreamWrite1 lstr data
  else do
    let (i, lstr) ← putLoop 0 lstr data
    return (if i = 0 then -1 else i, lstr)

/-! ### What has been accepted -/

/-- What the writer has taken. -/
def handed (lstr : Lstream) : List Bufbyte := (lstr.writer.map (·.handed)).getD []

/-- What has been passed to the writer, each with what was kept back. -/
def passed (lstr : Lstream) : List (List Bufbyte × List Bufbyte) :=
  (lstr.writer.map (·.passed)).getD []

/-- All that has been accepted. -/
def total (lstr : Lstream) : List Bufbyte := handed lstr ++ lstr.outBuffer

/-- The answers of the writer. -/
def writerAnswers (lstr : Lstream) : Option (ℕ → List Bufbyte → ℤ) := lstr.writer.map (·.answers)

/-- The answers of the flusher. -/
def flusherAnswers (lstr : Lstream) : Option (ℕ → ℤ) := lstr.flusher.map (·.answers)

/-- A stream that is open for writing, with what is in the out buffer inside it. -/
structure Writable (lstr : Lstream) : Prop where
  isOpen : lstr.isOpen = true
  flagWrite : lstr.flagWrite = true
  writer : ∃ w, lstr.writer = some w
  out_le : lstr.outBuffer.length ≤ lstr.outBufferSize

/-- A stream in character mode. The writer has been passed whole characters, and is to be passed
such that begin in the buffer. -/
structure InChars (lstr : Lstream) : Prop where
  passed : ∀ p ∈ passed lstr, Boundary p.1 p.2
  start : lstr.outBuffer = [] ∧ (total lstr = [] ∨ EndsWhole (total lstr)) ∨
    ∃ b ∈ lstr.outBuffer, bufbyteFirstByteP b = true

/-- A stream after more data has been accepted. -/
structure Accepted (lstr : Lstream) (data : List Bufbyte) (lstr' : Lstream) : Prop where
  writable : Writable lstr'
  total : total lstr' = total lstr ++ data
  byteCount : lstr'.byteCount = lstr.byteCount + data.length
  chars : lstr'.noPartialChars = lstr.noPartialChars
  buffering : lstr'.buffering = lstr.buffering
  writerAnswers : writerAnswers lstr' = writerAnswers lstr
  flusherAnswers : flusherAnswers lstr' = flusherAnswers lstr
  inChars : lstr.noPartialChars = true → InChars lstr'

/-- The writer and the flusher do not fail. -/
def Patient (lstr : Lstream) : Prop :=
  (∀ f ∈ writerAnswers lstr, ∀ call data, 0 ≤ f call data) ∧
    ∀ f ∈ flusherAnswers lstr, ∀ call, 0 ≤ f call

/-- The writer does not stop inside the last character of what it is passed. -/
def KeepsChars (lstr : Lstream) : Prop :=
  ∀ f ∈ writerAnswers lstr, ∀ call data, 0 < f call data → f call data < data.length →
    ∃ b ∈ data.drop (f call data).toNat, bufbyteFirstByteP b = true

variable {lstr lstr₁ lstr₂ : Lstream} {data : List Bufbyte} {w : Writer}

theorem flusherCall_accepted (h : Accepted lstr data lstr₁) :
    Accepted lstr data (flusherCall lstr₁).2 ∧ ((flusherCall lstr₁).1 < 0 → ¬ Patient lstr) := by
  have hanswers := h.flusherAnswers
  rw [flusherCall]
  cases hflusher : lstr₁.flusher with
  | none => exact ⟨h, fun hneg => absurd hneg (Int.lt_irrefl 0)⟩
  | some f =>
    rw [Lstreams.flusherAnswers, hflusher] at hanswers
    dsimp only
    refine ⟨⟨?_, h.total, h.byteCount, h.chars, h.buffering, h.writerAnswers, hanswers, ?_⟩,
      fun hneg hpatient => ?_⟩
    · exact ⟨h.writable.isOpen, h.writable.flagWrite, h.writable.writer, h.writable.out_le⟩
    · exact fun hchars => ⟨(h.inChars hchars).passed, (h.inChars hchars).start⟩
    · exact absurd (hpatient.2 f.answers hanswers.symm f.calls) (Int.not_le.mpr hneg)

theorem passOn_le {size : ℕ} (hsize : size ≤ lstr.outBuffer.length) :
    (passOn lstr w size).1 ≤ size := by
  have hle : (passOn lstr w size).1 ≤ (lstr.outBuffer.take size).length := Int.min_le_right _ _
  rwa [length_take_of_le hsize] at hle

theorem passOn_outBuffer (lstr : Lstream) (w : Writer) (size : ℕ) :
    (passOn lstr w size).2.outBuffer = lstr.outBuffer.drop (passOn lstr w size).1.toNat := by
  by_cases hall : (passOn lstr w size).1 ≥ lstr.outBuffer.length
  · rw [drop_eq_nil_of_le (by omega)]
    exact if_pos hall
  · exact if_neg hall

theorem passOn_total (hw : lstr.writer = some w) {size : ℕ} (hsize : size ≤ lstr.outBuffer.length) :
    total (passOn lstr w size).2 = total lstr := by
  have htake : (lstr.outBuffer.take size).take (passOn lstr w size).1.toNat =
      lstr.outBuffer.take (passOn lstr w size).1.toNat := by
    have hle := passOn_le (w := w) hsize
    rw [take_take, Nat.min_eq_left (by omega)]
  have hhanded : handed (passOn lstr w size).2 =
      w.handed ++ (lstr.outBuffer.take size).take (passOn lstr w size).1.toNat := rfl
  rw [total, passOn_outBuffer, hhanded, htake, append_assoc, take_append_drop, total,
    handed, hw]
  rfl

theorem EndsWhole.append_left {back : List Bufbyte} (h : EndsWhole back) (front : List Bufbyte) :
    EndsWhole (front ++ back) := by
  obtain ⟨front', c, rfl⟩ := h
  exact ⟨front ++ front', c, (append_assoc ..).symm⟩

theorem passOn_inChars (h : InChars lstr) (hw : lstr.writer = some w) (hne : lstr.outBuffer ≠ [])
    (hkeeps : KeepsChars lstr) : ∃ size, chopped lstr.outBuffer = .ok size ∧
      size ≤ lstr.outBuffer.length ∧ InChars (passOn lstr w size).2 := by
  have hfirst := h.start.resolve_left fun h => hne h.1
  obtain ⟨size, hchop, hle, hwhole⟩ := chopped_spec hfirst
  refine ⟨size, hchop, hle, ?_, ?_⟩
  · have hpassed : passed (passOn lstr w size).2 =
        passed lstr ++ [(lstr.outBuffer.take size, lstr.outBuffer.drop size)] := by
      rw [passed, passed, hw]
      rfl
    rw [hpassed, forall_mem_append, forall_mem_singleton]
    refine ⟨h.passed, ?_⟩
    obtain ⟨rfl, hwhole⟩ | ⟨hlt, hstarts⟩ := hwhole
    · rw [take_length]
      exact .inr (.inl hwhole)
    · exact .inr (.inr ⟨by rwa [ne_eq, drop_eq_nil_iff, Nat.not_le], hstarts⟩)
  · have hout := passOn_outBuffer lstr w size
    have hnum := passOn_le (w := w) hle
    obtain ⟨rfl, hwhole⟩ | ⟨hlt, hstarts⟩ := hwhole
    · by_cases hall : (passOn lstr w lstr.outBuffer.length).1 = lstr.outBuffer.length
      · refine .inl ⟨?_, .inr ?_⟩
        · rw [hout, hall, Int.toNat_natCast, drop_length]
        · rw [passOn_total hw hle]
          exact hwhole.append_left _
      · by_cases hpos : 0 < (passOn lstr w lstr.outBuffer.length).1
        · -- The writer has stopped before the last character.
          have hanswer : (passOn lstr w lstr.outBuffer.length).1 =
              min (w.answers w.calls lstr.outBuffer) lstr.outBuffer.length := by
            rw [passOn, take_length]
            rfl
          have hcount : w.answers w.calls lstr.outBuffer =
              (passOn lstr w lstr.outBuffer.length).1 := by omega
          obtain ⟨b, hb, hfirst⟩ := hkeeps w.answers (congrArg _ hw) w.calls lstr.outBuffer
            (by omega) (by omega)
          rw [hcount, ← hout] at hb
          exact .inr ⟨b, hb, hfirst⟩
        · rw [hout, Int.toNat_of_nonpos (Int.not_lt.mp hpos), drop_zero]
          exact .inr hfirst
    · obtain ⟨b, hb, hfirst⟩ := hstarts.exists_first
        (by rwa [ne_eq, drop_eq_nil_iff, Nat.not_le])
      refine .inr ⟨b, ?_, hfirst⟩
      rw [hout]
      exact drop_subset_drop_left _ (by omega) hb

theorem passOn_accepted (h : Accepted lstr data lstr₁)
    (hkeeps : lstr.noPartialChars = true → KeepsChars lstr) (hw : lstr₁.writer = some w)
    (hne : lstr₁.outBuffer ≠ []) : ∃ size, passable lstr₁ = .ok size ∧
      Accepted lstr data (passOn lstr₁ w size).2 := by
  have hwriter := h.writerAnswers
  rw [writerAnswers, hw] at hwriter
  have haccepted {size : ℕ} (hsize : size ≤ lstr₁.outBuffer.length)
      (hchars : lstr.noPartialChars = true → InChars (passOn lstr₁ w size).2) :
      Accepted lstr data (passOn lstr₁ w size).2 := by
    refine ⟨⟨h.writable.isOpen, h.writable.flagWrite, ⟨_, rfl⟩, ?_⟩,
      (passOn_total hw hsize).trans h.total, h.byteCount, h.chars, h.buffering, hwriter,
      h.flusherAnswers, hchars⟩
    rw [passOn_outBuffer, length_drop]
    exact Nat.le_trans (Nat.sub_le _ _) h.writable.out_le
  rw [passable, h.chars]
  cases hchars : lstr.noPartialChars with
  | false => exact ⟨_, rfl, haccepted (Nat.le_refl _) fun h => absurd (hchars.symm.trans h) (by simp)⟩
  | true =>
    have hkeeps₁ : KeepsChars lstr₁ := by
      rw [KeepsChars, h.writerAnswers]
      exact hkeeps hchars
    obtain ⟨size, hchop, hle, hinChars⟩ := passOn_inChars (h.inChars hchars) hw hne hkeeps₁
    exact ⟨size, hchop, haccepted hle fun _ => hinChars⟩

/-- **`Lstream_flush_out`** keeps what has been accepted, and fails only if the writer or the
flusher does. -/
theorem flushOut_accepted (h : Accepted lstr data lstr₁)
    (hkeeps : lstr.noPartialChars = true → KeepsChars lstr) : ∃ rc lstr₂,
      flushOut lstr₁ = .ok (rc, lstr₂) ∧ Accepted lstr data lstr₂ ∧ (rc < 0 → ¬ Patient lstr) := by
  induction hlength : lstr₁.outBuffer.length using Nat.strongRecOn generalizing lstr₁ with
  | _ n ih =>
    obtain ⟨hflusher, hflusherRc⟩ := flusherCall_accepted h
    rw [flushOut]
    by_cases hne : lstr₁.outBuffer = []
    · rw [if_pos hne]
      exact ⟨_, _, rfl, hflusher, hflusherRc⟩
    · obtain ⟨w, hw⟩ := h.writable.writer
      obtain ⟨size, hsize, haccepted⟩ := passOn_accepted h hkeeps hw hne
      have hwriter := h.writerAnswers
      rw [writerAnswers, hw] at hwriter
      rw [if_neg hne]
      simp only [h.writable.isOpen, h.writable.flagWrite, hw, hsize, Bool.not_true,
        Bool.false_eq_true, if_false]
      split
      · exact ⟨_, _, rfl, hflusher, hflusherRc⟩
      · split
        · exact ⟨_, _, rfl, haccepted, fun h => absurd h (Int.lt_irrefl 0)⟩
        · split
          · rename_i hpos
            exact ih _ (hlength ▸ passOn_length hne hpos) haccepted rfl
          · refine ⟨_, _, rfl, haccepted, fun _ hpatient => ?_⟩
            have hanswer := hpatient.1 w.answers hwriter.symm w.calls (lstr₁.outBuffer.take size)
            have hmin : (passOn lstr₁ w size).1 = min (w.answers w.calls (lstr₁.outBuffer.take size))
                (lstr₁.outBuffer.take size).length := rfl
            omega

variable {chunk rest : List Bufbyte}

theorem NoStray.of_append {back : List Bufbyte} (h : NoStray (data ++ back)) : NoStray data :=
  fun front b rest heq hb => h front b (rest ++ back) (by rw [heq, append_assoc]; rfl) hb

theorem store_accepted (h : Accepted lstr data lstr₁)
    (hroom : lstr₁.outBuffer.length + chunk.length ≤ lstr₁.outBufferSize)
    (htext : lstr.noPartialChars = true → NoStray (total lstr ++ (data ++ chunk))) :
    Accepted lstr (data ++ chunk) (store lstr₁ chunk) := by
  have htotal : total (store lstr₁ chunk) = total lstr₁ ++ chunk := (append_assoc ..).symm
  refine ⟨⟨h.writable.isOpen, h.writable.flagWrite, h.writable.writer, ?_⟩, ?_, ?_, h.chars,
    h.buffering, h.writerAnswers, h.flusherAnswers, fun hchars => ⟨(h.inChars hchars).passed, ?_⟩⟩
  · rw [store, length_append]
    exact hroom
  · rw [htotal, h.total, append_assoc]
  · rw [store, h.byteCount, length_append]
    dsimp only
    omega
  · have htext := htext hchars
    rw [← append_assoc, ← h.total] at htext
    obtain ⟨hnil, hwhole⟩ | ⟨b, hb, hfirst⟩ := (h.inChars hchars).start
    · by_cases hchunk : chunk = []
      · subst hchunk
        refine .inl ⟨?_, ?_⟩
        · rw [store, append_nil]
          exact hnil
        · rwa [htotal, append_nil]
      · -- What comes behind whole characters begins with one.
        have hstarts := htext.of_boundary (hwhole.imp_right .inl)
        obtain ⟨b, hb, hfirst⟩ := hstarts.startsChar.exists_first hchunk
        exact .inr ⟨b, mem_append_right _ hb, hfirst⟩
    · exact .inr ⟨b, mem_append_left _ hb, hfirst⟩

theorem Accepted.resize (h : Accepted lstr data lstr₁) {size : ℕ}
    (hsize : lstr₁.outBuffer.length ≤ size) :
    Accepted lstr data { lstr₁ with outBufferSize := size } := by
  refine ⟨⟨h.writable.isOpen, h.writable.flagWrite, h.writable.writer, hsize⟩, h.total,
    h.byteCount, h.chars, h.buffering, h.writerAnswers, h.flusherAnswers, fun hchars => ?_⟩
  exact ⟨(h.inChars hchars).passed, (h.inChars hchars).start⟩

/-- **`Lstream_write_1`** reports what has been accepted, all of it or what was before the buffer
could not be flushed. -/
theorem writeLoop_accepted (couldntWriteLastTime : Bool) (off : ℕ) (h : Accepted lstr data lstr₁)
    (hkeeps : lstr.noPartialChars = true → KeepsChars lstr)
    (htext : lstr.noPartialChars = true → NoStray (total lstr ++ (data ++ rest))) :
    ∃ (r : ℤ) (n : ℕ) (lstr₂ : Lstream),
      writeLoop couldntWriteLastTime off rest lstr₁ = .ok (r, lstr₂) ∧ n ≤ rest.length ∧
        Accepted lstr (data ++ rest.take n) lstr₂ ∧
          (r = (off + n : ℕ) ∧ (n = rest.length ∨ 0 < off + n) ∨ r = -1 ∧ off + n = 0) := by
  induction hmeasure : 2 * rest.length + (if couldntWriteLastTime then 0 else 1)
    using Nat.strongRecOn generalizing couldntWriteLastTime off data rest lstr₁ with
  | _ m ih =>
    have hlt := @chunkToAdd_lt couldntWriteLastTime rest.length lstr₁
    obtain ⟨chunk, couldntWrite, size, hchunk, hle, hroom, -⟩ :=
      chunkToAdd_spec couldntWriteLastTime rest.length lstr₁
    have hsize := hroom h.writable.out_le
    have htake : (rest.take chunk).length = chunk := length_take_of_le hle
    have htext₁ (hchars : lstr.noPartialChars = true) :
        NoStray (total lstr ++ (data ++ rest.take chunk ++ rest.drop chunk)) := by
      rw [append_assoc data, take_append_drop]
      exact htext hchars
    have hstored : Accepted lstr (data ++ rest.take chunk)
        (store { lstr₁ with outBufferSize := size } (rest.take chunk)) := by
      refine store_accepted (h.resize (Nat.le_trans (Nat.le_add_right _ _) hsize)) ?_ fun hchars => ?_
      · rw [htake]
        exact hsize
      · have htext := htext₁ hchars
        rw [← append_assoc] at htext
        exact htext.of_append
    rw [writeLoop, hchunk]
    rw [hchunk] at hlt
    dsimp only at hlt ⊢
    by_cases hall : rest.length - chunk = 0
    · rw [if_pos hall]
      exact ⟨_, chunk, _, rfl, hle, hstored, .inl ⟨rfl, .inl (by omega)⟩⟩
    · rw [if_neg hall]
      obtain ⟨rc, lstr₂, hflush, haccepted, -⟩ := flushOut_accepted hstored hkeeps
      rw [hflush]
      dsimp only
      split
      · refine ⟨_, chunk, _, rfl, hle, haccepted, ?_⟩
        split
        · exact .inr ⟨rfl, ‹_›⟩
        · exact .inl ⟨rfl, .inr (by omega)⟩
      · have hless : 2 * (rest.drop chunk).length + (if couldntWrite then 0 else 1) < m := by
          rw [← hmeasure, length_drop]
          exact hlt hall
        obtain ⟨r, n, lstr₃, hloop, hn, hrest, hr⟩ :=
          ih _ hless couldntWrite (off + chunk) haccepted htext₁ rfl
        rw [length_drop] at hn hr
        have htaken : rest.take chunk ++ (rest.drop chunk).take n = rest.take (chunk + n) :=
          List.take_add.symm
        rw [append_assoc, htaken] at hrest
        refine ⟨r, chunk + n, lstr₃, hloop, by omega, hrest, ?_⟩
        rw [← Nat.add_assoc]
        exact hr.imp_left fun ⟨hr, hn⟩ => ⟨hr, hn.imp_left fun hn => by omega⟩

/-- **`Lstream_putc`** reports whether the byte has been accepted, unless it is a newline that
could not be flushed. -/
theorem lstreamPutc_accepted (h : Accepted lstr data lstr₁) {c : Bufbyte}
    (hkeeps : lstr.noPartialChars = true → KeepsChars lstr)
    (htext : lstr.noPartialChars = true → NoStray (total lstr ++ (data ++ [c]))) :
    ∃ rc lstr₂, lstreamPutc lstr₁ c = .ok (rc, lstr₂) ∧
      (rc < 0 ∧ Accepted lstr data lstr₂ ∨ Accepted lstr (data ++ [c]) lstr₂ ∧
        (rc < 0 → lstr.buffering = .lineBuffered ∧ c = newline ∧ ¬ Patient lstr)) := by
  have hflush {lstr₂ : Lstream} (haccepted : Accepted lstr (data ++ [c]) lstr₂)
      (hline : lstr₂.buffering = .lineBuffered ∧ c = newline) : ∃ rc lstr₃,
        flushOut lstr₂ = .ok (rc, lstr₃) ∧ Accepted lstr (data ++ [c]) lstr₃ ∧
          (rc < 0 → lstr.buffering = .lineBuffered ∧ c = newline ∧ ¬ Patient lstr) := by
    obtain ⟨rc, lstr₃, hflush, haccepted₃, hrc⟩ := flushOut_accepted haccepted hkeeps
    rw [haccepted.buffering] at hline
    exact ⟨rc, lstr₃, hflush, haccepted₃, fun hneg => ⟨hline.1, hline.2, hrc hneg⟩⟩
  rw [lstreamPutc]
  split
  · obtain ⟨r, n, lstr₂, hloop, hn, haccepted, hr⟩ := writeLoop_accepted false 0 h hkeeps htext
    have hwrite : lstreamWrite1 lstr₁ [c] = .ok (r, lstr₂) := by
      rw [lstreamWrite1, h.writable.isOpen, h.writable.flagWrite]
      exact hloop
    simp only [lstreamFputc, hwrite, bind, Except.bind]
    rw [Nat.zero_add] at hr
    obtain ⟨rfl, hpos⟩ | ⟨rfl, rfl⟩ := hr
    · obtain rfl : n = 1 := by
        rw [length_singleton] at hn hpos
        omega
      split
      · rename_i hline
        obtain ⟨rc, lstr₃, hflush, haccepted, hrc⟩ := hflush haccepted hline.2
        exact ⟨rc, lstr₃, hflush, .inr ⟨haccepted, hrc⟩⟩
      · exact ⟨_, _, rfl, .inr ⟨haccepted, fun hneg => absurd hneg (by decide)⟩⟩
    · rw [take_zero, append_nil] at haccepted
      exact ⟨_, _, rfl, .inl ⟨by decide, haccepted⟩⟩
  · rename_i hroom
    have hstored : Accepted lstr (data ++ [c]) (store lstr₁ [c]) :=
      store_accepted h (Nat.not_le.mp hroom) htext
    split
    · obtain ⟨rc, lstr₃, hflush, haccepted, hrc⟩ := hflush hstored ‹_›
      exact ⟨rc, lstr₃, hflush, .inr ⟨haccepted, hrc⟩⟩
    · exact ⟨_, _, rfl, .inr ⟨hstored, fun hneg => absurd hneg (Int.lt_irrefl 0)⟩⟩

/-- No newline is flushed in vain. -/
def FlushesLines (lstr : Lstream) (data : List Bufbyte) : Prop :=
  lstr.buffering = .lineBuffered → newline ∈ data → Patient lstr

theorem lstreamPutc_reports (h : Accepted lstr data lstr₁) {c : Bufbyte}
    (hlines : FlushesLines lstr [c]) (hkeeps : lstr.noPartialChars = true → KeepsChars lstr)
    (htext : lstr.noPartialChars = true → NoStray (total lstr ++ (data ++ [c]))) :
    ∃ rc lstr₂, lstreamPutc lstr₁ c = .ok (rc, lstr₂) ∧
      Accepted lstr (data ++ if rc < 0 then [] else [c]) lstr₂ := by
  obtain ⟨rc, lstr₂, hput, haccepted⟩ := lstreamPutc_accepted h hkeeps htext
  refine ⟨rc, lstr₂, hput, ?_⟩
  obtain ⟨hneg, haccepted⟩ | ⟨haccepted, hrc⟩ := haccepted
  · rwa [if_pos hneg, append_nil]
  · rwa [if_neg fun hneg => ?_]
    obtain ⟨hline, rfl, hpatient⟩ := hrc hneg
    exact hpatient (hlines hline (mem_singleton_self _))

theorem putLoop_accepted (i : ℕ) (h : Accepted lstr data lstr₁) (hlines : FlushesLines lstr rest)
    (hkeeps : lstr.noPartialChars = true → KeepsChars lstr)
    (htext : lstr.noPartialChars = true → NoStray (total lstr ++ (data ++ rest))) :
    ∃ n lstr₂, putLoop i lstr₁ rest = .ok (i + n, lstr₂) ∧ n ≤ rest.length ∧
      Accepted lstr (data ++ rest.take n) lstr₂ := by
  induction rest generalizing i data lstr₁ with
  | nil => exact ⟨0, lstr₁, rfl, Nat.le_refl _, by rwa [take_nil, append_nil]⟩
  | cons c rest ih =>
    have htext₁ (hchars : lstr.noPartialChars = true) :
        NoStray (total lstr ++ (data ++ [c] ++ rest)) := by
      rw [append_assoc data]
      exact htext hchars
    obtain ⟨rc, lstr₂, hput, haccepted⟩ := lstreamPutc_reports h
      (fun hline hc => hlines hline (List.mem_cons.mpr (.inl (List.mem_singleton.mp hc)))) hkeeps
      fun hchars => by
        have htext := htext₁ hchars
        rw [← append_assoc] at htext
        exact htext.of_append
    rw [putLoop, hput]
    dsimp only
    split
    · rename_i hneg
      rw [if_pos hneg] at haccepted
      exact ⟨0, lstr₂, rfl, Nat.zero_le _, haccepted⟩
    · rename_i hpos
      rw [if_neg hpos] at haccepted
      obtain ⟨n, lstr₃, hloop, hn, haccepted₃⟩ := ih (i + 1) haccepted
        (fun hline hc => hlines hline (mem_cons_of_mem c hc)) htext₁
      refine ⟨n + 1, lstr₃, ?_, Nat.succ_le_succ hn, ?_⟩
      · rw [hloop, Nat.add_assoc, Nat.add_comm 1]
      · rwa [append_assoc] at haccepted₃

/-- **`Lstream_write`** reports how many bytes have been accepted. -/
theorem lstreamWrite_accepted (h : Accepted lstr data lstr₁) (hlines : FlushesLines lstr rest)
    (hkeeps : lstr.noPartialChars = true → KeepsChars lstr)
    (htext : lstr.noPartialChars = true → NoStray (total lstr ++ (data ++ rest))) :
    ∃ r lstr₂, lstreamWrite lstr₁ rest = .ok (r, lstr₂) ∧
      Accepted lstr (data ++ rest.take r.toNat) lstr₂ := by
  rw [lstreamWrite]
  split
  · exact ⟨_, _, rfl, by rwa [Int.toNat_zero, take_zero, append_nil]⟩
  · split
    · obtain ⟨r, n, lstr₂, hloop, -, haccepted, hr⟩ := writeLoop_accepted false 0 h hkeeps htext
      refine ⟨r, lstr₂, ?_, ?_⟩
      · rw [lstreamWrite1, h.writable.isOpen, h.writable.flagWrite]
        exact hloop
      · have hcount : r.toNat = n := by omega
        rwa [hcount]
    · obtain ⟨n, lstr₂, hloop, -, haccepted⟩ := putLoop_accepted 0 h hlines hkeeps htext
      rw [Nat.zero_add] at hloop
      simp only [hloop, bind, Except.bind]
      refine ⟨_, _, rfl, ?_⟩
      have hcount : (if n = 0 then -1 else (n : ℤ)).toNat = n := by
        split
        · rename_i hzero
          rw [hzero]
          rfl
        · exact Int.toNat_natCast n
      rwa [hcount]

/-! ### Runs -/

/-- The functions that write. -/
inductive WriteCall
  | write (data : List Bufbyte)
  | putc (c : Bufbyte)

/-- What is to be written. -/
def WriteCall.bytes : WriteCall → List Bufbyte
  | .write data => data
  | .putc c => [c]

/-- A stream and what has been reported as written to it. -/
structure WriteSession where
  stream : Lstream
  reported : List Bufbyte

/-- A call of one of the functions. -/
def writeStep (s : WriteSession) : WriteCall → Option WriteSession
  | .write data => (lstreamWrite s.stream data).toOption.map
      fun r => ⟨r.2, s.reported ++ data.take r.1.toNat⟩
  | .putc c => (lstreamPutc s.stream c).toOption.map
      fun r => ⟨r.2, s.reported ++ if r.1 < 0 then [] else [c]⟩

/-- When a call reports what is accepted: no newline is flushed in vain, and in character mode the
writer stops at characters and no stray bytes are written. -/
def Reports (s : WriteSession) (call : WriteCall) : Prop :=
  FlushesLines s.stream call.bytes ∧ (s.stream.noPartialChars = true →
    KeepsChars s.stream ∧ NoStray (total s.stream ++ call.bytes))

/-- Nothing is lost and nothing comes twice, and the writer is passed whole characters. -/
structure Faithful (s : WriteSession) : Prop where
  total : total s.stream = s.reported
  byteCount : s.stream.byteCount = s.reported.length
  chars : s.stream.noPartialChars = true → ∀ p ∈ passed s.stream, Boundary p.1 p.2

/-- A stream that has been opened for writing. -/
def openForWriting (answers : ℕ → List Bufbyte → ℤ) (flusher : Option Flusher) (chars : Bool)
    (buffering : Buffering) (bufferingSize : ℕ) : Lstream :=
  setBuffering (lstreamNew none (some ⟨answers, 0, [], []⟩) flusher false chars) buffering
    bufferingSize

theorem reports_accepted {s : WriteSession} {call : WriteCall}
    (h : Accepted lstr s.reported s.stream) (hcall : Reports s call) :
    FlushesLines lstr call.bytes ∧ (lstr.noPartialChars = true → KeepsChars lstr) ∧
      (lstr.noPartialChars = true → NoStray (total lstr ++ (s.reported ++ call.bytes))) := by
  obtain ⟨hlines, hchars⟩ := hcall
  rw [h.chars, h.total, append_assoc, KeepsChars, h.writerAnswers] at hchars
  rw [FlushesLines, h.buffering, Patient, h.writerAnswers, h.flusherAnswers] at hlines
  exact ⟨hlines, fun h => (hchars h).1, fun h => (hchars h).2⟩

theorem writeStep_accepted {s : WriteSession} {call : WriteCall}
    (h : Accepted lstr s.reported s.stream) (hcall : Reports s call) :
    ∃ s', writeStep s call = some s' ∧ Accepted lstr s'.reported s'.stream := by
  obtain ⟨hlines, hkeeps, htext⟩ := reports_accepted h hcall
  cases call with
  | write data =>
    obtain ⟨r, lstr₂, hrun, haccepted⟩ : ∃ r lstr₂,
        lstreamWrite s.stream data = .ok (r, lstr₂) ∧
          Accepted lstr (s.reported ++ data.take r.toNat) lstr₂ :=
      lstreamWrite_accepted h hlines hkeeps htext
    exact ⟨⟨lstr₂, _⟩, by rw [writeStep, hrun]; rfl, haccepted⟩
  | putc c =>
    obtain ⟨rc, lstr₂, hrun, haccepted⟩ := lstreamPutc_reports h hlines hkeeps htext
    exact ⟨⟨lstr₂, _⟩, by rw [writeStep, hrun]; rfl, haccepted⟩

theorem openForWriting_accepted (answers : ℕ → List Bufbyte → ℤ) (flusher : Option Flusher)
    (chars : Bool) (buffering : Buffering) (bufferingSize : ℕ) :
    Accepted (openForWriting answers flusher chars buffering bufferingSize) []
      (openForWriting answers flusher chars buffering bufferingSize) :=
  ⟨⟨rfl, rfl, ⟨_, rfl⟩, Nat.le_refl 0⟩, rfl, rfl, rfl, rfl, rfl, rfl,
    fun _ => ⟨nofun, .inl ⟨rfl, .inl rfl⟩⟩⟩

/-- **Writing to a stream** loses nothing and repeats nothing, whatever the writer answers, as long
as no newline is flushed in vain and, in character mode, the writer stops at characters. -/
theorem writes_faithful (answers : ℕ → List Bufbyte → ℤ) (flusher : Option Flusher) (chars : Bool)
    (buffering : Buffering) (bufferingSize : ℕ) {calls : List WriteCall}
    (hcalls : StepsMeet writeStep Reports
      ⟨openForWriting answers flusher chars buffering bufferingSize, []⟩ calls) :
    Always writeStep Faithful ⟨openForWriting answers flusher chars buffering bufferingSize, []⟩
      calls := by
  refine (Always.of_step (fun s call hs hcall => writeStep_accepted hs hcall)
    (openForWriting_accepted answers flusher chars buffering bufferingSize) hcalls).imp fun s hs => ?_
  refine ⟨hs.total, hs.byteCount.trans (Int.zero_add _), fun hchars => ?_⟩
  rw [hs.chars] at hchars
  exact (hs.inChars hchars).passed

theorem bytes_reports (h : Accepted lstr [] lstr) (hbytes : lstr.noPartialChars = false)
    (hlines : lstr.buffering ≠ .lineBuffered ∨ Patient lstr) (calls : List WriteCall) :
    StepsMeet writeStep Reports ⟨lstr, []⟩ calls := by
  have hstep (s : WriteSession) (call : WriteCall) (hs : Accepted lstr s.reported s.stream)
      (_ : True) : Reports s call ∧ ∀ s', writeStep s call = some s' →
        Accepted lstr s'.reported s'.stream := by
    have hreports : Reports s call := by
      refine ⟨fun hline _ => ?_, fun hchars => ?_⟩
      · rw [hs.buffering] at hline
        rw [Patient, hs.writerAnswers, hs.flusherAnswers]
        exact hlines.resolve_left fun hne => hne hline
      · rw [hs.chars, hbytes] at hchars
        cases hchars
    refine ⟨hreports, fun s' hs' => ?_⟩
    obtain ⟨s₁, hs₁, haccepted⟩ := writeStep_accepted hs hreports
    obtain rfl := Option.some.inj (hs'.symm.trans hs₁)
    exact haccepted
  exact (StepsMeet.keeps hstep h (.of_forall fun _ _ => trivial)).1

theorem writes_faithful_halves :
    Always writeStep Faithful
      ⟨openForWriting (fun _ data => data.length / 2) none false .blocknBuffered 1, []⟩
      [.write [0x61, 0x62, newline], .putc 0x63] :=
  writes_faithful _ none false .blocknBuffered 1
    (bytes_reports (openForWriting_accepted _ none false .blocknBuffered 1) rfl
      (.inl (by decide)) _)

/-- A line-buffered stream with a writer that fails. -/
def failing : Lstream := openForWriting (fun _ _ => -1) none false .lineBuffered 0

/-- The stream with a newline in the buffer. -/
def failingLine : Lstream :=
  store { failing with outBufferSize := doRealloc 0 1 } [newline]

theorem failing_putc : ∃ lstr, lstreamPutc failing newline = .ok (-1, lstr) ∧
    total lstr = [newline] := by
  have hwrite : lstreamWrite1 failing [newline] = .ok (1, failingLine) := by
    have hloop : lstreamWrite1 failing [newline] = writeLoop false 0 [newline] failing := rfl
    rw [hloop, writeLoop]
    rfl
  have hflush : ∃ lstr, flushOut failingLine = .ok (-1, lstr) ∧ total lstr = [newline] := by
    rw [flushOut]
    exact ⟨_, rfl, rfl⟩
  obtain ⟨lstr, hflush, htotal⟩ := hflush
  refine ⟨lstr, ?_, htotal⟩
  have hput : lstreamPutc failing newline = lstreamFputc failing newline := rfl
  simp only [hput, lstreamFputc, hwrite, bind, Except.bind]
  exact hflush

/-- A newline that the writer does not take is kept but not reported. -/
theorem putc_newline : ¬ ∀ (answers : ℕ → List Bufbyte → ℤ) (flusher : Option Flusher)
    (chars : Bool) (buffering : Buffering) (bufferingSize : ℕ) (calls : List WriteCall),
      Always writeStep Faithful ⟨openForWriting answers flusher chars buffering bufferingSize, []⟩
        calls := by
  intro h
  obtain ⟨-, s, hs, hfaithful⟩ := h (fun _ _ => -1) none false .lineBuffered 0 [.putc newline]
  obtain ⟨lstr, hput, htotal⟩ := failing_putc
  have hstep : writeStep ⟨failing, []⟩ (.putc newline) = some ⟨lstr, []⟩ := by
    rw [writeStep, hput]
    rfl
  obtain rfl : s = ⟨lstr, []⟩ := Option.some.inj (hs.symm.trans hstep)
  have hreported := htotal.symm.trans hfaithful.head.total
  cases hreported

end XEmacs.Lstreams

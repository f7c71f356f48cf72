import XEmacs.Lstreams.Stream
import XEmacs.Lib.PushBack
import XEmacs.Lib.Fallible
import XEmacs.Lib.Runs

/-!
# Reading from streams (lstream.c)

What has been pushed back comes first, in the reverse of its order in the unget buffer, then what
is in the read buffer, then what the reader gives.
-/

namespace XEmacs.Lstreams

open Buffer (Bufbyte bufbyteFirstByteP textBytes)
open PushBack Fallible Runs List

/-! ### The functions -/

/-- `Lstream_raw_read`; no bytes stand for an error. -/
def rawRead (lstr : Lstream) (size : ℕ) : Except Fault (Option (List Bufbyte) × Lstream) :=
  if !lstr.isOpen then internalError "lstream not open"
  else if !lstr.flagRead then internalError "lstream not open for reading"
  else match lstr.reader with
    | none => internalError "lstream has no reader"
    | some r => .ok ((r.read size).1, { lstr with reader := some (r.read size).2 })

/-- `Lstream_read_more`. -/
def readMore (lstr : Lstream) : Except Fault (Option ℕ × Lstream) := do
  let sizeNeeded := max 1 lstr.bufferingSize
  let (gotten, lstr) ← rawRead
    { lstr with inBufferSize := doRealloc lstr.inBufferSize sizeNeeded } sizeNeeded
  return (gotten.map List.length, { lstr with inBuffer := gotten.getD [], inBufferInd := 0 })

/-- The loop of `Lstream_read` for the unget buffer. -/
def takeUnget : ℕ → Lstream → List Bufbyte × Lstream
  | 0, lstr => ([], lstr)
  | chunk + 1, lstr =>
    let (data, lstr') := takeUnget chunk { lstr with ungetBuffer := lstr.ungetBuffer.dropLast }
    (lstr.ungetBuffer.getLastD 0 :: data, lstr')

/-- What is taken out of the read buffer. -/
def takeIn (chunk : ℕ) (lstr : Lstream) : List Bufbyte × Lstream :=
  ((lstr.inBuffer.drop lstr.inBufferInd).take chunk,
    { lstr with inBufferInd := lstr.inBufferInd + chunk, byteCount := lstr.byteCount + chunk })

theorem readMore_some {lstr lstr' : Lstream} {size : ℕ} (h : readMore lstr = .ok (some size, lstr')) :
    lstr'.inBufferInd = 0 ∧ lstr'.inBuffer.length = size := by
  obtain ⟨⟨gotten, lstr₁⟩, -, h⟩ := bind_eq_ok.mp h
  obtain ⟨hsize, rfl⟩ := Prod.mk.inj (Except.ok.inj h)
  obtain ⟨data, rfl, rfl⟩ := Option.map_eq_some_iff.mp hsize
  exact ⟨rfl, rfl⟩

/-- The other loop of `Lstream_read`: the bytes, and whether an error has occurred. -/
def readLoop (size : ℕ) (lstr : Lstream) : Except Fault (List Bufbyte × Bool × Lstream) :=
  if size = 0 then .ok ([], false, lstr)
  else
    let chunk := min size (lstr.inBuffer.length - lstr.inBufferInd)
    let (data, lstr₁) := takeIn chunk lstr
    if size - chunk = 0 then .ok (data, false, lstr₁)
    else match _h : readMore lstr₁ with
      | .error e => .error e
      | .ok (none, lstr₂) => .ok (data, true, lstr₂)
      | .ok (some 0, lstr₂) => .ok (data, false, lstr₂)
      | .ok (some (_ + 1), lstr₂) =>
        match readLoop (size - chunk) lstr₂ with
        | .error e => .error e
        | .ok (data', r) => .ok (data ++ data', r)
termination_by 2 * size + if lstr.inBufferInd < lstr.inBuffer.length then 0 else 1
decreasing_by
  obtain ⟨hind, hlength⟩ := readMore_some _h
  rw [if_pos (by omega)]
  split <;> omega

/-- The loop of `Lstream_unread`. -/
def pushUnget (data : List Bufbyte) : ℕ → List Bufbyte → List Bufbyte
  | 0, unget => unget
  | size + 1, unget => pushUnget data size (unget ++ [data.getD size 0])

def lstreamUnread (lstr : Lstream) (data : List Bufbyte) : Lstream :=
  { lstr with
    ungetBufferSize := doRealloc lstr.ungetBufferSize (lstr.ungetBuffer.length + data.length)
    byteCount := lstr.byteCount - data.length
    ungetBuffer := pushUnget data data.length lstr.ungetBuffer }

/-- The end of `Lstream_read`: an incomplete character is pushed back. -/
def spitBack (lstr : Lstream) (data : List Bufbyte) : Except Fault (List Bufbyte × Lstream) :=
  if lstr.noPartialChars = true ∧ data ≠ [] then do
    let newoff ← chopped data
    if newoff ≠ data.length then
      return (data.take newoff, lstreamUnread lstr (data.drop newoff))
    else return (data, lstr)
  else .ok (data, lstr)

/-- `Lstream_read`; no bytes stand for `-1`. -/
def lstreamRead (lstr : Lstream) (size : ℕ) : Except Fault (Option (List Bufbyte) × Lstream) :=
  if size = 0 then .ok (some [], lstr)
  else do
    let chunk := min size lstr.ungetBuffer.length
    let (front, lstr) := takeUnget chunk lstr
    let (back, errorOccurred, lstr) ←
      readLoop (size - chunk) { lstr with byteCount := lstr.byteCount + chunk }
    let (data, lstr) ← spitBack lstr (front ++ back)
    return (if data = [] ∧ errorOccurred = true then none else some data, lstr)

def lstreamFgetc (lstr : Lstream) : Except Fault (Option Bufbyte × Lstream) := do
  let (data, lstr) ← lstreamRead lstr 1
  return (data.bind List.head?, lstr)

def lstreamGetc (lstr : Lstream) : Except Fault (Option Bufbyte × Lstream) :=
  if 0 < lstr.ungetBuffer.length then
    .ok (lstr.ungetBuffer.getLast?, { lstr with
      byteCount := lstr.byteCount + 1
      ungetBuffer := lstr.ungetBuffer.dropLast })
  else if lstr.inBufferInd < lstr.inBuffer.length then
    .ok (lstr.inBuffer[lstr.inBufferInd]?, { lstr with
      byteCount := lstr.byteCount + 1
      inBufferInd := lstr.inBufferInd + 1 })
  else lstreamFgetc lstr

def lstreamFungetc (lstr : Lstream) (c : Bufbyte) : Lstream := lstreamUnread lstr [c]

def lstreamUngetc (lstr : Lstream) (c : Bufbyte) : Lstream :=
  if lstr.ungetBuffer.length ≥ lstr.ungetBufferSize then lstreamFungetc lstr c
  else { lstr with byteCount := lstr.byteCount - 1, ungetBuffer := lstr.ungetBuffer ++ [c] }

/-! ### The queue -/

/-- What the reader has not given yet. -/
def source (lstr : Lstream) : List Bufbyte := (lstr.reader.map (·.source)).getD []

/-- What is to be read. -/
def queue (lstr : Lstream) : List Bufbyte :=
  lstr.ungetBuffer.reverse ++ (lstr.inBuffer.drop lstr.inBufferInd ++ source lstr)

/-- A stream that is open for reading, with what is in the buffers inside them. -/
structure Readable (lstr : Lstream) : Prop where
  isOpen : lstr.isOpen = true
  flagRead : lstr.flagRead = true
  reader : ∃ r, lstr.reader = some r
  ind_le : lstr.inBufferInd ≤ lstr.inBuffer.length
  in_le : lstr.inBuffer.length ≤ lstr.inBufferSize
  unget_le : lstr.ungetBuffer.length ≤ lstr.ungetBufferSize

/-- The answers of the reader. -/
def answers (lstr : Lstream) : Option (ℕ → ℕ → ℤ) := lstr.reader.map (·.answers)

/-- The data is at the front of one queue and not of the other; the byte counter goes along. -/
structure Moves (lstr : Lstream) (data : List Bufbyte) (lstr' : Lstream) : Prop where
  queue : queue lstr = data ++ queue lstr'
  byteCount : lstr'.byteCount = lstr.byteCount + data.length
  chars : lstr'.noPartialChars = lstr.noPartialChars
  answers : answers lstr' = answers lstr

variable {lstr lstr₁ lstr₂ lstr₃ : Lstream} {data data' : List Bufbyte} {c : Bufbyte}

theorem Moves.refl (lstr : Lstream) : Moves lstr [] lstr := ⟨rfl, (Int.add_zero _).symm, rfl, rfl⟩

theorem Moves.trans (h : Moves lstr data lstr₁) (h' : Moves lstr₁ data' lstr₂) :
    Moves lstr (data ++ data') lstr₂ := by
  refine ⟨?_, ?_, h'.chars.trans h.chars, h'.answers.trans h.answers⟩
  · rw [h.queue, h'.queue, append_assoc]
  · rw [h'.byteCount, h.byteCount, length_append]
    omega

theorem Moves.cancel (h : Moves lstr (data ++ data') lstr₂) (h' : Moves lstr₃ data' lstr₂) :
    Moves lstr data lstr₃ := by
  refine ⟨?_, ?_, h'.chars.symm.trans h.chars, h'.answers.symm.trans h.answers⟩
  · rw [h.queue, h'.queue, append_assoc]
  · have hcount := h.byteCount
    rw [h'.byteCount, length_append] at hcount
    omega

/-! ### Each function -/

theorem pushUnget_eq (data unget : List Bufbyte) :
    pushUnget data data.length unget = unget ++ data.reverse := by
  have htake {size : ℕ} (hsize : size ≤ data.length) :
      pushUnget data size unget = unget ++ (data.take size).reverse := by
    induction size generalizing unget with
    | zero => simp [pushUnget]
    | succ size ih =>
      rw [pushUnget, ih _ (Nat.le_of_succ_le hsize), take_add_one,
        getElem?_eq_getElem hsize, getD_eq_getElem _ _ hsize, append_assoc,
        reverse_append]
      rfl
  rw [htake (Nat.le_refl _), take_length]

theorem lstreamUnread_moves (lstr : Lstream) (data : List Bufbyte) :
    Moves (lstreamUnread lstr data) data lstr := by
  refine ⟨?_, ?_, rfl, rfl⟩
  · rw [queue, lstreamUnread, pushUnget_eq, reverse_append, List.reverse_reverse,
      append_assoc]
    rfl
  · exact (Int.sub_add_cancel _ _).symm

theorem Readable.unread (h : Readable lstr) (data : List Bufbyte) :
    Readable (lstreamUnread lstr data) := by
  refine ⟨h.isOpen, h.flagRead, h.reader, h.ind_le, h.in_le, ?_⟩
  rw [lstreamUnread, pushUnget_eq, length_append, length_reverse]
  exact le_doRealloc _ _

theorem takeUnget_eq {chunk : ℕ} (hchunk : chunk ≤ lstr.ungetBuffer.length) :
    takeUnget chunk lstr = (lstr.ungetBuffer.reverse.take chunk,
      { lstr with ungetBuffer := (lstr.ungetBuffer.reverse.drop chunk).reverse }) := by
  induction chunk generalizing lstr with
  | zero => rw [takeUnget, take_zero, drop_zero, List.reverse_reverse]
  | succ chunk ih =>
    obtain hnil | ⟨unget, b, hunget⟩ := eq_nil_or_concat lstr.ungetBuffer
    · rw [hnil] at hchunk
      cases hchunk
    · rw [concat_eq_append] at hunget
      have hlength : lstr.ungetBuffer.length = unget.length + 1 := by
        rw [hunget, length_append, length_singleton]
      have hdrop : lstr.ungetBuffer.dropLast = unget := by rw [hunget, dropLast_concat]
      have hlast : lstr.ungetBuffer.getLastD 0 = b := by rw [hunget, getLastD_concat]
      rw [takeUnget, hdrop, hlast, ih (by dsimp only; omega), hunget, reverse_append]
      rfl

theorem takeUnget_moves (h : Readable lstr) (chunk : ℕ)
    (hchunk : chunk ≤ lstr.ungetBuffer.length) :
    ∃ data lstr₁, takeUnget chunk lstr = (data, lstr₁) ∧
      Readable { lstr₁ with byteCount := lstr₁.byteCount + chunk } ∧
      Moves lstr data { lstr₁ with byteCount := lstr₁.byteCount + chunk } ∧
      data.length = chunk ∧ lstr₁.ungetBuffer.length = lstr.ungetBuffer.length - chunk := by
  have hlength : (lstr.ungetBuffer.reverse.take chunk).length = chunk := by
    rw [length_take_of_le (by rwa [length_reverse])]
  have hleft : (lstr.ungetBuffer.reverse.drop chunk).reverse.length =
      lstr.ungetBuffer.length - chunk := by
    rw [length_reverse, length_drop, length_reverse]
  refine ⟨_, _, takeUnget_eq hchunk, ⟨h.isOpen, h.flagRead, h.reader, h.ind_le, h.in_le, ?_⟩,
    ⟨?_, ?_, rfl, rfl⟩, hlength, hleft⟩
  · rw [hleft]
    exact Nat.le_trans (Nat.sub_le _ _) h.unget_le
  · rw [queue, queue, List.reverse_reverse, ← append_assoc (List.take _ _),
      take_append_drop]
    rfl
  · rw [hlength]

theorem takeIn_moves (h : Readable lstr) (hunget : lstr.ungetBuffer = []) (chunk : ℕ)
    (hchunk : chunk ≤ lstr.inBuffer.length - lstr.inBufferInd) :
    Readable (takeIn chunk lstr).2 ∧ Moves lstr (takeIn chunk lstr).1 (takeIn chunk lstr).2 ∧
      (takeIn chunk lstr).1.length = chunk := by
  have hle := h.ind_le
  have hlength : (takeIn chunk lstr).1.length = chunk := by
    rw [takeIn, length_take_of_le (by rwa [length_drop])]
  refine ⟨⟨h.isOpen, h.flagRead, h.reader, ?_, h.in_le, h.unget_le⟩, ⟨?_, ?_, rfl, rfl⟩, hlength⟩
  · exact Nat.add_le_of_le_sub' hle hchunk
  · have hqueue : queue (takeIn chunk lstr).2 =
        (lstr.inBuffer.drop lstr.inBufferInd).drop chunk ++ source lstr := by
      rw [queue, takeIn, hunget, drop_drop]
      rfl
    have hsplit : (takeIn chunk lstr).1 ++ (lstr.inBuffer.drop lstr.inBufferInd).drop chunk =
        lstr.inBuffer.drop lstr.inBufferInd := take_append_drop _ _
    rw [hqueue, ← append_assoc, hsplit, queue, hunget]
    rfl
  · rw [hlength]
    rfl

theorem Reader.read_spec (r : Reader) (size : ℕ) :
    r.source = (r.read size).1.getD [] ++ (r.read size).2.source ∧
      ((r.read size).1.getD []).length ≤ size := by
  rw [Reader.read]
  dsimp only
  split
  · exact ⟨rfl, Nat.zero_le _⟩
  · refine ⟨(take_append_drop _ _).symm, ?_⟩
    exact Nat.le_trans (length_take_le _ _) (Nat.min_le_right _ _)

/-- There is nothing more, or the reader answers with nothing. -/
def Starved (lstr : Lstream) : Prop :=
  queue lstr = [] ∨ ∃ f ∈ answers lstr, ∃ call size, 0 < size ∧ f call size ≤ 0

theorem Reader.read_answers (r : Reader) (size : ℕ) : (r.read size).2.answers = r.answers := by
  rw [Reader.read]
  dsimp only
  split <;> rfl

theorem Reader.starved {r : Reader} {size : ℕ} (hsize : 0 < size)
    (h : (r.read size).1.getD [] = []) :
    (r.read size).2.source = [] ∨ r.answers r.calls size ≤ 0 := by
  by_cases hneg : r.answers r.calls size < 0
  · exact .inr (Int.le_of_lt hneg)
  · rw [Reader.read, if_neg hneg] at h ⊢
    obtain hzero | hnil := List.take_eq_nil_iff.mp h
    · exact .inr (by omega)
    · exact .inl (by rw [hnil, drop_nil])

theorem readMore_moves (h : Readable lstr) (hunget : lstr.ungetBuffer = [])
    (hin : lstr.inBufferInd = lstr.inBuffer.length) : ∃ gotten lstr₁,
      readMore lstr = .ok (gotten, lstr₁) ∧ Readable lstr₁ ∧ Moves lstr [] lstr₁ ∧
        lstr₁.ungetBuffer = [] ∧ (gotten.getD 0 = 0 → Starved lstr₁) := by
  obtain ⟨r, hr⟩ := h.reader
  obtain ⟨hsource, hlength⟩ := r.read_spec (max 1 lstr.bufferingSize)
  have hsize : 0 < max 1 lstr.bufferingSize := by omega
  have hread : readMore lstr = .ok
      ((r.read (max 1 lstr.bufferingSize)).1.map List.length, { lstr with
        reader := some (r.read (max 1 lstr.bufferingSize)).2
        inBufferSize := doRealloc lstr.inBufferSize (max 1 lstr.bufferingSize)
        inBuffer := (r.read (max 1 lstr.bufferingSize)).1.getD []
        inBufferInd := 0 }) := by
    simp only [readMore, rawRead, h.isOpen, h.flagRead, hr]
    rfl
  have hanswers : answers lstr = some r.answers := by rw [answers, hr]; rfl
  refine ⟨_, _, hread, ⟨h.isOpen, h.flagRead, ⟨_, rfl⟩, Nat.zero_le _, ?_, h.unget_le⟩,
    ⟨?_, (Int.add_zero _).symm, rfl, ?_⟩, hunget, fun hgotten => ?_⟩
  · exact Nat.le_trans hlength (le_doRealloc _ _)
  · have hold : source lstr = r.source := by rw [source, hr]; rfl
    rw [queue, hunget, hin, drop_length, hold, hsource]
    simp only [queue]
    rfl
  · rw [hanswers]
    exact congrArg some (r.read_answers _)
  · have hnil : (r.read (max 1 lstr.bufferingSize)).1.getD [] = [] := by
      cases hdata : (r.read (max 1 lstr.bufferingSize)).1 with
      | none => rfl
      | some data =>
        rw [hdata] at hgotten
        exact eq_nil_of_length_eq_zero hgotten
    obtain hend | hzero := r.starved hsize hnil
    · refine .inl ?_
      simp only [queue, hunget, hnil, source]
      exact hend
    · exact .inr ⟨_, congrArg some (r.read_answers _), _, _, hsize, hzero⟩

theorem readLoop_more {size chunk : ℕ} (hlt : lstr.inBuffer.length - lstr.inBufferInd < size)
    (hchunk : chunk = lstr.inBuffer.length - lstr.inBufferInd) {gotten : Option ℕ}
    (hmore : readMore (takeIn chunk lstr).2 = .ok (gotten, lstr₁)) :
    readLoop size lstr = match gotten with
      | none => .ok ((takeIn chunk lstr).1, true, lstr₁)
      | some 0 => .ok ((takeIn chunk lstr).1, false, lstr₁)
      | some (_ + 1) => (readLoop (size - chunk) lstr₁).map
          fun r => ((takeIn chunk lstr).1 ++ r.1, r.2) := by
  have hmin : min size (lstr.inBuffer.length - lstr.inBufferInd) = chunk := by omega
  rw [readLoop, if_neg (by omega), hmin]
  dsimp only
  rw [if_neg (by omega)]
  split <;> rename_i hmore' <;> rw [hmore] at hmore' <;> cases hmore'
  · rfl
  · rfl
  · dsimp only
    cases readLoop (size - chunk) lstr₁ <;> rfl

/-- Bytes are taken until there are enough or the reader gives nothing. -/
theorem readLoop_moves (size : ℕ) (h : Readable lstr) (hunget : size = 0 ∨ lstr.ungetBuffer = []) :
    ∃ data errorOccurred lstr₁, readLoop size lstr = .ok (data, errorOccurred, lstr₁) ∧
      Readable lstr₁ ∧ Moves lstr data lstr₁ ∧ data.length ≤ size ∧
        (data.length < size → Starved lstr₁) := by
  induction hmeasure : 2 * size + (if lstr.inBufferInd < lstr.inBuffer.length then 0 else 1)
    using Nat.strongRecOn generalizing size lstr with
  | _ n ih =>
    subst hmeasure
    obtain rfl | hpos := Nat.eq_zero_or_pos size
    · refine ⟨[], false, lstr, ?_, h, .refl lstr, Nat.le_refl _, fun h => absurd h (by simp)⟩
      rw [readLoop, if_pos rfl]
    replace hunget := hunget.resolve_left (Nat.ne_of_gt hpos)
    by_cases hlt : lstr.inBuffer.length - lstr.inBufferInd < size
    · obtain ⟨hread₁, hmoves₁, hlength₁⟩ := takeIn_moves h hunget _ (Nat.le_refl _)
      have hind := h.ind_le
      obtain ⟨gotten, lstr₂, hmore, hread₂, hmoves₂, hunget₂, hstarved⟩ :=
        readMore_moves hread₁ hunget (Nat.add_sub_of_le hind)
      have hmoves := hmoves₁.trans hmoves₂
      rw [append_nil] at hmoves
      have hle := Nat.le_trans (Nat.le_of_eq hlength₁) (Nat.le_of_lt hlt)
      rw [readLoop_more hlt rfl hmore]
      match gotten, hmore, hstarved with
      | none, _, hstarved => exact ⟨_, _, _, rfl, hread₂, hmoves, hle, fun _ => hstarved rfl⟩
      | some 0, _, hstarved => exact ⟨_, _, _, rfl, hread₂, hmoves, hle, fun _ => hstarved rfl⟩
      | some (n + 1), hmore, _ =>
        obtain ⟨hind₂, hlength₂⟩ := readMore_some hmore
        have hmeasure : 2 * (size - (lstr.inBuffer.length - lstr.inBufferInd)) +
            (if lstr₂.inBufferInd < lstr₂.inBuffer.length then 0 else 1) <
              2 * size + (if lstr.inBufferInd < lstr.inBuffer.length then 0 else 1) := by
          rw [if_pos (by omega)]
          split <;> omega
        obtain ⟨data, errorOccurred, lstr₃, hloop, hread₃, hmoves₃, hlength₃, hstarved⟩ :=
          ih _ hmeasure _ hread₂ (.inr hunget₂) rfl
        rw [hloop]
        refine ⟨_, _, _, rfl, hread₃, hmoves.trans hmoves₃, ?_, fun hlt₃ => hstarved ?_⟩
        · rw [length_append, hlength₁]
          dsimp only
          omega
        · rw [length_append, hlength₁] at hlt₃
          dsimp only at hlt₃
          omega
    · obtain ⟨hread, hmoves, hlength⟩ := takeIn_moves h hunget _ (Nat.not_lt.mp hlt)
      refine ⟨_, false, _, ?_, hread, hmoves, Nat.le_of_eq hlength, ?_⟩
      · rw [readLoop, if_neg (Nat.ne_of_gt hpos), Nat.min_eq_left (Nat.not_lt.mp hlt)]
        dsimp only
        rw [if_pos (Nat.sub_self _)]
      · rw [hlength]
        exact fun h => absurd h (Nat.lt_irrefl _)

theorem StartsChar.append (h : StartsChar data) (hne : data ≠ []) : StartsChar (data ++ data') := by
  obtain ⟨b, data, rfl⟩ := exists_cons_of_ne_nil hne
  exact h

theorem spitBack_moves (h : Readable lstr₁) (hmoves : Moves lstr data lstr₁)
    (hfirst : lstr.noPartialChars = true → data ≠ [] → ∃ b ∈ data, bufbyteFirstByteP b = true) :
    ∃ data' lstr₂, spitBack lstr₁ data = .ok (data', lstr₂) ∧ Readable lstr₂ ∧
      Moves lstr data' lstr₂ ∧ data'.length ≤ data.length ∧
        (lstr.noPartialChars = true → Boundary data' (queue lstr₂)) ∧
          (lstr.noPartialChars = false → data' = data ∧ lstr₂ = lstr₁) := by
  rw [spitBack, hmoves.chars]
  by_cases hchars : lstr.noPartialChars = true ∧ data ≠ []
  · rw [if_pos hchars]
    obtain ⟨newoff, hchop, hle, hwhole⟩ := chopped_spec (hfirst hchars.1 hchars.2)
    simp only [hchop, bind, Except.bind]
    obtain ⟨rfl, hwhole⟩ | ⟨hlt, hstarts⟩ := hwhole
    · rw [if_neg (not_not_intro rfl)]
      exact ⟨_, _, rfl, h, hmoves, Nat.le_refl _, fun _ => .inr (.inl hwhole),
        fun hbytes => absurd hchars.1 (by rw [hbytes]; exact Bool.false_ne_true)⟩
    · rw [if_pos (Nat.ne_of_lt hlt)]
      have hunread := lstreamUnread_moves lstr₁ (data.drop newoff)
      have hne : data.drop newoff ≠ [] := by rwa [ne_eq, drop_eq_nil_iff, Nat.not_le]
      have hboundary : Boundary (data.take newoff)
          (queue (lstreamUnread lstr₁ (data.drop newoff))) := by
        rw [hunread.queue]
        exact .inr (.inr ⟨append_ne_nil_of_left_ne_nil hne _, hstarts.append hne⟩)
      have hback : Moves lstr (data.take newoff ++ data.drop newoff) lstr₁ := by
        rwa [take_append_drop]
      exact ⟨_, _, rfl, h.unread _, hback.cancel hunread, length_take_le' _ _,
        fun _ => hboundary,
        fun hbytes => absurd hchars.1 (by rw [hbytes]; exact Bool.false_ne_true)⟩
  · rw [if_neg hchars]
    refine ⟨_, _, rfl, h, hmoves, Nat.le_refl _, fun hon => ?_, fun _ => ⟨rfl, rfl⟩⟩
    exact .inl (of_not_not fun hne => hchars ⟨hon, hne⟩)

/-- **`Lstream_read`** delivers a piece of the queue, in character mode up to a boundary. -/
theorem lstreamRead_moves (h : Readable lstr) (size : ℕ)
    (hstarts : lstr.noPartialChars = true → 0 < size → StartsChar (queue lstr)) :
    ∃ data lstr₁, lstreamRead lstr size = .ok (data, lstr₁) ∧ Readable lstr₁ ∧
      Moves lstr (data.getD []) lstr₁ ∧ (data.getD []).length ≤ size ∧
        (lstr.noPartialChars = true → Boundary (data.getD []) (queue lstr₁)) ∧
          (lstr.noPartialChars = false → (data.getD []).length < size → Starved lstr₁) := by
  rw [lstreamRead]
  obtain rfl | hpos := Nat.eq_zero_or_pos size
  · rw [if_pos rfl]
    exact ⟨_, _, rfl, h, .refl lstr, Nat.le_refl _, fun _ => .inl rfl,
      fun _ h => absurd h (Nat.lt_irrefl _)⟩
  · rw [if_neg (Nat.ne_of_gt hpos)]
    obtain ⟨front, lstr₁, htake, hread₁, hmoves₁, hfront, hunget⟩ :=
      takeUnget_moves h (min size lstr.ungetBuffer.length) (Nat.min_le_right _ _)
    have hrest : size - min size lstr.ungetBuffer.length = 0 ∨ lstr₁.ungetBuffer = [] := by
      by_cases hle : size ≤ lstr.ungetBuffer.length
      · exact .inl (by omega)
      · exact .inr (eq_nil_of_length_eq_zero (by omega))
    obtain ⟨back, errorOccurred, lstr₂, hloop, hread₂, hmoves₂, hback, hstarved⟩ :=
      readLoop_moves _ hread₁ hrest
    have hmoves := hmoves₁.trans hmoves₂
    have hfirst (hchars : lstr.noPartialChars = true) (hne : front ++ back ≠ []) :
        ∃ b ∈ front ++ back, bufbyteFirstByteP b = true := by
      have hqueue := hstarts hchars hpos
      rw [hmoves.queue] at hqueue
      refine StartsChar.exists_first (fun b hb => hqueue b ?_) hne
      rwa [head?_append_of_ne_nil _ hne]
    obtain ⟨data, lstr₃, hspit, hread₃, hmoves₃, hlength, hboundary, hsame⟩ :=
      spitBack_moves hread₂ hmoves hfirst
    rw [length_append] at hlength
    have hdata : (if data = [] ∧ errorOccurred = true then none else some data).getD [] = data := by
      split
      · rename_i hnil
        exact hnil.1.symm
      · rfl
    simp only [htake, hloop, hspit, bind, Except.bind]
    refine ⟨_, _, rfl, hread₃, ?_, ?_, ?_, ?_⟩ <;> rw [hdata]
    · exact hmoves₃
    · omega
    · exact hboundary
    · intro hbytes hlt
      obtain ⟨rfl, rfl⟩ := hsame hbytes
      rw [length_append] at hlt
      exact hstarved (by omega)

/-- **`Lstream_getc`** delivers the next byte of the queue, if any. -/
theorem lstreamGetc_moves (h : Readable lstr)
    (hstarts : lstr.noPartialChars = true → lstr.ungetBuffer = [] →
      lstr.inBufferInd = lstr.inBuffer.length → StartsChar (queue lstr)) :
    ∃ c lstr₁, lstreamGetc lstr = .ok (c, lstr₁) ∧ Readable lstr₁ ∧ Moves lstr c.toList lstr₁ ∧
      (lstr.noPartialChars = false → c = none → Starved lstr₁) := by
  rw [lstreamGetc]
  obtain hnil | ⟨unget, b, hunget⟩ := eq_nil_or_concat lstr.ungetBuffer
  · rw [if_neg (by rw [hnil]; exact Nat.lt_irrefl 0)]
    have hle := h.ind_le
    split
    · rename_i hlt
      obtain ⟨hread, hmoves, -⟩ := takeIn_moves h hnil 1 (by omega)
      refine ⟨_, _, rfl, hread, ?_, fun _ hnone => ?_⟩
      · have hone : (takeIn 1 lstr).1 = (lstr.inBuffer[lstr.inBufferInd]?).toList := by
          rw [getElem?_eq_getElem hlt, takeIn, drop_eq_getElem_cons hlt]
          rfl
        rwa [hone] at hmoves
      · rw [getElem?_eq_getElem hlt] at hnone
        cases hnone
    · obtain ⟨data, lstr₁, hrun, hread, hmoves, hlength, -, hstarved⟩ :=
        lstreamRead_moves h 1 fun hchars _ => hstarts hchars hnil (by omega)
      have hone : (data.bind List.head?).toList = data.getD [] := by
        match data, hlength with
        | none, _ => rfl
        | some [], _ => rfl
        | some [_], _ => rfl
      simp only [lstreamFgetc, hrun, bind, Except.bind]
      refine ⟨_, _, rfl, hread, by rwa [hone], fun hbytes hnone => hstarved hbytes ?_⟩
      rw [← hone, hnone]
      exact Nat.one_pos
  · rw [concat_eq_append] at hunget
    have hlength : lstr.ungetBuffer.length = unget.length + 1 := by
      rw [hunget, length_append, length_singleton]
    have hdrop : lstr.ungetBuffer.dropLast = unget := by rw [hunget, dropLast_concat]
    have hlast : lstr.ungetBuffer.getLast? = some b := by rw [hunget, getLast?_concat]
    have hle := h.unget_le
    rw [if_pos (by omega), hdrop, hlast]
    refine ⟨_, _, rfl, ⟨h.isOpen, h.flagRead, h.reader, h.ind_le, h.in_le, ?_⟩,
      ⟨?_, rfl, rfl, rfl⟩, nofun⟩
    · dsimp only
      omega
    · rw [queue, hunget, reverse_append]
      rfl

theorem lstreamUngetc_moves (h : Readable lstr) (c : Bufbyte) :
    Readable (lstreamUngetc lstr c) ∧ Moves (lstreamUngetc lstr c) [c] lstr := by
  rw [lstreamUngetc]
  split
  · exact ⟨h.unread _, lstreamUnread_moves _ _⟩
  · refine ⟨⟨h.isOpen, h.flagRead, h.reader, h.ind_le, h.in_le, ?_⟩,
      ⟨?_, (Int.sub_add_cancel _ _).symm, rfl, rfl⟩⟩
    · dsimp only
      rw [length_append, length_singleton]
      omega
    · rw [queue, reverse_append]
      rfl

/-! ### Runs -/

/-- The functions that read. -/
inductive Call
  | read (size : ℕ)
  | getc
  | unread (data : List Bufbyte)
  | ungetc (c : Bufbyte)

/-- A stream and what has been delivered and pushed back. -/
structure Session where
  stream : Lstream
  events : List (Event Bufbyte)

/-- What `Lstream_getc` delivers. -/
def got : Option Bufbyte → Event Bufbyte
  | none => .took 1 []
  | some c => .single c

/-- A call of one of the functions. -/
def callStep (s : Session) : Call → Option Session
  | .read size => (lstreamRead s.stream size).toOption.map
      fun r => ⟨r.2, s.events ++ [.took size (r.1.getD [])]⟩
  | .getc => (lstreamGetc s.stream).toOption.map fun r => ⟨r.2, s.events ++ [got r.1]⟩
  | .unread data => some ⟨lstreamUnread s.stream data, s.events ++ [.pushed data]⟩
  | .ungetc c => some ⟨lstreamUngetc s.stream c, s.events ++ [.pushed [c]]⟩

/-- In character mode `Lstream_read`, and `Lstream_getc` when it comes to that, are not called
in the middle of a character. -/
def AtChar (s : Session) : Call → Prop
  | .read size => s.stream.noPartialChars = true → 0 < size → StartsChar (queue s.stream)
  | .getc => s.stream.noPartialChars = true → s.stream.ungetBuffer = [] →
      s.stream.inBufferInd = s.stream.inBuffer.length → StartsChar (queue s.stream)
  | .unread _ => True
  | .ungetc _ => True

/-- The reader always gives something of what it has. -/
def Gives (lstr : Lstream) : Prop :=
  ∀ f ∈ answers lstr, ∀ call size, 0 < size → 0 < f call size

/-- In character mode `Lstream_read` stops at the boundary of a character; else it stops short at
the end only, if the reader always gives something. -/
def Delivery (lstr : Lstream) : Event Bufbyte → List Bufbyte → Prop
  | .took size data, back =>
    (lstr.noPartialChars = true → Boundary data back) ∧
      (lstr.noPartialChars = false → Gives lstr → data.length < size → back = [])
  | .single _, _ => True
  | .pushed _, _ => True

/-- All that has happened is what happens to one queue. -/
structure Served (lstr : Lstream) (s : Session) : Prop where
  serves : Serves (Delivery lstr) (queue lstr) s.events (queue s.stream)
  byteCount : s.stream.byteCount + (queue s.stream).length = lstr.byteCount + (queue lstr).length
  chars : s.stream.noPartialChars = lstr.noPartialChars
  answers : answers s.stream = answers lstr

theorem Starved.end (h : Starved lstr₁) (hanswers : answers lstr₁ = answers lstr)
    (hgives : Gives lstr) : queue lstr₁ = [] := by
  obtain hnil | ⟨f, hf, call, size, hsize, hle⟩ := h
  · exact hnil
  · rw [hanswers] at hf
    exact absurd (hgives f hf call size hsize) (Int.not_lt.mpr hle)

variable {s : Session} {e : Event Bufbyte}

theorem Served.deliver (h : Served lstr s) (hmoves : Moves s.stream data lstr₁)
    (hlead : e.Leads (queue s.stream) (queue lstr₁)) (hok : Delivery lstr e (queue lstr₁)) :
    Served lstr ⟨lstr₁, s.events ++ [e]⟩ := by
  refine ⟨h.serves.step hlead hok, ?_, hmoves.chars.trans h.chars, hmoves.answers.trans h.answers⟩
  rw [← h.byteCount, hmoves.byteCount, hmoves.queue, length_append]
  dsimp only
  omega

theorem Served.push (h : Served lstr s) (hmoves : Moves lstr₁ data s.stream) :
    Served lstr ⟨lstr₁, s.events ++ [.pushed data]⟩ := by
  refine ⟨h.serves.step (e := .pushed data) hmoves.queue trivial, ?_,
    hmoves.chars.symm.trans h.chars, hmoves.answers.symm.trans h.answers⟩
  rw [← h.byteCount, hmoves.byteCount, hmoves.queue, length_append]
  dsimp only
  omega

theorem callStep_served {call : Call} (h : Readable s.stream ∧ Served lstr s)
    (hcall : AtChar s call) :
    ∃ s', callStep s call = some s' ∧ Readable s'.stream ∧ Served lstr s' := by
  obtain ⟨hread, hserved⟩ := h
  cases call with
  | read size =>
    obtain ⟨data, lstr₁, hrun, hread₁, hmoves, hlength, hboundary, hstarved⟩ :=
      lstreamRead_moves hread size hcall
    rw [hserved.chars] at hboundary hstarved
    refine ⟨⟨lstr₁, _⟩, ?_, hread₁, hserved.deliver (e := .took size (data.getD [])) hmoves
      ⟨hmoves.queue, hlength⟩ ⟨hboundary, fun hbytes hgives hlt => ?_⟩⟩
    · rw [callStep, hrun]
      rfl
    · exact (hstarved hbytes hlt).end (hmoves.answers.trans hserved.answers) hgives
  | getc =>
    obtain ⟨c, lstr₁, hrun, hread₁, hmoves, hstarved⟩ := lstreamGetc_moves hread hcall
    rw [hserved.chars] at hstarved
    refine ⟨⟨lstr₁, s.events ++ [got c]⟩, by rw [callStep, hrun]; rfl, hread₁, ?_⟩
    cases c with
    | none =>
      refine hserved.deliver hmoves ⟨hmoves.queue, Nat.zero_le _⟩
        ⟨fun _ => .inl rfl, fun hbytes hgives _ => ?_⟩
      exact (hstarved hbytes rfl).end (hmoves.answers.trans hserved.answers) hgives
    | some c => exact hserved.deliver hmoves hmoves.queue trivial
  | unread data =>
    exact ⟨_, rfl, hread.unread data, hserved.push (lstreamUnread_moves s.stream data)⟩
  | ungetc c =>
    obtain ⟨hread₁, hmoves⟩ := lstreamUngetc_moves hread c
    exact ⟨_, rfl, hread₁, hserved.push hmoves⟩

/-- **Reading from a stream** is reading from one queue with push-back, whatever the reader
answers: no byte is lost or comes twice, and in character mode `Lstream_read` delivers whole
characters. -/
theorem reads_served (h : Readable lstr) {calls : List Call}
    (hcalls : StepsMeet callStep AtChar ⟨lstr, []⟩ calls) :
    Always callStep (Served lstr) ⟨lstr, []⟩ calls :=
  (Always.of_step (fun _ _ hs hcall => callStep_served hs hcall) ⟨h, .start, rfl, rfl, rfl⟩
    hcalls).imp fun _ hs => hs.2

/-- Whole pieces are read and pushed back. -/
def Blocks : Call → Prop
  | .read _ => True
  | .getc => False
  | .unread data => ∃ text, data = textBytes text
  | .ungetc c => ∃ text, [c] = textBytes text

/-- A stream in character mode with text to be read. -/
structure InText (s : Session) : Prop where
  readable : Readable s.stream
  chars : s.stream.noPartialChars = true
  text : NoStray (queue s.stream)

theorem InText.step {call : Call} (h : InText s) (hcall : Blocks call) :
    AtChar s call ∧ ∀ s', callStep s call = some s' → InText s' := by
  obtain ⟨hread, hchars, htext⟩ := h
  have hstarts := htext.startsChar
  cases call with
  | read size =>
    refine ⟨fun _ _ => hstarts, fun s' hs' => ?_⟩
    obtain ⟨data, lstr₁, hrun, hread₁, hmoves, -, hboundary, -⟩ :=
      lstreamRead_moves hread size fun _ _ => hstarts
    rw [callStep, hrun] at hs'
    cases hs'
    rw [hmoves.queue] at htext
    exact ⟨hread₁, hmoves.chars.trans hchars, htext.of_boundary (hboundary hchars)⟩
  | getc => exact hcall.elim
  | unread data =>
    obtain ⟨text, rfl⟩ := hcall
    refine ⟨trivial, fun s' hs' => ?_⟩
    cases hs'
    refine ⟨hread.unread _, hchars, ?_⟩
    rw [(lstreamUnread_moves _ _).queue]
    exact htext.text_append text
  | ungetc c =>
    obtain ⟨text, htextc⟩ := hcall
    refine ⟨trivial, fun s' hs' => ?_⟩
    cases hs'
    obtain ⟨hread₁, hmoves⟩ := lstreamUngetc_moves hread c
    refine ⟨hread₁, hmoves.chars.symm.trans hchars, ?_⟩
    rw [hmoves.queue, htextc]
    exact htext.text_append text

theorem InText.atChar (h : InText s) {calls : List Call} (hcalls : ∀ call ∈ calls, Blocks call) :
    StepsMeet callStep AtChar s calls := by
  have hstep (s : Session) (call : Call) (hs : InText s) (hcall : Blocks call) :
      AtChar s call ∧ ∀ s', callStep s call = some s' → InText s' := hs.step hcall
  exact (StepsMeet.keeps hstep h (.of_forall hcalls)).1

/-- A stream to read the characters a and hiragana A from, one byte at a time. -/
def twoChars : Lstream :=
  lstreamNew (some ⟨textBytes [Buffer.letterA, Buffer.hiraganaA], fun _ _ => 1, 0⟩) none none
    true true

theorem twoChars_inText : InText ⟨twoChars, []⟩ := by
  refine ⟨⟨rfl, rfl, ⟨_, rfl⟩, Nat.le_refl 0, Nat.zero_le _, Nat.zero_le _⟩, rfl, ?_⟩
  have htext := noStray_nil.text_append [Buffer.letterA, Buffer.hiraganaA]
  rwa [append_nil] at htext

theorem reads_served_twoChars :
    Always callStep (Served twoChars) ⟨twoChars, []⟩ [.read 3, .unread [0x61], .read 8] :=
  reads_served twoChars_inText.readable (twoChars_inText.atChar
    (List.forall_mem_cons.mpr ⟨trivial, List.forall_mem_cons.mpr ⟨⟨[Buffer.letterA], rfl⟩,
      List.forall_mem_singleton.mpr trivial⟩⟩))

/-- In character mode single bytes come off at the boundaries of characters, too. -/
def WholeDelivery (lstr : Lstream) (e : Event Bufbyte) (back : List Bufbyte) : Prop :=
  Delivery lstr e back ∧ ∀ c, e = .single c → lstr.noPartialChars = true → Boundary [c] back

/-- `Lstream_getc` delivers the bytes of a character one by one. -/
theorem reads_single : ¬ ∀ (lstr : Lstream) (calls : List Call), Readable lstr →
    Always callStep (fun s => Serves (WholeDelivery lstr) (queue lstr) s.events (queue s.stream))
      ⟨lstr, []⟩ calls := by
  intro h
  obtain ⟨-, s₁, hs₁, -, s₂, hs₂, hserves⟩ :=
    h twoChars [.unread [0x81, 0xE9], .getc] twoChars_inText.readable
  cases hs₁
  cases hs₂
  obtain ⟨q, -, -, -, hok⟩ := hserves.last
  have hincomplete : Incomplete [0x81] := ⟨[], 0x81, [], rfl, rfl, nofun, by decide⟩
  obtain hnil | hwhole | ⟨-, hstarts⟩ := hok 0x81 rfl rfl
  · cases hnil
  · exact hwhole.not_incomplete hincomplete
  · exact absurd (hstarts 0xE9 rfl) (by decide)

end XEmacs.Lstreams

import XEmacs.Lib.BytePositions
import XEmacs.Lib.ByteMemory

/-!
# The gap of a buffer's text (insdel.c)

A buffer's text stands in memory with a gap at `gpt` and a second gap after its end.
-/

namespace XEmacs.Gap

open BytePositions ByteMemory

abbrev Bufbyte := UInt8

/-! ## Quitting (lisp.h, signal.c, eval.c) -/

/-- A value of `quit-flag`. -/
inductive QuitFlag where
  | nil
  | t
  | critical
  deriving DecidableEq

/-- The state of quitting and what is to come: `typed` is what `quit_p_cb` will find each
time, `continued` whether the user will return from each signal. -/
structure Interrupts where
  quitFlag : QuitFlag
  inhibitQuit : Bool
  typed : List QuitFlag
  continued : List Bool
  deriving DecidableEq

namespace Interrupts

def checkQuit (q : Interrupts) : Interrupts :=
  match q.typed with
  | [] => q
  | .nil :: typed => { q with typed }
  | key :: typed => { q with quitFlag := key, typed }

/-- The condition of `QUITP`. A critical quit cannot be inhibited. -/
def pending (q : Interrupts) : Bool :=
  q.quitFlag != .nil && (!q.inhibitQuit || q.quitFlag == .critical)

def quitp (q : Interrupts) : Bool × Interrupts := (q.checkQuit.pending, q.checkQuit)

/-- `signal_quit`, and whether it was left without return. -/
def signalQuit (q : Interrupts) : Bool × Interrupts :=
  match q.continued with
  | [] => (true, { q with quitFlag := .nil })
  | c :: continued => (!c, { q with quitFlag := .nil, continued })

/-- `QUIT`, and whether it was left without return. -/
def quit (q : Interrupts) : Bool × Interrupts :=
  if q.checkQuit.pending then q.checkQuit.signalQuit else (false, q.checkQuit)

/-- `Vinhibit_quit = Qt`. -/
def inhibited (q : Interrupts) : Interrupts := { q with inhibitQuit := true }

end Interrupts

/-! ## The text -/

/-- `struct buffer_text`: the bytes by memory index, the position of the gap, the end of
the text in bytes and in characters, and the sizes of the two gaps. -/
structure BufferText where
  beg : Nat → Bufbyte
  gpt : Nat
  z : Nat
  bufz : Nat
  gapSize : Nat
  endGapSize : Nat

/-- How a function of the source ended. -/
structure Outcome where
  left : Bool
  text : BufferText
  quits : Interrupts

/-- What follows is done if there was a return. -/
def Outcome.andThen (r : Outcome) (f : BufferText → Interrupts → Outcome) : Outcome :=
  if r.left then r else f r.text r.quits

/-- The machine: `EMACS_INT_MAX`, and the block that `BUFFER_REALLOC` gets for a size, if
it gets one; beyond the old block its bytes are what they happen to be. -/
structure Machine where
  emacsIntMax : Nat
  realloc : Nat → Option (Nat → Bufbyte)

namespace BufferText

/-- The logical contents: the bytes before the gap and those after it up to `z`. -/
def contents (b : BufferText) : List Bufbyte :=
  segment b.beg 1 (b.gpt - 1) ++ segment b.beg (b.gpt + b.gapSize) (b.z - b.gpt)

/-- `BI_BUF_BYTE_ADDRESS`, as a memory index. -/
def byteAddress (b : BufferText) (pos : Nat) : Nat :=
  if b.gpt ≤ pos then pos + b.gapSize else pos

def setGapSentinel (b : BufferText) : BufferText := { b with beg := store b.beg b.gpt 0 }

def setEndSentinel (b : BufferText) : BufferText :=
  { b with beg := store b.beg (b.gapSize + b.z) 0 }

/-- `GAP_CAN_HOLD_SIZE_P`. -/
def gapCanHoldSize (b : BufferText) (len : Nat) : Bool := len + 1 ≤ b.gapSize

/-! ## Motion of the gap -/

def gapMoveChunk : Nat := 300000

/-- The loop of `gap_left`; `pos` is where the gap is wanted, the result begins with where
it got. The first argument bounds the rounds. -/
def gapLeftLoop (pos : Nat) :
    Nat → Nat → Nat → Nat → (Nat → Bufbyte) → Interrupts →
      Nat × (Nat → Bufbyte) × Interrupts
  | 0, newS1, _, _, m, q => (newS1, m, q)
  | rounds + 1, newS1, src, dst, m, q =>
    let i := newS1 - pos
    if i = 0 then (pos, m, q)
    else
      let (stop, q) := q.quitp
      if stop then (newS1, m, q)
      else
        let i := min i gapMoveChunk
        let m :=
          if 128 ≤ i then memmove m (dst - i) (src - i) i else copyDown i dst src m
        gapLeftLoop pos rounds (newS1 - i) (src - i) (dst - i) m q

def gapLeft (b : BufferText) (q : Interrupts) (pos : Nat) : Outcome :=
  let (pos, m, q) :=
    gapLeftLoop pos (b.gpt - pos) b.gpt b.gpt (b.gpt + b.gapSize) b.beg q
  ⟨q.quit.1, { b with beg := m, gpt := pos }.setGapSentinel, q.quit.2⟩

/-- The loop of `gap_right`. -/
def gapRightLoop (pos : Nat) :
    Nat → Nat → Nat → Nat → (Nat → Bufbyte) → Interrupts →
      Nat × (Nat → Bufbyte) × Interrupts
  | 0, newS1, _, _, m, q => (newS1, m, q)
  | rounds + 1, newS1, src, dst, m, q =>
    let i := pos - newS1
    if i = 0 then (pos, m, q)
    else
      let (stop, q) := q.quitp
      if stop then (newS1, m, q)
      else
        let i := min i gapMoveChunk
        let m := if 128 ≤ i then memmove m dst src i else copyUp i dst src m
        gapRightLoop pos rounds (newS1 + i) (src + i) (dst + i) m q

def gapRight (b : BufferText) (q : Interrupts) (pos : Nat) : Outcome :=
  let (pos, m, q) :=
    gapRightLoop pos (pos - b.gpt) b.gpt (b.gpt + b.gapSize) b.gpt b.beg q
  let b := { b with beg := m, gpt := pos }.setGapSentinel
  let b :=
    if pos = b.z then
      { b with gapSize := b.gapSize + b.endGapSize, endGapSize := 0 }.setEndSentinel
    else b
  ⟨q.quit.1, b, q.quit.2⟩

def moveGap (b : BufferText) (q : Interrupts) (pos : Nat) : Outcome :=
  if pos < b.gpt then b.gapLeft q pos
  else if b.gpt < pos then b.gapRight q pos
  else ⟨false, b, q⟩

/-! ## Growth of the gap -/

/-- The end of `merge_gap_with_end_gap` and `make_gap`: `increment` bytes after the text
are taken for the gap, moved down to the end of the gap and joined with it. -/
def joinEndGap (b : BufferText) (q : Interrupts) (increment : Nat) : Outcome :=
  let tem := q.inhibitQuit
  let realGapLoc := b.gpt
  let oldGapSize := b.gapSize
  let b := { b with gpt := b.z + b.gapSize, gapSize := increment, endGapSize := 0 }
  (b.gapLeft q.inhibited (realGapLoc + oldGapSize)).andThen fun b q =>
    let b := { b with gapSize := b.gapSize + oldGapSize, gpt := realGapLoc }
    ⟨false, b.setGapSentinel.setEndSentinel, { q with inhibitQuit := tem }⟩

def mergeGapWithEndGap (b : BufferText) (q : Interrupts) : Outcome :=
  let increment := b.endGapSize
  let b := { b with endGapSize := 0 }
  if 0 < increment then b.joinEndGap q increment else ⟨false, b, q⟩

/-- The size of the block that holds the text with a second gap of `increment` bytes and
the last sentinel. -/
def blockSize (b : BufferText) (increment : Nat) : Nat := b.z - 1 + b.gapSize + increment + 1

/-- `BUFFER_REALLOC` gave a block: what the old one held is kept. -/
def reallocated (b : BufferText) (new : Nat → Bufbyte) : BufferText :=
  { b with beg := fun a => if a ≤ b.blockSize b.endGapSize then b.beg a else new a }

def makeGap (machine : Machine) (b : BufferText) (q : Interrupts) (increment : Nat) :
    Outcome :=
  let increment := increment + (2000 + (b.z - 1) / 8)
  if b.endGapSize < increment then
    if machine.emacsIntMax < b.bufz - 1 + b.gapSize + increment then ⟨true, b, q⟩
    else
      match machine.realloc (b.blockSize increment) with
      | none => ⟨true, b, q⟩
      | some new => (b.reallocated new).joinEndGap q increment
  else b.joinEndGap q b.endGapSize

/-! ## Changes of the text -/

/-- `bytecount_to_charcount`: the bytes that begin a character. -/
def bytecountToCharcount (s : List Bufbyte) : Nat := s.countP (· < 0xA0)

/-- The room that `buffer_insert_string_1` makes for `length` bytes. -/
def makeRoom (machine : Machine) (b : BufferText) (q : Interrupts) (length : Nat) :
    Outcome :=
  if b.gapCanHoldSize length then ⟨false, b, q⟩
  else if length ≤ b.endGapSize then b.mergeGapWithEndGap q
  else b.makeGap machine q (length - b.gapSize)

/-- The bytes that `buffer_insert_string_1` puts into the gap. -/
def fillGap (b : BufferText) (s : List Bufbyte) : BufferText :=
  { b with
    beg := memcpy b.beg b.gpt s
    gapSize := b.gapSize - s.length
    gpt := b.gpt + s.length
    bufz := b.bufz + bytecountToCharcount s
    z := b.z + s.length }.setGapSentinel

/-- `buffer_insert_string_1`, with the position as the byte position it is converted to. -/
def bufferInsertString1 (machine : Machine) (b : BufferText) (q : Interrupts) (ind : Nat)
    (s : List Bufbyte) : Outcome :=
  if machine.emacsIntMax < s.length + b.bufz then ⟨true, b, q⟩
  else
    (if ind ≠ b.gpt then b.moveGap q ind else ⟨false, b, q⟩).andThen fun b q =>
    (b.makeRoom machine q s.length).andThen fun b q => ⟨false, b.fillGap s, q⟩

/-- The end of the text given to the end gap by `buffer_delete_range`. -/
def cutBottom (b : BufferText) (numdel bcNumdel : Nat) : BufferText :=
  { b with
    endGapSize := b.endGapSize + bcNumdel
    bufz := b.bufz - numdel
    z := b.z - bcNumdel }.setGapSentinel

/-- The bytes around the gap given to it by `buffer_delete_range`. -/
def widenGap (b : BufferText) (numdel bcNumdel biFrom : Nat) : BufferText :=
  { b with
    gapSize := b.gapSize + bcNumdel
    bufz := b.bufz - numdel
    z := b.z - bcNumdel
    gpt := biFrom }.setGapSentinel

/-- `buffer_delete_range`, with the range in characters and the byte positions it is
converted to. -/
def bufferDeleteRange (b : BufferText) (q : Interrupts) (start stop biFrom biTo : Nat) :
    Outcome :=
  let numdel := stop - start
  let bcNumdel := biTo - biFrom
  if numdel = 0 then ⟨false, b, q⟩
  -- the gap is not moved just to delete from the bottom
  else if stop = b.bufz ∧ b.gpt < biFrom then ⟨false, b.cutBottom numdel bcNumdel, q⟩
  else
    (if biTo < b.gpt then b.gapLeft q biTo else ⟨false, b, q⟩).andThen fun b q =>
    (if b.gpt < biFrom then b.gapRight q biFrom else ⟨false, b, q⟩).andThen fun b q =>
    ⟨false, b.widenGap numdel bcNumdel biFrom, q⟩

end BufferText

/-- A text as it stands between two changes: the gap lies in the text and has room for its
sentinel. -/
structure GapBuffer extends BufferText where
  one_le_gpt : 1 ≤ gpt
  gpt_le_z : gpt ≤ z
  one_le_gapSize : 1 ≤ gapSize

def initBufferText (block : Nat → Bufbyte) : GapBuffer where
  beg := store (store block 1 0) 21 0
  gpt := 1
  z := 1
  bufz := 1
  gapSize := 20
  endGapSize := 0
  one_le_gpt := Nat.le_refl 1
  gpt_le_z := Nat.le_refl 1
  one_le_gapSize := Nat.le_add_left 1 19

end XEmacs.Gap

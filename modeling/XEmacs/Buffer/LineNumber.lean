import XEmacs.Buffer.Text

/-!
# The line-number cache (line-number.c, insdel.c, editfns.c)

The text and the accessible region of a buffer without indirect buffers, and its line number
cache: a ring of markers with their lines, newest first, and the line of `BEGV`, which is -1 when
it has to be computed again.
-/

namespace XEmacs.Buffer

open BytePositions

/-- A newline has one byte. -/
def Emchar.isNewline (c : Emchar) : Bool := c.first == 0x0A

/-- The number of newlines a character is. -/
def newlineWeight (c : Emchar) : Nat := if c.isNewline then 1 else 0

/-- The number of newlines in a text. -/
abbrev newlines (l : List Emchar) : Nat := byteLength newlineWeight l

def lineNumberRingSize : Nat := 8

def lineNumberFar : Nat := 16384

def lineNumberLargeString : Nat := 256

/-- A pair of the ring: the position of its marker, and its line. -/
structure RingPair where
  marker : Nat
  line : Int
  deriving DecidableEq

/-- An initialized cache. -/
structure LineNumberCache where
  ring : List RingPair
  begvLine : Int
  deriving DecidableEq

/-- The part of a buffer the line numbers depend on. -/
structure LineBuffer where
  text : List Emchar
  begv : Nat
  zv : Nat
  cache : Option LineNumberCache
  deriving DecidableEq

namespace LineBuffer

def z (b : LineBuffer) : Nat := b.text.length + 1

/-- The pairs of the ring; none without a cache. -/
def ring (b : LineBuffer) : List RingPair := (b.cache.map LineNumberCache.ring).getD []

/-- Change the ring of an initialized cache. -/
def mapRing (b : LineBuffer) (g : List RingPair → List RingPair) : LineBuffer :=
  { b with cache := b.cache.map fun cache => { cache with ring := g cache.ring } }

/-! ## The cache -/

def narrowLineNumberCache (b : LineBuffer) : LineBuffer :=
  { b with cache := b.cache.map fun cache =>
      { cache with begvLine := if 1 = b.begv then 0 else -1 } }

def allocateLineNumberCache (b : LineBuffer) : LineBuffer :=
  { b with cache := some { ring := [], begvLine := 0 } }.narrowLineNumberCache

def invalidateLineNumberCache (b : LineBuffer) (pos : Nat) : LineBuffer :=
  b.mapRing fun ring => ring.filter fun pair => !(pair.marker ≥ pos)

/-- When `insert_invalidate_line_number_cache` invalidates. -/
def insertInvalidates (c : List Emchar) : Bool :=
  byteLength Emchar.width c > lineNumberLargeString || c.any Emchar.isNewline

def insertInvalidateLineNumberCache (b : LineBuffer) (pos : Nat) (c : List Emchar) :
    LineBuffer :=
  if insertInvalidates c then b.invalidateLineNumberCache pos else b

/-- When `delete_invalidate_line_number_cache` invalidates. -/
def deleteInvalidates (b : LineBuffer) (start stop : Nat) : Bool :=
  stop - start > lineNumberLargeString || (between b.text start stop).any Emchar.isNewline

def deleteInvalidateLineNumberCache (b : LineBuffer) (start stop : Nat) : LineBuffer :=
  if b.deleteInvalidates start stop then b.invalidateLineNumberCache start else b

/-- The distance of two positions. -/
def howFar (pos pos' : Nat) : Nat := if pos < pos' then pos' - pos else pos - pos'

/-- `get_nearest_line_number`: the position with a known line and its line, of `beg` and
those in the ring. -/
def getNearestLineNumber (ring : List RingPair) (beg pos : Nat) (line : Int) : RingPair :=
  ring.foldl (fun known pair => if howFar pair.marker pos < howFar known.marker pos then pair
    else known) ⟨beg, line⟩

def addPositionToCache (b : LineBuffer) (pos : Nat) (line : Int) : LineBuffer :=
  b.mapRing fun ring => ⟨pos, line⟩ :: ring.take (lineNumberRingSize - 1)

/-- The newlines `scan_buffer` finds from `beg` to `pos`, negative backward. -/
def scanLines (text : List Emchar) (beg pos : Nat) : Int :=
  if pos > beg then newlines (between text beg pos) else -newlines (between text pos beg)

/-- `buffer_line_number` without the cache. -/
def uncachedLineNumber (b : LineBuffer) (pos : Nat) : Int :=
  scanLines b.text b.begv pos

/-- The cache as a far query finds it: allocated, and with the line of `BEGV`. That is
computed by a query for `BEGV` itself, which is not far and does not use the cache. -/
def withBegvLine (b : LineBuffer) : LineBuffer :=
  let b := if b.cache.isNone then b.allocateLineNumberCache else b
  { b with cache := b.cache.map fun cache =>
      if cache.begvLine = -1 then { cache with begvLine := b.uncachedLineNumber b.begv }
      else cache }

/-- `LINE_NUMBER_BEGV`. -/
def begvLine (b : LineBuffer) : Int := (b.cache.map LineNumberCache.begvLine).getD 0

/-- `buffer_line_number`: the line and the buffer with the cache it leaves. -/
def bufferLineNumber (b : LineBuffer) (pos : Nat) (cachep : Bool) : Int × LineBuffer :=
  if cachep ∧ ¬ howFar pos b.begv ≤ lineNumberFar then
    let b := b.withBegvLine
    let known := getNearestLineNumber b.ring b.begv pos b.begvLine
    let line := scanLines b.text known.marker pos + known.line
    let b' := if howFar pos known.marker > lineNumberFar then b.addPositionToCache pos line
      else b
    (line - b'.begvLine, b')
  else (b.uncachedLineNumber pos, b)

/-! ## Changes -/

/-- Where an insertion moves a marker to. `beforeMarkers` is `INSDEL_BEFORE_MARKERS`. -/
def insertMoves (p length : Nat) (beforeMarkers : Bool) (m : Nat) : Nat :=
  if p < m ∨ m = p ∧ beforeMarkers then m + length else m

/-- Where a deletion moves a marker to. -/
def deleteMoves (start stop m : Nat) : Nat :=
  if m ≤ start then m else if m ≤ stop then start else m - (stop - start)

/-- Move the markers of the ring. -/
def moveMarkers (b : LineBuffer) (g : Nat → Nat) : LineBuffer :=
  b.mapRing fun ring => ring.map fun pair => { pair with marker := g pair.marker }

/-- A position moved into the accessible region. -/
def clip (b : LineBuffer) (pos : Nat) : Nat :=
  let pos := if pos < b.begv then b.begv else pos
  if pos > b.zv then b.zv else pos

def bufferInsertString1 (b : LineBuffer) (pos : Nat) (c : List Emchar)
    (beforeMarkers : Bool) : LineBuffer :=
  let p := b.clip pos
  let b := b.insertInvalidateLineNumberCache p c
  { b with text := insertAt b.text p c, zv := b.zv + c.length }.moveMarkers
    (insertMoves p c.length beforeMarkers)

def bufferDeleteRange (b : LineBuffer) (start stop : Nat) : LineBuffer :=
  let start := if start < b.begv then b.begv else start
  let stop := if stop > b.zv then b.zv else stop
  if stop ≤ start then b
  else
    let b := b.deleteInvalidateLineNumberCache start stop
    { b with text := deleteRange b.text start stop, zv := b.zv - (stop - start) }.moveMarkers
      (deleteMoves start stop)

/-- The in-place replacement of `buffer_replace_char`. -/
def setChar (b : LineBuffer) (pos : Nat) (ch : Emchar) : LineBuffer :=
  { b with text := b.text.set (pos - 1) ch }

/-- `buffer_replace_char` of an accessible character. One of another width is deleted and
inserted: at point if point was behind it, which is where it is deleted. -/
def bufferReplaceChar (b : LineBuffer) (pos : Nat) (ch : Emchar) (atPoint : Bool) :
    LineBuffer :=
  match b.text[pos - 1]? with
  | none => b
  | some cur =>
    if cur.width = ch.width then b.setChar pos ch
    else
      let b := b.bufferDeleteRange pos (pos + 1)
      let pos' := if pos ≥ b.zv then b.zv - 1 else pos
      if pos' < b.begv then b
      else b.bufferInsertString1 (if atPoint then pos else pos') [ch] false

/-! ## Narrowing -/

/-- The accessible region. -/
def setClip (b : LineBuffer) (begv zv : Nat) : LineBuffer := { b with begv := begv, zv := zv }

/-- `Fnarrow_to_region`; positions outside the text are an error. -/
def narrowToRegion (b : LineBuffer) (start stop : Nat) : LineBuffer :=
  let lo := min start stop
  let hi := max start stop
  if 1 ≤ lo ∧ hi ≤ b.z then (b.setClip lo hi).narrowLineNumberCache else b

/-- `widen_buffer`. `clipChanged` is the global flag, which may be set before. -/
def widenBuffer (b : LineBuffer) (clipChanged : Bool) : LineBuffer :=
  let b' := b.setClip 1 b.z
  if clipChanged ∨ b.begv ≠ 1 ∨ b.zv ≠ b.z then b'.narrowLineNumberCache else b'

/-- The region `save_restriction_restore` goes back to, of lengths saved before. -/
def restoredRegion (b : LineBuffer) (newhead newtail : Nat) : Nat × Nat :=
  if newhead + newtail > b.z - 1 then (1, b.z) else (1 + newhead, b.z - newtail)

def saveRestrictionRestore (b : LineBuffer) (newhead newtail : Nat) : LineBuffer :=
  let region := b.restoredRegion newhead newtail
  let b' := b.setClip region.1 region.2
  if b.begv ≠ region.1 then b'.narrowLineNumberCache else b'

/-- An operation on the buffer, or a query. -/
inductive LineOp where
  | insert (pos : Nat) (c : List Emchar) (beforeMarkers : Bool)
  | delete (start stop : Nat)
  | replaceChar (pos : Nat) (ch : Emchar) (atPoint : Bool)
  | narrow (start stop : Nat)
  | widen (clipChanged : Bool)
  | restore (newhead newtail : Nat)
  | lineNumber (pos : Nat) (cachep : Bool)

/-- Run an operation. Characters that are not accessible are not replaced, and queries
are made for accessible positions. -/
def LineOp.run (b : LineBuffer) : LineOp → LineBuffer
  | insert pos c beforeMarkers => b.bufferInsertString1 pos c beforeMarkers
  | delete start stop => b.bufferDeleteRange start stop
  | replaceChar pos ch atPoint =>
    if b.begv ≤ pos ∧ pos < b.zv then b.bufferReplaceChar pos ch atPoint else b
  | narrow start stop => b.narrowToRegion start stop
  | widen clipChanged => b.widenBuffer clipChanged
  | restore newhead newtail => b.saveRestrictionRestore newhead newtail
  | lineNumber pos cachep =>
    if b.begv ≤ pos ∧ pos ≤ b.zv then (b.bufferLineNumber pos cachep).2 else b

/-- A buffer whose line numbers have not been asked for. -/
def fresh (text : List Emchar) : LineBuffer where
  text := text
  begv := 1
  zv := text.length + 1
  cache := none

/-- The buffer after a history. -/
def history (text : List Emchar) (l : List LineOp) : LineBuffer :=
  l.foldl LineOp.run (fresh text)

end LineBuffer

end XEmacs.Buffer

import XEmacs.Buffer.Text

/-!
# Converting character and byte positions (insdel.c, buffer.h)

A buffer text remembers a known region, a stretch of characters of one width, by the character
and byte positions of its ends, and sixteen pairs of positions.
-/

namespace XEmacs.Buffer

/-- A position: its `Bufpos` and its `Bytind`. -/
structure Pos where
  buf : Nat
  byt : Nat
  deriving DecidableEq, Repr

/-- Which of the two a conversion is given. -/
inductive Coord where
  | buf
  | byt

/-- The component of a position a conversion compares. -/
def Pos.get (p : Pos) : Coord → Nat
  | .buf => p.buf
  | .byt => p.byt

/-- The `mule_` fields of `struct buffer_text`. -/
structure MuleData where
  min : Pos
  max : Pos
  shifter : Nat
  threeP : Bool
  cache : Fin 16 → Pos

/-- `struct buffer_text`, without the gap. The counter `not_very_random_number` is one
for the whole editor. -/
structure BufferText where
  text : List Emchar
  z : Pos
  mule : MuleData
  notVeryRandomNumber : Nat

/-- The positions of `struct buffer`. -/
structure BufferPositions where
  pt : Pos
  begv : Pos
  zv : Pos

/-- `init_buffer_text`, for a base buffer. -/
def initMuleData : MuleData where
  min := ⟨1, 1⟩
  max := ⟨1, 1⟩
  shifter := 0
  threeP := false
  cache _ := ⟨1, 1⟩

def maxBufposGapSize3 : Nat := 65535 / 3

def maxBytindGapSize3 : Nat := 3 * maxBufposGapSize3

/-- `three_to_one_table [i]`. -/
def threeToOneTable (i : Nat) : Nat := i / 3

/-- The width of the characters of the known region. -/
def MuleData.size (m : MuleData) : Nat := (1 <<< m.shifter) + if m.threeP then 1 else 0

/-! ## Moving the known region -/

/-- The known region while it is moved. -/
structure Region where
  min : Pos
  max : Pos
  size : Nat

/-- An empty known region at a position. -/
def Region.anchor (p : Pos) : Region := { min := p, max := p, size := 1 }

def absDiff (a b : Nat) : Nat := if a < b then b - a else a - b

/-- The choice of `PT`, `ZV` or `BEGV` as a start that is closer than the known
region. -/
def approach (c : Coord) (buf : BufferPositions) (x : Nat) (r : Region) : Region :=
  let heuristicHack := (r.max.get c - r.min.get c) >>> 2
  let diffpt := absDiff x (buf.pt.get c) + heuristicHack
  if x > r.max.get c then
    let diffmax := x - r.max.get c
    let diffzv := absDiff (buf.zv.get c) x + heuristicHack
    let r := if diffpt < diffmax ∧ diffpt ≤ diffzv then Region.anchor buf.pt else r
    if diffzv < diffmax then Region.anchor buf.zv else r
  else
    let diffmin := r.min.get c - x
    let diffbegv := absDiff x (buf.begv.get c) + heuristicHack
    let r := if diffpt < diffmin ∧ diffpt ≤ diffbegv then Region.anchor buf.pt else r
    if diffbegv < diffmin then Region.anchor buf.begv else r

def intMax : Nat := 2147483647

/-- The search for the closest cached position: its distance and its index. -/
def nearestCached (c : Coord) (cache : Fin 16 → Pos) (x : Nat) : Nat × Fin 16 :=
  (List.finRange 16).foldl (fun best i =>
    let diff := absDiff ((cache i).get c) x
    if diff < best.1 then (diff, i) else best) (intMax, 0)

/-- The distance still to go from a region. -/
def Region.diffSoFar (c : Coord) (x : Nat) (r : Region) : Nat :=
  if x > r.max.get c then x - r.max.get c else r.min.get c - x

/-- The choice of a cached position as a start. -/
def tryCache (c : Coord) (cache : Fin 16 → Pos) (x : Nat) (r : Region) : Region :=
  let (minval, found) := nearestCached c cache x
  if minval < r.diffSoFar c x then Region.anchor (cache found) else r

/-- One round of the loop that moves the region forward. -/
def Region.forward (bytes : List Bufbyte) (r : Region) : Region :=
  let newmax := incBytind bytes r.max.byt
  let newsize := newmax - r.max.byt
  let r := if newsize ≠ r.size then { r with min := r.max, size := newsize } else r
  { r with max := ⟨r.max.buf + 1, newmax⟩ }

/-- One round of the loop that moves the region backward. -/
def Region.backward (bytes : List Bufbyte) (r : Region) : Region :=
  let newmin := decBytind bytes r.min.byt
  let newsize := r.min.byt - newmin
  let r := if newsize ≠ r.size then { r with max := r.min, size := newsize } else r
  { r with min := ⟨r.min.buf - 1, newmin⟩ }

/-- The forward loop; a round moves the end by one character. -/
def forwardLoop (c : Coord) (bytes : List Bufbyte) (x : Nat) : Nat → Region → Region
  | 0, r => r
  | fuel + 1, r =>
    if x > r.max.get c then forwardLoop c bytes x fuel (r.forward bytes) else r

/-- The backward loop. -/
def backwardLoop (c : Coord) (bytes : List Bufbyte) (x : Nat) : Nat → Region → Region
  | 0, r => r
  | fuel + 1, r =>
    if x < r.min.get c then backwardLoop c bytes x fuel (r.backward bytes) else r

/-- Cutting a region of three-byte characters down to the size of
`three_to_one_table`. -/
def Region.clip (forwardP : Bool) (r : Region) : Region :=
  if r.size = 3 ∧ r.max.byt - r.min.byt > maxBytindGapSize3 then
    if forwardP then
      { r with min := ⟨r.max.buf - maxBufposGapSize3, r.max.byt - maxBytindGapSize3⟩ }
    else
      { r with max := ⟨r.min.buf + maxBufposGapSize3, r.min.byt + maxBytindGapSize3⟩ }
  else r

def MuleData.setRegion (m : MuleData) (r : Region) : MuleData :=
  { m with
    min := r.min
    max := r.max
    threeP := r.size = 3
    shifter := if r.size = 3 then 1 else if r.size = 4 then 2 else r.size - 1 }

/-- Storing a pair in the cache, in a place that is not very random. -/
def BufferText.addToCache (t : BufferText) (p : Pos) : BufferText :=
  let number := t.notVeryRandomNumber + 621
  { t with
    notVeryRandomNumber := number
    mule := { t.mule with
      cache := Function.update t.mule.cache (Fin.ofNat 16 number) p } }

/-- The pair with the given component. -/
def Pos.withGiven (p : Pos) (x : Nat) : Coord → Pos
  | .buf => ⟨x, p.byt⟩
  | .byt => ⟨p.buf, x⟩

/-- The common text of `bufpos_to_bytind_func` and `bytind_to_bufpos_func`, for a
position outside the known region: the position found, and the text with its known
region moved there. -/
def convertFunc (c : Coord) (buf : BufferPositions) (t : BufferText) (x : Nat) :
    Pos × BufferText :=
  if x = buf.pt.get c then (buf.pt, t)
  else if x = buf.zv.get c then (buf.zv, t)
  else if x = buf.begv.get c then (buf.begv, t)
  else
    let bytes := textBytes t.text
    let r := approach c buf x { min := t.mule.min, max := t.mule.max, size := t.mule.size }
    let addToCache : Bool := r.diffSoFar c x > 50
    let r := if addToCache then tryCache c t.mule.cache x r else r
    let forwardP : Bool := x ≥ r.max.get c
    let r :=
      if forwardP then forwardLoop c bytes x (x - r.max.get c) r
      else backwardLoop c bytes x (r.min.get c - x) r
    let found := if forwardP then r.max else r.min
    let t := { t with mule := t.mule.setRegion (r.clip forwardP) }
    (found, if addToCache then t.addToCache (found.withGiven x c) else t)

def bufposToBytindFunc (buf : BufferPositions) (t : BufferText) (x : Nat) :
    Nat × BufferText :=
  let (p, t) := convertFunc .buf buf t x
  (p.byt, t)

def bytindToBufposFunc (buf : BufferPositions) (t : BufferText) (x : Nat) :
    Nat × BufferText :=
  let (p, t) := convertFunc .byt buf t x
  (p.buf, t)

/-- `real_bufpos_to_bytind`. -/
def bufposToBytind (buf : BufferPositions) (t : BufferText) (x : Nat) :
    Nat × BufferText :=
  if x ≥ t.mule.min.buf ∧ x ≤ t.mule.max.buf then
    (t.mule.min.byt + (x - t.mule.min.buf) <<< t.mule.shifter +
      (if t.mule.threeP then x - t.mule.min.buf else 0), t)
  else bufposToBytindFunc buf t x

/-- `real_bytind_to_bufpos`. -/
def bytindToBufpos (buf : BufferPositions) (t : BufferText) (x : Nat) :
    Nat × BufferText :=
  if x ≥ t.mule.min.byt ∧ x ≤ t.mule.max.byt then
    (t.mule.min.buf +
      (if t.mule.threeP then threeToOneTable (x - t.mule.min.byt)
      else (x - t.mule.min.byt) >>> t.mule.shifter), t)
  else bytindToBufposFunc buf t x

/-! ## Patching the known region -/

/-- The loop of the insertion hook that extends the known region into the inserted
text from the front, over at most `n` characters. -/
def matchForward (bytes : List Bufbyte) (size : Nat) : Nat → Pos → Pos
  | 0, p => p
  | n + 1, p =>
    let bytenew := incBytind bytes p.byt
    if bytenew - p.byt ≠ size then p
    else matchForward bytes size n ⟨p.buf + 1, bytenew⟩

/-- The same from the back. -/
def matchBackward (bytes : List Bufbyte) (size : Nat) : Nat → Pos → Pos
  | 0, p => p
  | n + 1, p =>
    let bytenew := decBytind bytes p.byt
    if p.byt - bytenew ≠ size then p
    else matchBackward bytes size n ⟨p.buf - 1, bytenew⟩

/-- A position shoved forward by inserted text. -/
def Pos.shove (p : Pos) (bytelength charlength : Nat) : Pos :=
  ⟨p.buf + charlength, p.byt + bytelength⟩

/-- `buffer_mule_signal_inserted_region`; `bytes` is the text after the insertion. -/
def muleSignalInsertedRegion (bytes : List Bufbyte) (m : MuleData)
    (start bytelength charlength : Nat) : MuleData :=
  let size := m.size
  let m := { m with
    cache := fun i => if (m.cache i).buf > start then (m.cache i).shove bytelength charlength
      else m.cache i }
  if start ≥ m.max.buf then m
  else if start ≤ m.min.buf then
    { m with
      min := m.min.shove bytelength charlength
      max := m.max.shove bytelength charlength }
  else
    let bytestart := m.min.byt + size * (start - m.min.buf)
    if start - m.min.buf > m.max.buf - start then
      let p := matchForward bytes size charlength ⟨start, bytestart⟩
      if p.buf ≠ start + charlength then { m with max := p }
      else { m with max := m.max.shove bytelength charlength }
    else
      let m := { m with max := m.max.shove bytelength charlength }
      let p := matchBackward bytes size charlength
        ⟨start + charlength, bytestart + bytelength⟩
      if start ≠ p.buf then { m with min := p } else m

/-- `buffer_mule_signal_deleted_region`. -/
def muleSignalDeletedRegion (m : MuleData) (start stop : Pos) : MuleData :=
  let m := { m with
    cache := fun i =>
      if (m.cache i).buf > stop.buf then
        ⟨(m.cache i).buf - (stop.buf - start.buf), (m.cache i).byt - (stop.byt - start.byt)⟩
      else if (m.cache i).buf > start.buf then start
      else m.cache i }
  let stop : Pos := ⟨min stop.buf m.max.buf, min stop.byt m.max.byt⟩
  if start.buf ≥ stop.buf then m
  else
    let m := { m with
      max := ⟨m.max.buf - (stop.buf - start.buf), m.max.byt - (stop.byt - start.byt)⟩ }
    let stop : Pos := ⟨min stop.buf m.min.buf, min stop.byt m.min.byt⟩
    if start.buf ≥ stop.buf then m
    else
      { m with
        min := ⟨m.min.buf - (stop.buf - start.buf), m.min.byt - (stop.byt - start.byt)⟩ }

end XEmacs.Buffer

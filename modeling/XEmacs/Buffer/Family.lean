import XEmacs.Buffer.Conversion

/-!
# Buffers that share a text (insdel.c, editfns.c)

A base buffer and its indirect buffers share one text; each has its own point and accessible
region. The operations are those of one member (`i`), and `MAP_INDIRECT_BUFFERS` is a map over
all of them.
-/

namespace XEmacs.Buffer

open BytePositions

/-- A text and the buffers that share it, the base buffer first. -/
structure Family (n : Nat) where
  text : BufferText
  members : Fin n → BufferPositions

/-- `init_buffer_text` for a base buffer, then for indirect buffers made of it. -/
def initBufferText (n : Nat) : Family n where
  text :=
    { text := []
      z := ⟨1, 1⟩
      mule := initMuleData
      notVeryRandomNumber := 0 }
  members _ := { pt := ⟨1, 1⟩, begv := ⟨1, 1⟩, zv := ⟨1, 1⟩ }

variable {n : Nat}

/-- The character position of a byte position, by a scan from the start of the text. -/
def scanBytind : List Emchar → Nat → Nat
  | [], _ => 1
  | c :: text, x => if x ≤ 1 then 1 else scanBytind text (x - c.width) + 1

/-- `bufpos_to_bytind` in a member. -/
def Family.bufposToBytind (f : Family n) (i : Fin n) (x : Nat) : Nat × Family n :=
  let (ind, text) := Buffer.bufposToBytind (f.members i) f.text x
  (ind, { f with text := text })

/-- `bytind_to_bufpos` in a member. -/
def Family.bytindToBufpos (f : Family n) (i : Fin n) (x : Nat) : Nat × Family n :=
  let (pos, text) := Buffer.bytindToBufpos (f.members i) f.text x
  (pos, { f with text := text })

def Family.setBufferPoint (f : Family n) (i : Fin n) (p : Pos) : Family n :=
  if p.byt = (f.members i).pt.byt then f
  else { f with members := Function.update f.members i { f.members i with pt := p } }

def Family.bufSetPt (f : Family n) (i : Fin n) (x : Nat) : Family n :=
  let (ind, f) := f.bufposToBytind i x
  f.setBufferPoint i ⟨x, ind⟩

def Family.biBufSetPt (f : Family n) (i : Fin n) (x : Nat) : Family n :=
  let (pos, f) := f.bytindToBufpos i x
  f.setBufferPoint i ⟨pos, x⟩

/-- What an insertion does to `ZV` of each member. -/
def BufferPositions.moveZv (buf : BufferPositions) (length cclen : Nat) : BufferPositions :=
  { buf with zv := buf.zv.shove length cclen }

/-- What it does to `PT`, afterwards. -/
def BufferPositions.movePt (buf : BufferPositions) (ind length cclen : Nat) :
    BufferPositions :=
  { buf with pt := if buf.pt.byt > ind then buf.pt.shove length cclen else buf.pt }

/-- The conversion of an extent endpoint, at a character position, in the buffer of the
extent (`extent_endpoint_bufpos`). -/
def Family.convertEnd (f : Family n) (e : Fin n × Nat) : Family n :=
  if 1 ≤ e.2 ∧ e.2 ≤ f.text.text.length + 1 then
    (f.bytindToBufpos e.1 (bytind f.text.text e.2)).2
  else f

/-- `buffer_insert_string_1` from the conversion of a valid position to the adjustment
of `PT`, with the extent endpoints converted on the way: the byte position and the
changed buffers. -/
def insertString (f : Family n) (i : Fin n) (pos : Nat) (c : List Emchar)
    (ends : List (Fin n × Nat)) : Nat × Family n :=
  let (ind, f) := f.bufposToBytind i pos
  let length := byteLength Emchar.width c
  let cclen := c.length
  let text := insertAt f.text.text (scanBytind f.text.text ind) c
  let f : Family n :=
    { text :=
        { f.text with
          text := text
          z := f.text.z.shove length cclen
          mule := muleSignalInsertedRegion (textBytes text) f.text.mule pos length cclen }
      members := fun j => (f.members j).moveZv length cclen }
  let f := ends.foldl Family.convertEnd f
  (ind, { f with members := fun j => (f.members j).movePt ind length cclen })

/-- A position made valid: moved into the accessible region. -/
def BufferPositions.clip (buf : BufferPositions) (pos : Nat) : Nat :=
  let pos := if pos < buf.begv.buf then buf.begv.buf else pos
  if pos > buf.zv.buf then buf.zv.buf else pos

/-- `buffer_insert_string_1`; without a position (-1 in the source), at point and
moving point. -/
def bufferInsertString1 (f : Family n) (i : Fin n) (pos : Option Nat) (c : List Emchar)
    (ends : List (Fin n × Nat)) : Family n :=
  let (ind, f') :=
    insertString f i ((f.members i).clip (pos.getD (f.members i).pt.buf)) c ends
  if pos.isNone then f'.biBufSetPt i (ind + byteLength Emchar.width c) else f'

/-- What a deletion does to the positions of each member: `ZV` is always moved,
`BEGV` never, and `PT` like a marker. -/
def BufferPositions.deleted (buf : BufferPositions) (start stop : Pos) : BufferPositions :=
  { buf with
    pt :=
      if start.byt < buf.pt.byt then
        if buf.pt.byt < stop.byt then start
        else ⟨buf.pt.buf - (stop.buf - start.buf), buf.pt.byt - (stop.byt - start.byt)⟩
      else buf.pt
    zv := ⟨buf.zv.buf - (stop.buf - start.buf), buf.zv.byt - (stop.byt - start.byt)⟩ }

/-- `buffer_delete_range`. The search for a newline in the deleted range, which only
converts positions, is left to separate conversions. -/
def bufferDeleteRange (f : Family n) (i : Fin n) (start stop : Nat) : Family n :=
  let start := if start < (f.members i).begv.buf then (f.members i).begv.buf else start
  let stop := if stop > (f.members i).zv.buf then (f.members i).zv.buf else stop
  if stop ≤ start then f
  else
    let (biStart, f) := f.bufposToBytind i start
    let (biStop, f) := f.bufposToBytind i stop
    let start : Pos := ⟨start, biStart⟩
    let stop : Pos := ⟨stop, biStop⟩
    { text :=
        { f.text with
          text := deleteRange f.text.text (scanBytind f.text.text biStart)
            (scanBytind f.text.text biStop)
          z := ⟨f.text.z.buf - (stop.buf - start.buf), f.text.z.byt - (stop.byt - start.byt)⟩
          mule := muleSignalDeletedRegion f.text.mule start stop }
      members := fun j => (f.members j).deleted start stop }

/-- `buffer_replace_char` at an accessible position, for a character of the same width;
one of another width is replaced by a `buffer_delete_range` and a
`buffer_insert_string_1`. -/
def bufferReplaceChar (f : Family n) (i : Fin n) (pos : Nat) (ch : Emchar) : Family n :=
  let (ind, f) := f.bufposToBytind i pos
  match f.text.text[scanBytind f.text.text ind - 1]? with
  | none => f
  | some cur =>
    if cur.width = ch.width then
      let (ind, f) := f.bufposToBytind i pos
      { f with
        text := { f.text with text := f.text.text.set (scanBytind f.text.text ind - 1) ch } }
    else f

def gotoChar (f : Family n) (i : Fin n) (x : Nat) : Family n :=
  f.bufSetPt i
    (if x < (f.members i).begv.buf then (f.members i).begv.buf
    else if x > (f.members i).zv.buf then (f.members i).zv.buf
    else x)

/-- `Fnarrow_to_region`; positions outside the text are an error. -/
def narrowToRegion (f : Family n) (i : Fin n) (start stop : Nat) : Family n :=
  if 1 ≤ start ∧ start ≤ stop ∧ stop ≤ f.text.z.buf then
    let (biStart, f) := f.bufposToBytind i start
    let (biStop, f) := f.bufposToBytind i stop
    let f := { f with
      members := Function.update f.members i
        { f.members i with begv := ⟨start, biStart⟩, zv := ⟨stop, biStop⟩ } }
    let f := if (f.members i).pt.buf < start then f.bufSetPt i start else f
    if (f.members i).pt.buf > stop then f.bufSetPt i stop else f
  else f

def widenBuffer (f : Family n) (i : Fin n) : Family n :=
  { f with
    members := Function.update f.members i
      { f.members i with begv := ⟨1, 1⟩, zv := f.text.z } }

/-- An operation on a buffer. `convertedElsewhere` is a conversion in another buffer
that counts up `not_very_random_number`. -/
inductive BufferOp (n : Nat) where
  | insert (pos : Option Nat) (c : List Emchar) (ends : List (Fin n × Nat))
  | delete (start stop : Nat)
  | replaceChar (pos : Nat) (ch : Emchar)
  | gotoChar (x : Nat)
  | narrow (start stop : Nat)
  | widen
  | bufposToBytind (x : Nat)
  | bytindToBufpos (x : Nat)
  | convertedElsewhere

/-- An operation, run on a member. A conversion is given a position of the text, and a
character is replaced at an accessible position; on others the operation does nothing. -/
def BufferOp.run (i : Fin n) (f : Family n) : BufferOp n → Family n
  | insert pos c ends => bufferInsertString1 f i pos c ends
  | delete start stop => bufferDeleteRange f i start stop
  | replaceChar pos ch =>
    if (f.members i).begv.buf ≤ pos ∧ pos < (f.members i).zv.buf then
      bufferReplaceChar f i pos ch
    else f
  | gotoChar x => Buffer.gotoChar f i x
  | narrow start stop => narrowToRegion f i start stop
  | widen => widenBuffer f i
  | bufposToBytind x =>
    if 1 ≤ x ∧ x ≤ f.text.text.length + 1 then (f.bufposToBytind i x).2 else f
  | bytindToBufpos x =>
    if 1 ≤ x ∧ x ≤ f.text.text.length + 1 then
      (f.bytindToBufpos i (bytind f.text.text x)).2
    else f
  | convertedElsewhere =>
    { f with text := { f.text with
        notVeryRandomNumber := f.text.notVeryRandomNumber + 621 } }

end XEmacs.Buffer

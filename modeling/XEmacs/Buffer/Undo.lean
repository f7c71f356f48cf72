import XEmacs.Buffer.Text

/-!
# Recording changes for undo (undo.c, insdel.c)

A buffer that is accessible as a whole, with its undo list, newest record first.
-/

namespace XEmacs.Buffer

open BytePositions

/-- An element of an undo list; `boundary` is `nil`. -/
inductive UndoRecord where
  | boundary
  | point (pos : Nat)
  | modtime (high low : Nat)
  | inserted (beg stop : Nat)
  | deleted (string : List Emchar) (pos : Int)
  deriving DecidableEq

/-- A buffer with undo enabled. `lastUndoBuffer` says that it is the last buffer for
which undo information was recorded, `lastPointPosition` is point at the start of the
command if the command was started in this buffer. -/
structure UndoBuffer where
  text : List Emchar
  pt : Nat
  undoList : List UndoRecord
  modiff : Nat
  saveModiff : Nat
  modtime : BitVec 32
  lastUndoBuffer : Bool
  lastPointPosition : Option Nat

namespace UndoBuffer

/-- `BUF_Z`, and `BUF_ZV` since all is accessible. -/
def z (b : UndoBuffer) : Nat := b.text.length + 1

/-- A position moved into the buffer (`bufpos_clip_to_bounds`). -/
def clip (b : UndoBuffer) (pos : Nat) : Nat := min (max pos 1) b.z

/-! ## Recording -/

def push (b : UndoBuffer) (r : UndoRecord) : UndoBuffer :=
  { b with undoList := r :: b.undoList }

def undoBoundary (b : UndoBuffer) : UndoBuffer :=
  match b.undoList with
  | [] => b
  | .boundary :: _ => b
  | _ => b.push .boundary

/-- The record of the modification time. -/
def modtimeRecord (modtime : BitVec 32) : UndoRecord :=
  .modtime ((modtime.toNat >>> 16) &&& 0xFFFF) (modtime.toNat &&& 0xFFFF)

def undoPrelude (b : UndoBuffer) : UndoBuffer :=
  let b := if b.lastUndoBuffer then b else { b.undoBoundary with lastUndoBuffer := true }
  if b.modiff ≤ b.saveModiff then b.push (modtimeRecord b.modtime) else b

def recordInsert (b : UndoBuffer) (beg length : Nat) : UndoBuffer :=
  let b := b.undoPrelude
  match b.undoList with
  | .inserted first stop :: list =>
    if stop = beg then { b with undoList := .inserted first (beg + length) :: list }
    else b.push (.inserted beg (beg + length))
  | _ => b.push (.inserted beg (beg + length))

/-- The position recorded for a deletion. -/
def deletedPos (b : UndoBuffer) (beg length : Nat) : Int :=
  if b.pt = beg + length then -beg else beg

def recordDelete (b : UndoBuffer) (beg length : Nat) : UndoBuffer :=
  let b := b.undoPrelude
  let atBoundary := b.undoList.head? = some .boundary
  let sbeg := b.deletedPos beg length
  let b :=
    match b.lastPointPosition with
    | some pos => if atBoundary ∧ (pos : Int) ≠ sbeg then b.push (.point pos) else b
    | none => b
  b.push (.deleted (between b.text beg (beg + length)) sbeg)

def recordChange (b : UndoBuffer) (beg length : Nat) : UndoBuffer :=
  (b.recordDelete beg length).recordInsert beg length

/-! ## Changes -/

def setPt (b : UndoBuffer) (pos : Nat) : UndoBuffer := { b with pt := pos }

/-- `buffer_insert_string_1`; without a position, at point and moving point. -/
def bufferInsertString1 (b : UndoBuffer) (pos : Option Nat) (c : List Emchar) :
    UndoBuffer :=
  let p := b.clip (pos.getD b.pt)
  let b := b.recordInsert p c.length
  { b with
    text := insertAt b.text p c
    modiff := b.modiff + 1
    pt := if pos.isNone then p + c.length else if b.pt > p then b.pt + c.length else b.pt }

def bufferDeleteRange (b : UndoBuffer) (start stop : Nat) : UndoBuffer :=
  let start := max start 1
  let stop := min stop b.z
  if stop ≤ start then b
  else
    let b := b.recordDelete start (stop - start)
    { b with
      text := deleteRange b.text start stop
      modiff := b.modiff + 1
      pt :=
        if start < b.pt then if b.pt < stop then start else b.pt - (stop - start)
        else b.pt }

/-- `buffer_replace_char` at a position with a character, as a real change. -/
def bufferReplaceChar (b : UndoBuffer) (pos : Nat) (ch : Emchar) : UndoBuffer :=
  match b.text[pos - 1]? with
  | none => b
  | some cur =>
    if cur.width = ch.width then
      let b := b.recordChange pos 1
      { b with text := b.text.set (pos - 1) ch, modiff := b.modiff + 1 }
    else
      let movepoint : Bool := pos + 1 = b.pt
      let b := b.bufferDeleteRange pos (pos + 1)
      let pos := if pos ≥ b.z then b.z - 1 else pos
      if pos < 1 then b
      else b.bufferInsertString1 (if movepoint then none else some pos) [ch]

/-- `Fset_buffer_modified_p` with `nil`. -/
def setBufferUnmodified (b : UndoBuffer) : UndoBuffer :=
  { b with modiff := b.modiff + 1, saveModiff := b.modiff + 1 }

def gotoChar (b : UndoBuffer) (pos : Nat) : UndoBuffer := b.setPt (b.clip pos)

/-! ## Undoing -/

/-- The errors of `Fprimitive_undo`. -/
inductive UndoError where
  | outsideVisible
  | argsOutOfRange
  deriving DecidableEq

def deleteRegion (b : UndoBuffer) (start stop : Nat) : Except UndoError UndoBuffer :=
  if (1 ≤ start ∧ start ≤ b.z) ∧ 1 ≤ stop ∧ stop ≤ b.z then
    .ok (b.bufferDeleteRange (min start stop) (max start stop))
  else .error .argsOutOfRange

/-- The inner loop of `Fprimitive_undo`: undo the records of the list up to a boundary. -/
def undoToBoundary :
    List UndoRecord → UndoBuffer → Except UndoError (List UndoRecord × UndoBuffer)
  | [], b => .ok ([], b)
  | .boundary :: list, b => .ok (list, b)
  | .point pos :: list, b => undoToBoundary list (b.setPt (b.clip pos))
  | .modtime high low :: list, b =>
    -- a record of another modification time ends the loop, as a boundary does
    if BitVec.ofNat 32 ((high <<< 16) + low) ≠ b.modtime then .ok (list, b)
    else undoToBoundary list b.setBufferUnmodified
  | .inserted beg stop :: list, b =>
    if beg < 1 ∨ stop > b.z then .error .outsideVisible
    else do
      let b ← (b.gotoChar beg).deleteRegion beg stop
      undoToBoundary list b
  | .deleted string pos :: list, b =>
    if pos < 0 then
      if -pos < 1 ∨ -pos > b.z then .error .outsideVisible
      else undoToBoundary list ((b.setPt (-pos).toNat).bufferInsertString1 none string)
    else
      if pos < 1 ∨ pos > b.z then .error .outsideVisible
      else
        let b := (b.setPt pos.toNat).bufferInsertString1 none string
        undoToBoundary list (b.setPt pos.toNat)

def primitiveUndo :
    Nat → List UndoRecord → UndoBuffer → Except UndoError (List UndoRecord × UndoBuffer)
  | 0, list, b => .ok (list, b)
  | count + 1, list, b => do
    let (list, b) ← undoToBoundary list b
    primitiveUndo count list b

/-! ## Edits -/

/-- An edit, or what else happens to point and at the start of a command. -/
inductive Edit where
  | insert (pos : Option Nat) (c : List Emchar)
  | delete (start stop : Nat)
  | replaceChar (pos : Nat) (ch : Emchar)
  | gotoChar (pos : Nat)
  | startCommand (lastPointPosition : Option Nat)

/-- What it does; a character is replaced where there is one. -/
def Edit.run (b : UndoBuffer) : Edit → UndoBuffer
  | insert pos c => b.bufferInsertString1 pos c
  | delete start stop => b.bufferDeleteRange start stop
  | replaceChar pos ch => if 1 ≤ pos then b.bufferReplaceChar pos ch else b
  | gotoChar pos => b.gotoChar pos
  | startCommand lastPointPosition => { b with lastPointPosition := lastPointPosition }

/-- A sequence of edits. -/
def edits (b : UndoBuffer) (l : List Edit) : UndoBuffer := l.foldl Edit.run b

end UndoBuffer

end XEmacs.Buffer

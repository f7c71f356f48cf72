import Mathlib.Logic.Function.Basic
import Mathlib.Data.List.Basic

/-!
# Buffer-local variables (symbols.c)

A variable that has been made local somewhere keeps its values in three places.
-/

namespace XEmacs.Variables

/-- `struct symbol_value_buffer_local`, with the alists and `current_buffer`. The `current_buffer`
of the struct is `cacheBuffer`. -/
structure PerBuffer (V B : Type*) where
  /-- the type is `SYMVAL_BUFFER_LOCAL`, not `SYMVAL_SOME_BUFFER_LOCAL` -/
  automatic : Bool
  defaultValue : Option V
  currentValue : Option V
  cacheBuffer : Option B
  currentAlistElement : Option Nat
  cdr : Nat → Option V
  consCount : Nat
  localVarAlist : B → List Nat
  currentBuffer : B

/-- The value cell of a variable. A plain one has no local values. -/
inductive Variable (V B : Type*) where
  | plain (value : Option V) (currentBuffer : B)
  | perBuffer (s : PerBuffer V B)

namespace PerBuffer

variable {V B : Type*} [DecidableEq B] (s : PerBuffer V B)

def bufferLocalAlistElement (buffer : B) : Option Nat :=
  if s.cacheBuffer = some buffer then s.currentAlistElement
  else (s.localVarAlist buffer).head?

omit [DecidableEq B] in
def writeOutBufferLocalCache : PerBuffer V B :=
  match s.cacheBuffer with
  | none => s
  | some _ =>
    match s.currentAlistElement with
    | none => { s with defaultValue := s.currentValue }
    | some e => { s with cdr := Function.update s.cdr e s.currentValue }

def setUpBufferLocalCache (buf : B) (newAlistEl : Option Nat) (setItP : Bool) :
    PerBuffer V B :=
  if s.cacheBuffer = some buf then s
  else
    let s := s.writeOutBufferLocalCache
    let newAlistEl :=
      match newAlistEl with
      | none => if setItP then s.bufferLocalAlistElement buf else none
      | some e => some e
    let newVal :=
      match newAlistEl with
      | none => s.defaultValue
      | some e => s.cdr e
    { s with currentAlistElement := newAlistEl, cacheBuffer := some buf, currentValue := newVal }

/-- `find_symbol_value`; with `swap_it_in`, the cache is set up for the buffer. -/
def findSymbolValue : Option V × PerBuffer V B :=
  let s := s.setUpBufferLocalCache s.currentBuffer none true
  (s.currentValue, s)

/-- `symbol_value_in_buffer`, which does not swap in. -/
def symbolValueInBuffer (buf : B) : Option V :=
  if s.cacheBuffer = some buf then s.currentValue
  else
    match (s.localVarAlist buf).head? with
    | none => s.defaultValue
    | some e => s.cdr e

/-- A new element of the current buffer's alist, and its number. -/
def cons (value : Option V) : Nat × PerBuffer V B :=
  (s.consCount,
    { s with
      cdr := Function.update s.cdr s.consCount value
      consCount := s.consCount + 1
      localVarAlist := Function.update s.localVarAlist s.currentBuffer
        (s.consCount :: s.localVarAlist s.currentBuffer) })

def fset (newval : Option V) : PerBuffer V B :=
  if s.cacheBuffer = some s.currentBuffer ∧ (s.automatic → s.currentAlistElement.isSome) then
    { s with currentValue := newval }
  else
    let s := s.writeOutBufferLocalCache
    match s.bufferLocalAlistElement s.currentBuffer with
    | none =>
      if s.automatic then
        let (aelt, s) := s.cons s.currentValue
        { s with
          currentAlistElement := some aelt, cacheBuffer := some s.currentBuffer
          currentValue := newval }
      else
        { s with
          currentAlistElement := none, cacheBuffer := some s.currentBuffer
          currentValue := newval }
    | some aelt =>
      { s with
        currentAlistElement := some aelt, cacheBuffer := some s.currentBuffer
        currentValue := newval }

omit [DecidableEq B] in
def getDefault : Option V :=
  match s.currentAlistElement with
  | none => s.currentValue
  | some _ => s.defaultValue

omit [DecidableEq B] in
def setDefault (value : V) : PerBuffer V B :=
  match s.currentAlistElement with
  | none => { s with defaultValue := some value, currentValue := some value }
  | some _ => { s with defaultValue := some value }

/-- The part of `Fmake_local_variable` from `already_local_to_some_other_buffer` on. -/
def makeLocal (nil : V) : PerBuffer V B :=
  match s.defaultValue with
  | none =>
    let (aelt, s) := s.cons (some nil)
    { s with
      cacheBuffer := some s.currentBuffer, currentAlistElement := some aelt
      currentValue := some nil }
  | some value =>
    let (_, s) := s.cons (some value)
    if s.cacheBuffer = some s.currentBuffer then { s with cacheBuffer := none } else s

def killLocalVariable : PerBuffer V B :=
  let alist := s.localVarAlist s.currentBuffer
  let alist' :=
    match s.bufferLocalAlistElement s.currentBuffer with
    | none => alist
    | some e => alist.filter (· ≠ e)
  let s := { s with localVarAlist := Function.update s.localVarAlist s.currentBuffer alist' }
  let s := if s.cacheBuffer = some s.currentBuffer then { s with cacheBuffer := none } else s
  s.setUpBufferLocalCache s.currentBuffer none true

/-- The body of the loop of `kill_buffer_local_variables`, for an element `e` of this variable. -/
def killElement (buf : B) (permanentLocal : Bool) (s : PerBuffer V B) (e : Nat) :
    PerBuffer V B :=
  if permanentLocal then s
  else
    let s := { s with
      localVarAlist := Function.update s.localVarAlist buf ((s.localVarAlist buf).erase e) }
    let s := if s.cacheBuffer = some buf then { s with cacheBuffer := none } else s
    if buf = s.currentBuffer then s.setUpBufferLocalCache buf none false else s

def killBufferLocalVariables (buf : B) (permanentLocal : Bool) : PerBuffer V B :=
  (s.localVarAlist buf).foldl (killElement buf permanentLocal) s

/-- `set_buffer_internal`; the loops are over the elements of this variable, in the alists of
the new and of the old buffer. -/
def setBuffer (b : B) : PerBuffer V B :=
  if s.currentBuffer = b then s
  else
    let oldBuf := s.currentBuffer
    let s := { s with currentBuffer := b }
    let s := (s.localVarAlist b).foldl (fun s e => s.setUpBufferLocalCache b (some e) true) s
    (s.localVarAlist oldBuf).foldl (fun s _ => s.setUpBufferLocalCache b none false) s

end PerBuffer

namespace Variable

variable {V B : Type*} [DecidableEq B]

omit [DecidableEq B] in
def currentBuffer : Variable V B → B
  | plain _ b => b
  | perBuffer s => s.currentBuffer

def fset (newval : Option V) : Variable V B → Variable V B
  | plain _ b => plain newval b
  | perBuffer s => perBuffer (s.fset newval)

def findSymbolValue : Variable V B → Option V × Variable V B
  | plain value b => (value, plain value b)
  | perBuffer s => let (value, s) := s.findSymbolValue; (value, perBuffer s)

def setDefault (value : V) : Variable V B → Variable V B
  | plain _ b => plain (some value) b
  | perBuffer s => perBuffer (s.setDefault value)

def symbolValueInBuffer (buf : B) : Variable V B → Option V
  | plain value _ => value
  | perBuffer s => s.symbolValueInBuffer buf

omit [DecidableEq B] in
def getDefault : Variable V B → Option V
  | plain value _ => value
  | perBuffer s => s.getDefault

omit [DecidableEq B] in
/-- A plain variable that becomes one with values in the buffers. -/
def alloc (automatic : Bool) (defaultValue currentValue : Option V) (cacheBuffer : Option B)
    (b : B) : PerBuffer V B where
  automatic := automatic
  defaultValue := defaultValue
  currentValue := currentValue
  cacheBuffer := cacheBuffer
  currentAlistElement := none
  cdr _ := none
  consCount := 0
  localVarAlist _ := []
  currentBuffer := b

omit [DecidableEq B] in
def makeVariableBufferLocal (nil : V) : Variable V B → Variable V B
  | plain value b => perBuffer (alloc true (some (value.getD nil)) value (some b) b)
  | perBuffer s => perBuffer { s with automatic := true }

def makeLocalVariable (nil : V) : Variable V B → Variable V B
  | plain value b => perBuffer ((alloc false value value none b).makeLocal nil)
  | perBuffer s =>
    if s.automatic then
      let (value, s) := s.findSymbolValue
      perBuffer (s.fset value)
    else
      match s.bufferLocalAlistElement s.currentBuffer with
      | some _ => perBuffer s
      | none => perBuffer (s.makeLocal nil)

def killLocalVariable : Variable V B → Variable V B
  | plain value b => plain value b
  | perBuffer s => perBuffer s.killLocalVariable

/-- `Fkill_all_local_variables`, for a variable with or without a `permanent-local`
property. -/
def killAllLocalVariables (permanentLocal : Bool) : Variable V B → Variable V B
  | plain value b => plain value b
  | perBuffer s => perBuffer (s.killBufferLocalVariables s.currentBuffer permanentLocal)

def setBuffer (b : B) : Variable V B → Variable V B
  | plain value _ => plain value b
  | perBuffer s => perBuffer (s.setBuffer b)

/-- `symbol_value_buffer_local_info`. -/
def bufferLocalInfo (buffer : B) : Variable V B → Int
  | plain _ _ => 0
  | perBuffer s =>
    match s.bufferLocalAlistElement buffer with
    | some _ => 1
    | none => if s.automatic then -1 else 0

end Variable

end XEmacs.Variables

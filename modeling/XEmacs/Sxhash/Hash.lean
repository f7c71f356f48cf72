import XEmacs.Sxhash.Equal

/-!
# `internal_hash`

The hash methods of the types. A hash goes down to depth 5, and takes in at most five elements of
an array. Elements of vectors are two levels down, everything else is one; so the levels that are
left are counted, from 6 on.
-/

namespace XEmacs.Sxhash

/-! ### Hash functions of data -/

def hash2 (a b : Hashcode) : Hashcode := 65599 * a + b

def hash3 (a b c : Hashcode) : Hashcode := 65599 * hash2 a b + c

/-- One turn of `memory_hash`. -/
def memoryHashStep (h : UInt32) (b : UInt8) : UInt32 :=
  let h := (h <<< 4) + b.toUInt32
  let g := h &&& 0xF0000000
  if g ≠ 0 then (h ^^^ (g >>> 24)) ^^^ g else h

def memoryHash (data : List UInt8) : Hashcode :=
  (data.foldl memoryHashStep 0).toUInt64

/-- One turn of `hash_string`, with the `int` of the code. -/
def hashStringStep (hash : Int32) (b : Nat) : Int32 :=
  let hash := (hash <<< 4) + Int32.ofNat b
  let g := hash &&& 0xF0000000
  if g ≠ 0 then (hash ^^^ (g >>> 24)) ^^^ g else hash

def hashString (bytes : List Nat) : Hashcode :=
  (bytes.foldl hashStringStep 0 &&& 0o7777777777).toInt64.toUInt64

/-- An `unsigned long` in memory. -/
def longBytes (x : UInt64) : List UInt8 :=
  (List.range 8).map fun i => (x >>> UInt64.ofNat (8 * i)).toUInt8

/-- Eight bytes of memory, as an `unsigned long`. -/
def bytesLong (data : List UInt8) : UInt64 :=
  data.foldr (fun b x => x <<< 8 ||| b.toUInt64) 0

def hashProgram (data : List UInt8) : Hashcode :=
  if data.length = 8 then bytesLong data else memoryHash data

def bitVectorHash (v : BitVector) : Hashcode :=
  hash2 (UInt64.ofNat v.length) (memoryHash (v.bits.flatMap longBytes))

/-- `marker_hash`, with the address of the buffer. -/
def markerHash (buffer : Option Nat) (memind : Int) : Hashcode :=
  match buffer with
  | some address => hash2 (UInt64.ofNat address) (UInt64.ofInt memind)
  | none => 0

def weakListTypeCode : Gc.WeakListType → Hashcode
  | .simple => 0
  | .assoc => 1
  | .keyAssoc => 2
  | .valueAssoc => 3
  | .fullAssoc => 4

/-! ### The methods of the types -/

/-- The elements that are hashed: all of them, or five that are scattered. -/
def sample {α : Type} (l : List α) : List α :=
  if l.length ≤ 5 then l else (List.range 5).filterMap fun i => l[i * l.length / 5]?

/-- What the methods call, each with the deeper level it is called at. -/
structure Deeper where
  -- `internal_hash` one level down and two
  next : Obj → Hashcode
  second : Obj → Hashcode
  -- `hash_opaque`, as `internal_hash` calls it one level down
  program : List UInt8 → Hashcode

def internalArrayHash (hash : Obj → Hashcode) (arr : List Obj) : Hashcode :=
  (sample arr).foldl (fun code o => hash2 code (hash o)) 0

def rangeTableEntryHash (hash : Obj → Hashcode) (e : RangeTableEntry) : Hashcode :=
  hash3 (UInt64.ofInt e.first) (UInt64.ofInt e.last) (hash e.val)

def rangeTableHash (hash : Obj → Hashcode) (l : List RangeTableEntry) : Hashcode :=
  (sample l).foldl (fun code e => hash2 code (rangeTableEntryHash hash e))
    (UInt64.ofNat l.length)

/-- `internal_hash` of the instructions. -/
def Deeper.instructions (deeper : Deeper) : Instructions → Hashcode
  | .object o => deeper.next o
  | .program bytes => deeper.program bytes

/-- The flags of a compiled function, as `compiled_function_hash` takes them. -/
def CompiledFunction.flags (f : CompiledFunction) : Hashcode :=
  (f.documentationp.toUInt64 <<< 2) + (f.interactivep.toUInt64 <<< 1) + f.domainp.toUInt64

def compiledFunctionHash (deeper : Deeper) (f : CompiledFunction) : Hashcode :=
  hash3 f.flags (deeper.instructions f.instructions) (deeper.next f.constants)

/-- The hash of a record at an address; a symbol has no method. -/
def recordHash (deeper : Deeper) (address : Nat) : Record → Hashcode
  | .cons car cdr => hash2 (deeper.next car) (deeper.next cdr)
  | .vector v => hash2 (UInt64.ofNat v.length) (internalArrayHash deeper.second v)
  | .bitVector v => bitVectorHash v
  | .string bytes => hashString bytes
  | .symbol _ => lispHash (.ref address)
  | .marker buffer memind => markerHash buffer memind
  | .rangeTable l => rangeTableHash deeper.next l
  | .charTable ct =>
    hash2 (internalArrayHash deeper.next ct.ascii.toList)
      (internalArrayHash deeper.next ct.level1.toList)
  | .charTableEntry level2 => internalArrayHash deeper.next level2.toList
  | .hashTable ht => UInt64.ofNat ht.count
  | .weakList type list => hash2 (weakListTypeCode type) (deeper.next list)
  | .compiledFunction f => compiledFunctionHash deeper f

/-- `internal_hash` above the depth limit. -/
def objHash (h : Heap) (deeper : Deeper) : Obj → Hashcode
  | .ref address => recordHash deeper address (h.record address)
  | o => lispHash o

/-- `internal_hash`, with the levels that are left. -/
def internalHashWithin (h : Heap) : Nat → Obj → Hashcode
  | 0, _ => 0
  | 1, o => objHash h ⟨fun _ => 0, fun _ => 0, fun _ => 0⟩ o
  | levels + 2, o =>
    objHash h ⟨internalHashWithin h (levels + 1), internalHashWithin h levels, hashProgram⟩ o

def internalHash (h : Heap) (o : Obj) (depth : Nat) : Hashcode :=
  internalHashWithin h (6 - depth) o

def equal (h : Heap) (fuel : Nat) (x y : Obj) (depth : Nat) : EqualResult Bool :=
  internalEqual h (internalHash h · 0) fuel (.object x) (.object y) depth

end XEmacs.Sxhash

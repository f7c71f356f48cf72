import XEmacs.Sxhash.Objects

/-!
# `internal_equal`

The methods of the types that `internal_equal` calls, and the function itself. The nesting of its
calls is the fuel of the model, and the depth that the code counts is an argument of its own.
-/

namespace XEmacs.Sxhash

/-- Why a comparison has no result. -/
inductive EqualError where
  /-- `Stack overflow in equal` -/
  | stackOverflow
  /-- A read from memory that has not been written. -/
  | undefined
  /-- Not an error of the source: the model has run out of fuel. -/
  | outOfFuel
deriving DecidableEq, Repr

abbrev EqualResult (α : Type) := Except EqualError α

/-- What is compared. -/
inductive Operand where
  | object (o : Obj)
  | newString (bytes : List Nat)
deriving DecidableEq, Repr

/-- The record that is compared, if any. -/
def Heap.operandRecord (h : Heap) : Operand → Option Record
  | .object (.ref address) => some (h.record address)
  | .object _ => none
  | .newString bytes => some (.string bytes)

/-- `EQ`. A new string is like no other object. -/
def Operand.eq : Operand → Operand → Bool
  | .object o, .object o' => o = o'
  | _, _ => false

def Heap.compiledFunctionInstructions (h : Heap) (f : CompiledFunction) : EqualResult Operand :=
  match f.instructions with
  | .object o => .ok (.object o)
  | .program bytes =>
    match Bytecode.instructionsString h.charsets bytes with
    | some s => .ok (.newString s)
    | none => .error .undefined

section methods

-- `internal_equal`, for the calls of the methods
variable (h : Heap) (equal : Operand → Operand → Nat → EqualResult Bool)

/-- `internal_equal` of objects. -/
def objEqual (o o' : Obj) (depth : Nat) : EqualResult Bool :=
  equal (.object o) (.object o') depth

/-- The loop of `cons_equal`, for the cars and cdrs. -/
def consEqual (depth : Nat) : Nat → Obj × Obj → Obj × Obj → EqualResult Bool
  | 0, _, _ => .error .outOfFuel
  | rounds + 1, (car, cdr), (car', cdr') => do
    if ← objEqual equal car car' depth then
      match h.consp cdr, h.consp cdr' with
      | some c, some c' => consEqual depth rounds c c'
      | _, _ => objEqual equal cdr cdr' depth
    else pure false

/-- The loop over two arrays of one length. -/
def arrayEqual (depth : Nat) : List Obj → List Obj → EqualResult Bool
  | o :: l, o' :: l' => do
    if ← objEqual equal o o' depth then arrayEqual depth l l' else pure false
  | _, _ => pure true

def vectorEqual (v v' : List Obj) (depth : Nat) : EqualResult Bool :=
  if v.length ≠ v'.length then pure false else arrayEqual equal (depth + 1) v v'

def bitVectorEqual (v v' : BitVector) : Bool :=
  v.length = v'.length ∧ v.bits = v'.bits

/-- `marker_equal`: all markers pointing nowhere are equal. -/
def markerEqual (buffer buffer' : Option Nat) (memind memind' : Int) : Bool :=
  buffer = buffer' ∧ (memind = memind' ∨ buffer = none)

/-- The loop of `range_table_equal`. -/
def entriesEqual (depth : Nat) :
    List RangeTableEntry → List RangeTableEntry → EqualResult Bool
  | e :: l, e' :: l' => do
    if e.first ≠ e'.first ∨ e.last ≠ e'.last then pure false
    else if ← objEqual equal e.val e'.val (depth + 1) then entriesEqual depth l l'
    else pure false
  | _, _ => pure true

def rangeTableEqual (l l' : List RangeTableEntry) (depth : Nat) : EqualResult Bool :=
  if l.length ≠ l'.length then pure false else entriesEqual equal depth l l'

def charTableEqual (ct ct' : CharTable) (depth : Nat) : EqualResult Bool := do
  if ct.type ≠ ct'.type then pure false
  else if ← arrayEqual equal (depth + 1) ct.ascii.toList ct'.ascii.toList then
    arrayEqual equal (depth + 1) ct.level1.toList ct'.level1.toList
  else pure false

/-- `KEYS_EQUAL_P`; without floats `eql` is `eq`. -/
def keysEqualP (test : Elhash.HashTableTest) (key key' : Obj) : EqualResult Bool :=
  if key = key' then pure true
  else
    match test with
    | .eq | .eql => pure false
    | .equal => objEqual equal key key' 0

/-- The probing loop of `find_hentry`: the value of the entry it stops at, or `none` at a clear
entry. -/
def findHentry (entries : Nat → Option (Obj × Obj)) (stop : Obj → EqualResult Bool) (size : Nat) :
    Nat → Nat → EqualResult (Option Obj)
  | 0, _ => .error .outOfFuel
  | rounds + 1, probe =>
    match entries probe with
    | some (key, value) => do
      if ← stop key then pure (some value) else findHentry entries stop size rounds (probe + 1)
    | none =>
      if probe = size then
        match entries 0 with
        | some (key, value) => do
          if ← stop key then pure (some value) else findHentry entries stop size rounds 1
        | none => pure none
      else pure none

-- `internal_hash` at depth 0
variable (hash : Obj → Hashcode)

def HashTable.hashCode (ht : HashTable) (key : Obj) : Nat :=
  let code := match ht.test with
    | .eq | .eql => lispHash key
    | .equal => hash key
  (code * ht.goldenRatio).toNat % ht.size

/-- `Fgethash`; `none` is `Qunbound`. -/
def HashTable.gethash (ht : HashTable) (key : Obj) : EqualResult (Option Obj) :=
  findHentry ht.hentries (fun key' => keysEqualP equal ht.test key' key) ht.size (ht.size + 1)
    (ht.hashCode hash key)

/-- The entries that are not clear. -/
def HashTable.entries (ht : HashTable) : List (Obj × Obj) :=
  (List.range ht.size).filterMap ht.hentries

/-- The loop of `hash_table_equal` over the entries of the one table. -/
def inOther (ht' : HashTable) (depth : Nat) : List (Obj × Obj) → EqualResult Bool
  | [] => pure true
  | (key, value) :: l => do
    match ← ht'.gethash equal hash key with
    | none => pure false
    | some value' =>
      if ← objEqual equal value value' depth then inOther ht' depth l else pure false

def hashTableEqual (ht ht' : HashTable) (depth : Nat) : EqualResult Bool :=
  if ht.test ≠ ht'.test ∨ ht.weakness ≠ ht'.weakness ∨ ht.count ≠ ht'.count then pure false
  else inOther equal hash ht' (depth + 1) ht.entries

def weakListEqual (type type' : Gc.WeakListType) (list list' : Obj) (depth : Nat) :
    EqualResult Bool :=
  if type ≠ type' then pure false else objEqual equal list list' (depth + 1)

def compiledFunctionEqual (f f' : CompiledFunction) (depth : Nat) : EqualResult Bool := do
  if f.documentationp ≠ f'.documentationp ∨ f.interactivep ≠ f'.interactivep ∨
      f.domainp ≠ f'.domainp then
    pure false
  else do
    let instructions ← h.compiledFunctionInstructions f
    let instructions' ← h.compiledFunctionInstructions f'
    if ← equal instructions instructions' (depth + 1) then
      if ← objEqual equal f.constants f'.constants (depth + 1) then
        if ← objEqual equal f.arglist f'.arglist (depth + 1) then
          objEqual equal f.docAndInteractive f'.docAndInteractive (depth + 1)
        else pure false
      else pure false
    else pure false

/-- The `equal` method of a type, for two records of it; of different types no records are
equal, and a symbol is equal to itself only. -/
def recordEqual (rounds : Nat) (r r' : Record) (depth : Nat) : EqualResult Bool :=
  match r, r' with
  | .cons car cdr, .cons car' cdr' =>
    consEqual h equal (depth + 1) rounds (car, cdr) (car', cdr')
  | .vector v, .vector v' => vectorEqual equal v v' depth
  | .bitVector v, .bitVector v' => pure (bitVectorEqual v v')
  | .string s, .string s' => pure (s = s')
  | .marker buffer memind, .marker buffer' memind' =>
    pure (markerEqual buffer buffer' memind memind')
  | .rangeTable l, .rangeTable l' => rangeTableEqual equal l l' depth
  | .charTable ct, .charTable ct' => charTableEqual equal ct ct' depth
  | .charTableEntry level2, .charTableEntry level2' =>
    arrayEqual equal (depth + 1) level2.toList level2'.toList
  | .hashTable ht, .hashTable ht' => hashTableEqual equal hash ht ht' depth
  | .weakList type list, .weakList type' list' => weakListEqual equal type type' list list' depth
  | .compiledFunction f, .compiledFunction f' => compiledFunctionEqual h equal f f' depth
  | _, _ => pure false

end methods

/-- `internal_equal`, with `internal_hash` at depth 0 for the hash tables of a heap. -/
def internalEqual (h : Heap) (hash : Obj → Hashcode) :
    Nat → Operand → Operand → Nat → EqualResult Bool
  | 0, _, _, _ => .error .outOfFuel
  | fuel + 1, obj1, obj2, depth =>
    if depth > 200 then .error .stackOverflow
    else if obj1.eq obj2 then pure true
    else
      match h.operandRecord obj1, h.operandRecord obj2 with
      | some r, some r' => recordEqual h (internalEqual h hash fuel) hash fuel r r' depth
      | _, _ => pure false

end XEmacs.Sxhash

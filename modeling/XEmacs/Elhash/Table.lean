import XEmacs.Lib.LinearProbing
import Mathlib.Data.Rat.Floor

/-!
# Hash tables (elhash.c)

The Lisp hash tables: open addressing with linear probing. The `hentries` array has one more
entry than `size`; that last entry is never occupied and sends a probe back to the first one
(`LINEAR_PROBING_LOOP`).
-/

namespace XEmacs.Elhash

open LinearProbing

/-- What the hash tables use of Lisp objects besides `EQ`, which is equality in
the model: the address word (`LISP_HASH`), `FLOATP`, `internal_equal` and
`internal_hash` (at depth 0). -/
structure LispOps (K : Type) where
  lispHash : K → Nat
  floatp : K → Bool
  internalEqual : K → K → Bool
  internalHash : K → Nat

/-- `struct Lisp_Hash_Table`. A null function pointer is `none`. -/
structure LispHashTable (K V : Type) where
  size : Nat
  count : Nat
  rehashCount : Nat
  rehashSize : ℚ
  rehashThreshold : ℚ
  goldenRatio : Nat
  hashFunction : Option (K → Nat)
  testFunction : Option (K → K → Bool)
  hentries : Nat → Option (K × V)

variable {K V : Type} [DecidableEq K]

/-! ## Sizes -/

/-- The table of `hash_table_size`. -/
def primes : List Nat :=
  [19, 29, 41, 59, 79, 107, 149, 197, 263, 347, 457, 599, 787, 1031,
   1361, 1777, 2333, 3037, 3967, 5167, 6719, 8737, 11369, 14783,
   19219, 24989, 32491, 42257, 54941, 71429, 92861, 120721, 156941,
   204047, 265271, 344857, 448321, 582821, 757693, 985003, 1280519,
   1664681, 2164111, 2813353, 3657361, 4754591, 6180989, 8035301,
   10445899, 13579681, 17653589, 22949669, 29834603, 38784989,
   50420551, 65546729, 85210757, 110774011, 144006217, 187208107,
   243370577, 316381771, 411296309, 534685237, 695090819, 903618083,
   1174703521, 1527114613, 1985248999, 2580823717, 3355070839]

def prime (i : Nat) : Nat := primes.getD i 0

/-- The binary search of `hash_table_size`; one unit of fuel a round. -/
def searchPrimes (requestedSize : Nat) : Nat → Nat → Nat → Nat
  | 0, _, high => high
  | fuel + 1, low, high =>
    if high - low > 1 then
      let mid := (low + high) / 2
      if prime mid < requestedSize then searchPrimes requestedSize fuel mid high
      else searchPrimes requestedSize fuel low mid
    else high

/-- `hash_table_size`: a prime near the requested size. -/
def hashTableSize (requestedSize : Nat) : Nat :=
  prime (searchPrimes requestedSize primes.length 0 (primes.length - 1))

/-- `(size_t)` of a double. -/
def sizeOfDouble (x : ℚ) : Nat := x.floor.toNat

/-- `compute_hash_table_derived_values`, with 8-byte Lisp objects. -/
def computeHashTableDerivedValues (ht : LispHashTable K V) : LispHashTable K V :=
  { ht with
    rehashCount := sizeOfDouble (ht.size * ht.rehashThreshold)
    goldenRatio := sizeOfDouble (ht.size * (6180339887 / 10000000000 / 8)) }

/-! ## Creation -/

inductive HashTableTest where
  | eq
  | eql
  | equal
  deriving DecidableEq, Repr

/-- `lisp_object_eql_equal`. -/
def LispOps.eqlEqual (ops : LispOps K) (obj1 obj2 : K) : Bool :=
  obj1 = obj2 || (ops.floatp obj1 && ops.internalEqual obj1 obj2)

/-- `lisp_object_eql_hash`. -/
def LispOps.eqlHash (ops : LispOps K) (obj : K) : Nat :=
  if ops.floatp obj then ops.internalHash obj else ops.lispHash obj

def hashTableMinSize : Nat := 10

def hashTableDefaultSize : Nat := 16

def makeGeneralLispHashTable (hashFunction : Option (K → Nat))
    (testFunction : Option (K → K → Bool)) (size : Nat)
    (rehashSize rehashThreshold : ℚ) : LispHashTable K V :=
  let rehashSize := if rehashSize > 1 then rehashSize else 13 / 10
  let rehashThreshold :=
    if rehashThreshold > 0 then rehashThreshold
    else if size > 4096 && testFunction.isNone then 7 / 10 else 6 / 10
  let size := if size < hashTableMinSize then hashTableMinSize else size
  computeHashTableDerivedValues
    { size := hashTableSize (sizeOfDouble (size / rehashThreshold + 1))
      count := 0
      rehashCount := 0
      rehashSize := rehashSize
      rehashThreshold := rehashThreshold
      goldenRatio := 0
      hashFunction := hashFunction
      testFunction := testFunction
      hentries := fun _ => none }

def makeStandardLispHashTable (ops : LispOps K) (test : HashTableTest) (size : Nat)
    (rehashSize rehashThreshold : ℚ) : LispHashTable K V :=
  match test with
  | .eq => makeGeneralLispHashTable none none size rehashSize rehashThreshold
  | .eql =>
    makeGeneralLispHashTable (some ops.eqlHash) (some ops.eqlEqual) size
      rehashSize rehashThreshold
  | .equal =>
    makeGeneralLispHashTable (some ops.internalHash) (some ops.internalEqual) size
      rehashSize rehashThreshold

/-- The value given for a keyword of `make-hash-table`, as far as its validator
looks at it. -/
inductive KeywordValue where
  | qnil
  | fixnum (n : Int)
  | flonum (x : ℚ)
  | other
  deriving DecidableEq

/-- `hash_table_size_validate`, under `VALIDATE_VAR`, and
`decode_hash_table_size`. -/
def decodeHashTableSize : KeywordValue → Except String Nat
  | .qnil => .ok hashTableDefaultSize
  | .fixnum n => if 0 ≤ n then .ok n.toNat else .error "wrong-type-argument natnump"
  | _ => .error "wrong-type-argument natnump"

/-- `hash_table_rehash_size_validate` and `decode_hash_table_rehash_size`. -/
def decodeHashTableRehashSize : KeywordValue → Except String ℚ
  | .qnil => .ok (-1)
  | .flonum x =>
    if x ≤ 1 then .error "Hash table rehash size must be greater than 1.0" else .ok x
  | _ => .error "wrong-type-argument floatp"

/-- `hash_table_rehash_threshold_validate` and
`decode_hash_table_rehash_threshold`. -/
def decodeHashTableRehashThreshold : KeywordValue → Except String ℚ
  | .qnil => .ok (-1)
  | .flonum x =>
    if x ≤ 0 ∨ x ≥ 1 then
      .error "Hash table rehash threshold must be between 0.0 and 1.0"
    else .ok x
  | _ => .error "wrong-type-argument floatp"

/-- `Fmake_hash_table`, for a decoded `:test`. -/
def makeHashTable (ops : LispOps K) (test : HashTableTest)
    (size rehashSize rehashThreshold : KeywordValue) :
    Except String (LispHashTable K V) := do
  let size ← decodeHashTableSize size
  let rehashSize ← decodeHashTableRehashSize rehashSize
  let rehashThreshold ← decodeHashTableRehashThreshold rehashThreshold
  return makeStandardLispHashTable ops test size rehashSize rehashThreshold

/-! ## Lookup -/

/-- The hash of a key before it is cut down to the table: the hash function's
value or, without one, the address word. -/
def LispHashTable.rawHash (ops : LispOps K) (ht : LispHashTable K V) (key : K) : Nat :=
  match ht.hashFunction with
  | some f => f key
  | none => ops.lispHash key

def LispHashTable.hashCode (ops : LispOps K) (ht : LispHashTable K V) (key : K) : Nat :=
  (ht.rawHash ops key * ht.goldenRatio % 2 ^ 64) % ht.size

def LispHashTable.keysEqualP (ht : LispHashTable K V) (key1 key2 : K) : Bool :=
  key1 = key2 ||
    match ht.testFunction with
    | some f => f key1 key2
    | none => false

/-- The entry at index `i` has a key satisfying `p`. -/
def keyAt (entries : Nat → Option (K × V)) (p : K → Bool) (i : Nat) : Bool :=
  match entries i with
  | some e => p e.1
  | none => false

/-- `find_hentry`: the index of the entry for `key`, or of the clear entry where
it would go. -/
def findHentry (ops : LispOps K) (key : K) (ht : LispHashTable K V) : Option Nat :=
  probeLoop (occupied ht.hentries) (keyAt ht.hentries fun k => ht.keysEqualP k key)
    ht.size (ht.size + 1) (ht.hashCode ops key)

def gethash (ops : LispOps K) (key : K) (ht : LispHashTable K V) (default : V) :
    Option V :=
  (findHentry ops key ht).map fun e =>
    match ht.hentries e with
    | some entry => entry.2
    | none => default

/-! ## Resizing -/

/-- Re-insertion of one entry into a new array of `size` entries. -/
def reinsert (code : K → Nat) (size : Nat) (entries : Nat → Option (K × V)) (e : K × V) :
    Option (Nat → Option (K × V)) :=
  (probeLoop (occupied entries) (fun _ => false) size (size + 1) (code e.1)).map
    fun probe => Function.update entries probe (some e)

/-- The loop over the old entries of `resize_hash_table` and
`pdump_reorganize_hash_table`. -/
def reinsertAll (code : K → Nat) (size : Nat) (old : Nat → Option (K × V))
    (oldSize : Nat) : Option (Nat → Option (K × V)) :=
  (List.range oldSize).foldlM (fun entries i =>
    match old i with
    | some e => reinsert code size entries e
    | none => some entries) (fun _ => none)

def resizeHashTable (ops : LispOps K) (ht : LispHashTable K V) (newSize : Nat) :
    Option (LispHashTable K V) :=
  let ht' := computeHashTableDerivedValues { ht with size := newSize }
  (reinsertAll (ht'.hashCode ops) newSize ht.hentries ht.size).map
    fun entries => { ht' with hentries := entries }

/-- `pdump_reorganize_hash_table`: the address words are those of the loaded
image, not the ones the entries were placed by. -/
def pdumpReorganizeHashTable (ops : LispOps K) (ht : LispHashTable K V) :
    Option (LispHashTable K V) :=
  (reinsertAll (ht.hashCode ops) ht.size ht.hentries ht.size).map
    fun entries => { ht with hentries := entries }

/-- The size `enlarge_hash_table` asks for. -/
def LispHashTable.enlargedSize (ht : LispHashTable K V) : Nat :=
  hashTableSize (sizeOfDouble (ht.size * ht.rehashSize))

def enlargeHashTable (ops : LispOps K) (ht : LispHashTable K V) :
    Option (LispHashTable K V) :=
  resizeHashTable ops ht ht.enlargedSize

/-! ## Insertion and deletion -/

def puthash (ops : LispOps K) (key : K) (value : V) (ht : LispHashTable K V) :
    Option (LispHashTable K V) := do
  let e ← findHentry ops key ht
  match ht.hentries e with
  | some entry =>
    some { ht with hentries := Function.update ht.hentries e (some (entry.1, value)) }
  | none =>
    let ht := { ht with
      hentries := Function.update ht.hentries e (some (key, value))
      count := ht.count + 1 }
    if ht.count ≥ ht.rehashCount then enlargeHashTable ops ht else some ht

/-- The body of the loop of `remhash_1`, for the entry at `probe`. -/
def remhashBody (code : K → Nat) (size : Nat) (entries : Nat → Option (K × V))
    (probe : Nat) : Option (Nat → Option (K × V)) :=
  match entries probe with
  | none => some entries
  | some e => do
    let probe2 ← probeLoop (occupied entries) (keyAt entries fun k => k = e.1)
      size (size + 1) (code e.1)
    if occupied entries probe2 then some entries
    else some (Function.update (Function.update entries probe2 (some e)) probe none)

/-- The loop of `remhash_1`, from `probe`. The array changes under it, so it is
written out: the same steps as `probeLoop`. -/
def remhashLoop (code : K → Nat) (size : Nat) :
    Nat → (Nat → Option (K × V)) → Nat → Option (Nat → Option (K × V))
  | 0, _, _ => none
  | fuel + 1, entries, probe =>
    if occupied entries probe then do
      remhashLoop code size fuel (← remhashBody code size entries probe) (probe + 1)
    else if probe = size then
      if occupied entries 0 then do
        remhashLoop code size fuel (← remhashBody code size entries 0) 1
      else some entries
    else some entries

def remhash1 (ops : LispOps K) (ht : LispHashTable K V) (probe : Nat) :
    Option (LispHashTable K V) :=
  (remhashLoop (ht.hashCode ops) ht.size (ht.size + 1)
      (Function.update ht.hentries probe none) (probe + 1)).map
    fun entries => { ht with hentries := entries, count := ht.count - 1 }

/-- `Fremhash`; the flag is the value returned to Lisp. -/
def remhash (ops : LispOps K) (key : K) (ht : LispHashTable K V) :
    Option (Bool × LispHashTable K V) := do
  let e ← findHentry ops key ht
  match ht.hentries e with
  | none => some (false, ht)
  | some _ => (remhash1 ops ht e).map fun ht => (true, ht)

def clrhash (ht : LispHashTable K V) : LispHashTable K V :=
  { ht with
    hentries := fun i => if i < ht.size then none else ht.hentries i
    count := 0 }

end XEmacs.Elhash

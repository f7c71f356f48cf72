import XEmacs.Bytecode.Invert
import XEmacs.Bytecode.Optimize
import XEmacs.Elhash.Table
import XEmacs.Gc.Marking

/-!
# Lisp objects

What `equal` and `sxhash` look at: integers and characters are in the object itself, and a record
is known by its address. `EQ` of two objects is equality of the two. An object may lead back to
itself.
-/

namespace XEmacs.Sxhash

open Coding

inductive Obj where
  | int (n : Int)
  | char (c : Nat)
  | ref (address : Nat)
deriving DecidableEq, Repr

/-- `hashcode_t`. -/
abbrev Hashcode := UInt64

/-- `LISP_HASH`: the object as a word. -/
def lispHash : Obj → Hashcode
  | .int n => UInt64.ofInt (2 * n + 1)
  | .char c => UInt64.ofNat (4 * c + 2)
  | .ref address => UInt64.ofNat address

structure BitVector where
  length : Nat
  bits : List UInt64
  storage : bits.length = (length + 63) / 64

structure RangeTableEntry where
  first : Int
  last : Int
  val : Obj

/-- `enum char_table_type`. -/
inductive CharTableType where
  | generic
  | category
  | syntaxTable
  | display
  | char
deriving DecidableEq, Repr

/-- `struct Lisp_Char_Table`, with `NUM_ASCII_CHARS` and `NUM_LEADING_BYTES` elements. -/
structure CharTable where
  type : CharTableType
  ascii : Vector Obj 160
  level1 : Vector Obj 128

/-- `struct Lisp_Hash_Table`. -/
structure HashTable where
  test : Elhash.HashTableTest
  weakness : Gc.Weakness
  count : Nat
  size : Nat
  goldenRatio : Hashcode
  hentries : Nat → Option (Obj × Obj)

/-- The instructions of a compiled function: an object, most often a string, or the program
made from it. -/
inductive Instructions where
  | object (o : Obj)
  | program (bytes : List UInt8)
deriving DecidableEq, Repr

/-- `struct Lisp_Compiled_Function`. -/
structure CompiledFunction where
  documentationp : Bool
  interactivep : Bool
  domainp : Bool
  instructions : Instructions
  constants : Obj
  arglist : Obj
  docAndInteractive : Obj
deriving DecidableEq, Repr

/-- What `optimize_byte_code` asks of a symbol. -/
inductive SymbolKind where
  | nil
  | t
  | keyword
  | plain
deriving DecidableEq, Repr

def SymbolKind.constant : SymbolKind → Bytecode.Constant
  | .nil => .nil
  | .t => .t
  | .keyword => .keyword
  | .plain => .symbol

/-- The contents of a record. A string has its bytes. -/
inductive Record where
  | cons (car cdr : Obj)
  | vector (contents : List Obj)
  | bitVector (v : BitVector)
  | string (bytes : List Nat)
  | symbol (kind : SymbolKind)
  | marker (buffer : Option Nat) (memind : Int)
  | rangeTable (entries : List RangeTableEntry)
  | charTable (ct : CharTable)
  | charTableEntry (level2 : Vector Obj 96)
  | hashTable (ht : HashTable)
  | weakList (type : Gc.WeakListType) (list : Obj)
  | compiledFunction (f : CompiledFunction)

/-- All objects, and the charsets of their characters. -/
structure Heap where
  charsets : Charsets
  record : Nat → Record

/-- One record changes. -/
def Heap.set (h : Heap) (address : Nat) (r : Record) : Heap :=
  { h with record := Function.update h.record address r }

@[simp] theorem Heap.record_set_self (h : Heap) (address : Nat) (r : Record) :
    (h.set address r).record address = r :=
  Function.update_self ..

@[simp] theorem Heap.record_set_of_ne (h : Heap) {a address : Nat} (r : Record)
    (hne : a ≠ address) : (h.set address r).record a = h.record a :=
  Function.update_of_ne hne ..

/-- `CONSP`, with the car and the cdr. -/
def Heap.consp (h : Heap) : Obj → Option (Obj × Obj)
  | .ref address =>
    match h.record address with
    | .cons car cdr => some (car, cdr)
    | _ => none
  | _ => none

/-! ### Calling a compiled function -/

/-- `convert_bufbyte_string_into_emchar_dynarr`; every turn takes a character. -/
def emchars (charsets : Charsets) : Nat → List Nat → Option (List Nat)
  | _, [] => some []
  | 0, _ :: _ => none
  | fuel + 1, b :: rest =>
    (readChar charsets (b :: rest)).bind fun (ch, rest) =>
      (emchars charsets fuel rest).map (ch.emchar :: ·)

/-- What the checks of the translator want to know of a constant. -/
def Heap.constant (h : Heap) : Obj → Bytecode.Constant
  | .ref address =>
    match h.record address with
    | .symbol kind => kind.constant
    | _ => .other
  | _ => .other

/-- The contents of a constants vector. -/
def Heap.constants (h : Heap) : Obj → Option (List Bytecode.Constant)
  | .ref address =>
    match h.record address with
    | .vector contents => some (contents.map h.constant)
    | _ => none
  | _ => none

/-- The characters of a string. -/
def Heap.chars (h : Heap) : Obj → Option (List Nat)
  | .ref address =>
    match h.record address with
    | .string bytes => emchars h.charsets bytes.length bytes
    | _ => none
  | _ => none

/-- The program made from a function's instructions, if they are a string and pass the checks of
`optimize_byte_code`. -/
def Heap.optimized (h : Heap) (f : CompiledFunction) : Option (List UInt8) :=
  match f.instructions with
  | .program bytes => some bytes
  | .object o =>
    (h.chars o).bind fun chars =>
      (h.constants f.constants).bind fun constants =>
        match Bytecode.optimizeByteCode constants chars with
        | .ok r => some (r.program.map UInt8.ofNat)
        | .error _ => none

/-- `optimize_compiled_function`, the effect of a call on the function; `none` if it signals an
error. Instructions that are still in a file (a cons) are not fetched. -/
def Heap.optimizeCompiledFunction (h : Heap) (address : Nat) : Option Heap :=
  match h.record address with
  | .compiledFunction f =>
    (h.optimized f).map fun bytes =>
      h.set address (.compiledFunction { f with instructions := .program bytes })
  | _ => none

end XEmacs.Sxhash

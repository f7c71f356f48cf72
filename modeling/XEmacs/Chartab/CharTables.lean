import XEmacs.Coding.Charsets
import Mathlib.Logic.Function.Basic

/-!
# Char tables (chartab.c, and what it calls in syntax.c)

A char table has a value for each ASCII and Control-1 character, and for each other charset a
value or an entry; the entry has for each row of the charset a value or an entry, and this one a
value for each character of the row.
-/

namespace XEmacs.Chartab

open Coding

/-- `struct chartab_range`. -/
inductive ChartabRange where
  | all
  | charset (charset : Charset)
  | row (charset : Charset) (row : Nat)
  | char (ch : Nat)
  deriving DecidableEq

/-- A Lisp object in a table: a value, or a char table entry by its address. Entries never escape
to Lisp. -/
inductive Slot (V : Type) where
  | value (val : V)
  | entry (cte : Nat)

/-- `level2` of `struct Lisp_Char_Table_Entry`. -/
abbrev CharTableEntry (V : Type) := Fin 96 → Slot V

inductive CharTableType where
  | typeGeneric
  | typeCategory
  | typeSyntax
  | typeDisplay
  | typeChar
  deriving DecidableEq

/-- `struct Lisp_Char_Table`. There are no entries in `ascii`. -/
structure CharTable (V : Type) where
  ascii : Fin 160 → V
  level1 : Fin 128 → Slot V
  type : CharTableType
  mirrorTable : Option Nat

/-- The char tables and the char table entries there are, by their addresses, with the charsets,
`Vstandard_syntax_table` and `Vall_syntax_tables`. -/
structure CharTables (V : Type) where
  charsets : Charsets
  entries : List (CharTableEntry V)
  tables : List (CharTable V)
  standardSyntaxTable : Option Nat
  allSyntaxTables : List Nat

/-- What is known of Lisp values: those that tables start with, and of a syntax code the code
without its matching character, and whether it says that the standard syntax table is used. -/
structure TableValues (V : Type) where
  nil : V
  charZero : V
  inheritCode : V
  punctCode : V
  code : V → V
  isInherit : V → Bool

variable {V σ : Type}

/-- An index of an array of `n` elements that starts with `base`. -/
def indexFrom (base n i : Nat) : Option (Fin n) :=
  if h : base ≤ i ∧ i - base < n then some ⟨i - base, h.2⟩ else none

/-! ### Characters -/

def breakupChar (charsets : Charsets) (c : Nat) : Option (Charset × Nat × Nat) := do
  let lb ← charLeadingByte c
  let charset ← charsets.byLeadingByte lb
  if charset.dimension = 1 then some (charset, c % 128, 0)
  else some (charset, c / 128 % 128, c % 128)

/-! ### Looking up -/

namespace CharTables

/-- The value below a slot of `level1`. -/
def level1Value (s : CharTables V) (val : Slot V) (byte1 byte2 : Nat) : Option V :=
  match val with
  | .value val => some val
  | .entry cte => do
    let cte ← s.entries[cte]?
    let i ← indexFrom 32 96 byte1
    match cte i with
    | .value val => some val
    | .entry cte => do
      let cte ← s.entries[cte]?
      let i ← indexFrom 32 96 byte2
      match cte i with
      | .value val => some val
      | .entry _ => none

def getCharTable (s : CharTables V) (ch : Nat) (ct : Nat) : Option V := do
  let ct ← s.tables[ct]?
  let (charset, byte1, byte2) ← breakupChar s.charsets ch
  if charset.leadingByte = leadingByteAscii then do
    let i ← indexFrom 0 160 byte1
    return ct.ascii i
  else if charset.leadingByte = leadingByteControl1 then do
    let i ← indexFrom 0 160 (byte1 + 128)
    return ct.ascii i
  else do
    let lb ← indexFrom 0x80 128 charset.leadingByte
    s.level1Value (ct.level1 lb) byte1 byte2

def getNonAsciiCharTableValue (s : CharTables V) (ct : CharTable V) (leadingByte c : Nat) :
    Option V := do
  let charset ← s.charsets.byLeadingByte leadingByte
  let lb ← indexFrom 0x80 128 leadingByte
  if charset.dimension = 1 then s.level1Value (ct.level1 lb) (c % 128) 0
  else s.level1Value (ct.level1 lb) (c / 128 % 128) (c % 128)

/-- `CHAR_TABLE_NON_ASCII_VALUE_UNSAFE`. -/
def nonAsciiValueUnsafe (s : CharTables V) (ct : CharTable V) (ch : Nat) : Option V := do
  let lb ← charLeadingByte ch
  let i ← indexFrom 0x80 128 lb
  match ct.level1 i with
  | .value val => some val
  | .entry _ => s.getNonAsciiCharTableValue ct lb ch

/-- `CHAR_TABLE_VALUE_UNSAFE`. -/
def valueUnsafe (s : CharTables V) (ct : CharTable V) (ch : Nat) : Option V :=
  if ch < 160 then (indexFrom 0 160 ch).map ct.ascii else s.nonAsciiValueUnsafe ct ch

/-! ### Assigning -/

def setTable (s : CharTables V) (t : Nat) (ct : CharTable V) : CharTables V :=
  { s with tables := s.tables.set t ct }

def setEntry (s : CharTables V) (cte : Nat) (level2 : CharTableEntry V) : CharTables V :=
  { s with entries := s.entries.set cte level2 }

def makeCharTableEntry (s : CharTables V) (initval : V) : CharTables V × Nat :=
  ({ s with entries := s.entries ++ [fun _ => .value initval] }, s.entries.length)

/-- The slot of a charset is made an entry if it is none. -/
def separateCharset (s : CharTables V) (t : Nat) (lb : Fin 128) : Option (CharTables V × Nat) := do
  let ct ← s.tables[t]?
  match ct.level1 lb with
  | .entry cte => some (s, cte)
  | .value val =>
    let (s, cte) := s.makeCharTableEntry val
    some (s.setTable t { ct with level1 := Function.update ct.level1 lb (.entry cte) }, cte)

/-- The slot of a row is made an entry if it is none. -/
def separateRow (s : CharTables V) (cte : Nat) (row : Fin 96) : Option (CharTables V × Nat) := do
  let level2 ← s.entries[cte]?
  match level2 row with
  | .entry cte' => some (s, cte')
  | .value val =>
    let (s, cte') := s.makeCharTableEntry val
    some (s.setEntry cte (Function.update level2 row (.entry cte')), cte')

/-- A value is put into an entry. -/
def setSlot (s : CharTables V) (cte : Nat) (i : Fin 96) (val : V) : Option (CharTables V) := do
  let level2 ← s.entries[cte]?
  return s.setEntry cte (Function.update level2 i (.value val))

/-- The values in `ascii` from `start` to `stop` are set. -/
def fillAscii (ct : CharTable V) (start stop : Nat) (val : V) : CharTable V :=
  { ct with ascii := fun i => if start ≤ i.val ∧ i.val < stop then val else ct.ascii i }

/-- What `put_char_table` assigns, by the type of the range. -/
def assign (s : CharTables V) (t : Nat) (range : ChartabRange) (val : V) :
    Option (CharTables V) := do
  let ct ← s.tables[t]?
  match range with
  | .all =>
    return s.setTable t { ct with ascii := fun _ => val, level1 := fun _ => .value val }
  | .charset charset =>
    if charset.leadingByte = leadingByteAscii then return s.setTable t (fillAscii ct 0 128 val)
    else if charset.leadingByte = leadingByteControl1 then
      return s.setTable t (fillAscii ct 128 160 val)
    else do
      let lb ← indexFrom 0x80 128 charset.leadingByte
      return s.setTable t { ct with level1 := Function.update ct.level1 lb (.value val) }
  | .row charset row => do
    let lb ← indexFrom 0x80 128 charset.leadingByte
    let (s, cte) ← s.separateCharset t lb
    let i ← indexFrom 32 96 row
    s.setSlot cte i val
  | .char ch => do
    let (charset, byte1, byte2) ← breakupChar s.charsets ch
    if charset.leadingByte = leadingByteAscii then do
      let i ← indexFrom 0 160 byte1
      return s.setTable t { ct with ascii := Function.update ct.ascii i val }
    else if charset.leadingByte = leadingByteControl1 then do
      let i ← indexFrom 0 160 (byte1 + 128)
      return s.setTable t { ct with ascii := Function.update ct.ascii i val }
    else do
      let lb ← indexFrom 0x80 128 charset.leadingByte
      let (s, cte) ← s.separateCharset t lb
      let i ← indexFrom 32 96 byte1
      if charset.dimension = 1 then s.setSlot cte i val
      else do
        -- the row has a separate entry for each character
        let (s, cte) ← s.separateRow cte i
        let i ← indexFrom 32 96 byte2
        s.setSlot cte i val

end CharTables

/-! ### Mapping -/

/-- A function to be mapped, with the state that it and the map work on. -/
abbrev MapFn (V σ : Type) := ChartabRange → V → σ → Option (Int × σ)

/-- `for (i = start, retval = 0; i < stop && retval == 0; i++) retval = ..`, for `n` values. -/
def mapWhileZero (body : Nat → σ → Option (Int × σ)) : Nat → Nat → σ → Option (Int × σ)
  | 0, _, st => some (0, st)
  | n + 1, i, st => do
    let (retval, st) ← body i st
    if retval = 0 then mapWhileZero body n (i + 1) st else some (retval, st)

section map

variable (tables : σ → CharTables V) (fn : MapFn V σ) (t : Nat)

/-- The function called for a character whose value is in `ascii`. -/
def callAscii (i : Nat) (st : σ) : Option (Int × σ) := do
  let ct ← (tables st).tables[t]?
  let index ← indexFrom 0 160 i
  fn (.char i) (ct.ascii index) st

def mapOverCharsetAscii : σ → Option (Int × σ) := mapWhileZero (callAscii tables fn t) 128 0

def mapOverCharsetControl1 : σ → Option (Int × σ) := mapWhileZero (callAscii tables fn t) 32 128

/-- The first position code of a charset, and how many there are. -/
def startCode (charset : Charset) : Nat := if charset.chars = 94 then 33 else 32

def codeCount (charset : Charset) : Nat := if charset.chars = 94 then 127 - 33 else 128 - 32

/-- The function called for a character whose value is in an entry. -/
def callSlot (cte i ch : Nat) (st : σ) : Option (Int × σ) := do
  let level2 ← (tables st).entries[cte]?
  let index ← indexFrom 32 96 i
  match level2 index with
  | .value val => fn (.char ch) val st
  | .entry _ => none

def mapOverCharsetRow (cte : Nat) (charset : Charset) (row : Nat) (st : σ) :
    Option (Int × σ) := do
  let level2 ← (tables st).entries[cte]?
  let index ← indexFrom 32 96 row
  match level2 index with
  | .value val => fn (.row charset row) val st
  | .entry cte =>
    mapWhileZero (fun i => callSlot tables fn cte i (makeChar charset row i))
      (codeCount charset) (startCode charset) st

def mapOverOtherCharset (lb : Nat) (st : σ) : Option (Int × σ) := do
  let ct ← (tables st).tables[t]?
  let index ← indexFrom 0x80 128 lb
  match (tables st).charsets.byLeadingByte lb with
  | none => some (0, st)
  | some charset =>
    if lb = leadingByteAscii ∨ lb = leadingByteControl1 then some (0, st)
    else
      match ct.level1 index with
      | .value val => fn (.charset charset) val st
      | .entry cte =>
        if charset.dimension = 1 then
          mapWhileZero (fun i => callSlot tables fn cte i (makeChar charset i 0))
            (codeCount charset) (startCode charset) st
        else
          mapWhileZero (fun i => mapOverCharsetRow tables fn cte charset i)
            (codeCount charset) (startCode charset) st

def mapCharTable (range : ChartabRange) (st : σ) : Option (Int × σ) :=
  match range with
  | .all => do
    let (retval, st) ← mapOverCharsetAscii tables fn t st
    if retval ≠ 0 then some (retval, st)
    else do
      let (retval, st) ← mapOverCharsetControl1 tables fn t st
      if retval ≠ 0 then some (retval, st)
      else mapWhileZero (mapOverOtherCharset tables fn t) 128 0x80 st
  | .charset charset => mapOverOtherCharset tables fn t charset.leadingByte st
  | .row charset row => do
    let ct ← (tables st).tables[t]?
    let index ← indexFrom 0x80 128 charset.leadingByte
    match ct.level1 index with
    | .value val => fn (.row charset row) val st
    | .entry cte => mapOverCharsetRow tables fn cte charset row st
  | .char ch => do
    let ct ← (tables st).tables[t]?
    let val ← (tables st).valueUnsafe ct ch
    fn (.char ch) val st

end map

/-! ### Mirror tables -/

/-- A function that puts a value, `put_char_table` itself. -/
abbrev Put (V : Type) := CharTables V → Nat → ChartabRange → V → Option (CharTables V)

section mirror

variable (values : TableValues V) (put : Put V)

/-- `cmst_mapfun` where `check_inherit` is 0. -/
def cmstMapfunNoInherit (mirrortab : Nat) : MapFn V (CharTables V) := fun range val s => do
  let s ← put s mirrortab range (values.code val)
  return (0, s)

def cmstMapfun (mirrortab : Nat) (checkInherit : Bool) : MapFn V (CharTables V) :=
  fun range val s => do
    let val := values.code val
    if values.isInherit val ∧ checkInherit then do
      let standard ← s.standardSyntaxTable
      let (_, s) ← mapCharTable id (cmstMapfunNoInherit values put mirrortab) standard range s
      return (0, s)
    else do
      let s ← put s mirrortab range val
      return (0, s)

def updateJustThisSyntaxTable (s : CharTables V) (t : Nat) : Option (CharTables V) := do
  let ct ← s.tables[t]?
  let mirrortab ← ct.mirrorTable
  let checkInherit := s.standardSyntaxTable.isSome ∧ s.standardSyntaxTable ≠ some t
  let (_, s) ← mapCharTable id (cmstMapfun values put mirrortab checkInherit) t .all s
  return s

def updateSyntaxTable (s : CharTables V) (t : Nat) : Option (CharTables V) :=
  if s.standardSyntaxTable = some t then
    s.allSyntaxTables.foldlM (updateJustThisSyntaxTable values put) s
  else updateJustThisSyntaxTable values put s t

/-- The last lines of `put_char_table` and of `fill_char_table`. -/
def updateIfSyntax (s : CharTables V) (t : Nat) : Option (CharTables V) := do
  let ct ← s.tables[t]?
  if ct.type = .typeSyntax then updateSyntaxTable values put s t else some s

end mirror

/-- `put_char_table`, and for `CHARTAB_RANGE_ALL` `fill_char_table`. A put on a syntax table puts on
mirror tables, which are not syntax tables, so that the depth is 2. -/
def putCharTable (values : TableValues V) : Nat → Put V
  | 0, _, _, _, _ => none
  | depth + 1, s, t, range, val => do
    let s ← s.assign t range val
    updateIfSyntax values (putCharTable values depth) s t

/-- `Freset_char_table`. Display tables are not different from generic ones. -/
def resetCharTable (values : TableValues V) (s : CharTables V) (t : Nat) :
    Option (CharTables V) := do
  let ct ← s.tables[t]?
  match ct.type with
  | .typeChar => putCharTable values 2 s t .all values.charZero
  | .typeDisplay | .typeGeneric | .typeCategory => putCharTable values 2 s t .all values.nil
  | .typeSyntax => putCharTable values 2 s t .all values.inheritCode

/-- A new table. Its values are set by `Freset_char_table`. -/
def allocTable (values : TableValues V) (s : CharTables V) (type : CharTableType)
    (mirrorTable : Option Nat) : CharTables V × Nat :=
  let ct := ⟨fun _ => values.nil, fun _ => .value values.nil, type, mirrorTable⟩
  ({ s with tables := s.tables ++ [ct] }, s.tables.length)

def makeCharTable (values : TableValues V) (s : CharTables V) (type : CharTableType) :
    Option (CharTables V × Nat) := do
  if type = .typeSyntax then do
    let (s, mirror) := allocTable values s .typeGeneric none
    let s ← resetCharTable values s mirror
    let s ← putCharTable values 2 s mirror .all values.punctCode
    let (s, t) := allocTable values s .typeSyntax (some mirror)
    let s := { s with allSyntaxTables := t :: s.allSyntaxTables }
    let s ← resetCharTable values s t
    return (s, t)
  else do
    let (s, t) := allocTable values s type none
    let s ← resetCharTable values s t
    return (s, t)

/-! ### Copying -/

/-- A slot of an array copied, with the entry in it. -/
def copySlot {n : Nat} (copy : CharTables V → Nat → Option (CharTables V × Nat))
    (slots : Fin n → Slot V) : CharTables V × (Fin n → Slot V) → Fin n →
      Option (CharTables V × (Fin n → Slot V))
  | (s, new), i =>
    match slots i with
    | .value val => some (s, Function.update new i (.value val))
    | .entry cte => do
      let (s, cte) ← copy s cte
      return (s, Function.update new i (.entry cte))

/-- The loop over an array of slots. -/
def copySlots {n : Nat} (copy : CharTables V → Nat → Option (CharTables V × Nat))
    (s : CharTables V) (slots : Fin n → Slot V) : Option (CharTables V × (Fin n → Slot V)) :=
  (List.finRange n).foldlM (copySlot copy slots) (s, slots)

/-- `copy_char_table_entry`. There are entries in entries, but none in those. -/
def copyCharTableEntry : Nat → CharTables V → Nat → Option (CharTables V × Nat)
  | 0, _, _ => none
  | depth + 1, s, cte => do
    let level2 ← s.entries[cte]?
    let (s, new) ← copySlots (copyCharTableEntry depth) s level2
    return ({ s with entries := s.entries ++ [new] }, s.entries.length)

/-- `Fcopy_char_table`. A mirror table has none of its own. -/
def copyCharTable : Nat → CharTables V → Nat → Option (CharTables V × Nat)
  | 0, _, _ => none
  | depth + 1, s, t => do
    let ct ← s.tables[t]?
    let (s, level1) ← copySlots (copyCharTableEntry 2) s ct.level1
    let (s, mirrorTable) ← match ct.mirrorTable with
      | none => some (s, none)
      | some mirror => do
        let (s, mirror) ← copyCharTable depth s mirror
        some (s, some mirror)
    let new := s.tables.length
    let s := { s with tables := s.tables ++ [{ ct with level1, mirrorTable }] }
    if ct.type = .typeSyntax then
      return ({ s with allSyntaxTables := new :: s.allSyntaxTables }, new)
    else return (s, new)

end XEmacs.Chartab

import XEmacs.Lib.ByteMemory
import XEmacs.Rangetab.Tables

/-!
# Unified range tables

A unified range table is a range table as one block of memory that can be copied to any address.
The first byte has the offset of the `struct unified_range_table`, the next three have the size
of the whole.
-/

namespace XEmacs.Rangetab

open IntervalMaps ByteMemory List Option

/-- An entry with a Lisp object. -/
abbrev Entry := RangeTableEntry UInt64

/-- `sizeof (struct range_table_entry)`. -/
def sizeofEntry : Nat := 24

/-- `sizeof (struct unified_range_table)`. -/
def sizeofUnified : Nat := 32

/-- The offset of `first` in the struct. -/
def offsetofFirst : Nat := 8

/-- `ALIGNOF (EMACS_INT)`. -/
def alignofEmacsInt : Nat := 8

def alignPtr (ptr unit : Nat) : Nat := (ptr + unit - 1) / unit * unit

/-- The bytes of an `EMACS_INT`. -/
def emacsIntBytes (x : Int) : List UInt8 := wordBytes 8 (x % 2 ^ 64).toNat

/-- The `EMACS_INT` a word is. -/
def wordEmacsInt (w : Nat) : Int := Int.bmod w (2 ^ 64)

/-- The bytes of an entry. -/
def entryBytes (e : Entry) : List UInt8 :=
  emacsIntBytes e.first ++ emacsIntBytes e.last ++ wordBytes 8 e.val.toNat

/-- `unified_range_table_bytes_needed`, in the arithmetic of `size_t`. -/
def unifiedRangeTableBytesNeeded (rangetab : List Entry) : Nat :=
  (sizeofEntry * (rangetab.length + (2 ^ 64 - 1)) + sizeofUnified + alignofEmacsInt + 4) % 2 ^ 64

def unifiedRangeTableCopyData (rangetab : List Entry) (dest : Block) : Option Block := do
  let totalNeeded := unifiedRangeTableBytesNeeded rangetab
  let newDest := alignPtr (dest.base + 4) alignofEmacsInt
  let dest ← dest.write dest.base [UInt8.ofNat (newDest - dest.base)]
  let dest ← dest.write (dest.base + 1) [UInt8.ofNat totalNeeded]
  let dest ← dest.write (dest.base + 2) [UInt8.ofNat (totalNeeded / 256)]
  let dest ← dest.write (dest.base + 3) [UInt8.ofNat (totalNeeded / 256 / 256)]
  let dest ← dest.writeWord newDest 4 rangetab.length
  dest.write (newDest + offsetofFirst) (rangetab.flatMap entryBytes)

def unifiedRangeTableBytesUsed (unrangetab : Block) : Option Nat :=
  (unrangetab.read (unrangetab.base + 1) 3).map bytesWord

/-- Where the first byte leads, a signed `char`; no address before the block. -/
def structAddress (unrangetab : Block) : Option Nat := do
  let bytes ← unrangetab.read unrangetab.base 1
  if bytesWord bytes < 128 then some (unrangetab.base + bytesWord bytes) else none

def alignTheDamnTable (unrangetab : Block) : Option Block := do
  let curDest ← structAddress unrangetab
  if curDest % 8 ≠ 0 then
    let used ← unifiedRangeTableBytesUsed unrangetab
    if used < 4 + alignofEmacsInt then none
    else
      let count := used - 4 - alignofEmacsInt
      let newDest := alignPtr (unrangetab.base + 4) alignofEmacsInt
      let unrangetab ← unrangetab.move newDest curDest count
      unrangetab.write unrangetab.base [UInt8.ofNat (newDest - unrangetab.base)]
  else some unrangetab

/-- The entry at an address. -/
def readEntry (b : Block) (address : Nat) : Option Entry := do
  let first ← b.readWord address 8
  let last ← b.readWord (address + 8) 8
  let val ← b.readWord (address + 16) 8
  return ⟨wordEmacsInt first, wordEmacsInt last, UInt64.ofNat val⟩

/-- The entries of the struct at `un`. -/
def readEntries (b : Block) (un nentries : Nat) : Option (List Entry) :=
  (List.range nentries).mapM fun i => readEntry b (un + offsetofFirst + sizeofEntry * i)

/-- `unified_range_table_lookup`. All entries are read, of which `get_range_table` looks at some. -/
def unifiedRangeTableLookup (unrangetab : Block) (pos : Int) (default : UInt64) :
    Option (Block × UInt64) := do
  let unrangetab ← alignTheDamnTable unrangetab
  let un ← structAddress unrangetab
  let nentries ← unrangetab.readWord un 4
  let tab ← readEntries unrangetab un nentries
  let value ← getRangeTable pos tab default
  return (unrangetab, value)

def unifiedRangeTableNentries (unrangetab : Block) : Option (Block × Nat) := do
  let unrangetab ← alignTheDamnTable unrangetab
  let un ← structAddress unrangetab
  let nentries ← unrangetab.readWord un 4
  return (unrangetab, nentries)

/-- `unified_range_table_get_range`; without a range where the assertion fails. -/
def unifiedRangeTableGetRange (unrangetab : Block) (offset : Nat) :
    Option (Block × Option Entry) := do
  let unrangetab ← alignTheDamnTable unrangetab
  let un ← structAddress unrangetab
  let nentries ← unrangetab.readWord un 4
  if offset < nentries then do
    let entry ← readEntry unrangetab (un + offsetofFirst + sizeofEntry * offset)
    return (unrangetab, some entry)
  else return (unrangetab, none)

/-- What is done with a unified range table: it is copied to a new address, where the other
addresses have any contents, or accessed. -/
inductive UnifiedOp where
  | copyBytes (base : Nat) (memory : Nat → UInt8)
  | lookup (pos : Int) (default : UInt64)
  | nentries
  | getRange (offset : Nat)

/-- What an access returns. -/
inductive UnifiedResult where
  | done
  | value (val : UInt64)
  | count (n : Nat)
  | range (entry : Option Entry)

/-- One operation. The copy has the size of the bytes that are copied. -/
def UnifiedOp.run (b : Block) : UnifiedOp → Option (Block × UnifiedResult)
  | copyBytes base memory => do
    let used ← unifiedRangeTableBytesUsed b
    let bytes ← b.read b.base used
    return (⟨base, used, memcpy memory base bytes⟩, .done)
  | lookup pos default =>
    (unifiedRangeTableLookup b pos default).map fun (b, val) => (b, .value val)
  | nentries => (unifiedRangeTableNentries b).map fun (b, n) => (b, .count n)
  | getRange offset => (unifiedRangeTableGetRange b offset).map fun (b, entry) => (b, .range entry)

/-- A sequence of operations, with what they return. -/
def runUnified (b : Block) : List UnifiedOp → Option (List UnifiedResult)
  | [] => some []
  | op :: ops => do
    let (b, result) ← op.run b
    let results ← runUnified b ops
    return result :: results

/-- What an operation returns if the block stands for the table. -/
def UnifiedOp.Returns (rangetab : List Entry) : UnifiedOp → UnifiedResult → Prop
  | copyBytes _ _, result => result = .done
  | lookup pos default, result =>
    ∃ val, getRangeTable pos rangetab default = some val ∧ result = .value val
  | nentries, result => result = .count rangetab.length
  | getRange offset, result => result = .range rangetab[offset]?

/-! ### The bytes of a table -/

/-- The bounds are `EMACS_INT`s. -/
def Fits (e : Entry) : Prop :=
  -2 ^ 63 ≤ e.first ∧ e.first < 2 ^ 63 ∧ -2 ^ 63 ≤ e.last ∧ e.last < 2 ^ 63

@[simp]
theorem length_emacsIntBytes (x : Int) : (emacsIntBytes x).length = 8 := length_wordBytes 8 _

@[simp]
theorem length_entryBytes (e : Entry) : (entryBytes e).length = 24 := by
  simp only [entryBytes, length_append, length_emacsIntBytes, length_wordBytes]

theorem length_entries (l : List Entry) : (l.flatMap entryBytes).length = 24 * l.length := by
  induction l with
  | nil => rfl
  | cons e l ih =>
    rw [flatMap_cons, length_append, length_entryBytes, ih, length_cons]
    omega

theorem wordEmacsInt_bytesWord {x : Int} (hlo : -2 ^ 63 ≤ x) (hhi : x < 2 ^ 63) :
    wordEmacsInt (bytesWord (emacsIntBytes x)) = x := by
  have hmod : (x % 2 ^ 64).toNat % 256 ^ 8 = (x % 2 ^ 64).toNat := Nat.mod_eq_of_lt (by omega)
  have hcast : ((x % 2 ^ 64).toNat : Int) = x % ((2 ^ 64 : Nat) : Int) := by omega
  have hpow : ((2 ^ 64 : Nat) : Int) = 2 ^ 64 := by norm_cast
  have hbmod : Int.bmod x (2 ^ 64) = x :=
    Int.bmod_eq_of_le_mul_two (by rw [hpow]; omega) (by rw [hpow]; omega)
  unfold wordEmacsInt
  rw [emacsIntBytes, bytesWord_wordBytes, hmod, hcast, Int.emod_bmod, hbmod]

theorem segment_entries {m : Nat → UInt8} {a : Nat} {l : List Entry}
    (h : segment m a (24 * l.length) = l.flatMap entryBytes) {i : Nat} (hi : i < l.length) :
    segment m (a + 24 * i) 24 = entryBytes l[i] := by
  induction l generalizing a i with
  | nil => exact absurd hi (Nat.not_lt_zero i)
  | cons e l ih =>
    rw [length_cons, Nat.mul_add, Nat.add_comm, segment_add, flatMap_cons] at h
    obtain ⟨hfirst, hrest⟩ := append_inj h (by rw [length_segment, length_entryBytes])
    cases i with
    | zero => exact hfirst
    | succ i =>
      rw [Nat.mul_add, Nat.mul_one, Nat.add_comm (24 * i), ← Nat.add_assoc]
      exact ih hrest (Nat.lt_of_succ_lt_succ hi)

theorem alignPtr_spec (base : Nat) : ∃ off, 4 ≤ off ∧ off ≤ 11 ∧
    alignPtr (base + 4) alignofEmacsInt = base + off ∧ (base + off) % 8 = 0 := by
  refine ⟨alignPtr (base + 4) alignofEmacsInt - base, ?_⟩
  unfold alignPtr alignofEmacsInt
  omega

/-! ### What the block holds -/

/-- The block stands for the table, with the struct at the offset `off`. -/
structure Stands (rangetab : List Entry) (b : Block) (off : Nat) : Prop where
  size : b.size = 24 * rangetab.length + 20
  small : b.size < 2 ^ 24
  offset : 4 ≤ off ∧ off ≤ 11
  first : segment b.memory b.base 1 = [UInt8.ofNat off]
  used : segment b.memory (b.base + 1) 3 = wordBytes 3 b.size
  nentries : segment b.memory (b.base + off) 4 = wordBytes 4 rangetab.length
  entries : segment b.memory (b.base + off + 8) (24 * rangetab.length) = rangetab.flatMap entryBytes

section Stands

variable {rangetab : List Entry} {b : Block} {off : Nat}

theorem Stands.structAddress (h : Stands rangetab b off) :
    structAddress b = some (b.base + off) := by
  have hsize := h.size
  have hoff := h.offset
  have hword : bytesWord [UInt8.ofNat off] = off := by
    have hbyte : (UInt8.ofNat off).toNat = off % 256 := UInt8.toNat_ofNat'
    rw [bytesWord, bytesWord, hbyte]
    omega
  rw [Rangetab.structAddress, Block.read, if_pos ⟨Nat.le_refl _, by omega⟩, h.first]
  simp only [bind_eq_bind, bind_some, hword]
  rw [if_pos (by omega)]

theorem Stands.bytesUsed (h : Stands rangetab b off) :
    unifiedRangeTableBytesUsed b = some b.size := by
  have hsize := h.size
  have hsmall := h.small
  rw [unifiedRangeTableBytesUsed, Block.read, if_pos ⟨by omega, by omega⟩, h.used,
    map_some, bytesWord_wordBytes, Nat.mod_eq_of_lt (by omega)]

theorem segment_moved (b : Block) {off off' d n count : Nat} {byte : List UInt8}
    (hbyte : byte.length = 1) (hoff' : 4 ≤ off') (hin : d + n ≤ count) :
    segment (memcpy (memmove b.memory (b.base + off') (b.base + off) count) b.base byte)
      (b.base + off' + d) n = segment b.memory (b.base + off + d) n := by
  rw [segment_memcpy_outside (.inr (by omega))]
  refine segment_eq_iff.mpr fun i hi => ?_
  rw [memmove_inside (by omega) (by omega)]
  congr 1
  omega

/-- **`align_the_damn_table`** leaves the table in the block, at an aligned address. -/
theorem Stands.align (h : Stands rangetab b off) :
    ∃ b' off', alignTheDamnTable b = some b' ∧ Stands rangetab b' off' ∧
      (b'.base + off') % 8 = 0 := by
  have hsize := h.size
  have hoff := h.offset
  rw [alignTheDamnTable, h.structAddress]
  simp only [bind_eq_bind, bind_some]
  by_cases haligned : (b.base + off) % 8 = 0
  · exact ⟨b, off, if_neg (not_not.mpr haligned), h, haligned⟩
  · obtain ⟨off', hlo, hhi, hnew, haligned'⟩ := alignPtr_spec b.base
    have hcount : b.size - 4 - alignofEmacsInt = 8 + 24 * rangetab.length := by
      rw [hsize, alignofEmacsInt]
      omega
    rw [if_pos haligned, h.bytesUsed]
    simp only [bind_some]
    rw [if_neg (by rw [hsize, alignofEmacsInt]; omega), hcount, hnew, Block.move,
      if_pos ⟨⟨by omega, by omega⟩, by omega, by omega⟩, bind_some, Block.write,
      if_pos ⟨Nat.le_refl _, by simp only [length_singleton]; omega⟩]
    refine ⟨_, off', rfl, ⟨hsize, h.small, ⟨hlo, hhi⟩, ?_, ?_, ?_, ?_⟩, haligned'⟩
    · simp only [Nat.add_sub_cancel_left]
      exact segment_memcpy _ b.base [UInt8.ofNat off']
    · simp only
      rw [segment_memcpy_outside (.inr (by simp only [length_singleton]; omega)),
        segment_memmove_outside (.inl (by omega)),
        h.used]
    · exact (segment_moved b (d := 0) rfl hlo (by omega)).trans h.nentries
    · exact (segment_moved b (d := 8) rfl hlo (Nat.le_refl _)).trans h.entries

/-- **`unified_range_table_copy_data`** puts the table into the block. -/
theorem copyData_stands (rangetab : List Entry) (dest : Block)
    (hsize : dest.size = 24 * rangetab.length + 20) (hsmall : dest.size < 2 ^ 24) :
    ∃ b off, unifiedRangeTableCopyData rangetab dest = some b ∧ Stands rangetab b off := by
  obtain ⟨off, hlo, hhi, hnew, haligned⟩ := alignPtr_spec dest.base
  have hneeded : unifiedRangeTableBytesNeeded rangetab = dest.size := by
    rw [unifiedRangeTableBytesNeeded, hsize, sizeofEntry, sizeofUnified, alignofEmacsInt]
    omega
  have hentries := length_entries rangetab
  have hone : ∀ byte : UInt8, [byte].length = 1 := fun _ => rfl
  have hfour := length_wordBytes 4 rangetab.length
  obtain ⟨b₁, hrun₁, h₁⟩ := Block.write_wrote (b := dest) (a := dest.base)
    (l := [UInt8.ofNat off]) (Nat.le_refl _) (by rw [hone]; omega)
  obtain ⟨b₂, hrun₂, h₂⟩ := Block.write_wrote (b := b₁) (a := dest.base + 1)
    (l := [UInt8.ofNat dest.size]) (by rw [h₁.base]; omega) (by rw [hone, h₁.base, h₁.size]; omega)
  have hbase₂ : b₂.base = dest.base := h₂.base.trans h₁.base
  have hsize₂ : b₂.size = dest.size := h₂.size.trans h₁.size
  obtain ⟨b₃, hrun₃, h₃⟩ := Block.write_wrote (b := b₂) (a := dest.base + 2)
    (l := [UInt8.ofNat (dest.size / 256)]) (by omega) (by rw [hone]; omega)
  have hbase₃ : b₃.base = dest.base := h₃.base.trans hbase₂
  have hsize₃ : b₃.size = dest.size := h₃.size.trans hsize₂
  obtain ⟨b₄, hrun₄, h₄⟩ := Block.write_wrote (b := b₃) (a := dest.base + 3)
    (l := [UInt8.ofNat (dest.size / 256 / 256)]) (by omega) (by rw [hone]; omega)
  have hbase₄ : b₄.base = dest.base := h₄.base.trans hbase₃
  have hsize₄ : b₄.size = dest.size := h₄.size.trans hsize₃
  obtain ⟨b₅, hrun₅, h₅⟩ := Block.write_wrote (b := b₄) (a := dest.base + off)
    (l := wordBytes 4 rangetab.length) (by omega) (by omega)
  have hbase₅ : b₅.base = dest.base := h₅.base.trans hbase₄
  have hsize₅ : b₅.size = dest.size := h₅.size.trans hsize₄
  obtain ⟨b₆, hrun₆, h₆⟩ := Block.write_wrote (b := b₅) (a := dest.base + off + 8)
    (l := rangetab.flatMap entryBytes) (by omega) (by omega)
  refine ⟨b₆, off, ?_, ?_⟩
  · rw [unifiedRangeTableCopyData, hneeded, hnew]
    simp only [bind_eq_bind, Nat.add_sub_cancel_left, offsetofFirst, Block.writeWord]
    rw [hrun₁, bind_some, h₁.base, hrun₂, bind_some, hbase₂, hrun₃,
      bind_some, hbase₃, hrun₄, bind_some, if_pos (by omega), hrun₅,
      bind_some, hrun₆]
  have hbase : b₆.base = dest.base := h₆.base.trans hbase₅
  have hsize₆ : b₆.size = dest.size := h₆.size.trans hsize₅
  refine ⟨hsize₆.trans hsize, hsize₆ ▸ hsmall, ⟨hlo, hhi⟩, ?_, ?_, ?_, ?_⟩
  · rw [hbase, h₆.frame _ _ (by omega), h₅.frame _ _ (by omega), h₄.frame _ _ (by omega),
      h₃.frame _ _ (by omega), h₂.frame _ _ (by omega)]
    exact h₁.written
  · have hlow : segment b₆.memory (dest.base + 1) 3 = segment b₄.memory (dest.base + 1) 3 := by
      rw [h₆.frame _ _ (by omega), h₅.frame _ _ (by omega)]
    have hfirst : segment b₄.memory (dest.base + 1) 1 = [UInt8.ofNat dest.size] := by
      rw [h₄.frame _ _ (by omega), h₃.frame _ _ (by omega)]
      exact h₂.written
    have hsecond : segment b₄.memory (dest.base + 2) 1 = [UInt8.ofNat (dest.size / 256)] := by
      rw [h₄.frame _ _ (by omega)]
      exact h₃.written
    rw [hbase, hsize₆, hlow, segment_add b₄.memory (dest.base + 1) 1 2,
      segment_add b₄.memory (dest.base + 1 + 1) 1 1, hfirst, hsecond]
    exact congrArg ([_, _] ++ ·) h₄.written
  · rw [hbase, h₆.frame _ _ (by omega), ← hfour]
    exact h₅.written
  · rw [hbase, ← hentries]
    exact h₆.written

theorem Stands.copyBytes (h : Stands rangetab b off) (base : Nat) (memory : Nat → UInt8) :
    ∃ b', (UnifiedOp.copyBytes base memory).run b = some (b', .done) ∧ Stands rangetab b' off := by
  have hsize := h.size
  have hoff := h.offset
  obtain ⟨b', hb'⟩ : ∃ b' : Block,
      b' = ⟨base, b.size, memcpy memory base (segment b.memory b.base b.size)⟩ := ⟨_, rfl⟩
  have hpart : ∀ d n, d + n ≤ b.size →
      segment b'.memory (base + d) n = segment b.memory (b.base + d) n := by
    intro d n hdn
    have hcopy : segment b'.memory base b.size = segment b.memory b.base b.size := by
      have hwritten := segment_memcpy memory base (segment b.memory b.base b.size)
      rw [length_segment] at hwritten
      rw [hb']
      exact hwritten
    refine segment_eq_iff.mpr fun i hi => ?_
    rw [Nat.add_assoc, Nat.add_assoc]
    exact segment_eq_iff.mp hcopy (d + i) (by omega)
  have hbase : b'.base = base := by rw [hb']
  have hsize' : b'.size = b.size := by rw [hb']
  refine ⟨b', ?_, hsize'.trans hsize, hsize' ▸ h.small, hoff, ?_, ?_, ?_, ?_⟩
  · rw [UnifiedOp.run, h.bytesUsed, hb']
    simp only [bind_eq_bind, bind_some]
    rw [Block.read, if_pos ⟨Nat.le_refl _, Nat.le_refl _⟩]
    rfl
  · rw [hbase]
    exact (hpart 0 1 (by omega)).trans h.first
  · rw [hbase, hsize']
    exact (hpart 1 3 (by omega)).trans h.used
  · rw [hbase, hpart off 4 (by omega), h.nentries]
  · rw [hbase, Nat.add_assoc, hpart (off + 8) _ (by omega), ← Nat.add_assoc, h.entries]

theorem Stands.readNentries (h : Stands rangetab b off) (haligned : (b.base + off) % 8 = 0) :
    b.readWord (b.base + off) 4 = some rangetab.length := by
  have hsize := h.size
  have hsmall := h.small
  have hoff := h.offset
  rw [Block.readWord, if_pos (by omega), Block.read, if_pos ⟨by omega, by omega⟩, h.nentries,
    map_some, bytesWord_wordBytes, Nat.mod_eq_of_lt (by omega)]

theorem Stands.readEntry (h : Stands rangetab b off) (haligned : (b.base + off) % 8 = 0)
    (hfits : ∀ e ∈ rangetab, Fits e) {i : Nat} (hi : i < rangetab.length) :
    readEntry b (b.base + off + offsetofFirst + sizeofEntry * i) = some rangetab[i] := by
  have hsize := h.size
  have hoff := h.offset
  have hentry := segment_entries h.entries hi
  obtain ⟨hlo, hhi, hlo', hhi'⟩ := hfits _ (getElem_mem hi)
  rw [entryBytes, segment_add _ _ 16 8, segment_add _ _ 8 8] at hentry
  obtain ⟨hbounds, hval⟩ := append_inj' hentry (by rw [length_segment, length_wordBytes])
  obtain ⟨hfirst, hlast⟩ := append_inj' hbounds (by rw [length_segment, length_emacsIntBytes])
  have hword : rangetab[i].val.toNat % 256 ^ 8 = rangetab[i].val.toNat :=
    Nat.mod_eq_of_lt (UInt64.toNat_lt _)
  obtain ⟨a, ha⟩ : ∃ a, a = b.base + off + 8 + 24 * i := ⟨_, rfl⟩
  have haddress : b.base + off + offsetofFirst + sizeofEntry * i = a := ha.symm
  rw [← ha] at hfirst hlast hval
  rw [haddress, Rangetab.readEntry]
  simp only [Block.readWord, Block.read]
  rw [if_pos (by omega), if_pos ⟨by omega, by omega⟩, hfirst, if_pos (by omega),
    if_pos ⟨by omega, by omega⟩, hlast, if_pos (by omega), if_pos ⟨by omega, by omega⟩, hval]
  simp only [map_some, bind_eq_bind, bind_some]
  rw [wordEmacsInt_bytesWord hlo hhi, wordEmacsInt_bytesWord hlo' hhi', bytesWord_wordBytes,
    hword, UInt64.ofNat_toNat]
  rfl

theorem Stands.readEntries (h : Stands rangetab b off) (haligned : (b.base + off) % 8 = 0)
    (hfits : ∀ e ∈ rangetab, Fits e) :
    readEntries b (b.base + off) rangetab.length = some rangetab := by
  have hbegins : ∀ n ≤ rangetab.length,
      Rangetab.readEntries b (b.base + off) n = some (rangetab.take n) := by
    intro n
    induction n with
    | zero => exact fun _ => rfl
    | succ n ih =>
      intro hn
      have hbefore := ih (Nat.le_of_succ_le hn)
      have hlt : n < rangetab.length := hn
      unfold Rangetab.readEntries at hbefore ⊢
      rw [range_succ, mapM_append, hbefore, mapM_cons, mapM_nil,
        h.readEntry haligned hfits hlt, take_succ_eq_append_getElem hlt]
      rfl
  rw [hbegins _ (Nat.le_refl _), take_length]

/-- **One operation**: it succeeds, it returns what the table says, and the block stands for the
table again. -/
theorem Stands.step (h : Stands rangetab b off) (hcanonical : Canonical rangetab)
    (hfits : ∀ e ∈ rangetab, Fits e) (op : UnifiedOp) :
    ∃ b' off' result, op.run b = some (b', result) ∧ Stands rangetab b' off' ∧
      op.Returns rangetab result := by
  obtain ⟨b', off', halign, hstands, haligned⟩ := h.align
  have hun := hstands.structAddress
  have hnentries := hstands.readNentries haligned
  cases op with
  | copyBytes base memory =>
    obtain ⟨b', hrun, hstands⟩ := h.copyBytes base memory
    exact ⟨b', off, .done, hrun, hstands, rfl⟩
  | lookup pos default =>
    have hvalue := getRangeTable_eq hcanonical pos default
    refine ⟨b', off', .value ((IntervalMaps.lookup rangetab pos).getD default), ?_, hstands, _,
      hvalue, rfl⟩
    rw [UnifiedOp.run, unifiedRangeTableLookup, halign]
    simp only [bind_eq_bind, bind_some, hun, hnentries,
      hstands.readEntries haligned hfits, hvalue]
    rfl
  | nentries =>
    refine ⟨b', off', .count rangetab.length, ?_, hstands, rfl⟩
    rw [UnifiedOp.run, unifiedRangeTableNentries, halign]
    simp only [bind_eq_bind, bind_some, hun, hnentries]
    rfl
  | getRange offset =>
    refine ⟨b', off', .range rangetab[offset]?, ?_, hstands, rfl⟩
    rw [UnifiedOp.run, unifiedRangeTableGetRange, halign]
    simp only [bind_eq_bind, bind_some, hun, hnentries]
    split
    · rename_i hlt
      rw [hstands.readEntry haligned hfits hlt, getElem?_eq_getElem hlt]
      rfl
    · rename_i hge
      rw [getElem?_eq_none (Nat.le_of_not_lt hge)]
      rfl

/-- **A run of operations**. -/
theorem Stands.run (h : Stands rangetab b off) (hcanonical : Canonical rangetab)
    (hfits : ∀ e ∈ rangetab, Fits e) (ops : List UnifiedOp) :
    ∃ results, runUnified b ops = some results ∧
      List.Forall₂ (fun op result => op.Returns rangetab result) ops results := by
  induction ops generalizing b off with
  | nil => exact ⟨[], rfl, .nil⟩
  | cons op ops ih =>
    obtain ⟨b', off', result, hrun, hstands, hreturns⟩ := h.step hcanonical hfits op
    obtain ⟨results, hruns, hall⟩ := ih hstands
    refine ⟨result :: results, ?_, .cons hreturns hall⟩
    rw [runUnified, hrun]
    simp only [bind_eq_bind, bind_some, hruns]
    rfl

end Stands

/-- **A unified range table at any address, after any copies to other addresses and any accesses**,
gives what the range table gives, and every access stays in the block of
`unified_range_table_bytes_needed` bytes. -/
theorem unified_range_table_agrees (rangetab : List Entry) (hcanonical : Canonical rangetab)
    (hfits : ∀ e ∈ rangetab, Fits e)
    (hsmall : sizeofEntry * rangetab.length + 20 < 2 ^ 24) (base : Nat) (memory : Nat → UInt8)
    (ops : List UnifiedOp) :
    ∃ b results,
      unifiedRangeTableCopyData rangetab ⟨base, unifiedRangeTableBytesNeeded rangetab, memory⟩
        = some b ∧
      runUnified b ops = some results ∧
      List.Forall₂ (fun op result => op.Returns rangetab result) ops results := by
  have hneeded : unifiedRangeTableBytesNeeded rangetab = 24 * rangetab.length + 20 := by
    rw [sizeofEntry] at hsmall
    rw [unifiedRangeTableBytesNeeded, sizeofEntry, sizeofUnified, alignofEmacsInt]
    omega
  obtain ⟨b, off, hcopy, hstands⟩ := copyData_stands rangetab
    ⟨base, unifiedRangeTableBytesNeeded rangetab, memory⟩ hneeded (by rw [hneeded]; exact hsmall)
  obtain ⟨results, hrun, hall⟩ := hstands.run hcanonical hfits ops
  exact ⟨b, results, hcopy, hrun, hall⟩

def digitEntries : List Entry := [⟨48, 57, 3⟩]

/-- The digits are copied to another address and looked at. -/
def digitOps : List UnifiedOp := [.copyBytes 2046 fun _ => 7, .lookup 50 1, .getRange 0]

theorem digitEntries_agrees : ∃ b results,
    unifiedRangeTableCopyData digitEntries
      ⟨1001, unifiedRangeTableBytesNeeded digitEntries, fun _ => 0⟩ = some b ∧
    runUnified b digitOps = some results ∧
    List.Forall₂ (fun op result => op.Returns digitEntries result) digitOps results := by
  refine unified_range_table_agrees digitEntries ⟨?_, List.pairwise_singleton ..⟩ ?_ (by decide)
    1001 (fun _ => 0) digitOps
  · exact fun e he => by
      rw [List.mem_singleton.mp he]
      decide
  · exact fun e he => by
      rw [List.mem_singleton.mp he]
      unfold Fits
      decide

end XEmacs.Rangetab

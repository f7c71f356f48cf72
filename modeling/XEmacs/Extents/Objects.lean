import XEmacs.Extents.Stack

/-!
# Buffers and strings with extents (buffer.h, extents.h)

Extents are attached to a buffer or a string. The endpoints of an extent are memory indices,
which the gap of a buffer lets stand for byte positions; a string has no gap, and its bytes are
counted from 0.
-/

namespace XEmacs.Extents

open Gap GapArrays KeyedLists

/-- A buffer, with the ends of its accessible region, or a string of some bytes. -/
inductive BufferOrString where
  | buffer (text : BufferText) (begv zv : Nat)
  | string (length : Nat)

namespace BufferOrString

/-- `buffer_or_string_absolute_begin_byte`. -/
def absoluteBeginByte : BufferOrString → Nat
  | buffer .. => 1
  | string _ => 0

/-- `buffer_or_string_absolute_end_byte`. -/
def absoluteEndByte : BufferOrString → Nat
  | buffer text _ _ => text.z
  | string length => length

/-- `buffer_or_string_accessible_begin_byte`. -/
def accessibleBeginByte : BufferOrString → Nat
  | buffer _ begv _ => begv
  | string _ => 0

/-- `buffer_or_string_accessible_end_byte`. -/
def accessibleEndByte : BufferOrString → Nat
  | buffer _ _ zv => zv
  | string length => length

/-- `buffer_or_string_bytind_to_memind`. -/
def bytindToMemind : BufferOrString → Nat → Int
  | buffer text _ _, ind => text.bytindToMemind ind
  | string _, ind => ind

/-- `buffer_or_string_memind_to_bytind`. -/
def memindToBytind : BufferOrString → Int → Int
  | buffer text _ _, ind => text.memindToBytind ind
  | string _, ind => ind

/-- The index stands for a position of the text. -/
def ValidMemind : BufferOrString → Int → Prop
  | buffer text _ _, x => text.validMemindP x
  | string length, x => 0 ≤ x ∧ x ≤ length

instance : (obj : BufferOrString) → (x : Int) → Decidable (obj.ValidMemind x)
  | buffer text _ _, x => inferInstanceAs (Decidable (text.validMemindP x))
  | string length, x => inferInstanceAs (Decidable (0 ≤ x ∧ x ≤ (length : Int)))

variable {obj : BufferOrString} {m m' : Int} {pos : Nat}

theorem memindToBytind_bytindToMemind (obj : BufferOrString) (pos : Nat) :
    obj.memindToBytind (obj.bytindToMemind pos) = pos := by
  cases obj with
  | buffer text begv zv =>
    simp only [memindToBytind, bytindToMemind, BufferText.memindToBytind,
      BufferText.bytindToMemind]
    split <;> split <;> omega
  | string length => rfl

theorem bytindToMemind_nonneg (obj : BufferOrString) (pos : Nat) : 0 ≤ obj.bytindToMemind pos := by
  cases obj with
  | buffer text begv zv =>
    simp only [bytindToMemind, BufferText.bytindToMemind]
    split <;> omega
  | string length => exact Int.natCast_nonneg pos

/-! Memory indices are in the order of the positions they stand for. -/

theorem bytindToMemind_mono (obj : BufferOrString) {pos' : Nat} (hle : pos ≤ pos') :
    obj.bytindToMemind pos ≤ obj.bytindToMemind pos' := by
  cases obj with
  | buffer text begv zv =>
    simp only [bytindToMemind, BufferText.bytindToMemind]
    split <;> split <;> omega
  | string length => exact Int.ofNat_le.mpr hle

theorem lt_memindToBytind (hm : obj.ValidMemind m) :
    (pos : Int) < obj.memindToBytind m ↔ obj.bytindToMemind pos < m := by
  cases obj with
  | buffer text begv zv =>
    have hm : text.validMemindP m := hm
    simp only [memindToBytind, bytindToMemind, BufferText.memindToBytind,
      BufferText.bytindToMemind]
    unfold BufferText.validMemindP at hm
    split <;> split <;> omega
  | string length => exact Iff.rfl

theorem memindToBytind_lt (hm : obj.ValidMemind m) :
    obj.memindToBytind m < (pos : Int) ↔ m < obj.bytindToMemind pos := by
  cases obj with
  | buffer text begv zv =>
    have hm : text.validMemindP m := hm
    simp only [memindToBytind, bytindToMemind, BufferText.memindToBytind,
      BufferText.bytindToMemind]
    unfold BufferText.validMemindP at hm
    split <;> split <;> omega
  | string length => exact Iff.rfl

theorem memindToBytind_mono (hm : obj.ValidMemind m) (hm' : obj.ValidMemind m') (hle : m ≤ m') :
    obj.memindToBytind m ≤ obj.memindToBytind m' := by
  cases obj with
  | buffer text begv zv =>
    have hm : text.validMemindP m := hm
    have hm' : text.validMemindP m' := hm'
    simp only [memindToBytind, BufferText.memindToBytind]
    unfold BufferText.validMemindP at hm hm'
    split <;> split <;> omega
  | string length => exact hle

end BufferOrString

variable {ι : Type}

/-- The extents are at positions of the text. -/
def ExtentInfo.In (info : ExtentInfo ι) (obj : BufferOrString) : Prop :=
  ∀ e ∈ info.extents.byStart.els, ∀ endp, obj.ValidMemind ((info.heap e).endpoint endp)

instance (info : ExtentInfo ι) (obj : BufferOrString) : Decidable (info.In obj) :=
  inferInstanceAs (Decidable (∀ e ∈ info.extents.byStart.els, ∀ endp,
    obj.ValidMemind ((info.heap e).endpoint endp)))

end XEmacs.Extents

import Mathlib.Algebra.Order.Ring.Int
import Mathlib.Data.List.Basic

/-!
# Memory as a function of the address

A memory gives every address its content. A segment is the list of what stands at consecutive
addresses. `memmove` is defined by its result: what stood at the source before stands at the
destination after, even if the two overlap.
-/

namespace ByteMemory

open List

variable {α : Type*}

/-- What stands at the `n` addresses from `a` on. -/
def segment (m : Nat → α) (a n : Nat) : List α := (List.range' a n).map m

def store (m : Nat → α) (a : Nat) (v : α) : Nat → α := fun x => if x = a then v else m x

/-- `n` units moved from `src` to `dst`. -/
def memmove (m : Nat → α) (dst src n : Nat) : Nat → α :=
  fun a => if dst ≤ a ∧ a < dst + n then m (a - dst + src) else m a

/-- A list written at `dst`. -/
def memcpy (m : Nat → α) (dst : Nat) (l : List α) : Nat → α :=
  fun a => if dst ≤ a then l.getD (a - dst) (m a) else m a

/-- `while (--n >= 0) *--dst = *--src`. -/
def copyDown : Nat → Nat → Nat → (Nat → α) → Nat → α
  | 0, _, _, m => m
  | n + 1, dst, src, m => copyDown n (dst - 1) (src - 1) (store m (dst - 1) (m (src - 1)))

/-- `while (--n >= 0) *dst++ = *src++`. -/
def copyUp : Nat → Nat → Nat → (Nat → α) → Nat → α
  | 0, _, _, m => m
  | n + 1, dst, src, m => copyUp n (dst + 1) (src + 1) (store m dst (m src))

/-! ## Segments -/

@[simp]
theorem length_segment (m : Nat → α) (a n : Nat) : (segment m a n).length = n := by
  rw [segment, length_map, length_range']

theorem getElem?_segment (m : Nat → α) (a : Nat) {n i : Nat} (h : i < n) :
    (segment m a n)[i]? = some (m (a + i)) := by
  rw [segment, getElem?_map, getElem?_range' h, Option.map_some, Nat.one_mul]

theorem segment_eq_iff {m m' : Nat → α} {a b n : Nat} :
    segment m a n = segment m' b n ↔ ∀ i < n, m (a + i) = m' (b + i) := by
  constructor
  · intro h i hi
    have hm := getElem?_segment m a hi
    rw [h, getElem?_segment m' b hi] at hm
    exact (Option.some.inj hm).symm
  · intro h
    refine ext_getElem? fun i => ?_
    rcases Nat.lt_or_ge i n with hi | hi
    · rw [getElem?_segment m a hi, getElem?_segment m' b hi, h i hi]
    · rw [getElem?_eq_none (by rwa [length_segment]),
        getElem?_eq_none (by rwa [length_segment])]

theorem segment_add (m : Nat → α) (a k l : Nat) :
    segment m a (k + l) = segment m a k ++ segment m (a + k) l := by
  rw [segment, segment, segment, ← map_append, range'_append_1]

theorem segment_memcpy (m : Nat → α) (a : Nat) (l : List α) :
    segment (memcpy m a l) a l.length = l := by
  refine ext_getElem? fun i => ?_
  rcases Nat.lt_or_ge i l.length with hi | hi
  · rw [getElem?_segment _ a hi, memcpy, if_pos (Nat.le_add_right a i),
      Nat.add_sub_cancel_left, getD_eq_getElem?_getD, getElem?_eq_getElem hi,
      Option.getD_some]
  · rw [getElem?_eq_none (by rwa [length_segment]), getElem?_eq_none hi]

/-! ## What a write leaves and what it makes -/

@[simp]
theorem store_self (m : Nat → α) (a : Nat) (v : α) : store m a v a = v := if_pos rfl

theorem store_other {m : Nat → α} {a x : Nat} {v : α} (h : x ≠ a) : store m a v x = m x :=
  if_neg h

theorem memmove_inside {m : Nat → α} {dst src n a : Nat} (h : dst ≤ a) (h' : a < dst + n) :
    memmove m dst src n a = m (a - dst + src) :=
  if_pos ⟨h, h'⟩

theorem memmove_outside {m : Nat → α} {dst src n a : Nat} (h : a < dst ∨ dst + n ≤ a) :
    memmove m dst src n a = m a :=
  if_neg (by omega)

@[simp]
theorem memmove_zero (m : Nat → α) (dst src : Nat) : memmove m dst src 0 = m :=
  funext fun _ => memmove_outside (by omega)

theorem memcpy_outside {m : Nat → α} {dst a : Nat} {l : List α}
    (h : a < dst ∨ dst + l.length ≤ a) : memcpy m dst l a = m a := by
  rw [memcpy]
  rcases Nat.lt_or_ge a dst with ha | ha
  · rw [if_neg (by omega)]
  · rw [if_pos ha, getD_eq_getElem?_getD, getElem?_eq_none (by omega),
      Option.getD_none]

theorem memmove_memmove_down {m : Nat → α} {dst src k l : Nat} (h : src ≤ dst) :
    memmove (memmove m (dst + k) (src + k) l) dst src k = memmove m dst src (k + l) := by
  funext a
  simp only [memmove]
  split_ifs <;> first | rfl | omega | (congr 1; omega)

theorem memmove_memmove_up {m : Nat → α} {dst src k l : Nat} (h : dst ≤ src) :
    memmove (memmove m dst src k) (dst + k) (src + k) l = memmove m dst src (k + l) := by
  funext a
  simp only [memmove]
  split_ifs <;> first | rfl | omega | (congr 1; omega)

theorem store_eq_memmove (m : Nat → α) (dst src : Nat) :
    store m dst (m src) = memmove m dst src 1 := by
  funext a
  simp only [store, memmove]
  split_ifs <;> first | rfl | omega | (congr 1; omega)

theorem copyDown_eq_memmove {n dst src : Nat} (m : Nat → α) (hn : n ≤ src) (h : src ≤ dst) :
    copyDown n dst src m = memmove m (dst - n) (src - n) n := by
  induction n generalizing dst src m with
  | zero => rw [memmove_zero, copyDown]
  | succ n ih =>
    have hd : dst - 1 = dst - (n + 1) + n := by omega
    have hs : src - 1 = src - (n + 1) + n := by omega
    rw [copyDown, ih _ (by omega) (by omega), store_eq_memmove, Nat.sub_sub, Nat.sub_sub,
      Nat.add_comm 1 n, hd, hs, memmove_memmove_down (by omega)]

theorem copyUp_eq_memmove {n dst src : Nat} (m : Nat → α) (h : dst ≤ src) :
    copyUp n dst src m = memmove m dst src n := by
  induction n generalizing dst src m with
  | zero => rw [memmove_zero, copyUp]
  | succ n ih =>
    rw [copyUp, ih _ (by omega), store_eq_memmove, memmove_memmove_up h, Nat.add_comm]

/-! ## Words -/

/-- The `n` bytes of a word, the low end first. -/
def wordBytes : Nat → Nat → List UInt8
  | 0, _ => []
  | n + 1, x => UInt8.ofNat x :: wordBytes n (x / 256)

/-- The word that bytes are. -/
def bytesWord : List UInt8 → Nat
  | [] => 0
  | b :: l => b.toNat + 256 * bytesWord l

@[simp]
theorem length_wordBytes (n x : Nat) : (wordBytes n x).length = n := by
  induction n generalizing x with
  | zero => rfl
  | succ n ih => rw [wordBytes, length_cons, ih]

theorem bytesWord_wordBytes (n x : Nat) : bytesWord (wordBytes n x) = x % 256 ^ n := by
  induction n generalizing x with
  | zero => rw [Nat.pow_zero, Nat.mod_one, wordBytes, bytesWord]
  | succ n ih =>
    have hbyte : (UInt8.ofNat x).toNat = x % 256 := UInt8.toNat_ofNat'
    rw [wordBytes, bytesWord, ih, hbyte, Nat.pow_succ', Nat.mod_mul]

/-! ## Blocks -/

/-- The part of a memory that a program may use. -/
structure Block where
  base : Nat
  size : Nat
  memory : Nat → UInt8

namespace Block

/-- The addresses from `a` on are in the block. -/
def Has (b : Block) (a n : Nat) : Prop := b.base ≤ a ∧ a + n ≤ b.base + b.size

instance (b : Block) (a n : Nat) : Decidable (b.Has a n) := by
  unfold Has
  infer_instance

/-- Bytes read; no result where they are not all in the block. -/
def read (b : Block) (a n : Nat) : Option (List UInt8) :=
  if b.Has a n then some (segment b.memory a n) else none

def write (b : Block) (a : Nat) (l : List UInt8) : Option Block :=
  if b.Has a l.length then some { b with memory := memcpy b.memory a l } else none

def move (b : Block) (dst src n : Nat) : Option Block :=
  if b.Has dst n ∧ b.Has src n then some { b with memory := memmove b.memory dst src n } else none

/-- An aligned word of `n` bytes read. -/
def readWord (b : Block) (a n : Nat) : Option Nat :=
  if a % n = 0 then (b.read a n).map bytesWord else none

/-- An aligned word of `n` bytes written. -/
def writeWord (b : Block) (a n x : Nat) : Option Block :=
  if a % n = 0 then b.write a (wordBytes n x) else none

end Block

/-! ### What a block holds -/

theorem segment_congr {m m' : Nat → UInt8} {a n : Nat} (h : ∀ x, a ≤ x → x < a + n → m x = m' x) :
    segment m a n = segment m' a n :=
  segment_eq_iff.mpr fun i hi => h (a + i) (Nat.le_add_right a i) (Nat.add_lt_add_left hi a)

theorem segment_memcpy_outside {m : Nat → UInt8} {a n dst : Nat} {l : List UInt8}
    (h : a + n ≤ dst ∨ dst + l.length ≤ a) : segment (memcpy m dst l) a n = segment m a n := by
  refine segment_congr fun x hle hlt => memcpy_outside ?_
  omega

theorem segment_memmove_outside {m : Nat → UInt8} {a n dst src k : Nat}
    (h : a + n ≤ dst ∨ dst + k ≤ a) : segment (memmove m dst src k) a n = segment m a n := by
  refine segment_congr fun x hle hlt => memmove_outside ?_
  omega

/-- A list was written: it stands where it was written, and the rest is as before. -/
structure Block.Wrote (b : Block) (a : Nat) (l : List UInt8) (b' : Block) : Prop where
  base : b'.base = b.base
  size : b'.size = b.size
  written : segment b'.memory a l.length = l
  frame : ∀ x n, x + n ≤ a ∨ a + l.length ≤ x → segment b'.memory x n = segment b.memory x n

theorem Block.write_wrote {b : Block} {a : Nat} {l : List UInt8} (hlo : b.base ≤ a)
    (hhi : a + l.length ≤ b.base + b.size) : ∃ b', b.write a l = some b' ∧ b.Wrote a l b' :=
  ⟨_, if_pos ⟨hlo, hhi⟩, rfl, rfl, segment_memcpy b.memory a l, fun _ _ h =>
    segment_memcpy_outside h⟩

end ByteMemory

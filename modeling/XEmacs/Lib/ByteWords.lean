import Mathlib.Algebra.Ring.Nat
import Mathlib.Data.List.Basic

/-!
# Words read from bytes

A word is read from consecutive bytes, the least significant of them first or last.
-/

namespace ByteWords

/-- The word of bytes whose first is the least significant. -/
def littleEndian : List UInt8 → Nat
  | [] => 0
  | b :: bs => b.toNat + 256 * littleEndian bs

/-- The word of bytes whose first is the most significant. -/
def bigEndian (bs : List UInt8) : Nat := littleEndian bs.reverse

/-- The high bits of the bytes of a word. -/
def highBits (n : Nat) : Nat := littleEndian (List.replicate n 0x80)

theorem land_eq_zero_iff (a b x y : Nat) (ha : a < 256) (hb : b < 256) :
    (a + 256 * x) &&& (b + 256 * y) = 0 ↔ a &&& b = 0 ∧ x &&& y = 0 := by
  have hlow : ((a + 256 * x) &&& (b + 256 * y)) % 2 ^ 8 = a &&& b := by
    rw [Nat.and_mod_two_pow]
    congr 1 <;> omega
  have hhigh : ((a + 256 * x) &&& (b + 256 * y)) / 2 ^ 8 = x &&& y := by
    rw [Nat.and_div_two_pow]
    congr 1 <;> omega
  constructor
  · intro h
    rw [h] at hlow hhigh
    exact ⟨hlow.symm, hhigh.symm⟩
  · rintro ⟨h₁, h₂⟩
    rw [h₁] at hlow
    rw [h₂] at hhigh
    omega

theorem toNat_land_highBit (b : UInt8) : b.toNat &&& 0x80 = 0 ↔ b < 0x80 := by
  have h : ∀ n < 256, n &&& 0x80 = 0 ↔ n < 0x80 := by decide +kernel
  rw [h b.toNat b.toNat_lt, UInt8.lt_iff_toNat_lt]
  rfl

theorem littleEndian_land_highBits (bs : List UInt8) :
    littleEndian bs &&& highBits bs.length = 0 ↔ ∀ b ∈ bs, b < 0x80 := by
  induction bs with
  | nil => exact ⟨fun _ _ h => absurd h List.not_mem_nil, fun _ => rfl⟩
  | cons b bs ih =>
    have hmask : highBits (b :: bs).length = 0x80 + 256 * highBits bs.length := rfl
    rw [hmask, littleEndian, land_eq_zero_iff _ _ _ _ b.toNat_lt (by decide), ih,
      toNat_land_highBit, List.forall_mem_cons]

theorem bigEndian_land_highBits (bs : List UInt8) :
    bigEndian bs &&& highBits bs.length = 0 ↔ ∀ b ∈ bs, b < 0x80 := by
  have h := littleEndian_land_highBits bs.reverse
  rw [List.length_reverse] at h
  rw [bigEndian, h]
  exact forall_congr' fun b => by rw [List.mem_reverse]

end ByteWords

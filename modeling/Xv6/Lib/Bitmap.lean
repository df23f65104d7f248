/-
Bitmaps in a byte memory.

A bitmap at `base` holds bit `i` as bit `i % 8` of the byte at `base + i / 8`,
tested with the mask `1 <<< (i % 8)` and set by or-ing it in, as a block
allocator's C code does. Setting a bit changes that one byte, and no bit but
itself.
-/
import Xv6.Lib.ByteMem
import Mathlib.Data.Nat.Bitwise

set_option autoImplicit false

namespace Bitmap

open ByteMem

/-- The mask of bit `i` within its byte. -/
def mask (i : Nat) : UInt8 := 1 <<< (i % 8).toUInt8

/-- Bit `i` of the bitmap at `base`. -/
def test (m : Mem) (base i : Nat) : Bool := m (base + i / 8) &&& mask i != 0

/-- Set bit `i` of the bitmap at `base`. -/
def set (m : Mem) (base i : Nat) : Mem :=
  Function.update m (base + i / 8) (m (base + i / 8) ||| mask i)

theorem toNat_mask (i : Nat) : (mask i).toNat = 2 ^ (i % 8) := by
  have h8 : i % 8 < 8 := Nat.mod_lt _ (by decide)
  have hk : ((i % 8).toUInt8).toNat = i % 8 := by
    rw [Nat.toUInt8_eq, UInt8.toNat_ofNat', Nat.mod_eq_of_lt (by omega)]
  rw [mask, UInt8.toNat_shiftLeft, hk, Nat.mod_eq_of_lt h8, UInt8.toNat_one, Nat.one_shiftLeft,
    Nat.mod_eq_of_lt (Nat.pow_lt_pow_right (by decide) h8)]

/-- A bit, read as a bit of the byte's value. -/
theorem test_eq (m : Mem) (base i : Nat) : test m base i = (m (base + i / 8)).toNat.testBit (i % 8) := by
  have h : (m (base + i / 8) &&& mask i).toNat = ((m (base + i / 8)).toNat.testBit (i % 8)).toNat * 2 ^ (i % 8) := by
    rw [UInt8.toNat_and, toNat_mask, Nat.and_two_pow]
  cases hb : (m (base + i / 8)).toNat.testBit (i % 8)
  · rw [hb] at h
    have h0 : m (base + i / 8) &&& mask i = 0 := UInt8.toNat_inj.mp (by simpa using h)
    simp [test, h0]
  · rw [hb] at h
    have h0 : m (base + i / 8) &&& mask i ≠ 0 := fun h' => by
      rw [h', UInt8.toNat_zero, Bool.toNat_true, one_mul] at h
      exact (Nat.two_pow_pos _).ne h
    simp [test, h0]

/-- Setting a bit leaves every byte but its own. -/
theorem set_of_ne {m : Mem} {base i x : Nat} (h : x ≠ base + i / 8) : set m base i x = m x :=
  Function.update_of_ne h _ _

theorem test_set_self (m : Mem) (base i : Nat) : test (set m base i) base i = true := by
  rw [test_eq, set, Function.update_self, UInt8.toNat_or, toNat_mask, Nat.testBit_or,
    Nat.testBit_two_pow_self, Bool.or_true]

theorem test_set_of_ne (m : Mem) (base : Nat) {i j : Nat} (h : i ≠ j) :
    test (set m base i) base j = test m base j := by
  by_cases hb : base + j / 8 = base + i / 8
  · -- the same byte: the other bits of it stay
    have hk : i % 8 ≠ j % 8 := fun hk => h (by omega)
    rw [test_eq, test_eq, set, hb, Function.update_self, UInt8.toNat_or, toNat_mask, Nat.testBit_or,
      Nat.testBit_two_pow_of_ne hk, Bool.or_false, ← hb]
  · rw [test_eq, test_eq, set_of_ne hb]

end Bitmap

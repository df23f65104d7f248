/-
Bit fields of 32-bit words, as numbers.

Page-table code splits addresses and entries into fields with shifts and masks
(`x >>> 22`, `x &&& 0x3FF`, `x &&& ~~~0xFFF`), tests flag bits (`x &&& 1`), and
builds entries with `|||` from an aligned address and a few flag bits. Each
lemma here turns one of those operations into division, remainder or addition
on `toNat`, so that the arithmetic about a field is left to `omega`.
-/
import Mathlib.Data.Nat.Bitwise

set_option autoImplicit false

namespace Word32

variable (x : UInt32)

theorem toNat_shiftRight {k : UInt32} (hk : k.toNat < 32) : (x >>> k).toNat = x.toNat / 2 ^ k.toNat := by
  rw [UInt32.toNat_shiftRight, Nat.shiftRight_eq_div_pow, Nat.mod_eq_of_lt hk]

/-- The low ten bits: an index into a page table or directory. -/
theorem toNat_and_3ff : (x &&& 0x3FF).toNat = x.toNat % 2 ^ 10 := by
  rw [UInt32.toNat_and, show (0x3FF : UInt32).toNat = 2 ^ 10 - 1 by decide,
    Nat.and_two_pow_sub_one_eq_mod]

/-- Clearing the low twelve bits rounds down to a page. -/
theorem toNat_and_not_fff : (x &&& ~~~0xFFF).toNat = x.toNat / 2 ^ 12 * 2 ^ 12 := by
  rw [UInt32.toNat_and]
  apply Nat.eq_of_testBit_eq
  intro i
  have hc : (~~~(0xFFF : UInt32)).toNat = (2 ^ 20 - 1) * 2 ^ 12 := by decide
  rw [hc, Nat.testBit_and, Nat.testBit_mul_two_pow, Nat.testBit_mul_two_pow, Nat.testBit_div_two_pow,
    Nat.testBit_two_pow_sub_one]
  by_cases h12 : 12 ≤ i
  · rw [Nat.sub_add_cancel h12]
    by_cases h32 : i < 32
    · simp [h12, show i - 12 < 20 by omega]
    · -- no bit of a 32-bit word lies at 32 or above
      have : x.toNat.testBit i = false :=
        Nat.testBit_lt_two_pow (lt_of_lt_of_le x.toNat_lt (Nat.pow_le_pow_right (by decide) (by omega)))
      rw [this]
      simp
  · have : decide (12 ≤ i) = false := decide_eq_false h12
    rw [this]
    simp

end Word32

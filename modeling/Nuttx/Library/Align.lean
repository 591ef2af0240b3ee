import Mathlib.Data.BitVec

/-!
# Alignment with masks

For a power of two `2 ^ k` the mask `2 ^ k - 1` picks the offset of a word in its aligned block, and
the complement of the mask the start of the block.
-/

namespace Align

variable {w : Nat}

theorem toNat_and_not_add (x mask : BitVec w) : (x &&& ~~~mask).toNat + (x &&& mask).toNat = x.toNat := by
  have hdisjoint : (x &&& ~~~mask) &&& (x &&& mask) = 0#w := by
    apply BitVec.eq_of_getLsbD_eq
    intro i hi
    simp only [BitVec.getLsbD_and, BitVec.getLsbD_not, hi]
    cases x.getLsbD i <;> cases mask.getLsbD i <;> simp
  have hjoin : (x &&& ~~~mask) ||| (x &&& mask) = x := by
    apply BitVec.eq_of_getLsbD_eq
    intro i hi
    simp only [BitVec.getLsbD_or, BitVec.getLsbD_and, BitVec.getLsbD_not, hi]
    cases x.getLsbD i <;> cases mask.getLsbD i <;> simp
  rw [← BitVec.toNat_add_of_and_eq_zero hdisjoint, BitVec.add_eq_or_of_and_eq_zero _ _ hdisjoint, hjoin]

theorem toNat_and_mask {x mask : BitVec w} {k : Nat} (hmask : mask.toNat = 2 ^ k - 1) :
    (x &&& mask).toNat = x.toNat % 2 ^ k := by
  rw [BitVec.toNat_and, hmask, Nat.and_two_pow_sub_one_eq_mod]

theorem toNat_and_not_mask {x mask : BitVec w} {k : Nat} (hmask : mask.toNat = 2 ^ k - 1) :
    (x &&& ~~~mask).toNat = x.toNat / 2 ^ k * 2 ^ k := by
  have hsum := toNat_and_not_add x mask
  rw [toNat_and_mask hmask] at hsum
  have hdiv := Nat.div_add_mod' x.toNat (2 ^ k)
  omega

theorem roundUp_eq {b : Nat} (hb : 0 < b) (n : Nat) :
    (n + (b - 1)) / b * b = if n % b = 0 then n else n / b * b + b := by
  have hdiv := Nat.div_add_mod n b
  have hlt := Nat.mod_lt n hb
  have hsum : n + (b - 1) = n % b + (b - 1) + b * (n / b) := by omega
  rw [hsum, Nat.add_mul_div_left _ _ hb]
  split_ifs with h
  · rw [h, Nat.zero_add, Nat.div_eq_of_lt (by omega), Nat.zero_add, Nat.div_mul_cancel (Nat.dvd_of_mod_eq_zero h)]
  · have hone : (n % b + (b - 1)) / b = 1 := Nat.div_eq_of_lt_le (by omega) (by omega)
    rw [hone, Nat.add_mul, Nat.one_mul, Nat.add_comm]

end Align

import Mathlib.Tactic.Ring

/-!
# Arithmetic of 64 bits in two words

`uadd64`, `usub64`, `umul32`, `umul32x64` and `umul64`, for words without a 64-bit type. `uadd64` tests
for the carry the wrong way round, and the products are made with it: what is stored is the right value
and a multiple of `2 ^ 32`. The operands are read before the word of the result that may lie over them.
-/

namespace Nuttx.Libc.Math32

structure Uint64S where
  ms : UInt32
  ls : UInt32

def Uint64S.value (a : Uint64S) : Nat := a.ms.toNat * 2 ^ 32 + a.ls.toNat

def uadd64 (term1 term2 : Uint64S) : Uint64S :=
  let ms := term1.ms + term2.ms
  let ms := if 0xffffffff - term1.ls > term2.ls then ms + 1 else ms
  ⟨ms, term1.ls + term2.ls⟩

def usub64 (minuend subtrahend : Uint64S) : Uint64S :=
  let ms := minuend.ms - subtrahend.ms
  let ms := if subtrahend.ls > minuend.ls then ms - 1 else ms
  ⟨ms, minuend.ls - subtrahend.ls⟩

def umul32 (factor1 factor2 : UInt32) : Uint64S :=
  let ms1 := factor1 >>> 16
  let ls1 := factor1 &&& 0xffff
  let ms2 := factor2 >>> 16
  let ls2 := factor2 &&& 0xffff
  let tmp := ls1 * ms2 + ls2 * ms1
  uadd64 ⟨ms1 * ms2, ls1 * ls2⟩ ⟨tmp >>> 16, tmp <<< 16⟩

def umul32x64 (factor1 : UInt32) (factor2 : Uint64S) : Uint64S :=
  uadd64 ⟨factor1 * factor2.ms, 0⟩ (umul32 factor1 factor2.ls)

def umul64 (factor1 factor2 : Uint64S) : Uint64S :=
  uadd64 ⟨factor1.ls * factor2.ms + factor2.ls * factor2.ms, 0⟩ (umul32 factor1.ls factor2.ls)

/-- The carry that `uadd64` adds to the right one, for the sum of the low words. -/
def carryError (sum : Nat) : Int := if sum < 2 ^ 32 - 1 then 1 else if sum = 2 ^ 32 - 1 then 0 else -1

def hi (f : UInt32) : Nat := f.toNat / 2 ^ 16

def lo (f : UInt32) : Nat := f.toNat % 2 ^ 16

/-- The products of a low and a high half; in the product of the words they stand at bit 16. -/
def cross (f g : UInt32) : Nat := lo f * hi g + lo g * hi f

/-- The product of the low halves and what `cross` adds to the low word. -/
def low (f g : UInt32) : Nat := lo f * lo g + cross f g * 2 ^ 16 % 2 ^ 32

theorem value_uadd64 (a b : Uint64S) : ((uadd64 a b).value : Int) =
    (a.value + b.value + carryError (a.ls.toNat + b.ls.toNat) * 2 ^ 32) % 2 ^ 64 := by
  have hms := a.ms.toNat_lt
  have hls := a.ls.toNat_lt
  have hms' := b.ms.toNat_lt
  have hls' := b.ls.toNat_lt
  have htest : 0xffffffff - a.ls > b.ls ↔ a.ls.toNat + b.ls.toNat < 2 ^ 32 - 1 := by
    rw [gt_iff_lt, UInt32.lt_iff_toNat_lt, UInt32.toNat_sub_of_le _ _ (UInt32.le_iff_toNat_le.mpr ?_)]
    · show _ < 4294967295 - _ ↔ _
      omega
    · show _ ≤ 4294967295
      omega
  simp only [uadd64, Uint64S.value, carryError, htest]
  split_ifs
  all_goals
    simp only [UInt32.toNat_add, UInt32.toNat_one]
    omega

theorem value_usub64 (a b : Uint64S) :
    (usub64 a b).value = (a.value + 2 ^ 64 - b.value) % 2 ^ 64 := by
  have hms := a.ms.toNat_lt
  have hls := a.ls.toNat_lt
  have hms' := b.ms.toNat_lt
  have hls' := b.ls.toNat_lt
  simp only [usub64, Uint64S.value, gt_iff_lt, UInt32.lt_iff_toNat_lt]
  split_ifs
  all_goals
    simp only [UInt32.toNat_sub, UInt32.toNat_one]
    omega

theorem mul_eq_halves (f g : UInt32) :
    f.toNat * g.toNat = hi f * hi g * 2 ^ 32 + cross f g * 2 ^ 16 + lo f * lo g := by
  have hhalves : ∀ x : UInt32, x.toNat = 2 ^ 16 * hi x + lo x := fun x => (Nat.div_add_mod _ _).symm
  rw [hhalves f, hhalves g, cross]
  ring

theorem toNat_hi (f : UInt32) : (f >>> 16).toNat = hi f := Nat.shiftRight_eq_div_pow _ _

theorem hi_add (f g : UInt32) : hi (f + g) = (f + g).toNat / 2 ^ 16 := rfl

theorem toNat_lo (f : UInt32) : (f &&& 0xffff).toNat = lo f := Nat.and_two_pow_sub_one_eq_mod _ 16

theorem toNat_shiftLeft (f : UInt32) : (f <<< 16).toNat = f.toNat * 2 ^ 16 % 2 ^ 32 := by
  rw [UInt32.toNat_shiftLeft, Nat.shiftLeft_eq]
  rfl

theorem hi_le (f : UInt32) : hi f ≤ 65535 := Nat.le_of_lt_succ (Nat.div_lt_of_lt_mul f.toNat_lt)

theorem lo_le (f : UInt32) : lo f ≤ 65535 := Nat.le_of_lt_succ (Nat.mod_lt _ (by decide))

theorem value_umul32 (f g : UInt32) : ((umul32 f g).value : Int) =
    (f.toNat * g.toNat + (carryError (low f g) - if 2 ^ 32 ≤ cross f g then 2 ^ 16 else 0) * 2 ^ 32) %
      2 ^ 64 := by
  have hhigh := Nat.mul_le_mul (hi_le f) (hi_le g)
  have hlow := Nat.mul_le_mul (lo_le f) (lo_le g)
  have hfg := Nat.mul_le_mul (lo_le f) (hi_le g)
  have hgf := Nat.mul_le_mul (lo_le g) (hi_le f)
  rw [umul32, value_uadd64, ← Nat.cast_mul, mul_eq_halves, low, cross]
  simp only [Uint64S.value, UInt32.toNat_add, UInt32.toNat_mul, toNat_hi, hi_add, toNat_lo,
    toNat_shiftLeft]
  generalize hi f * hi g = high at *
  generalize lo f * lo g = low at *
  generalize lo f * hi g = fg at *
  generalize lo g * hi f = gf at *
  have hsum : low % 2 ^ 32 + (fg % 2 ^ 32 + gf % 2 ^ 32) % 2 ^ 32 * 2 ^ 16 % 2 ^ 32 =
      low + (fg + gf) * 2 ^ 16 % 2 ^ 32 := by omega
  rw [hsum]
  generalize carryError _ = error
  split_ifs
  · omega
  · omega

/-- The carries too many when the product of two words is added to a high word, without the carry that
the sum of the two products of `cross` loses. -/
def excess (f g : UInt32) : Int :=
  (if low f g < 2 ^ 32 - 1 then 2 else 0) - if 2 ^ 32 ≤ cross f g then 2 ^ 16 else 0

theorem value_add_umul32 (ms f g : UInt32) : ((uadd64 ⟨ms, 0⟩ (umul32 f g)).value : Int) =
    (ms.toNat * 2 ^ 32 + f.toNat * g.toNat + excess f g * 2 ^ 32) % 2 ^ 64 := by
  have hls : (umul32 f g).ls.toNat = low f g % 2 ^ 32 := by
    simp only [umul32, uadd64, UInt32.toNat_add, UInt32.toNat_mul, toNat_hi, toNat_lo, toNat_shiftLeft,
      low, cross]
    omega
  have hlow := Nat.mul_le_mul (lo_le f) (lo_le g)
  have hbound : low f g < 2 ^ 33 - 1 := by
    rw [low]
    omega
  rw [value_uadd64, value_umul32, excess, hls]
  simp only [Uint64S.value, carryError, UInt32.toNat_zero]
  generalize f.toNat * g.toNat = product
  split_ifs <;> omega

/-- **Where 64-bit arithmetic is right.** `uadd64` if the low words add to `2 ^ 32 - 1`, `usub64` always,
and a product if the wrong carries and, in `umul64`, the wrong factor cancel. -/
theorem math32_right_iff (a b : Uint64S) (f g : UInt32) :
    ((uadd64 a b).value = (a.value + b.value) % 2 ^ 64 ↔ a.ls.toNat + b.ls.toNat = 2 ^ 32 - 1) ∧
    (usub64 a b).value = (a.value + 2 ^ 64 - b.value) % 2 ^ 64 ∧
    ((umul32 f g).value = f.toNat * g.toNat ↔ cross f g < 2 ^ 32 ∧ low f g = 2 ^ 32 - 1) ∧
    ((umul32x64 f b).value = f.toNat * b.value % 2 ^ 64 ↔
      cross f b.ls < 2 ^ 32 ∧ 2 ^ 32 - 1 ≤ low f b.ls) ∧
    ((umul64 a b).value = a.value * b.value % 2 ^ 64 ↔
      (b.ls.toNat * b.ms.toNat + excess a.ls b.ls) % 2 ^ 32 = (b.ls.toNat * a.ms.toNat : Int) % 2 ^ 32) := by
  refine ⟨?_, value_usub64 a b, ?_, ?_, ?_⟩
  · have hvalue := value_uadd64 a b
    rw [carryError] at hvalue
    split_ifs at hvalue <;> omega
  · have hvalue := value_umul32 f g
    have hlt : f.toNat * g.toNat < 2 ^ 32 * 2 ^ 32 := Nat.mul_lt_mul'' f.toNat_lt g.toNat_lt
    rw [carryError, ← Nat.cast_mul] at hvalue
    split_ifs at hvalue <;> omega
  · have hvalue := value_add_umul32 (f * b.ms) f b.ls
    have hmul : f.toNat * b.value = f.toNat * b.ms.toNat * 2 ^ 32 + f.toNat * b.ls.toNat := by
      rw [Uint64S.value]
      ring
    rw [excess, ← Nat.cast_mul, UInt32.toNat_mul] at hvalue
    rw [umul32x64, hmul]
    split_ifs at hvalue <;> omega
  · have hvalue := value_add_umul32 (a.ls * b.ms + b.ls * b.ms) a.ls b.ls
    have hmul : a.value * b.value = a.ms.toNat * b.ms.toNat * 2 ^ 64 +
        (a.ls.toNat * b.ms.toNat + b.ls.toNat * a.ms.toNat) * 2 ^ 32 + a.ls.toNat * b.ls.toNat := by
      rw [Uint64S.value, Uint64S.value]
      ring
    rw [← Nat.cast_mul, UInt32.toNat_add, UInt32.toNat_mul, UInt32.toNat_mul] at hvalue
    rw [umul64, hmul, ← Nat.cast_mul, ← Nat.cast_mul]
    omega

theorem zero_plus_zero : (uadd64 ⟨0, 0⟩ ⟨0, 0⟩).value = 2 ^ 32 ∧ (umul32 0 0).value = 2 ^ 32 ∧
    (umul32x64 0 ⟨0, 0⟩).value = 2 ^ 33 ∧ (umul64 ⟨0, 0⟩ ⟨0, 0⟩).value = 2 ^ 33 := by
  decide

end Nuttx.Libc.Math32

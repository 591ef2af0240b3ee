import Nuttx.Mm.Heap.Model
import Mathlib.Data.Nat.Bitwise

/-!
# Arithmetic of the chunk layout

Every fact about a layout that the proofs use.
-/

namespace Nuttx.Mm

open ByteMemory

theorem and_compl_mask {w k x : Nat} (hx : x < 2 ^ w) (hk : k ≤ w) :
    x &&& (2 ^ w - 1 - (2 ^ k - 1)) = x / 2 ^ k * 2 ^ k := by
  have hpow : 2 ^ w - 1 - (2 ^ k - 1) = (2 ^ (w - k) - 1) <<< k := by
    have hsplit : 2 ^ w = 2 ^ (w - k) * 2 ^ k := by rw [← pow_add, Nat.sub_add_cancel hk]
    have hpos : 0 < 2 ^ k := Nat.two_pow_pos k
    rw [Nat.shiftLeft_eq, Nat.sub_mul, one_mul, ← hsplit]
    omega
  rw [hpow, ← Nat.shiftRight_eq_div_pow, ← Nat.shiftLeft_eq]
  apply Nat.eq_of_testBit_eq
  intro i
  by_cases hki : k ≤ i
  · by_cases hiw : i < w
    · simp [hki, show i - k < w - k by omega, show k + (i - k) = i by omega]
    · have hbit : x.testBit i = false :=
        Nat.testBit_eq_false_of_lt (lt_of_lt_of_le hx (Nat.pow_le_pow_right (by omega) (by omega)))
      simp [hki, hbit, show k + (i - k) = i by omega]
  · simp [hki]

@[simp]
theorem debugassert_true (c : HeapConfig) (site : Assertion) :
    debugassert c site true = .ok () := by
  simp [debugassert, debugAssert]

namespace HeapConfig

variable (c : HeapConfig)

theorem layout : c.sizeofMmAllocnode = 2 * c.mmBytes ∧
    c.sizeofMmFreenode = c.sizeofMmAllocnode + 2 * c.ptrBytes ∧ 2 ≤ c.mmBytes ∧
    c.mmBytes ≤ c.ptrBytes ∧ c.sizeofMmFreenode ≤ c.mmMinChunk :=
  ⟨rfl, rfl, c.two_le_mmBytes, c.mmBytes_le_ptrBytes, c.freenode_le_minChunk⟩

theorem unit_dvd_mmMinChunk : 2 * c.sizeofMmAllocnode ∣ c.mmMinChunk := by
  rw [sizeofMmAllocnode, ← Nat.mul_assoc]
  exact c.allocnode_dvd_minChunk

theorem mmMinChunk_pos : 0 < c.mmMinChunk := Nat.two_pow_pos _

theorem mmNnodes_pos : 0 < c.mmNnodes := Nat.succ_pos _

theorem pow_mmBytes : 256 ^ c.mmBytes = 2 * c.mmAllocBit := by
  have hmm := c.two_le_mmBytes
  rw [mmAllocBit, show (256 : Nat) = 2 ^ 8 by norm_num, ← pow_mul, ← pow_succ']
  congr 1
  omega

theorem sizeMod_eq : c.sizeMod = 2 ^ (8 * c.ptrBytes) := by
  rw [sizeMod, show (256 : Nat) = 2 ^ 8 by norm_num, ← pow_mul]

theorem powers : c.mmMinChunk ≤ c.mmAllocBit ∧ 2 * c.mmAllocBit ≤ c.sizeMod ∧
    256 ^ c.mmBytes = 2 * c.mmAllocBit := by
  have hmin := c.minShift_lt_maxShift
  have hmax := c.maxShift_lt
  exact ⟨Nat.pow_le_pow_right (by omega) (by omega),
    c.pow_mmBytes ▸ Nat.pow_le_pow_right (by omega) c.mmBytes_le_ptrBytes, c.pow_mmBytes⟩

variable {a : Nat}

theorem add_eq {b : Nat} (h : a + b < c.sizeMod) : c.add a b = a + b := Nat.mod_eq_of_lt h

theorem sub_eq {b : Nat} (hle : b ≤ a) (h : a < c.sizeMod) : c.sub a b = a - b := by
  rw [sub, show a + c.sizeMod - b = a - b + c.sizeMod by omega, Nat.add_mod_right,
    Nat.mod_eq_of_lt (by omega)]

theorem mmMinShift_le : c.mmMinShift ≤ 8 * c.ptrBytes := by
  have hmax := c.maxShift_lt
  have hmin := c.minShift_lt_maxShift
  have hptr := c.mmBytes_le_ptrBytes
  omega

theorem mmAlignDown_eq (h : a < c.sizeMod) : c.mmAlignDown a = a / c.mmMinChunk * c.mmMinChunk := by
  rw [sizeMod_eq] at h
  rw [mmAlignDown, compl, sizeMod_eq, mmGranMask, mmMinChunk, and_compl_mask h c.mmMinShift_le]

theorem mmAlignDown_spec (h : a < c.sizeMod) :
    c.mmAlignDown a ≤ a ∧ c.mmMinChunk ∣ c.mmAlignDown a := by
  rw [c.mmAlignDown_eq h]
  exact ⟨Nat.div_mul_le_self _ _, Dvd.intro_left _ rfl⟩

theorem mmAlignUp_eq (h : a + c.mmGranMask < c.sizeMod) :
    c.mmAlignUp a = (a + c.mmGranMask) / c.mmMinChunk * c.mmMinChunk := by
  rw [← c.mmAlignDown_eq h, mmAlignUp, c.add_eq h, mmAlignDown]

theorem mmAlignUp_spec (h : a + c.mmGranMask < c.sizeMod) :
    a ≤ c.mmAlignUp a ∧ c.mmAlignUp a ≤ a + c.mmGranMask ∧ c.mmMinChunk ∣ c.mmAlignUp a := by
  rw [c.mmAlignUp_eq h]
  have hpos := c.mmMinChunk_pos
  have hdiv := Nat.div_add_mod (a + c.mmGranMask) c.mmMinChunk
  have hmod := Nat.mod_lt (a + c.mmGranMask) hpos
  have hmask : c.mmGranMask = c.mmMinChunk - 1 := rfl
  rw [mul_comm] at hdiv
  exact ⟨by omega, by omega, Dvd.intro_left _ rfl⟩

theorem mmAlignUp_of_dvd (h : a + c.mmGranMask < c.sizeMod) (hdvd : c.mmMinChunk ∣ a) :
    c.mmAlignUp a = a := by
  obtain ⟨k, rfl⟩ := hdvd
  have hpos := c.mmMinChunk_pos
  have hmask : c.mmGranMask = c.mmMinChunk - 1 := rfl
  rw [c.mmAlignUp_eq h, add_comm, Nat.add_mul_div_left _ _ hpos,
    Nat.div_eq_of_lt (by omega), zero_add, mul_comm]

theorem and_mmGranMask_of_dvd (hdvd : c.mmMinChunk ∣ a) : a &&& c.mmGranMask = 0 := by
  rw [mmGranMask, mmMinChunk, Nat.and_two_pow_sub_one_eq_mod]
  exact Nat.mod_eq_zero_of_dvd hdvd

def tag (size : Nat) (used : Bool) : Nat := if used then size + c.mmAllocBit else size

variable {c} {size size' : Nat} {used : Bool}

@[simp]
theorem tag_false : c.tag size false = size := rfl

section

variable (h : size < c.mmAllocBit)
include h

theorem or_mmAllocBit : size ||| c.mmAllocBit = size + c.mmAllocBit := by
  have hor := Nat.two_pow_add_eq_or_of_lt h 1
  rw [mul_one] at hor
  rw [Nat.lor_comm, add_comm]
  exact hor.symm

theorem tag_lt : c.tag size used < 256 ^ c.mmBytes := by
  rw [c.pow_mmBytes, tag]
  split <;> omega

theorem tag_and_mmAllocBit :
    c.tag size used &&& c.mmAllocBit = if used then c.mmAllocBit else 0 := by
  have hlow : size &&& c.mmAllocBit = 0 := by
    rw [mmAllocBit, Nat.and_two_pow, Nat.testBit_eq_false_of_lt h]
    simp
  cases used with
  | false => simpa [tag] using hlow
  | true =>
    simp only [tag, if_true]
    rw [← or_mmAllocBit h, Nat.and_or_distrib_right, hlow, Nat.and_self, Nat.zero_or]

theorem tag_or_mmAllocBit : c.tag size used ||| c.mmAllocBit = c.tag size true := by
  cases used with
  | false => simpa [tag] using or_mmAllocBit h
  | true =>
    simp only [tag, if_true]
    rw [← or_mmAllocBit h, Nat.or_assoc, Nat.or_self]

theorem clearAllocBit_tag : c.clearAllocBit (c.tag size used) = size := by
  have hmask : 256 ^ c.mmBytes - 1 - c.mmAllocBit = 2 ^ (8 * c.mmBytes - 1) - 1 := by
    rw [c.pow_mmBytes]
    simp only [mmAllocBit]
    omega
  rw [clearAllocBit, hmask, Nat.and_two_pow_sub_one_eq_mod, tag]
  cases used with
  | false => exact Nat.mod_eq_of_lt h
  | true =>
    simp only [if_true]
    rw [mmAllocBit, Nat.add_mod_right]
    exact Nat.mod_eq_of_lt h

end

theorem size2ndxLoop_eq {bits ndx size : Nat} (h : size < 2 ^ (bits + 1)) :
    size2ndxLoop bits ndx size = ndx + Nat.log 2 size := by
  induction bits generalizing ndx size with
  | zero =>
    have hlog : Nat.log 2 size = 0 := Nat.log_of_lt (by omega)
    simp [size2ndxLoop, hlog]
  | succ bits ih =>
    rw [size2ndxLoop]
    split
    · rename_i hgt
      rw [pow_succ] at h
      rw [Nat.shiftRight_one, ih (by omega), Nat.log_div_base]
      have hpos : 0 < Nat.log 2 size := Nat.log_pos (by omega) hgt
      omega
    · rename_i hle
      have hlog : Nat.log 2 size = 0 := Nat.log_of_lt (by omega)
      omega

variable (c)

theorem mmSize2ndx_eq (h : size < c.mmMaxChunk) :
    c.mmSize2ndx size = Nat.log 2 (size / c.mmMinChunk) := by
  have hlt : size < 2 ^ (c.mmMaxShift + 1) := by
    rw [mmMaxChunk] at h
    rw [pow_succ]
    omega
  rw [mmSize2ndx, if_neg (by omega), size2ndxLoop_eq, zero_add, Nat.shiftRight_eq_div_pow, mmMinChunk]
  rw [Nat.shiftRight_eq_div_pow]
  exact lt_of_le_of_lt (Nat.div_le_self _ _) hlt

theorem mmSize2ndx_lt (size : Nat) : c.mmSize2ndx size < c.mmNnodes := by
  by_cases h : size < c.mmMaxChunk
  · rw [c.mmSize2ndx_eq h]
    have hmin := c.minShift_lt_maxShift.le
    have hquot : size / c.mmMinChunk < 2 ^ (c.mmMaxShift - c.mmMinShift) := by
      rw [Nat.div_lt_iff_lt_mul c.mmMinChunk_pos, mmMinChunk, ← pow_add, Nat.sub_add_cancel hmin]
      exact h
    rcases Nat.eq_zero_or_pos (size / c.mmMinChunk) with hzero | hpos
    · rw [hzero, Nat.log_zero_right]
      exact c.mmNnodes_pos
    · have hlog := Nat.log_lt_of_lt_pow (by omega) hquot
      rw [mmNnodes]
      omega
  · rw [mmSize2ndx, if_pos (by omega)]
    have hpos := c.mmNnodes_pos
    omega

theorem mmSize2ndx_mono (h : size ≤ size') : c.mmSize2ndx size ≤ c.mmSize2ndx size' := by
  by_cases hsize' : size' < c.mmMaxChunk
  · rw [c.mmSize2ndx_eq hsize', c.mmSize2ndx_eq (by omega)]
    exact Nat.log_mono_right (Nat.div_le_div_right h)
  · have hlt := c.mmSize2ndx_lt size
    have htop : c.mmSize2ndx size' = c.mmNnodes - 1 := if_pos (by omega)
    omega

end HeapConfig

end Nuttx.Mm

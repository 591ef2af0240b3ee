import Mathlib.Data.BitVec

/-!
# Machine integers

There are 256 bytes, so a decidable property of all of them is decidable. A counter of 16 bits counts
as an integer does until it leaves its range.
-/

namespace Byte

instance decidableForall {p : UInt8 → Prop} [DecidablePred p] : Decidable (∀ b, p b) :=
  decidable_of_iff (∀ n : Fin 256, p (UInt8.ofFin n))
    ⟨fun h b => h b.toFin, fun h n => h (UInt8.ofFin n)⟩

end Byte

namespace Counter16

theorem toInt_add_of_mem {a b : Int16} {n : Int} (h : a.toInt + b.toInt = n) (hlo : -0x8000 ≤ n)
    (hhi : n < 0x8000) : (a + b).toInt = n := by
  rw [Int16.toInt_add, h]
  exact Int.bmod_eq_of_le (by omega) (by omega)

theorem toInt_sub_of_mem {a b : Int16} {n : Int} (h : a.toInt - b.toInt = n) (hlo : -0x8000 ≤ n)
    (hhi : n < 0x8000) : (a - b).toInt = n := by
  rw [Int16.toInt_sub, h]
  exact Int.bmod_eq_of_le (by omega) (by omega)

theorem toInt_one : (1 : Int16).toInt = 1 := by decide

theorem toInt_neg_one : (-1 : Int16).toInt = -1 := by decide

theorem toInt_add_one_of_max {a : Int16} (h : 0x7fff ≤ a.toInt) : (a + 1).toInt = -0x8000 := by
  have hlt := a.toInt_lt
  have hmax : a = 0x7fff := by
    apply Int16.toInt_inj.mp
    rw [show (0x7fff : Int16).toInt = 0x7fff by decide]
    omega
  rw [hmax]
  decide

end Counter16

import Nuttx.Mm.Gran.Model

/-!
# The bits of the table

The table as a function from granules to flags, and what `gran_mark_allocated` and `gran_free` do to
it: both change the flags of one range of granules and no other flag.
-/

open List

namespace Nuttx.Mm.Gran

def bit (gat : List (BitVec 32)) (i : Nat) : Bool := (gat.getD (i / 32) 0).getLsbD (i % 32)

theorem getLsbD_ones (j : Nat) : (0xffffffff#32).getLsbD j = decide (j < 32) := by
  rw [show 0xffffffff#32 = BitVec.allOnes 32 from rfl, BitVec.getLsbD_allOnes]

theorem getLsbD_lowMask {n : Nat} (hn : n ≤ 32) (j : Nat) :
    (0xffffffff#32 >>> (32 - n)).getLsbD j = decide (j < n) := by
  rw [BitVec.getLsbD_ushiftRight, getLsbD_ones]
  exact decide_eq_decide.mpr (by omega)

theorem getLsbD_lowMask_shiftLeft {n b : Nat} (hn : n ≤ 32) {j : Nat} (hj : j < 32) :
    ((0xffffffff#32 >>> (32 - n)) <<< b).getLsbD j = decide (b ≤ j ∧ j < b + n) := by
  rw [BitVec.getLsbD_shiftLeft, getLsbD_lowMask hn]
  by_cases hb : b ≤ j
  · simp [hj, hb, show ¬ j < b by omega]
    omega
  · simp [hb, show j < b by omega]

theorem getLsbD_ones_shiftLeft {b j : Nat} (hj : j < 32) :
    (0xffffffff#32 <<< b).getLsbD j = decide (b ≤ j) := by
  rw [BitVec.getLsbD_shiftLeft, getLsbD_ones]
  by_cases hb : b ≤ j
  · simp [hj, hb, show j - b < 32 by omega, show ¬ j < b by omega]
  · simp [hb, show j < b by omega]

def Writes (op : BitVec 32 → BitVec 32 → BitVec 32) (v : Bool) : Prop :=
  ∀ word mask j, j < 32 → (op word mask).getLsbD j = if mask.getLsbD j then v else word.getLsbD j

def Checks (ok : BitVec 32 → BitVec 32 → Bool) (v : Bool) : Prop :=
  ∀ word mask, (∀ j < 32, mask.getLsbD j = true → word.getLsbD j = !v) → ok word mask = true

theorem writes_or : Writes (fun word gatmask => word ||| gatmask) true := by
  intro word mask j _
  rw [BitVec.getLsbD_or]
  cases mask.getLsbD j <;> simp

theorem writes_andNot : Writes (fun word gatmask => word &&& ~~~gatmask) false := by
  intro word mask j hj
  rw [BitVec.getLsbD_and, BitVec.getLsbD_not]
  cases mask.getLsbD j <;> simp [hj]

theorem checks_clear : Checks (fun word gatmask => word &&& gatmask == 0) true := by
  intro word mask hbits
  rw [beq_iff_eq]
  apply BitVec.eq_of_getLsbD_eq
  intro j hj
  have hbit := hbits j hj
  rw [BitVec.getLsbD_and]
  cases hmask : mask.getLsbD j with
  | true => simpa using hbit hmask
  | false => simp

theorem checks_set : Checks (fun word gatmask => word &&& gatmask == gatmask) false := by
  intro word mask hbits
  rw [beq_iff_eq]
  apply BitVec.eq_of_getLsbD_eq
  intro j hj
  have hbit := hbits j hj
  rw [BitVec.getLsbD_and]
  cases hmask : mask.getLsbD j with
  | true => simpa using hbit hmask
  | false => simp

section

variable {op : BitVec 32 → BitVec 32 → BitVec 32} {ok : BitVec 32 → BitVec 32 → Bool} {v : Bool}
  (gat : List (BitVec 32)) {mask : BitVec 32} {q n : Nat}

theorem bit_set_op {lo hi : Nat} (hop : Writes op v) (hq : q < gat.length) (hlo : 32 * q ≤ lo)
    (hhi : hi ≤ 32 * q + 32)
    (hmask : ∀ j < 32, mask.getLsbD j = decide (lo ≤ 32 * q + j ∧ 32 * q + j < hi)) (i : Nat) :
    bit (gat.set q (op (gat.getD q 0) mask)) i = if lo ≤ i ∧ i < hi then v else bit gat i := by
  rw [bit, getD_eq_getElem?_getD, List.getElem?_set]
  by_cases heq : i / 32 = q
  · have hi32 : 32 * q + i % 32 = i := by omega
    rw [if_pos heq.symm, if_pos hq, Option.getD_some, hop _ _ _ (by omega), hmask _ (by omega), hi32,
      bit, heq]
    simp only [decide_eq_true_eq]
  · rw [if_neg (Ne.symm heq), if_neg (by omega), ← getD_eq_getElem?_getD, bit]

theorem ok_of_bits {lo hi : Nat} (hok : Checks ok v)
    (hmask : ∀ j < 32, mask.getLsbD j = decide (lo ≤ 32 * q + j ∧ 32 * q + j < hi))
    (hbits : ∀ i, lo ≤ i → i < hi → bit gat i = !v) : ok (gat.getD q 0) mask = true := by
  refine hok _ _ fun j hj hset => ?_
  rw [hmask j hj, decide_eq_true_eq] at hset
  have hbit := hbits _ hset.1 hset.2
  rwa [bit, show (32 * q + j) / 32 = q by omega, show (32 * q + j) % 32 = j by omega] at hbit

theorem updateGat_spec (debug : Bool) (first second single : Assertion) {granno : Nat}
    (hop : Writes op v) (hok : Checks ok v) (hpos : 0 < n) (hn : n ≤ 32)
    (hin : granno + n ≤ 32 * gat.length)
    (hbits : ∀ i, granno ≤ i → i < granno + n → bit gat i = !v) :
    ∃ gat', updateGat op (debugAssert debug) ok first second single gat granno n = .ok gat' ∧
      gat'.length = gat.length ∧
      ∀ i, bit gat' i = if granno ≤ i ∧ i < granno + n then v else bit gat i := by
  have hidx : granno >>> 5 = granno / 32 := Nat.shiftRight_eq_div_pow granno 5
  have hbit : granno &&& 31 = granno % 32 := Nat.and_two_pow_sub_one_eq_mod granno 5
  have hassert : ∀ site : Assertion, debugAssert debug site true = .ok () := fun site => by simp [debugAssert]
  simp only [updateGat, hidx, hbit]
  by_cases hspan : n > 32 - granno % 32
  · -- the range goes on in the next word
    have hmask1 : ∀ j < 32, (0xffffffff#32 <<< (granno % 32)).getLsbD j
        = decide (granno ≤ 32 * (granno / 32) + j ∧ 32 * (granno / 32) + j < 32 * (granno / 32) + 32) := by
      intro j hj
      rw [getLsbD_ones_shiftLeft hj]
      exact decide_eq_decide.mpr (by omega)
    have hmask2 : ∀ j < 32, (0xffffffff#32 >>> (32 - (n - (32 - granno % 32)))).getLsbD j
        = decide (32 * (granno / 32) + 32 ≤ 32 * (granno / 32 + 1) + j ∧
          32 * (granno / 32 + 1) + j < granno + n) := by
      intro j hj
      rw [getLsbD_lowMask (by omega)]
      exact decide_eq_decide.mpr (by omega)
    have hset1 := bit_set_op gat hop (by omega) (by omega) (by omega) hmask1
    have hok1 := ok_of_bits gat hok hmask1 fun i hlo hhi => hbits i hlo (by omega)
    generalize hgat1 : gat.set (granno / 32) (op (gat.getD (granno / 32) 0)
      (0xffffffff#32 <<< (granno % 32))) = gat1 at hset1
    have hlen : gat1.length = gat.length := by rw [← hgat1, length_set]
    have hok2 := ok_of_bits gat1 hok hmask2 fun i hlo hhi => by
      rw [hset1, if_neg (by omega)]
      exact hbits i (by omega) hhi
    refine ⟨gat1.set (granno / 32 + 1) (op (gat1.getD (granno / 32 + 1) 0)
      (0xffffffff#32 >>> (32 - (n - (32 - granno % 32))))), ?_, by rw [length_set, hlen], fun i => ?_⟩
    · simp only [if_pos hspan, hok1, hok2, hassert, bind, Except.bind, pure, Except.pure]
    · rw [bit_set_op gat1 hop (by omega) (by omega) (by omega) hmask2, hset1]
      split_ifs <;> first | rfl | omega
  · have hmask : ∀ j < 32, ((0xffffffff#32 >>> (32 - n)) <<< (granno % 32)).getLsbD j
        = decide (granno ≤ 32 * (granno / 32) + j ∧ 32 * (granno / 32) + j < granno + n) := by
      intro j hj
      rw [getLsbD_lowMask_shiftLeft hn hj]
      exact decide_eq_decide.mpr (by omega)
    have hok' := ok_of_bits gat hok hmask hbits
    refine ⟨gat.set (granno / 32) (op (gat.getD (granno / 32) 0)
      ((0xffffffff#32 >>> (32 - n)) <<< (granno % 32))), ?_, length_set,
      bit_set_op gat hop (by omega) (by omega) (by omega) hmask⟩
    simp only [if_neg hspan, hok', hassert, bind, Except.bind, pure, Except.pure]

end

theorem gat_ext {gat gat' : List (BitVec 32)} (hlen : gat.length = gat'.length)
    (hbits : ∀ i, bit gat i = bit gat' i) : gat = gat' := by
  apply ext_getElem hlen
  intro q hq hq'
  apply BitVec.eq_of_getLsbD_eq
  intro j hj
  have hbit := hbits (32 * q + j)
  rw [bit, bit, show (32 * q + j) / 32 = q by omega, show (32 * q + j) % 32 = j by omega] at hbit
  simpa [hq, hq'] using hbit

end Nuttx.Mm.Gran

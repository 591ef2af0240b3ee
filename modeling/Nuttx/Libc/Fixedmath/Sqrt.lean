import Mathlib.Tactic.Linarith

/-!
# Square roots by Newton's iteration

`ub32sqrtub16` and `ub16sqrtub8` are one algorithm on words of 64 and of 32 bits.
-/

namespace Nuttx.Libc.Fixedmath

/-- The loop for words of `w` bits; `none` is a division by zero. Every turn makes `xk` smaller, so it
ends before `fuel` does. -/
def sqrtLoop (w n : Nat) : Nat → Nat → Option Nat
  | 0, _ => none
  | fuel + 1, xk =>
    if xk = 0 then none
    else
      let xk1 := ((xk + n / xk) % 2 ^ w) >>> 1
      if xk1 ≥ xk then some xk else sqrtLoop w n fuel xk1

/-- Both functions: the root of a word of `w + w` bits has `w` bits. -/
def ubsqrt (w : Nat) (a : BitVec (w + w)) : Option (BitVec w) :=
  let n := a.toNat
  let xk := if n = 2 ^ (w + w) - 1 then 1 <<< (w + w - 1) else n
  (sqrtLoop (w + w) n (n + 1) xk).map (BitVec.ofNat w)

def ub32sqrtub16 (a : BitVec 64) : Option (BitVec 32) := ubsqrt 32 a

def ub16sqrtub8 (a : BitVec 32) : Option (BitVec 16) := ubsqrt 16 a

theorem sqrt_le_next {n x : Nat} (hx : 0 < x) : n.sqrt ≤ (x + n / x) / 2 := by
  rw [Nat.le_div_iff_mul_le two_pos]
  rcases Nat.le_total (2 * n.sqrt) x with hfar | hnear
  · linarith [Nat.zero_le (n / x)]
  obtain ⟨d, hd⟩ := Nat.exists_eq_add_of_le' hnear
  have hmean := four_mul_le_sq_add d x
  rw [← hd] at hmean
  have hsquare : d * x ≤ n := by linarith [n.sqrt_le]
  have hdiv := (Nat.le_div_iff_mul_le hx).mpr hsquare
  omega

theorem add_div_le {n x : Nat} (hx : 0 < x) (hle : x ≤ n) : x + n / x ≤ n + 1 := by
  have hq := Nat.div_pos hle hx
  have hmul := Nat.div_mul_le_self n x
  nlinarith

/-- The iterates stay above the root, and the first one that does not become smaller is the root. -/
theorem sqrtLoop_eq {w n fuel x : Nat} (hpos : 0 < n) (hroot : n.sqrt ≤ x) (hfuel : x < fuel)
    (hwrap : ∀ y, n.sqrt ≤ y → y ≤ x → y + n / y < 2 ^ w) : sqrtLoop w n fuel x = some n.sqrt := by
  have hsqrt := Nat.sqrt_pos.mpr hpos
  induction fuel generalizing x with
  | zero => omega
  | succ fuel ih =>
    have hx : 0 < x := by omega
    rw [sqrtLoop, if_neg hx.ne', Nat.mod_eq_of_lt (hwrap x hroot le_rfl), Nat.shiftRight_one]
    by_cases hstop : (x + n / x) / 2 ≥ x
    · have hsquare : x * x ≤ n := (Nat.le_div_iff_mul_le hx).mp (by omega)
      rw [if_pos hstop, Nat.le_antisymm hroot (Nat.le_sqrt.mpr hsquare)]
    · rw [if_neg hstop]
      exact ih (sqrt_le_next hx) (by omega) fun y hy hle => hwrap y hy (by omega)

theorem ubsqrt_eq {w : Nat} (hw : 2 ≤ w) {a : BitVec (w + w)} (ha : 0 < a.toNat) :
    ubsqrt w a = some (BitVec.ofNat w a.toNat.sqrt) := by
  have hn := a.isLt
  unfold ubsqrt
  generalize a.toNat = n at ha hn
  refine congrArg (Option.map (BitVec.ofNat w)) (?_ : _ = some n.sqrt)
  split_ifs with hmax
  · obtain ⟨v, hv⟩ := Nat.exists_eq_add_of_le' (show 3 ≤ w + w by omega)
    have hhalf : 2 ^ (v + 3) = 2 * 2 ^ (v + 2) := Nat.pow_succ'
    have hfour : 4 ≤ 2 ^ (v + 2) := Nat.pow_le_pow_right two_pos (Nat.le_add_left 2 v)
    rw [hv] at hmax ⊢
    have htwo : 2 ≤ n.sqrt := Nat.le_sqrt.mpr (by omega)
    have hdouble := (Nat.mul_le_mul_right n.sqrt htwo).trans n.sqrt_le
    rw [Nat.one_shiftLeft, show v + 3 - 1 = v + 2 from rfl]
    refine sqrtLoop_eq ha (by omega) (by omega) fun y hy hle => ?_
    have hdiv := Nat.div_le_div_left (a := n) (htwo.trans hy) two_pos
    omega
  · refine sqrtLoop_eq ha n.sqrt_le_self (by omega) fun y hy hle => ?_
    have hsum := add_div_le ((Nat.sqrt_pos.mpr ha).trans_le hy) hle
    omega

theorem ubsqrt_right_iff {w : Nat} (hw : 2 ≤ w) (a : BitVec (w + w)) :
    (∃ r, ubsqrt w a = some r ∧ IsGreatest {r : BitVec w | r.toNat * r.toNat ≤ a.toNat} r) ↔ a ≠ 0 := by
  constructor
  · rintro ⟨r, hr, -⟩ rfl
    have hne : 0 ≠ 2 ^ (w + w) - 1 := by
      have hlt := Nat.lt_two_pow_self (n := w + w)
      omega
    simp [ubsqrt, hne, sqrtLoop] at hr
  intro ha
  have hlt : a.toNat.sqrt < 2 ^ w := by
    rw [Nat.sqrt_lt, ← Nat.pow_add]
    exact a.isLt
  have hpos := Nat.pos_of_ne_zero fun hzero => ha (BitVec.eq_of_toNat_eq hzero)
  refine ⟨_, ubsqrt_eq hw hpos, ?_, fun s hs => ?_⟩
  · rw [Set.mem_ofPred_eq, BitVec.toNat_ofNat, Nat.mod_eq_of_lt hlt]
    exact Nat.sqrt_le _
  · rw [BitVec.le_def, BitVec.toNat_ofNat, Nat.mod_eq_of_lt hlt]
    exact Nat.le_sqrt.mpr hs

/-- **Square roots.** Both functions return the largest word whose square is not above the argument,
for every argument but zero. -/
theorem sqrt_right_iff (a : BitVec 64) (b : BitVec 32) :
    ((∃ r, ub32sqrtub16 a = some r ∧ IsGreatest {r : BitVec 32 | r.toNat * r.toNat ≤ a.toNat} r) ↔
        a ≠ 0) ∧
      ((∃ r, ub16sqrtub8 b = some r ∧ IsGreatest {r : BitVec 16 | r.toNat * r.toNat ≤ b.toNat} r) ↔
        b ≠ 0) :=
  ⟨ubsqrt_right_iff (w := 32) (by decide) a, ubsqrt_right_iff (w := 16) (by decide) b⟩

/-- The first division is by zero. -/
theorem sqrt_of_zero : ub32sqrtub16 0 = none ∧ ub16sqrtub8 0 = none := by
  decide

end Nuttx.Libc.Fixedmath

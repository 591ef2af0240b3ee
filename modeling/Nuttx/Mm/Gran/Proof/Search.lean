import Nuttx.Mm.Gran.Proof.Table

/-!
# The search for free granules

`gran_alloc` looks at the table through a window of 64 bits, the word at hand and the next one,
which it shifts along.
-/

namespace Nuttx.Mm.Gran

variable {h : Heap} {beyond curr next mask : BitVec 32} {n q b s : Nat}

def Fits (h : Heap) (n p : Nat) : Prop :=
  p + n ≤ h.ngranules ∧ ∀ i, p ≤ i → i < p + n → bit h.gat i = false

def addrOf (h : Heap) (p : Nat) : Nat := (h.heapstart + p <<< h.log2gran) % addrMod

theorem addrOf_add (h : Heap) (p s : Nat) :
    (addrOf h p + s <<< h.log2gran) % addrMod = addrOf h (p + s) := by
  rw [addrOf, addrOf, Nat.mod_add_mod, Nat.shiftLeft_eq, Nat.shiftLeft_eq, Nat.shiftLeft_eq,
    Nat.add_mul, Nat.add_assoc]

def Found (h : Heap) (n lo hi : Nat) : Option Nat → Prop
  | some a => ∃ p, lo ≤ p ∧ p < hi ∧ Fits h n p ∧ a = addrOf h p ∧ ∀ p', lo ≤ p' → p' < p → ¬ Fits h n p'
  | none => ∀ p, lo ≤ p → p < hi → ¬ Fits h n p

theorem Found.skip {lo mid hi : Nat} {r : Option Nat} (hle : lo ≤ mid)
    (hskip : ∀ p, lo ≤ p → p < mid → ¬ Fits h n p) (hfound : Found h n mid hi r) :
    Found h n lo hi r := by
  cases r with
  | none =>
    intro p hlo hhi
    by_cases hmid : p < mid
    · exact hskip p hlo hmid
    · exact hfound p (by omega) hhi
  | some a =>
    obtain ⟨p, hlo, hhi, hfits, haddr, hfirst⟩ := hfound
    refine ⟨p, by omega, hhi, hfits, haddr, fun p' hlo' hlt => ?_⟩
    by_cases hmid : p' < mid
    · exact hskip p' hlo' hmid
    · exact hfirst p' (by omega) hlt

theorem not_fits_of_bit {p i : Nat} (hlo : p ≤ i) (hhi : i < p + n)
    (hbit : i < h.ngranules → bit h.gat i = true) : ¬ Fits h n p := by
  rintro ⟨hin, hfree⟩
  have hset := hbit (by omega)
  rw [hfree i hlo hhi] at hset
  cases hset

structure Window (h : Heap) (q b : Nat) (curr next : BitVec 32) : Prop where
  curr : ∀ j < 32, b + j < 64 → 32 * q + b + j < h.ngranules →
    curr.getLsbD j = bit h.gat (32 * q + b + j)
  next : ∀ j < 32, b + j < 32 → 32 * (q + 1) + b + j < h.ngranules →
    next.getLsbD j = bit h.gat (32 * (q + 1) + b + j)

theorem window_start (hlen : h.ngranules ≤ 32 * h.gat.length) (q : Nat) :
    Window h q 0 (h.gat.getD q beyond) (h.gat.getD (q + 1) beyond) := by
  have hread : ∀ q' j, j < 32 → 32 * q' + 0 + j < h.ngranules →
      (h.gat.getD q' beyond).getLsbD j = bit h.gat (32 * q' + 0 + j) := by
    intro q' j hj hin
    have hq' : q' < h.gat.length := by omega
    rw [bit, show (32 * q' + 0 + j) / 32 = q' by omega, show (32 * q' + 0 + j) % 32 = j by omega]
    simp [hq']
  exact ⟨fun j hj _ hin => hread q j hj hin, fun j hj _ hin => hread (q + 1) j hj hin⟩

theorem Window.shift (hwin : Window h q b curr next) (hb : b < 32) (hs : s ≤ 32) :
    Window h q (b + s) ((curr >>> s) ||| (next <<< (32 - s))) (next >>> s) := by
  constructor
  · intro j hj h64 hin
    rw [BitVec.getLsbD_or, BitVec.getLsbD_ushiftRight, BitVec.getLsbD_shiftLeft]
    by_cases hlow : s + j < 32
    · have hbit := hwin.curr (s + j) hlow (by omega) (by omega)
      rw [hbit, show 32 * q + b + (s + j) = 32 * q + (b + s) + j by omega]
      simp [show j < 32 - s by omega]
    · have hbit := hwin.next (j - (32 - s)) (by omega) (by omega) (by omega)
      rw [BitVec.getLsbD_of_ge curr (s + j) (by omega), hbit,
        show 32 * (q + 1) + b + (j - (32 - s)) = 32 * q + (b + s) + j by omega]
      simp [hj, show ¬ j < 32 - s by omega]
  · intro j hj h32 hin
    have hbit := hwin.next (s + j) (by omega) (by omega) (by omega)
    rw [BitVec.getLsbD_ushiftRight, hbit]
    congr 1
    omega

theorem getLsbD_of_and_eq {k : Nat} {m : BitVec 32} (hand : curr &&& m = m)
    (hm : ∀ j < k, m.getLsbD j = true) : ∀ j < k, curr.getLsbD j = true := by
  intro j hj
  have hbit := congrArg (fun x => BitVec.getLsbD x j) hand
  simpa [BitVec.getLsbD_and, hm j hj] using hbit

theorem searchShift_some (hshift : searchShift curr mask = some s) : 0 < s ∧ s ≤ 16 ∧
    ((∀ j < s, curr.getLsbD j = true) ∨ s = 1 ∧ curr &&& mask ≠ 0) := by
  unfold searchShift at hshift
  split_ifs at hshift with h16 h8 h4 h2 hmask <;> cases hshift
  · exact ⟨by omega, by omega, .inl (getLsbD_of_and_eq h16 (by decide))⟩
  · exact ⟨by omega, by omega, .inl (getLsbD_of_and_eq h8 (by decide))⟩
  · exact ⟨by omega, by omega, .inl (getLsbD_of_and_eq h4 (by decide))⟩
  · exact ⟨by omega, by omega, .inl (getLsbD_of_and_eq h2 (by decide))⟩
  · exact ⟨by omega, by omega, .inr ⟨rfl, hmask⟩⟩

theorem searchShift_none (hshift : searchShift curr mask = none) : curr &&& mask = 0 := by
  unfold searchShift at hshift
  split_ifs at hshift with h16 h8 h4 h2 hmask
  exact hmask

variable (hpos : 0 < n) (hn : n ≤ 32) (hmask : ∀ j, mask.getLsbD j = decide (j < n))

include hpos hmask in
theorem Window.not_fits_of_shift (hwin : Window h q b curr next) (hb : b < 32)
    (hshift : searchShift curr mask = some s) :
    ∀ p, 32 * q + b ≤ p → p < 32 * q + (b + s) → ¬ Fits h n p := by
  obtain ⟨hs, hs16, hones | ⟨rfl, hne⟩⟩ := searchShift_some hshift
  · intro p hlo hhi
    refine not_fits_of_bit (i := p) (by omega) (by omega) fun hin => ?_
    have hbit := hwin.curr (p - (32 * q + b)) (by omega) (by omega) (by omega)
    rw [hones _ (by omega), show 32 * q + b + (p - (32 * q + b)) = p by omega] at hbit
    exact hbit.symm
  intro p hlo hhi
  obtain rfl : p = 32 * q + b := by omega
  obtain ⟨j, hj, hcurr, hj'⟩ : ∃ j < 32, curr.getLsbD j = true ∧ j < n := by
    by_contra hnone
    refine hne (BitVec.eq_of_getLsbD_eq fun j hj => ?_)
    rw [BitVec.getLsbD_and, hmask]
    by_cases hjn : j < n
    · have hfalse : curr.getLsbD j = false := by
        by_contra htrue
        exact hnone ⟨j, hj, by simpa using htrue, hjn⟩
      simp [hfalse]
    · simp [hjn]
  refine not_fits_of_bit (i := 32 * q + b + j) (by omega) (by omega) fun hin => ?_
  exact (hwin.curr j hj (by omega) hin).symm.trans hcurr

include hpos in
theorem Window.not_fits_of_ones (hwin : Window h q b curr next) (hfull : curr = 0xffffffff#32) {p : Nat}
    (hlo : 32 * q + b ≤ p) (hhi : p < 32 * q + 32) : ¬ Fits h n p := by
  refine not_fits_of_bit (i := p) le_rfl (by omega) fun hin => ?_
  have hbit := hwin.curr (p - (32 * q + b)) (by omega) (by omega) (by omega)
  rw [hfull, getLsbD_ones, show 32 * q + b + (p - (32 * q + b)) = p by omega] at hbit
  rw [← hbit, decide_eq_true_eq]
  omega

include hn hmask in
theorem Window.fits (hwin : Window h q b curr next) (hb : b < 32) (hzero : curr &&& mask = 0)
    (hin : 32 * q + b + n ≤ h.ngranules) : Fits h n (32 * q + b) := by
  refine ⟨hin, fun i hlo hhi => ?_⟩
  have hbit := hwin.curr (i - (32 * q + b)) (by omega) (by omega) (by omega)
  have hand := congrArg (fun x => BitVec.getLsbD x (i - (32 * q + b))) hzero
  rw [show 32 * q + b + (i - (32 * q + b)) = i by omega] at hbit
  simpa [BitVec.getLsbD_and, hmask, hbit, show i - (32 * q + b) < n by omega] using hand

include hpos hn hmask in
theorem searchWord_found {fuel : Nat} (hwin : Window h q b curr next) (hfuel : 32 ≤ b + fuel) :
    Found h n (32 * q + b) (32 * q + 32)
      (searchWord h n mask (32 * q) fuel curr next b (addrOf h (32 * q + b))) := by
  induction fuel generalizing curr next b with
  | zero =>
    intro p hlo hhi
    omega
  | succ fuel ih =>
    rw [searchWord]
    split_ifs with hloop hfull
    · exact fun p => hwin.not_fits_of_ones hpos hfull
    · cases hshift : searchShift curr mask with
      | none =>
        refine ⟨32 * q + b, le_rfl, by omega, ?_, rfl, fun p' hlo hlt => absurd hlo (by omega)⟩
        exact hwin.fits hn hmask hloop.1 (searchShift_none hshift) hloop.2
      | some s =>
        obtain ⟨hs, hs16, -⟩ := searchShift_some hshift
        have hnext := ih (hwin.shift hloop.1 (show s ≤ 32 by omega)) (by omega)
        simp only [addrOf_add, Nat.add_assoc]
        exact hnext.skip (by omega) (hwin.not_fits_of_shift hpos hmask hloop.1 hshift)
    · intro p hlo hhi hfits
      have hin := hfits.1
      omega

include hpos hn hmask in
theorem searchGat_found (beyond : BitVec 32) {fuel : Nat} (hlen : h.ngranules ≤ 32 * h.gat.length)
    (hfuel : h.ngranules ≤ 32 * q + 32 * fuel) :
    Found h n (32 * q) h.ngranules (searchGat h beyond n mask fuel (32 * q)) := by
  induction fuel generalizing q with
  | zero =>
    intro p hlo hhi
    omega
  | succ fuel ih =>
    have hidx : (32 * q) >>> 5 = q := by
      rw [Nat.shiftRight_eq_div_pow]
      omega
    have hwin : Window h q 0 (h.gat.getD q beyond) (h.gat.getD (q + 1) beyond) :=
      window_start hlen q
    simp only [searchGat, hidx]
    by_cases hloop : 32 * q < h.ngranules
    · have hrest := ih (q := q + 1) (by omega)
      rw [show 32 * (q + 1) = 32 * q + 32 by omega] at hrest
      have hword := searchWord_found hpos hn hmask hwin (show 32 ≤ 0 + 32 by omega)
      rw [Nat.add_zero, addrOf] at hword
      rw [if_pos hloop, if_pos hloop]
      split_ifs with hfull
      · exact hrest.skip (by omega) fun p => hwin.not_fits_of_ones hpos hfull
      split
      · next a hsearch =>
          rw [hsearch] at hword
          obtain ⟨p, hlo, hhi, hfits, haddr, hfirst⟩ := hword
          have hin := hfits.1
          exact ⟨p, hlo, by omega, hfits, haddr, hfirst⟩
      · next hsearch =>
          rw [hsearch] at hword
          exact hrest.skip (by omega) hword
    · rw [if_neg hloop]
      intro p hlo hhi
      omega

end Nuttx.Mm.Gran

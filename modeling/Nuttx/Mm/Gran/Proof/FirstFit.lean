import Nuttx.Mm.Gran.Proof.Runs

/-!
# What `gran_alloc` returns and where it looks

The search returns the first range of free granules that is long enough, on any table.
-/

open List

namespace Nuttx.Mm.Gran

variable {h : Heap} {n size : Nat} {mask beyond : BitVec 32}

/-- A number of granules that the computation of `gran_alloc` can come to is that of a size that does
not wrap. -/
theorem sizeOk_of_granulesOf {log2gran : Nat} (hsize : size < addrMod)
    (hn : granulesOf log2gran size = n) (hpos : 0 < n) (hle : n ≤ 32) : SizeOk log2gran size := by
  have hgran : 0 < 2 ^ log2gran := Nat.two_pow_pos _
  rw [granulesOf, Nat.shiftRight_eq_div_pow] at hn
  have hge : 2 ^ log2gran ≤ (size + (2 ^ log2gran - 1)) % addrMod := by
    by_contra hlt
    rw [Nat.div_eq_of_lt (by omega)] at hn
    omega
  have hlt : size + (2 ^ log2gran - 1) < addrMod := by
    by_contra hwrap
    have hmod : (size + (2 ^ log2gran - 1)) % addrMod ≤ size + (2 ^ log2gran - 1) - addrMod := by
      rw [Nat.mod_eq_sub_mod (by omega)]
      exact Nat.mod_le _ _
    omega
  rw [Nat.mod_eq_of_lt hlt] at hn hge
  have hmul := Nat.lt_mul_of_div_lt (show (size + (2 ^ log2gran - 1)) / 2 ^ log2gran < 33 by omega) hgran
  exact ⟨by omega, by omega, hlt⟩

theorem markIndices_lt (hok : h.Ok) (hpos : 0 < n) {p : Nat} (hfits : Fits h n p) :
    ∀ i ∈ markIndices h n (addrOf h p), i < sizeofGat h.ngranules := by
  have hin := hfits.1
  have hbit : p &&& 31 = p % 32 := Nat.and_two_pow_sub_one_eq_mod p 5
  rw [markIndices, hok.granuleOf_addrOf (by omega), hbit, sizeofGat, Nat.shiftRight_eq_div_pow,
    Nat.shiftRight_eq_div_pow]
  split_ifs with hspan
  · simp only [forall_mem_cons, not_mem_nil, false_implies, implies_true, and_true]
    omega
  · rw [forall_mem_singleton]
    omega

section Search

variable (hpos : 0 < n) (hn : n ≤ 32) (hmask : ∀ j, mask.getLsbD j = decide (j < n))
  (hlen : h.gat.length = sizeofGat h.ngranules)

include hpos hn hmask hlen in
/-- By induction on the words that are left: the last one is reached if nothing fits before it. -/
theorem searchIndices_lt_iff (beyond : BitVec 32) {q fuel : Nat}
    (hq : q + fuel = sizeofGat h.ngranules) (hfuel : 0 < fuel) :
    (∀ i ∈ searchIndices h beyond n mask fuel (32 * q), i < sizeofGat h.ngranules) ↔
      h.gat.getD (sizeofGat h.ngranules - 1) 0 = 0xffffffff#32 ∨
        ∃ p, 32 * q ≤ p ∧ p < 32 * (sizeofGat h.ngranules - 1) ∧ Fits h n p := by
  have hwords : sizeofGat h.ngranules = (h.ngranules + 31) / 32 := Nat.shiftRight_eq_div_pow _ 5
  induction fuel generalizing q with
  | zero => omega
  | succ fuel ih =>
    have hidx : (32 * q) >>> 5 = q := by
      rw [Nat.shiftRight_eq_div_pow]
      omega
    have hwin : Window h q 0 (h.gat.getD q beyond) (h.gat.getD (q + 1) beyond) :=
      window_start (by omega) q
    have hword := searchWord_found hpos hn hmask hwin (show 32 ≤ 0 + 32 by omega)
    rw [Nat.add_zero, addrOf] at hword
    have hread : h.gat.getD q beyond = h.gat.getD q 0 := by
      simp [show q < h.gat.length by omega]
    -- the rest of the table, if nothing fits in this word
    have hrest : 0 < fuel → (∀ p, 32 * q ≤ p → p < 32 * q + 32 → ¬ Fits h n p) →
        ((∀ i ∈ searchIndices h beyond n mask fuel (32 * q + 32), i < sizeofGat h.ngranules) ↔
          h.gat.getD (sizeofGat h.ngranules - 1) 0 = 0xffffffff#32 ∨
            ∃ p, 32 * q ≤ p ∧ p < 32 * (sizeofGat h.ngranules - 1) ∧ Fits h n p) := by
      intro hmore hnone
      have hnext := ih (q := q + 1) (by omega) hmore
      rw [show 32 * (q + 1) = 32 * q + 32 by omega] at hnext
      refine hnext.trans (or_congr_right (exists_congr fun p =>
        ⟨fun hp => ⟨by omega, hp.2⟩, fun hp => ?_⟩))
      obtain ⟨hlo, hhi, hfits⟩ := hp
      exact ⟨Nat.le_of_not_lt fun hlt => hnone p hlo (by omega) hfits, hhi, hfits⟩
    simp only [searchIndices, hidx, if_pos (show 32 * q < h.ngranules by omega)]
    by_cases hfull : h.gat.getD q beyond = 0xffffffff#32
    · rw [if_pos hfull, forall_mem_cons, and_iff_right (by omega)]
      rcases Nat.eq_zero_or_pos fuel with rfl | hmore
      · refine iff_of_true (forall_mem_nil _) (.inl ?_)
        rw [← hq, Nat.zero_add, Nat.add_sub_cancel, ← hread, hfull]
      · exact hrest hmore fun p => hwin.not_fits_of_ones hpos hfull
    rw [if_neg hfull, forall_mem_cons, forall_mem_cons, and_iff_right (by omega)]
    rcases Nat.eq_zero_or_pos fuel with rfl | hmore
    · refine iff_of_false (fun hall => absurd hall.1 (by omega)) ?_
      rintro (hlast | ⟨p, hlo, hhi, -⟩)
      · rw [← hq, Nat.zero_add, Nat.add_sub_cancel, ← hread] at hlast
        exact hfull hlast
      · omega
    rw [and_iff_right (by omega)]
    split_ifs with hsome
    · obtain ⟨a, ha⟩ := Option.isSome_iff_exists.mp hsome
      rw [ha] at hword
      obtain ⟨p, hlo, hhi, hfits, -⟩ := hword
      exact iff_of_true (forall_mem_nil _) (.inr ⟨p, hlo, by omega, hfits⟩)
    · rw [Option.not_isSome_iff_eq_none] at hsome
      rw [hsome] at hword
      exact hrest hmore hword

end Search

/-- **When `gran_alloc` stays inside its table**: nothing is asked for, the critical section is not
entered, the last word is full, or a range that fits begins before the last word. -/
theorem alloc_inside_iff (hok : h.Ok) (hlen : h.gat.length = sizeofGat h.ngranules)
    (hgranules : 0 < h.ngranules) (hsize : size ≤ 32 * 2 ^ h.log2gran)
    (hwrap : size + (2 ^ h.log2gran - 1) < addrMod) (enter : Int) (beyond : BitVec 32) :
    (∀ i ∈ allocIndices h size enter beyond, i < sizeofGat h.ngranules) ↔
      size = 0 ∨ enter < 0 ∨ h.gat.getD (sizeofGat h.ngranules - 1) 0 = 0xffffffff#32 ∨
        ∃ p < 32 * (sizeofGat h.ngranules - 1), Fits h (granulesOf h.log2gran size) p := by
  have hwords : sizeofGat h.ngranules = (h.ngranules + 31) / 32 := Nat.shiftRight_eq_div_pow _ 5
  unfold allocIndices
  split_ifs with hasked
  · obtain ⟨hpos, hn⟩ := SizeOk.granulesOf ⟨hasked.1, hsize, hwrap⟩
    have hsearch := searchIndices_lt_iff hpos hn (getLsbD_lowMask hn) hlen beyond (q := 0)
      (Nat.zero_add _) (by omega)
    have hfound := searchGat_found (q := 0) hpos hn (getLsbD_lowMask hn) beyond hok.len
      (show h.ngranules ≤ 32 * 0 + 32 * sizeofGat h.ngranules by omega)
    rw [Nat.mul_zero] at hsearch hfound
    have hmark : ∀ i ∈ (searchGat h beyond (granulesOf h.log2gran size)
        (0xffffffff#32 >>> (32 - granulesOf h.log2gran size)) (sizeofGat h.ngranules) 0).elim []
        (markIndices h (granulesOf h.log2gran size)), i < sizeofGat h.ngranules := by
      cases hres : searchGat h beyond (granulesOf h.log2gran size)
          (0xffffffff#32 >>> (32 - granulesOf h.log2gran size)) (sizeofGat h.ngranules) 0 with
      | none => exact forall_mem_nil _
      | some a =>
        rw [hres] at hfound
        obtain ⟨p, -, -, hfits, rfl, -⟩ := hfound
        rw [Option.elim_some]
        exact markIndices_lt hok hpos hfits
    rw [forall_mem_append, and_iff_left hmark, hsearch]
    simp only [Nat.zero_le, true_and, show ¬ size = 0 by omega, show ¬ enter < 0 by omega, false_or]
  · refine iff_of_true (forall_mem_nil _) ?_
    have hnot : size = 0 ∨ enter < 0 := by omega
    exact hnot.imp_right Or.inl

theorem alloc_inside_two : (Heap.mk 5 33 4096 [0, 0]).Ok ∧
    ∀ i ∈ allocIndices (Heap.mk 5 33 4096 [0, 0]) 32 0 0, i < sizeofGat 33 := by
  have hok : (Heap.mk 5 33 4096 [0, 0]).Ok := ⟨by decide, by decide, by decide⟩
  refine ⟨hok, (alloc_inside_iff hok (by decide) (by decide) (by decide) (by decide) 0 0).mpr ?_⟩
  have hfree : ∀ i < 1, bit [0, 0] i = false := by decide
  exact .inr (.inr (.inr ⟨0, by decide, by decide, fun i _ hi => hfree i hi⟩))

/-- A heap of one granule: the word after the only one of its table is read. -/
theorem alloc_reads_beyond : allocIndices (Heap.mk 5 1 4096 [0]) 32 0 0 = [0, 1, 0] ∧
    ¬ ∀ i ∈ allocIndices (Heap.mk 5 1 4096 [0]) 32 0 0, i < sizeofGat 1 := by
  decide

end Nuttx.Mm.Gran

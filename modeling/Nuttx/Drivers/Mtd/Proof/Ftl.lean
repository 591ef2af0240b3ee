import Nuttx.Drivers.Mtd.Ftl
import Mathlib.Tactic.Ring

/-!
# The flash translation layer writes the blocks it is asked to write

The three parts of `ftl_flush` write three stretches of the device, one behind the other
(`Flash.Rewritten`).
-/

namespace Nuttx.Mtd.Ftl

open Stretch Flash

variable {geo : Geometry} {env : Env}

structure Working (env : Env) (dev : Dev) : Prop where
  fault : ∀ request, env.fault request = none
  memory : dev.eblock.isSome ∨ env.malloc.isSome

theorem toNat_mask (geo : Geometry) : (mask geo).toNat = geo.blkper - 1 := by
  have hpos := blkper_pos geo
  have hone : (1 : BitVec 32) ≤ blkper geo := by
    rw [BitVec.le_def, toNat_blkper]
    exact hpos
  rw [mask, BitVec.toNat_sub_of_le hone, toNat_blkper]
  rfl

theorem toNat_and_mask (x : OffT) : (x &&& mask geo).toNat = x.toNat % geo.blkper := by
  obtain ⟨k, hk⟩ := geo.blkper_pow
  rw [Align.toNat_and_mask (k := k) (by rw [toNat_mask, hk]), hk]

theorem toNat_and_not_mask (x : OffT) : (x &&& ~~~mask geo).toNat = x.toNat / geo.blkper * geo.blkper := by
  obtain ⟨k, hk⟩ := geo.blkper_pow
  rw [Align.toNat_and_not_mask (k := k) (by rw [toNat_mask, hk]), hk]

theorem toNat_sdiv_blkper {x : OffT} (hx : x.toNat < 2 ^ 31) :
    (x.sdiv (blkper geo)).toNat = x.toNat / geo.blkper := by
  have hlt := geo.blkper_lt
  have hmsb : x.msb = false := by
    rw [BitVec.msb_eq_decide]
    exact decide_eq_false (by omega)
  have hmsb' : (blkper geo).msb = false := by
    rw [BitVec.msb_eq_decide, toNat_blkper]
    exact decide_eq_false (by omega)
  rw [BitVec.sdiv_eq, hmsb, hmsb', BitVec.udiv_eq, BitVec.toNat_udiv, toNat_blkper]

theorem slt_iff {x y : OffT} (hx : x.toNat < 2 ^ 31) (hy : y.toNat < 2 ^ 31) :
    x.slt y = decide (x.toNat < y.toNat) := by
  rw [BitVec.slt_eq_decide, BitVec.toInt_eq_toNat_of_lt (by omega), BitVec.toInt_eq_toNat_of_lt (by omega)]
  simp

theorem toNat_blocksize (geo : Geometry) : (BitVec.ofNat 32 geo.blocksize).toNat = geo.blocksize := by
  have hle : geo.blocksize ≤ geo.erasesize := by
    rw [geo.erasesize_eq]
    exact Nat.le_mul_of_pos_left _ (blkper_pos geo)
  rw [BitVec.toNat_ofNat, Nat.mod_eq_of_lt (hle.trans_lt geo.erasesize_lt)]

theorem toNat_mul_blocksize {x : SizeT} (hx : x.toNat ≤ geo.blkper) :
    (x * BitVec.ofNat 32 geo.blocksize).toNat = x.toNat * geo.blocksize := by
  have hle : x.toNat * geo.blocksize ≤ geo.erasesize := by
    rw [geo.erasesize_eq]
    exact Nat.mul_le_mul_right _ hx
  rw [BitVec.toNat_mul, toNat_blocksize, Nat.mod_eq_of_lt (hle.trans_lt geo.erasesize_lt)]

variable {dev : Dev}

theorem ftlAllocEblock_ok (h : Working env dev) :
    ∃ eblock, ftlAllocEblock env dev = .ok () { dev with eblock := some eblock } := by
  obtain ⟨chip, eblock⟩ := dev
  cases eblock with
  | some eblock => exact ⟨eblock, rfl⟩
  | none =>
    have hmalloc : env.malloc.isSome := h.memory.resolve_left Bool.false_ne_true
    obtain ⟨memory, hmemory⟩ := Option.isSome_iff_exists.mp hmalloc
    refine ⟨memory, ?_⟩
    unfold ftlAllocEblock
    rw [hmemory]

section

variable (hfault : ∀ request, env.fault request = none)
include hfault

theorem mtdBread_ok (rwblock : OffT) (chip : Chip UInt8)
    (eblock : Nat → UInt8) : mtdBread geo env rwblock ⟨chip, some eblock⟩ = .ok () ⟨chip, some (blit eblock 0
      (geo.blkper * geo.blocksize) (drop chip.cells (rwblock.toNat * geo.blocksize)))⟩ := by
  unfold mtdBread
  rw [hfault]
  rfl

theorem mtdErase_ok (eraseblock : OffT) (dev : Dev) :
    mtdErase geo env eraseblock dev =
      .ok () { dev with chip := dev.chip.erase env.cell geo.erasesize eraseblock.toNat } := by
  unfold mtdErase
  rw [hfault]

theorem mtdBwrite_ok (rwblock : OffT) (data : Nat → UInt8)
    (dev : Dev) : mtdBwrite geo env rwblock data dev = .ok () { dev with
      chip := dev.chip.program env.cell geo.blocksize rwblock.toNat geo.blkper data } := by
  unfold mtdBwrite
  rw [hfault]

end

section

variable (h : Working env dev) (buffer : Nat → UInt8)
include h

variable (geo) in
theorem modifyEblock_ok (rwblock : OffT) (offset nbytes : SizeT) (hrw : rwblock.toNat < 2 ^ 31) (haligned : geo.blkper ∣ rwblock.toNat)
    (hin : offset.toNat + nbytes.toNat ≤ geo.erasesize) :
    ∃ dev', modifyEblock geo env rwblock offset nbytes buffer dev = .ok () dev' ∧ Working env dev' ∧
      Rewritten geo.blkper dev.chip dev'.chip (rwblock.toNat * geo.blocksize + offset.toNat) nbytes.toNat
        buffer := by
  obtain ⟨eraseblock, heraseblock⟩ := haligned
  have hblock : rwblock.toNat = eraseblock * geo.blkper := by rw [heraseblock, Nat.mul_comm]
  have hdiv : (rwblock.sdiv (blkper geo)).toNat = eraseblock := by
    rw [toNat_sdiv_blkper hrw, hblock, Nat.mul_div_cancel _ (blkper_pos geo)]
  obtain ⟨eblock, halloc⟩ := ftlAllocEblock_ok h
  unfold modifyEblock
  rw [Result.bind_of_ok halloc, Result.bind_of_ok (mtdBread_ok h.fault _ _ _),
    Result.bind_of_ok (mtdErase_ok h.fault _ _),
    Result.bind_of_ok (rfl : memcpyEblock offset nbytes buffer ⟨_, some _⟩ = _)]
  refine ⟨_, mtdBwrite_ok h.fault _ _ _, ⟨h.fault, .inl rfl⟩, ?_⟩
  rw [hdiv, hblock, geo.erasesize_eq, Nat.mul_assoc]
  apply Rewritten.through
  rw [← geo.erasesize_eq]
  exact hin

theorem modifyEblock_start {startblock : OffT}
    (hstart : startblock.toNat < 2 ^ 31) {nbytes : SizeT} {count : Nat}
    (hnbytes : nbytes.toNat = count * geo.blocksize)
    (hcount : startblock.toNat % geo.blkper + count ≤ geo.blkper) :
    ∃ dev', modifyEblock geo env (startblock &&& ~~~mask geo)
        ((startblock &&& mask geo) * BitVec.ofNat 32 geo.blocksize) nbytes buffer dev = .ok () dev' ∧
      Working env dev' ∧ Rewritten geo.blkper dev.chip dev'.chip (startblock.toNat * geo.blocksize)
        (count * geo.blocksize) buffer := by
  have hdiv := Nat.div_add_mod' startblock.toNat geo.blkper
  have hoffset : ((startblock &&& mask geo) * BitVec.ofNat 32 geo.blocksize).toNat =
      startblock.toNat % geo.blkper * geo.blocksize := by
    rw [toNat_mul_blocksize (by rw [toNat_and_mask]; omega), toNat_and_mask]
  have hrw : (startblock &&& ~~~mask geo).toNat = startblock.toNat / geo.blkper * geo.blkper :=
    toNat_and_not_mask startblock
  have hin : ((startblock &&& mask geo) * BitVec.ofNat 32 geo.blocksize).toNat + nbytes.toNat ≤
      geo.erasesize := by
    rw [hoffset, hnbytes, ← Nat.add_mul, geo.erasesize_eq]
    exact Nat.mul_le_mul_right _ hcount
  have hdvd : geo.blkper ∣ (startblock &&& ~~~mask geo).toNat := by
    rw [hrw]
    exact Nat.dvd_mul_left _ _
  obtain ⟨dev', hdev, hworking, hwritten⟩ := modifyEblock_ok geo h buffer _ _ nbytes (by omega) hdvd hin
  rw [hrw, hoffset, ← Nat.add_mul, hdiv, hnbytes] at hwritten
  exact ⟨dev', hdev, hworking, hwritten⟩

/-- What the head of a run does: `nblocks - remaining` blocks are written, up to the aligned block if
any are left. -/
structure Head (geo : Geometry) (env : Env) (dev dev' : Dev) (startblock alignedblock : OffT)
    (nblocks remaining : SizeT) (buffer : Nat → UInt8) : Prop where
  working : Working env dev'
  le : remaining.toNat ≤ nblocks.toNat
  meets : 0 < remaining.toNat → startblock.toNat + (nblocks.toNat - remaining.toNat) = alignedblock.toNat
  written : Rewritten geo.blkper dev.chip dev'.chip (startblock.toNat * geo.blocksize)
    ((nblocks.toNat - remaining.toNat) * geo.blocksize) buffer

theorem flushHead_ok {startblock alignedblock : OffT} (nblocks : SizeT)
    (hstart : startblock.toNat < 2 ^ 31) (haligned : alignedblock.toNat < 2 ^ 31)
    (hround : alignedblock.toNat = (startblock.toNat + (geo.blkper - 1)) / geo.blkper * geo.blkper) :
    ∃ remaining dev', flushHead geo env startblock alignedblock nblocks buffer dev =
        .ok (remaining, (nblocks.toNat - remaining.toNat) * geo.blocksize) dev' ∧
      Head geo env dev dev' startblock alignedblock nblocks remaining buffer := by
  have hpos := blkper_pos geo
  have hdiv := Nat.div_add_mod' startblock.toNat geo.blkper
  have hmod := Nat.mod_lt startblock.toNat hpos
  have hcond := slt_iff hstart haligned
  rw [Align.roundUp_eq hpos] at hround
  unfold flushHead
  by_cases hunaligned : startblock.toNat % geo.blkper = 0
  · -- the run starts with an erase block
    rw [if_pos hunaligned] at hround
    have hfalse : startblock.slt alignedblock = false := by
      rw [hcond, hround]
      exact decide_eq_false (lt_irrefl _)
    rw [if_neg (by rw [hfalse]; exact Bool.false_ne_true)]
    refine ⟨nblocks, dev, ?_, h, le_rfl, fun _ => by omega, ?_⟩
    · rw [Nat.sub_self, Nat.zero_mul]
      rfl
    · rw [Nat.sub_self, Nat.zero_mul]
      exact Rewritten.refl ..
  rw [if_neg hunaligned] at hround
  have htrue : startblock.slt alignedblock = true := by
    rw [hcond]
    exact decide_eq_true (by omega)
  have hgap : (alignedblock - startblock).toNat = geo.blkper - startblock.toNat % geo.blkper := by
    rw [BitVec.toNat_sub_of_le (by rw [BitVec.le_def]; omega)]
    omega
  have hshort : nblocks.ult (alignedblock - startblock) =
      decide (nblocks.toNat < geo.blkper - startblock.toNat % geo.blkper) := by
    rw [← hgap]
    rfl
  rw [if_pos htrue, hshort]
  by_cases hlt : nblocks.toNat < geo.blkper - startblock.toNat % geo.blkper
  · -- the run ends before the aligned block
    have hnbytes : (nblocks * BitVec.ofNat 32 geo.blocksize).toNat = nblocks.toNat * geo.blocksize :=
      toNat_mul_blocksize (by omega)
    obtain ⟨dev', hdev, hworking, hwritten⟩ := modifyEblock_start h buffer hstart hnbytes (by omega)
    rw [decide_eq_true hlt, if_pos rfl, if_pos rfl, Result.bind_of_ok hdev, hnbytes]
    exact ⟨0, dev', rfl, hworking, Nat.zero_le _, fun hzero => absurd hzero (Nat.lt_irrefl 0), hwritten⟩
  have hblkper := toNat_blkper geo
  have hmask : (startblock &&& mask geo).toNat = startblock.toNat % geo.blkper :=
    toNat_and_mask startblock
  have hleft : (blkper geo - (startblock &&& mask geo)).toNat =
      geo.blkper - startblock.toNat % geo.blkper := by
    rw [BitVec.toNat_sub_of_le (by rw [BitVec.le_def]; omega), hblkper, hmask]
  have hremaining : (nblocks - (blkper geo - (startblock &&& mask geo))).toNat =
      nblocks.toNat - (geo.blkper - startblock.toNat % geo.blkper) := by
    rw [BitVec.toNat_sub_of_le (by rw [BitVec.le_def]; omega), hleft]
  have hnbytes : (BitVec.ofNat 32 geo.erasesize -
      (startblock &&& mask geo) * BitVec.ofNat 32 geo.blocksize).toNat =
        (geo.blkper - startblock.toNat % geo.blkper) * geo.blocksize := by
    have herasesize : (BitVec.ofNat 32 geo.erasesize).toNat = geo.blkper * geo.blocksize := by
      rw [BitVec.toNat_ofNat, Nat.mod_eq_of_lt geo.erasesize_lt, geo.erasesize_eq]
    have hoffset : ((startblock &&& mask geo) * BitVec.ofNat 32 geo.blocksize).toNat =
        startblock.toNat % geo.blkper * geo.blocksize := by
      rw [toNat_mul_blocksize (by omega), hmask]
    have hle : startblock.toNat % geo.blkper * geo.blocksize ≤ geo.blkper * geo.blocksize :=
      Nat.mul_le_mul_right _ hmod.le
    rw [BitVec.toNat_sub_of_le (by rw [BitVec.le_def]; omega), herasesize, hoffset, ← Nat.sub_mul]
  obtain ⟨dev', hdev, hworking, hwritten⟩ := modifyEblock_start h buffer hstart hnbytes (by omega)
  rw [decide_eq_false hlt, if_neg Bool.false_ne_true, if_neg Bool.false_ne_true,
    Result.bind_of_ok hdev, hnbytes]
  have hcount : nblocks.toNat - (nblocks.toNat - (geo.blkper - startblock.toNat % geo.blkper)) =
      geo.blkper - startblock.toNat % geo.blkper := by omega
  refine ⟨nblocks - (blkper geo - (startblock &&& mask geo)), dev', ?_, hworking, ?_, ?_, ?_⟩
  · rw [hremaining, hcount]
    rfl
  · rw [hremaining]
    omega
  · rw [hremaining]
    omega
  · rw [hremaining, hcount]
    exact hwritten

/-- What the erase blocks in the middle of a run are: `remaining - remaining'` blocks, from one aligned
block to another. -/
structure Whole (geo : Geometry) (env : Env) (dev dev' : Dev) (alignedblock alignedblock' : OffT)
    (remaining remaining' : SizeT) (buffer : Nat → UInt8) : Prop where
  working : Working env dev'
  dvd : geo.blkper ∣ alignedblock'.toNat
  lt : remaining'.toNat < geo.blkper
  le : remaining'.toNat ≤ remaining.toNat
  meets : alignedblock'.toNat = alignedblock.toNat + (remaining.toNat - remaining'.toNat)
  written : Rewritten geo.blkper dev.chip dev'.chip (alignedblock.toNat * geo.blocksize)
    ((remaining.toNat - remaining'.toNat) * geo.blocksize) buffer

theorem flushWhole_ok (alignedblock : OffT) (remaining : SizeT)
    (pos : Nat) (hdvd : geo.blkper ∣ alignedblock.toNat)
    (hend : alignedblock.toNat + remaining.toNat < 2 ^ 31) :
    ∃ alignedblock' remaining' dev', flushWhole geo env alignedblock remaining buffer pos dev =
        .ok (alignedblock', remaining', pos + (remaining.toNat - remaining'.toNat) * geo.blocksize) dev' ∧
      Whole geo env dev dev' alignedblock alignedblock' remaining remaining' (drop buffer pos) := by
  have hblkper := toNat_blkper geo
  have hpos := blkper_pos geo
  induction hsize : remaining.toNat using Nat.strongRecOn generalizing dev alignedblock remaining pos with
  | _ size ih =>
    subst hsize
    rw [flushWhole]
    by_cases hwhole : blkper geo ≤ remaining
    · have hle : geo.blkper ≤ remaining.toNat := by
        rw [← hblkper]
        exact hwhole
      have hless : (remaining - blkper geo).toNat = remaining.toNat - geo.blkper := by
        rw [BitVec.toNat_sub_of_le hwhole, hblkper]
      have hnext : (alignedblock + blkper geo).toNat = alignedblock.toNat + geo.blkper := by
        rw [BitVec.toNat_add_of_lt (by omega), hblkper]
      obtain ⟨eraseblock, heraseblock⟩ := hdvd
      have hblock : alignedblock.toNat = eraseblock * geo.blkper := by rw [heraseblock, Nat.mul_comm]
      have hdiv : (alignedblock.sdiv (blkper geo)).toNat = eraseblock := by
        rw [toNat_sdiv_blkper (by omega), hblock, Nat.mul_div_cancel _ hpos]
      have hfirst : Rewritten geo.blkper dev.chip
          ((dev.chip.erase env.cell geo.erasesize (alignedblock.sdiv (blkper geo)).toNat).program env.cell
            geo.blocksize alignedblock.toNat geo.blkper (drop buffer pos))
          (alignedblock.toNat * geo.blocksize) geo.erasesize (drop buffer pos) := by
        rw [hdiv, hblock, geo.erasesize_eq, Nat.mul_assoc]
        exact Rewritten.whole
      rw [if_pos hwhole, Result.bind_of_ok (mtdErase_ok h.fault _ _),
        Result.bind_of_ok (mtdBwrite_ok h.fault _ _ _)]
      have hdvd' : geo.blkper ∣ (alignedblock + blkper geo).toNat := by
        rw [hnext, heraseblock, ← Nat.mul_succ]
        exact Nat.dvd_mul_right _ _
      have hworking : Working env ⟨(dev.chip.erase env.cell geo.erasesize
          (alignedblock.sdiv (blkper geo)).toNat).program env.cell geo.blocksize alignedblock.toNat
            geo.blkper (drop buffer pos), dev.eblock⟩ := ⟨h.fault, h.memory⟩
      obtain ⟨alignedblock', remaining', dev', hdev, hrest⟩ := ih _ (by omega) hworking
        (alignedblock + blkper geo) (remaining - blkper geo) (pos + geo.erasesize) hdvd' (by omega) rfl
      have hcount : remaining.toNat - remaining'.toNat =
          geo.blkper + ((remaining - blkper geo).toNat - remaining'.toNat) := by
        have hle' := hrest.le
        omega
      refine ⟨alignedblock', remaining', dev', ?_, hrest.working, hrest.dvd, hrest.lt, ?_, ?_, ?_⟩
      · rw [hdev, hcount, Nat.add_mul, ← geo.erasesize_eq, Nat.add_assoc]
      · have hle' := hrest.le
        omega
      · rw [hrest.meets, hnext, hcount, Nat.add_assoc]
      have hwritten := hrest.written
      rw [hnext, Nat.add_mul, ← geo.erasesize_eq, ← drop_drop] at hwritten
      rw [hcount, Nat.add_mul, ← geo.erasesize_eq]
      exact hfirst.trans hwritten
    · refine ⟨alignedblock, remaining, dev, ?_, h, hdvd, ?_, le_rfl, ?_, ?_⟩
      · rw [if_neg hwhole, Nat.sub_self, Nat.zero_mul]
        rfl
      · rw [← hblkper]
        exact Nat.lt_of_not_le hwhole
      · rw [Nat.sub_self, Nat.add_zero]
      · rw [Nat.sub_self, Nat.zero_mul]
        exact Rewritten.refl ..

theorem flushTail_ok {alignedblock : OffT} {remaining : SizeT}
    (hdvd : geo.blkper ∣ alignedblock.toNat) (haligned : alignedblock.toNat < 2 ^ 31)
    (hlt : remaining.toNat < geo.blkper) :
    ∃ dev', modifyEblock geo env alignedblock 0 (remaining * BitVec.ofNat 32 geo.blocksize) buffer dev =
        .ok () dev' ∧ Rewritten geo.blkper dev.chip dev'.chip (alignedblock.toNat * geo.blocksize)
          (remaining.toNat * geo.blocksize) buffer := by
  have hnbytes : (remaining * BitVec.ofNat 32 geo.blocksize).toNat = remaining.toNat * geo.blocksize :=
    toNat_mul_blocksize hlt.le
  have hin : (0 : SizeT).toNat + (remaining * BitVec.ofNat 32 geo.blocksize).toNat ≤ geo.erasesize := by
    rw [hnbytes, geo.erasesize_eq]
    exact (Nat.zero_add _).trans_le (Nat.mul_le_mul_right _ hlt.le)
  obtain ⟨dev', hdev, -, hwritten⟩ := modifyEblock_ok geo h buffer alignedblock 0 _ haligned hdvd hin
  rw [hnbytes] at hwritten
  exact ⟨dev', hdev, hwritten⟩

theorem ftlFlush_ok (startblock : OffT)
    (nblocks : SizeT) (hwithin : startblock.toNat + nblocks.toNat ≤ geo.neraseblocks * geo.blkper) :
    ∃ dev', ftlFlush geo env buffer startblock nblocks dev = .ok nblocks dev' ∧
      Rewritten geo.blkper dev.chip dev'.chip (startblock.toNat * geo.blocksize)
        (nblocks.toNat * geo.blocksize) buffer := by
  have hpos := blkper_pos geo
  have hblocks := geo.blocks_lt
  have hblkper := geo.blkper_lt
  -- the first aligned block is not behind the end of the device
  have hsum : (startblock + mask geo).toNat = startblock.toNat + (geo.blkper - 1) := by
    rw [BitVec.toNat_add_of_lt (by rw [toNat_mask]; omega), toNat_mask]
  have hround : ((startblock + mask geo) &&& ~~~mask geo).toNat =
      (startblock.toNat + (geo.blkper - 1)) / geo.blkper * geo.blkper := by
    rw [toNat_and_not_mask, hsum]
  have hend : ((startblock + mask geo) &&& ~~~mask geo).toNat ≤ geo.neraseblocks * geo.blkper := by
    rw [hround]
    refine Nat.mul_le_mul_right _ (Nat.le_of_lt_succ ((Nat.div_lt_iff_lt_mul hpos).mpr ?_))
    rw [Nat.succ_mul]
    omega
  have hdvd : geo.blkper ∣ ((startblock + mask geo) &&& ~~~mask geo).toNat := by
    rw [hround]
    exact Nat.dvd_mul_left _ _
  obtain ⟨remaining, dev1, hdev1, hhead⟩ :=
    flushHead_ok h buffer nblocks (by omega) (by omega) hround
  have hmeets := hhead.meets
  have hle := hhead.le
  obtain ⟨alignedblock', remaining', dev2, hdev2, hwhole⟩ := flushWhole_ok hhead.working buffer _ remaining
    ((nblocks.toNat - remaining.toNat) * geo.blocksize) hdvd (by omega)
  have hmeets' := hwhole.meets
  have hle' := hwhole.le
  -- the head and the whole erase blocks
  have hfront : Rewritten geo.blkper dev.chip dev2.chip (startblock.toNat * geo.blocksize)
      ((nblocks.toNat - remaining'.toNat) * geo.blocksize) buffer := by
    have hcount : nblocks.toNat - remaining'.toNat =
        (nblocks.toNat - remaining.toNat) + (remaining.toNat - remaining'.toNat) := by omega
    rw [hcount, Nat.add_mul]
    refine hhead.written.trans ?_
    by_cases hzero : remaining.toNat = 0
    · have hempty := hwhole.written
      rw [hzero, Nat.zero_sub, Nat.zero_mul] at hempty ⊢
      exact hempty.move _ _
    · rw [← Nat.add_mul, hmeets (by omega)]
      exact hwhole.written
  unfold ftlFlush
  rw [Result.bind_of_ok hdev1]
  dsimp only
  rw [Result.bind_of_ok hdev2]
  by_cases hsome : 0 < remaining'
  · have hpositive : 0 < remaining'.toNat := hsome
    obtain ⟨dev3, hdev3, htail⟩ := flushTail_ok hwhole.working (drop buffer
      ((nblocks.toNat - remaining.toNat) * geo.blocksize + (remaining.toNat - remaining'.toNat) * geo.blocksize))
      hwhole.dvd (by omega) hwhole.lt
    have hwhere : alignedblock'.toNat = startblock.toNat + (nblocks.toNat - remaining'.toNat) := by omega
    have hcount : (nblocks.toNat - remaining.toNat) + (remaining.toNat - remaining'.toNat) =
        nblocks.toNat - remaining'.toNat := by omega
    rw [if_pos hsome, Result.bind_of_ok hdev3]
    refine ⟨dev3, rfl, ?_⟩
    have hall : nblocks.toNat = (nblocks.toNat - remaining'.toNat) + remaining'.toNat := by omega
    rw [hwhere, ← Nat.add_mul, hcount, Nat.add_mul startblock.toNat] at htail
    rw [hall, Nat.add_mul]
    exact hfront.trans htail
  · have hzero : remaining'.toNat = 0 := Nat.eq_zero_of_not_pos hsome
    rw [hzero, Nat.sub_zero] at hfront
    rw [if_neg hsome]
    exact ⟨dev2, rfl, hfront⟩

end

/-- **A run of blocks is written.** For every geometry, with requests that succeed and memory for one
erase block, the blocks of the run hold the buffer, every other block is as it was, the number of
blocks is returned, and every block that is programmed lies in an erase block that was erased in this
call and has not been programmed since. -/
theorem ftl_flush_writes (geo : Geometry) (env : Env) (dev : Dev) (h : Working env dev)
    (buffer : Nat → UInt8) (startblock : OffT) (nblocks : SizeT)
    (hwithin : startblock.toNat + nblocks.toNat ≤ geo.neraseblocks * geo.blkper) :
    ∃ dev' ops, ftlFlush geo env buffer startblock nblocks dev = .ok nblocks dev' ∧
      (∀ i, i < nblocks.toNat * geo.blocksize →
        dev'.chip.cells (startblock.toNat * geo.blocksize + i) = buffer i) ∧
      (∀ i, i < startblock.toNat * geo.blocksize ∨ (startblock.toNat + nblocks.toNat) * geo.blocksize ≤ i →
        dev'.chip.cells i = dev.chip.cells i) ∧
      dev'.chip.log = ops ++ dev.chip.log ∧ Disciplined geo.blkper ops := by
  obtain ⟨dev', hdev, hwritten⟩ := ftlFlush_ok h buffer startblock nblocks hwithin
  obtain ⟨ops, hlog, hdisciplined⟩ := hwritten.log
  refine ⟨dev', ops, hdev, ?_, ?_, hlog, hdisciplined⟩
  · intro i hi
    rw [hwritten.cells, blit_of_mem (by omega) (by omega), Nat.add_sub_cancel_left]
  · rintro i (hi | hi)
    · rw [hwritten.cells, blit_of_lt hi]
    · rw [hwritten.cells, blit_of_ge (by rwa [← Nat.add_mul])]

theorem ftl_flush_writes_across : ∃ dev' ops,
    ftlFlush ⟨1, 4, 2, 4, rfl, ⟨2, rfl⟩, by decide, by decide, by decide⟩
      ⟨⟨0xff, fun _ new => new, fun _ => rfl⟩, fun _ => none, some fun _ => 0⟩
      (fun i => UInt8.ofNat (i + 1)) 3#32 2#32 ⟨⟨fun _ => 0, []⟩, none⟩ = .ok 2#32 dev' ∧
    (∀ i, i < 2 → dev'.chip.cells (3 + i) = UInt8.ofNat (i + 1)) ∧
    (∀ i, i < 3 ∨ 5 ≤ i → dev'.chip.cells i = 0) ∧
    dev'.chip.log = ops ++ [] ∧ Disciplined 4 ops :=
  ftl_flush_writes ⟨1, 4, 2, 4, rfl, ⟨2, rfl⟩, by decide, by decide, by decide⟩
    ⟨⟨0xff, fun _ new => new, fun _ => rfl⟩, fun _ => none, some fun _ => 0⟩ ⟨⟨fun _ => 0, []⟩, none⟩
    ⟨fun _ => rfl, .inr rfl⟩ (fun i => UInt8.ofNat (i + 1)) 3#32 2#32 (by decide)

end Nuttx.Mtd.Ftl

import Nuttx.Library.Align
import Nuttx.Library.Flash
import Nuttx.Library.Runs

/-!
# The flash translation layer

`drivers/mtd/ftl.c` makes a block device out of a memory technology device, whose blocks can be
programmed only after the erase block they lie in has been erased. `ftl_flush` writes a run of blocks:
the erase blocks that the run covers in part are written through a copy in memory.
-/

namespace Nuttx.Mtd

open Stretch

/-- `off_t`. -/
abbrev OffT := BitVec 32

/-- `size_t`, `uint32_t` and, in two's complement, `int`. -/
abbrev SizeT := BitVec 32

inductive Errno
  | eio
  | ENOMEM
  | other (code : Nat)
  deriving DecidableEq, Repr

/-- `struct mtd_geometry_s` of a device on which an erase block has a power of two of blocks, and
`blkper` of `struct ftl_struct_s`. The bounds are those of the types: `erasesize` is a `uint32_t`,
`blkper` a `uint16_t` and every block number up to the end of the device an `off_t`. -/
structure Geometry where
  blocksize : Nat
  erasesize : Nat
  neraseblocks : Nat
  blkper : Nat
  erasesize_eq : erasesize = blkper * blocksize
  blkper_pow : ∃ k, blkper = 2 ^ k
  erasesize_lt : erasesize < 2 ^ 32
  blkper_lt : blkper < 2 ^ 16
  blocks_lt : neraseblocks * blkper < 2 ^ 31

inductive Request
  | bread (startblock : OffT) (nblocks : SizeT)
  | bwrite (startblock : OffT) (nblocks : SizeT)
  | erase (startblock : OffT) (nblocks : SizeT)
  deriving DecidableEq, Repr

/-- What `ftl_flush` does not decide: how the cells of the device behave, which requests the device
fails, and whether there is memory for an erase block. -/
structure Env where
  cell : Flash.Cell UInt8
  fault : Request → Option Errno
  malloc : Option (Nat → UInt8)

structure Dev where
  chip : Flash.Chip UInt8
  eblock : Option (Nat → UInt8)

abbrev FtlM := EStateM Errno Dev

namespace Ftl

variable (geo : Geometry) (env : Env)

def blkper : SizeT := BitVec.ofNat 32 geo.blkper

def mask : OffT := blkper geo - 1

def ftlAllocEblock : FtlM Unit := fun dev =>
  match dev.eblock, env.malloc with
  | some _, _ => .ok () dev
  | none, some memory => .ok () { dev with eblock := some memory }
  | none, none => .error .ENOMEM dev

variable (rwblock : OffT)

/-- `MTD_BREAD` of `blkper` blocks into the erase block in memory, and the check that it read them
all. -/
def mtdBread : FtlM Unit := fun dev =>
  match env.fault (.bread rwblock (blkper geo)) with
  | some _ => .error .eio dev
  | none =>
    let read := drop dev.chip.cells (rwblock.toNat * geo.blocksize)
    .ok () { dev with eblock := dev.eblock.map fun eblock => blit eblock 0 (geo.blkper * geo.blocksize) read }

def mtdErase (eraseblock : OffT) : FtlM Unit := fun dev =>
  match env.fault (.erase eraseblock 1) with
  | some errno => .error errno dev
  | none => .ok () { dev with chip := dev.chip.erase env.cell geo.erasesize eraseblock.toNat }

def memcpyEblock (offset nbytes : SizeT) (buffer : Nat → UInt8) : FtlM Unit := fun dev =>
  .ok () { dev with eblock := dev.eblock.map fun eblock => blit eblock offset.toNat nbytes.toNat buffer }

def mtdBwrite (data : Nat → UInt8) : FtlM Unit := fun dev =>
  match env.fault (.bwrite rwblock (blkper geo)) with
  | some _ => .error .eio dev
  | none =>
    .ok () { dev with chip := dev.chip.program env.cell geo.blocksize rwblock.toNat geo.blkper data }

def mtdBwriteEblock : FtlM Unit := fun dev =>
  match dev.eblock with
  | some eblock => mtdBwrite geo env rwblock eblock dev
  | none => .error .eio dev

def modifyEblock (offset nbytes : SizeT) (buffer : Nat → UInt8) : FtlM Unit := do
  ftlAllocEblock env
  mtdBread geo env rwblock
  mtdErase geo env (rwblock.sdiv (blkper geo))
  memcpyEblock offset nbytes buffer
  mtdBwriteEblock geo env rwblock

/-- The part of the run before the first aligned block. What is left of the run is returned, and the
number of bytes taken from the buffer. -/
def flushHead (startblock alignedblock : OffT) (nblocks : SizeT) (buffer : Nat → UInt8) :
    FtlM (SizeT × Nat) := do
  if startblock.slt alignedblock then
    let shortWrite := nblocks.ult (alignedblock - startblock)
    let offset := (startblock &&& mask geo) * BitVec.ofNat 32 geo.blocksize
    let nbytes := if shortWrite then nblocks * BitVec.ofNat 32 geo.blocksize
      else BitVec.ofNat 32 geo.erasesize - offset
    modifyEblock geo env (startblock &&& ~~~mask geo) offset nbytes buffer
    let remaining := if shortWrite then 0 else nblocks - (blkper geo - (startblock &&& mask geo))
    return (remaining, nbytes.toNat)
  else
    return (nblocks, 0)

theorem blkper_pos : 0 < geo.blkper := by
  obtain ⟨k, hk⟩ := geo.blkper_pow
  rw [hk]
  exact Nat.two_pow_pos k

theorem toNat_blkper : (blkper geo).toNat = geo.blkper := by
  have hlt := geo.blkper_lt
  rw [blkper, BitVec.toNat_ofNat, Nat.mod_eq_of_lt (by omega)]

def flushWhole (alignedblock : OffT) (remaining : SizeT) (buffer : Nat → UInt8) (pos : Nat) :
    FtlM (OffT × SizeT × Nat) :=
  if blkper geo ≤ remaining then do
    mtdErase geo env (alignedblock.sdiv (blkper geo))
    mtdBwrite geo env alignedblock (drop buffer pos)
    flushWhole (alignedblock + blkper geo) (remaining - blkper geo) buffer (pos + geo.erasesize)
  else
    return (alignedblock, remaining, pos)
termination_by remaining.toNat
decreasing_by
  have hpos := blkper_pos geo
  have hblkper := toNat_blkper geo
  have hle : (blkper geo).toNat ≤ remaining.toNat := by assumption
  rw [BitVec.toNat_sub_of_le (by assumption)]
  omega

def ftlFlush (buffer : Nat → UInt8) (startblock : OffT) (nblocks : SizeT) : FtlM SizeT := do
  let alignedblock := (startblock + mask geo) &&& ~~~mask geo
  let (remaining, pos) ← flushHead geo env startblock alignedblock nblocks buffer
  let (alignedblock, remaining, pos) ← flushWhole geo env alignedblock remaining buffer pos
  if 0 < remaining then
    modifyEblock geo env alignedblock 0 (remaining * BitVec.ofNat 32 geo.blocksize) (drop buffer pos)
  return nblocks

end Ftl

end Nuttx.Mtd

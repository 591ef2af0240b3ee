import Nuttx.Library.ByteMemory
import Mathlib.Data.Nat.Log

/-!
# The chunk layout

The definitions of `include/nuttx/mm/mm.h`. The allocator is compiled for one of several layouts,
which differ in the width of `mmsize_t`, in the width of a pointer and in the granule; everything
else derives from these.
-/

namespace Nuttx.Mm

open ByteMemory

structure HeapConfig where
  /-- `sizeof(mmsize_t)`. -/
  mmBytes : Nat
  /-- `MM_PTR_SIZE`, which is also `sizeof(size_t)`. -/
  ptrBytes : Nat
  /-- `MM_MIN_SHIFT`. -/
  mmMinShift : Nat
  /-- `MM_MAX_SHIFT`. -/
  mmMaxShift : Nat
  /-- `CONFIG_DEBUG_ASSERTIONS`. -/
  debugAssertions : Bool
  /-- `CONFIG_MM_FILL_ALLOCATIONS`. -/
  fillAllocations : Bool
  two_le_mmBytes : 2 ≤ mmBytes
  mmBytes_le_ptrBytes : mmBytes ≤ ptrBytes
  freenode_le_minChunk : 2 * mmBytes + 2 * ptrBytes ≤ 2 ^ mmMinShift
  allocnode_dvd_minChunk : 4 * mmBytes ∣ 2 ^ mmMinShift
  minShift_lt_maxShift : mmMinShift < mmMaxShift
  maxShift_lt : mmMaxShift < 8 * mmBytes

namespace HeapConfig

def bits32 (debug fill : Bool) : HeapConfig :=
  ⟨4, 4, 4, 22, debug, fill, by decide, by decide, by decide, by decide, by decide, by decide⟩

def bits64 (debug fill : Bool) : HeapConfig :=
  ⟨4, 8, 5, 22, debug, fill, by decide, by decide, by decide, by decide, by decide, by decide⟩

def small32 (debug fill : Bool) : HeapConfig :=
  ⟨2, 4, 4, 15, debug, fill, by decide, by decide, by decide, by decide, by decide, by decide⟩

variable (c : HeapConfig)

def sizeofMmAllocnode : Nat := 2 * c.mmBytes

def sizeofMmFreenode : Nat := c.sizeofMmAllocnode + 2 * c.ptrBytes

def mmMinChunk : Nat := 2 ^ c.mmMinShift

def mmMaxChunk : Nat := 2 ^ c.mmMaxShift

def mmNnodes : Nat := c.mmMaxShift - c.mmMinShift + 1

def mmGranMask : Nat := c.mmMinChunk - 1

def mmAllocBit : Nat := 2 ^ (8 * c.mmBytes - 1)

def sizeMod : Nat := 256 ^ c.ptrBytes

def add (a b : Nat) : Nat := (a + b) % c.sizeMod

def sub (a b : Nat) : Nat := (a + c.sizeMod - b) % c.sizeMod

def compl (a : Nat) : Nat := c.sizeMod - 1 - a

def mmAlignUp (a : Nat) : Nat := c.add a c.mmGranMask &&& c.compl c.mmGranMask

def mmAlignDown (a : Nat) : Nat := a &&& c.compl c.mmGranMask

def clearAllocBit (preceding : Nat) : Nat := preceding &&& (256 ^ c.mmBytes - 1 - c.mmAllocBit)

def size2ndxLoop : Nat → Nat → Nat → Nat
  | 0, ndx, _ => ndx
  | bits + 1, ndx, size => if size > 1 then size2ndxLoop bits (ndx + 1) (size >>> 1) else ndx

def mmSize2ndx (size : Nat) : Nat :=
  if size ≥ c.mmMaxChunk then c.mmNnodes - 1
  else size2ndxLoop c.mmMaxShift 0 (size >>> c.mmMinShift)

end HeapConfig

end Nuttx.Mm

import Nuttx.Mm.Heap.Model
import Nuttx.Library.Runs
import Mathlib.Tactic.MkIffOfInductiveProp

/-!
# Callers of the heap

A heap together with the allocations its callers hold, and the calls they make one after another.
What callers promise is stated on the state before a call: they pass addresses they hold, and sizes
that can be rounded up without overflow.
-/

namespace Nuttx.Mm

open ByteMemory

structure InitOk (c : HeapConfig) (nodelist heapstart heapsize : Nat) : Prop where
  start_pos : 0 < heapstart
  start_lt : heapstart + c.mmGranMask < c.sizeMod
  end_lt : heapstart + heapsize < c.sizeMod
  room : c.mmAlignUp heapstart + (2 * c.sizeofMmAllocnode + c.sizeofMmFreenode)
    ≤ c.mmAlignDown (heapstart + heapsize)
  size_lt : c.mmAlignDown (heapstart + heapsize) < c.mmAlignUp heapstart + c.mmAllocBit
  small : c.mmBytes = 2 → heapsize ≤ 256 ^ c.mmBytes
  nodelist_pos : 0 < nodelist
  nodelist_le : hookAddr c nodelist c.mmNnodes ≤ c.sizeMod
  apart : hookAddr c nodelist c.mmNnodes ≤ heapstart ∨ heapstart + heapsize ≤ nodelist

@[mk_iff]
structure ExtendOk (c : HeapConfig) (h : Heap) (mem size : Nat) : Prop where
  adjoins : mem = h.mmHeapend + c.sizeofMmAllocnode
  mem_dvd : c.mmMinChunk ∣ mem
  size_dvd : c.mmMinChunk ∣ size
  size_pos : 0 < size
  end_lt : mem + size < c.sizeMod
  size_lt : mem + size < h.mmHeapstart + c.mmAllocBit
  apart : hookAddr c h.mmNodelist c.mmNnodes ≤ h.mmHeapstart ∨ mem + size ≤ h.mmNodelist

instance (c : HeapConfig) (h : Heap) (mem size : Nat) : Decidable (ExtendOk c h mem size) :=
  decidable_of_iff _ (extendOk_iff c h mem size).symm

def SizeOk (c : HeapConfig) (size : Nat) : Prop :=
  size + c.sizeofMmAllocnode + c.mmGranMask < c.sizeMod

instance (c : HeapConfig) (size : Nat) : Decidable (SizeOk c size) := inferInstanceAs (Decidable (_ < _))

def AlignOk (c : HeapConfig) (alignment size : Nat) : Prop :=
  if alignment ≤ c.mmMinChunk then SizeOk c size
  else size + c.mmGranMask < c.sizeMod ∧ SizeOk c (c.mmAlignUp size + (alignment + alignment))

instance (c : HeapConfig) (alignment size : Nat) : Decidable (AlignOk c alignment size) := by
  unfold AlignOk
  infer_instance

/-- The `needed` bytes come from the smaller of the free neighbours, or from both if it is too small.
What they leave of the one or the two is nothing, or has room for a free node. -/
def NoSliver (c : HeapConfig) (prevsize nextsize needed : Nat) : Prop :=
  let smaller := if prevsize = 0 then nextsize else if nextsize = 0 then prevsize else min prevsize nextsize
  let room := if needed ≤ smaller then smaller else prevsize + nextsize
  needed = room ∨ needed + c.sizeofMmFreenode ≤ room

instance (c : HeapConfig) (prevsize nextsize needed : Nat) :
    Decidable (NoSliver c prevsize nextsize needed) := by
  unfold NoSliver
  infer_instance

/-- Growing the allocation `oldmem` to a chunk of `newsize` bytes in place leaves no sliver of a free
neighbour. -/
def GrowOk (c : HeapConfig) (m : Mem) (oldmem newsize : Nat) : Prop :=
  let oldnode := oldmem - c.sizeofMmAllocnode
  let oldsize := nodeSize c m oldnode
  let nextsize := sizeIfFree c m (oldnode + oldsize)
  let prevsize := sizeIfFree c m (oldnode - c.clearAllocBit (nodePreceding c m oldnode))
  oldsize < newsize → newsize ≤ nextsize + prevsize + oldsize →
    NoSliver c prevsize nextsize (newsize - oldsize)

instance (c : HeapConfig) (m : Mem) (oldmem newsize : Nat) : Decidable (GrowOk c m oldmem newsize) := by
  unfold GrowOk
  infer_instance

structure Sys where
  heap : Heap
  live : List Nat

inductive Call
  | malloc (size : Nat)
  | free (mem : Nat) (ctx : CallContext)
  | realloc (oldmem size : Nat)
  | memalign (alignment size : Nat)
  | extend (mem size : Nat)
  /-- Not a call: a caller writes a byte of an allocation it holds. -/
  | write (addr : Nat) (byte : UInt8)

def CallContext.delays (ctx : CallContext) : Bool :=
  ctx.interrupt || (ctx.trysemaphore != 0 && (ctx.trysemaphore == negEsrch || ctx.idletask))

namespace Call

def requested : Call → Option Nat
  | malloc size | realloc _ size | memalign _ size => some size
  | free _ _ | extend _ _ | write _ _ => none

def grown : Call → Nat
  | extend _ size => size
  | _ => 0

def delayed : Call → Bool
  | free _ ctx => ctx.delays
  | _ => false

end Call

namespace Sys

def hold (mem : Nat) (live : List Nat) : List Nat := if mem = 0 then live else mem :: live

def release (mem : Nat) (live : List Nat) : List Nat := live.filter fun x => x != mem

variable (c : HeapConfig)

def call (st : Sys) : Call → Except Fault (Nat × Sys)
  | .malloc size => do
      let (ret, heap) ← mmMalloc c st.heap size
      return (ret, ⟨heap, hold ret st.live⟩)
  | .free mem ctx => do
      return (0, ⟨← mmFree c st.heap mem ctx, release mem st.live⟩)
  | .realloc oldmem size => do
      let (ret, heap) ← mmRealloc c st.heap oldmem size
      -- a failing `mm_realloc` leaves the old allocation to its holder
      return (ret, ⟨heap, if ret = 0 ∧ 0 < size then st.live
        else hold ret (release oldmem st.live)⟩)
  | .memalign alignment size => do
      let (ret, heap) ← mmMemalign c st.heap alignment size
      return (ret, ⟨heap, hold ret st.live⟩)
  | .extend mem size => do
      return (0, ⟨← mmExtend c st.heap mem size, st.live⟩)
  | .write addr byte =>
    .ok (0, { st with heap := { st.heap with mem := store st.heap.mem 1 addr byte.toNat } })

def Allows (st : Sys) : Call → Prop
  | .malloc size => SizeOk c size
  | .free mem _ => mem = 0 ∨ mem ∈ st.live
  | .realloc oldmem size => (oldmem = 0 ∨ oldmem ∈ st.live) ∧ SizeOk c size
  | .memalign alignment size => (∃ e, alignment = 2 ^ e) ∧ AlignOk c alignment size
  | .extend mem size => ExtendOk c st.heap mem size
  | .write addr _ => ∃ p ∈ st.live, p ≤ addr ∧ addr < p + mallocUsableSize c st.heap p

instance (st : Sys) (x : Call) : Decidable (st.Allows c x) := by
  have (alignment : Nat) : Decidable (∃ e, alignment = 2 ^ e) :=
    decidable_of_iff _ Nat.ne_zero_and_sub_one_eq_zero_iff_isPowerOfTwo
  cases x <;> unfold Allows <;> infer_instance

def Clean (st : Sys) : Call → Prop
  | .realloc oldmem size => oldmem ≠ 0 → 0 < size →
      GrowOk c st.heap.mem oldmem (c.mmAlignUp (size + c.sizeofMmAllocnode))
  | _ => True

instance (st : Sys) (x : Call) : Decidable (st.Clean c x) := by
  cases x <;> unfold Clean <;> infer_instance

def next (st : Sys) (x : Call) : Except Fault Sys := Prod.snd <$> st.call c x

def run (st : Sys) (xs : List Call) : Except Fault Sys := xs.foldlM (next c) st

abbrev Along (ok : Sys → Call → Prop) (st : Sys) (xs : List Call) : Prop := Runs.OkAlong (next c) ok st xs

variable {c} in
theorem next_eq {st st' : Sys} {x : Call} {ret : Nat} (h : st.call c x = .ok (ret, st')) :
    st.next c x = .ok st' := by
  rw [next, h]
  rfl

end Sys

end Nuttx.Mm

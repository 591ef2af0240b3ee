import Mathlib.Data.BitVec
import Nuttx.Include.Assert
import Nuttx.Library.Runs

/-!
# The granule allocator

The functions of `mm/mm_gran` on a machine with 32 bit addresses. The granule allocation table has
one bit for each granule, 32 to a word; a granule is allocated when its bit is set. `gran_alloc`
reads one word past the end of the table, and what it finds there is an argument of the model.
-/

namespace Nuttx.Mm.Gran

inductive Assertion
  | initializeParameters
  | allocSize
  | allocGranules
  | markFirst
  | markSecond
  | markSingle
  | freeSize
  | freeFirst
  | freeSecond
  | freeSingle
  deriving DecidableEq, Repr

structure Heap where
  log2gran : Nat
  ngranules : Nat
  heapstart : Nat
  gat : List (BitVec 32)
  deriving DecidableEq, Repr

def addrMod : Nat := 2 ^ 32

def sizeofGat (n : Nat) : Nat := (n + 31) >>> 5

/-- `gran_initialize`, for which `kmm_zalloc` has found memory. The number of granules is kept in
sixteen bits. -/
def granInitialize (debug : Bool) (heapstart heapsize log2gran log2align : Nat) :
    Except Assertion Heap := do
  debugAssert debug .initializeParameters
    (heapstart ≠ 0 ∧ 0 < heapsize ∧ 0 < log2gran ∧ log2gran < 32 ∧ log2align ≤ log2gran)
  let mask := 2 ^ log2align - 1
  let alignedstart := (heapstart + mask) % addrMod &&& (addrMod - 1 - mask)
  let mask := 2 ^ log2gran - 1
  let heapend := (heapstart + heapsize) % addrMod
  let alignedsize := (heapend + addrMod - alignedstart) % addrMod &&& (addrMod - 1 - mask)
  let ngranules := alignedsize >>> log2gran
  return ⟨log2gran, ngranules % 2 ^ 16, alignedstart, List.replicate (sizeofGat ngranules) 0⟩

def granulesOf (log2gran size : Nat) : Nat := ((size + (2 ^ log2gran - 1)) % addrMod) >>> log2gran

def granuleOf (h : Heap) (memory : Nat) : Nat :=
  ((memory + addrMod - h.heapstart) % addrMod) >>> h.log2gran

/-- Change the bits of `ngranules` granules from `granno` on, which lie in one word of the table or in
two. Each word is changed by `op`, once `ok` has been asserted of it and the mask. -/
def updateGat (op : BitVec 32 → BitVec 32 → BitVec 32) (assert : Assertion → Bool → Except Assertion Unit)
    (ok : BitVec 32 → BitVec 32 → Bool) (first second single : Assertion) (gat : List (BitVec 32))
    (granno ngranules : Nat) : Except Assertion (List (BitVec 32)) := do
  let gatidx := granno >>> 5
  let gatbit := granno &&& 31
  let avail := 32 - gatbit
  if ngranules > avail then
    let gatmask := 0xffffffff#32 <<< gatbit
    assert first (ok (gat.getD gatidx 0) gatmask)
    let gat := gat.set gatidx (op (gat.getD gatidx 0) gatmask)
    let ngranules := ngranules - avail
    let gatmask := 0xffffffff#32 >>> (32 - ngranules)
    assert second (ok (gat.getD (gatidx + 1) 0) gatmask)
    return gat.set (gatidx + 1) (op (gat.getD (gatidx + 1) 0) gatmask)
  else
    let gatmask := (0xffffffff#32 >>> (32 - ngranules)) <<< gatbit
    assert single (ok (gat.getD gatidx 0) gatmask)
    return gat.set gatidx (op (gat.getD gatidx 0) gatmask)

variable (debug : Bool) (h : Heap)

def granMarkAllocated (alloc ngranules : Nat) : Except Assertion Heap := do
  let gat ← updateGat (fun word gatmask => word ||| gatmask) (debugAssert debug)
    (fun word gatmask => word &&& gatmask == 0) .markFirst .markSecond .markSingle h.gat
    (granuleOf h alloc) ngranules
  return { h with gat := gat }

/-- How far `gran_alloc` may move on from a position where the allocation does not start, or nothing
when it does start there. -/
def searchShift (curr mask : BitVec 32) : Option Nat :=
  if curr &&& 0x0000ffff#32 = 0x0000ffff#32 then some 16
  else if curr &&& 0x000000ff#32 = 0x000000ff#32 then some 8
  else if curr &&& 0x0000000f#32 = 0x0000000f#32 then some 4
  else if curr &&& 0x00000003#32 = 0x00000003#32 then some 2
  else if curr &&& mask = 0 then none
  else some 1

/-- The search for an allocation that starts in one word of the table. Every turn moves on by one bit
at least, so it ends before `fuel` does. -/
def searchWord (h : Heap) (ngranules : Nat) (mask : BitVec 32) (granidx : Nat) :
    Nat → BitVec 32 → BitVec 32 → Nat → Nat → Option Nat
  | 0, _, _, _, _ => none
  | fuel + 1, curr, next, bitidx, alloc =>
    if bitidx < 32 ∧ granidx + bitidx + ngranules ≤ h.ngranules then
      if curr = 0xffffffff#32 then
        none
      else
        match searchShift curr mask with
        | none => some alloc
        | some shift =>
          searchWord h ngranules mask granidx fuel ((curr >>> shift) ||| (next <<< (32 - shift)))
            (next >>> shift) (bitidx + shift) ((alloc + shift <<< h.log2gran) % addrMod)
    else
      none

def searchGat (h : Heap) (beyond : BitVec 32) (ngranules : Nat) (mask : BitVec 32) :
    Nat → Nat → Option Nat
  | 0, _ => none
  | fuel + 1, granidx =>
    if granidx < h.ngranules then
      let gatidx := granidx >>> 5
      let curr := h.gat.getD gatidx beyond
      if curr = 0xffffffff#32 then
        searchGat h beyond ngranules mask fuel (granidx + 32)
      else
        -- this test never fails, so the word after the last one is read
        let next := if granidx < h.ngranules then h.gat.getD (gatidx + 1) beyond else 0xffffffff#32
        let alloc := (h.heapstart + granidx <<< h.log2gran) % addrMod
        match searchWord h ngranules mask granidx 32 curr next 0 alloc with
        | some alloc => some alloc
        | none => searchGat h beyond ngranules mask fuel (granidx + 32)
    else
      none

/-- `gran_alloc`. The result is zero when there is no room or the critical section could not be
entered, that is when `enter`, the result of `gran_enter_critical`, is negative. -/
def granAlloc (size : Nat) (enter : Int) (beyond : BitVec 32) :
    Except Assertion (Nat × Heap) := do
  debugAssert debug .allocSize (size ≤ 32 * 2 ^ h.log2gran)
  if 0 < size then
    if enter < 0 then
      return (0, h)
    let ngranules := granulesOf h.log2gran size
    debugAssert debug .allocGranules (ngranules ≤ 32)
    let mask := 0xffffffff#32 >>> (32 - ngranules)
    match searchGat h beyond ngranules mask (sizeofGat h.ngranules) 0 with
    | some alloc => return (alloc, ← granMarkAllocated debug h alloc ngranules)
    | none => return (0, h)
  else
    return (0, h)

def granFree (memory size : Nat) : Except Assertion Heap := do
  debugAssert debug .freeSize (memory ≠ 0 ∧ size ≤ 32 * 2 ^ h.log2gran)
  let gat ← updateGat (fun word gatmask => word &&& ~~~gatmask) (debugAssert debug)
    (fun word gatmask => word &&& gatmask == gatmask) .freeFirst .freeSecond .freeSingle h.gat
    (granuleOf h memory) (granulesOf h.log2gran size)
  return { h with gat := gat }

/-- The indices into `priv->gat` that the search uses. -/
def searchIndices (h : Heap) (beyond : BitVec 32) (ngranules : Nat) (mask : BitVec 32) :
    Nat → Nat → List Nat
  | 0, _ => []
  | fuel + 1, granidx =>
    if granidx < h.ngranules then
      let gatidx := granidx >>> 5
      let curr := h.gat.getD gatidx beyond
      if curr = 0xffffffff#32 then
        gatidx :: searchIndices h beyond ngranules mask fuel (granidx + 32)
      else
        let next := h.gat.getD (gatidx + 1) beyond
        let alloc := (h.heapstart + granidx <<< h.log2gran) % addrMod
        gatidx :: (gatidx + 1) ::
          if (searchWord h ngranules mask granidx 32 curr next 0 alloc).isSome then []
          else searchIndices h beyond ngranules mask fuel (granidx + 32)
    else
      []

/-- Those that `gran_mark_allocated` uses. -/
def markIndices (h : Heap) (ngranules alloc : Nat) : List Nat :=
  let gatidx := granuleOf h alloc >>> 5
  let avail := 32 - (granuleOf h alloc &&& 31)
  if ngranules > avail then [gatidx, gatidx + 1] else [gatidx]

/-- Those that `gran_alloc` uses. -/
def allocIndices (h : Heap) (size : Nat) (enter : Int) (beyond : BitVec 32) : List Nat :=
  if 0 < size ∧ 0 ≤ enter then
    let ngranules := granulesOf h.log2gran size
    let mask := 0xffffffff#32 >>> (32 - ngranules)
    searchIndices h beyond ngranules mask (sizeofGat h.ngranules) 0 ++
      (searchGat h beyond ngranules mask (sizeofGat h.ngranules) 0).elim [] (markIndices h ngranules)
  else
    []

structure Sys where
  heap : Heap
  held : List (Nat × Nat)
  deriving DecidableEq, Repr

inductive Call
  | alloc (size : Nat) (enter : Int) (beyond : BitVec 32)
  | free (memory size : Nat)

def SizeOk (log2gran size : Nat) : Prop :=
  0 < size ∧ size ≤ 32 * 2 ^ log2gran ∧ size + (2 ^ log2gran - 1) < addrMod

instance (log2gran size : Nat) : Decidable (SizeOk log2gran size) :=
  inferInstanceAs (Decidable (_ ∧ _))

namespace Sys

def call (debug : Bool) (st : Sys) : Call → Except Assertion (Nat × Sys)
  | .alloc size enter beyond => do
      let (ret, heap) ← granAlloc debug st.heap size enter beyond
      return (ret, ⟨heap, if ret = 0 then st.held else (ret, size) :: st.held⟩)
  | .free memory size => do
      return (0, ⟨← granFree debug st.heap memory size, st.held.erase (memory, size)⟩)

def Allows (st : Sys) : Call → Prop
  | .alloc size _ _ => SizeOk st.heap.log2gran size
  | .free memory size => (memory, size) ∈ st.held

instance (st : Sys) : (x : Call) → Decidable (st.Allows x)
  | .alloc size _ _ => inferInstanceAs (Decidable (SizeOk st.heap.log2gran size))
  | .free memory size => decidable_of_iff (st.held.contains (memory, size) = true) List.contains_iff_mem

def next (debug : Bool) (st : Sys) (x : Call) : Except Assertion Sys := Prod.snd <$> st.call debug x

def run (debug : Bool) (st : Sys) (xs : List Call) : Except Assertion Sys := xs.foldlM (next debug) st

abbrev Along (debug : Bool) : (Sys → Call → Prop) → Sys → List Call → Prop := Runs.OkAlong (next debug)

theorem next_eq {debug : Bool} {st st' : Sys} {x : Call} {ret : Nat}
    (h : st.call debug x = .ok (ret, st')) : st.next debug x = .ok st' := by
  rw [next, h]
  rfl

def range (h : Heap) (a : Nat × Nat) : Nat × Nat := (granuleOf h a.1, granulesOf h.log2gran a.2)

end Sys

end Nuttx.Mm.Gran

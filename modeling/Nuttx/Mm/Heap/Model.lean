import Nuttx.Include.Assert
import Nuttx.Library.LinkedList
import Nuttx.Library.Runs
import Nuttx.Mm.Heap.Config

/-!
# The heap

The functions of `mm/mm_heap`, for a heap of one region. Chunk headers, free-list links and the
hooks `mm_nodelist[]` all live in one byte memory, so that a link written over a header would be
seen. The other members of `struct mm_heap_s` are fields of `Heap`.

A `DEBUGASSERT` is kept under its own name: with `CONFIG_DEBUG_ASSERTIONS` a failing one ends the
call, without it nothing is checked. The walk along the free list has one step for every address
there is, more than a list without a cycle needs.

Each function that takes the semaphore is split at `mm_takesemaphore` and `mm_givesemaphore`: the
part in between has the suffix `Locked`.
-/

namespace Nuttx.Mm

open ByteMemory LinkedList

inductive Assertion
  | initializeMinChunk
  | addregionHeapsize
  | addfreechunkSize
  | addfreechunkFree
  | mallocOverflow
  | mallocMinChunk
  | mallocFreenode
  | mallocSearchLink
  | mallocBlink
  | mallocHeapmember
  | freeHeapmember
  | freeAllocated
  | freeNextPreceding
  | freeNextBlink
  | freePrevSize
  | freePrevBlink
  | shrinkchunkGranule
  | shrinkchunkNextBlink
  | reallocAllocated
  | reallocHeapmember
  | reallocPrevBlink
  | reallocPrevSize
  | reallocNextBlink
  | reallocNextSize
  | memalignLeading
  | extendSize
  | extendBlockstart
  | extendBlockend
  | extendAdjoining
  | extendAllocated
  | mallinfoAllocnode
  | mallinfoFreenode
  | mallinfoBlink
  | mallinfoBlinkSize
  | mallinfoFlink
  | mallinfoFlinkSize
  | mallinfoPreceding
  | mallinfoHeapend
  | mallinfoHeapsize
  deriving DecidableEq, Repr

inductive Fault
  | assertion (site : Assertion)
  | endless
  deriving DecidableEq, Repr

structure Heap where
  mmHeapsize : Nat
  mmHeapstart : Nat
  mmHeapend : Nat
  /-- The address of `mm_nodelist[0]`. -/
  mmNodelist : Nat
  mmDelaylist : Nat
  mem : Mem

section Nodes

variable (c : HeapConfig)

def nodeSize (m : Mem) (node : Nat) : Nat := load m c.mmBytes node

def nodePreceding (m : Mem) (node : Nat) : Nat := load m c.mmBytes (node + c.mmBytes)

def nodeFlink (m : Mem) (node : Nat) : Nat := load m c.ptrBytes (node + c.sizeofMmAllocnode)

def nodeBlink (m : Mem) (node : Nat) : Nat :=
  load m c.ptrBytes (node + c.sizeofMmAllocnode + c.ptrBytes)

def setSize (m : Mem) (node v : Nat) : Mem := store m c.mmBytes node v

def setPreceding (m : Mem) (node v : Nat) : Mem := store m c.mmBytes (node + c.mmBytes) v

def setFlink (m : Mem) (node v : Nat) : Mem := store m c.ptrBytes (node + c.sizeofMmAllocnode) v

def setBlink (m : Mem) (node v : Nat) : Mem :=
  store m c.ptrBytes (node + c.sizeofMmAllocnode + c.ptrBytes) v

def isAllocated (m : Mem) (node : Nat) : Bool := nodePreceding c m node &&& c.mmAllocBit != 0

def updatePreceding (m : Mem) (node size : Nat) : Mem :=
  setPreceding c m node (size ||| (nodePreceding c m node &&& c.mmAllocBit))

def hookAddr (nodelist ndx : Nat) : Nat := nodelist + ndx * c.sizeofMmFreenode

def debugassert (site : Assertion) (holds : Bool) : Except Fault Unit :=
  debugAssert c.debugAssertions (.assertion site) holds

def unlinkNode (m : Mem) (node : Nat) : Mem :=
  let m := setFlink c m (nodeBlink c m node) (nodeFlink c m node)
  if nodeFlink c m node ≠ 0 then setBlink c m (nodeFlink c m node) (nodeBlink c m node) else m

end Nodes

variable (c : HeapConfig)

def mmHeapmember (h : Heap) (mem : Nat) : Bool := h.mmHeapstart < mem && mem < h.mmHeapend

def mmAddfreechunk (h : Heap) (m : Mem) (node : Nat) : Except Fault Mem := do
  debugassert c .addfreechunkSize (nodeSize c m node ≥ c.sizeofMmFreenode)
  debugassert c .addfreechunkFree (!isAllocated c m node)
  let hook := hookAddr c h.mmNodelist (c.mmSize2ndx (nodeSize c m node))
  let (prev, next) ← seek Fault.endless 0 (nodeFlink c m)
    (fun next => nodeSize c m next != 0 && nodeSize c m next < nodeSize c m node)
    (fun _ => .ok ()) c.sizeMod hook (nodeFlink c m hook)
  let m := setFlink c m prev node
  let m := setBlink c m node prev
  let m := setFlink c m node next
  return if next ≠ 0 then setBlink c m next node else m

def mmShrinkchunk (h : Heap) (m : Mem) (node size : Nat) : Except Fault Mem := do
  debugassert c .shrinkchunkGranule (size &&& c.mmGranMask == 0)
  let next := node + nodeSize c m node
  if !isAllocated c m next then
    let andbeyond := next + nodeSize c m next
    debugassert c .shrinkchunkNextBlink (nodeBlink c m next != 0)
    let m := unlinkNode c m next
    let newnode := node + size
    let m := setSize c m newnode (c.sub (c.add (nodeSize c m next) (nodeSize c m node)) size)
    let m := setPreceding c m newnode size
    let m := setSize c m node size
    let m := updatePreceding c m andbeyond (nodeSize c m newnode)
    mmAddfreechunk c h m newnode
  else if nodeSize c m node ≥ size + c.sizeofMmFreenode then
    let newnode := node + size
    let m := setSize c m newnode (c.sub (nodeSize c m node) size)
    let m := setPreceding c m newnode size
    let m := setSize c m node size
    let m := setPreceding c m next (nodeSize c m newnode ||| c.mmAllocBit)
    mmAddfreechunk c h m newnode
  else
    return m

structure CallContext where
  /-- `up_interrupt_context()`. -/
  interrupt : Bool
  /-- The result of `mm_trysemaphore(heap)`. -/
  trysemaphore : Int
  /-- `sched_idletask()`. -/
  idletask : Bool

def CallContext.task : CallContext := ⟨false, 0, false⟩

def negEsrch : Int := -3

def mmAddDelaylist (h : Heap) (mem : Nat) : Heap :=
  { h with mem := store h.mem c.ptrBytes mem h.mmDelaylist, mmDelaylist := mem }

def freeMergeNext (m : Mem) (node next : Nat) : Except Fault (Mem × Nat) :=
  if !isAllocated c m next then do
    let andbeyond := next + nodeSize c m next
    debugassert c .freeNextBlink (nodeBlink c m next != 0)
    let m := unlinkNode c m next
    let m := setSize c m node (nodeSize c m node + nodeSize c m next)
    let m := updatePreceding c m andbeyond (nodeSize c m node)
    return (m, andbeyond)
  else
    return (m, next)

def freeMergePrev (m : Mem) (node next : Nat) : Except Fault (Mem × Nat) := do
  let prev := node - nodePreceding c m node
  debugassert c .freePrevSize (c.clearAllocBit (nodePreceding c m node) == nodeSize c m prev)
  if !isAllocated c m prev then
    debugassert c .freePrevBlink (nodeBlink c m prev != 0)
    let m := unlinkNode c m prev
    let m := setSize c m prev (nodeSize c m prev + nodeSize c m node)
    let m := updatePreceding c m next (nodeSize c m prev)
    return (m, prev)
  else
    return (m, node)

def mmFreeLocked (h : Heap) (mem : Nat) : Except Fault Heap := do
  debugassert c .freeHeapmember (mmHeapmember h mem)
  let node := mem - c.sizeofMmAllocnode
  debugassert c .freeAllocated (isAllocated c h.mem node)
  let m := setPreceding c h.mem node (c.clearAllocBit (nodePreceding c h.mem node))
  let next := node + nodeSize c m node
  debugassert c .freeNextPreceding
    (c.clearAllocBit (nodePreceding c m next) == nodeSize c m node)
  let (m, next) ← freeMergeNext c m node next
  let (m, node) ← freeMergePrev c m node next
  return { h with mem := ← mmAddfreechunk c h m node }

def mmFree (h : Heap) (mem : Nat) (ctx : CallContext) : Except Fault Heap :=
  if mem = 0 then
    .ok h
  else if ctx.interrupt then
    -- in an interrupt handler the chunk is put on the delay list
    .ok (mmAddDelaylist c h mem)
  else if ctx.trysemaphore = 0 then
    mmFreeLocked c h mem
  else if ctx.trysemaphore = negEsrch ∨ ctx.idletask then
    -- the idle task must not wait, and neither may a context switch
    .ok (mmAddDelaylist c h mem)
  else
    mmFreeLocked c h mem

def freeDelaylistLoop : Nat → Heap → Nat → Except Fault Heap
  | 0, _, _ => .error .endless
  | fuel + 1, h, tmp =>
    if tmp = 0 then
      .ok h
    else do
      let address := tmp
      let tmp := load h.mem c.ptrBytes address
      let h ← mmFree c h address CallContext.task
      freeDelaylistLoop fuel h tmp

def mmFreeDelaylist (h : Heap) : Except Fault Heap :=
  freeDelaylistLoop c c.sizeMod { h with mmDelaylist := 0 } h.mmDelaylist

def mallocSplit (h : Heap) (m : Mem) (node alignsize : Nat) : Except Fault Mem :=
  let remaining := c.sub (nodeSize c m node) alignsize
  if remaining ≥ c.sizeofMmFreenode then
    let next := node + nodeSize c m node
    let remainder := node + alignsize
    let m := setSize c m remainder remaining
    let m := setPreceding c m remainder alignsize
    let m := setSize c m node alignsize
    let m := updatePreceding c m next remaining
    mmAddfreechunk c h m remainder
  else
    .ok m

def mmMallocLocked (h : Heap) (alignsize : Nat) : Except Fault (Nat × Heap) := do
  let ndx := if alignsize ≥ c.mmMaxChunk then c.mmNnodes - 1 else c.mmSize2ndx alignsize
  let hook := hookAddr c h.mmNodelist ndx
  let m := h.mem
  let (_, node) ← seek Fault.endless 0 (nodeFlink c m) (fun node => nodeSize c m node < alignsize)
    (fun node => debugassert c .mallocSearchLink (nodeFlink c m (nodeBlink c m node) == node))
    c.sizeMod hook (nodeFlink c m hook)
  if node ≠ 0 then
    debugassert c .mallocBlink (nodeBlink c m node != 0)
    let m := unlinkNode c m node
    let m ← mallocSplit c h m node alignsize
    let m := setPreceding c m node (nodePreceding c m node ||| c.mmAllocBit)
    let ret := node + c.sizeofMmAllocnode
    debugassert c .mallocHeapmember (mmHeapmember h ret)
    return (ret, { h with mem := m })
  else
    return (0, h)

def mmMalloc (h : Heap) (size : Nat) : Except Fault (Nat × Heap) := do
  let h ← mmFreeDelaylist c h
  if size < 1 then
    return (0, h)
  let alignsize := c.mmAlignUp (c.add size c.sizeofMmAllocnode)
  debugassert c .mallocOverflow (alignsize ≥ size)
  debugassert c .mallocMinChunk (alignsize ≥ c.mmMinChunk)
  debugassert c .mallocFreenode (alignsize ≥ c.sizeofMmFreenode)
  let (ret, h) ← mmMallocLocked c h alignsize
  if c.fillAllocations ∧ ret ≠ 0 then
    return (ret, { h with mem := memset h.mem ret 0xaa (c.sub alignsize c.sizeofMmAllocnode) })
  else
    return (ret, h)

/-- How many bytes an allocation that needs `needed` more takes from the free chunk before it and
from the free chunk after it. A neighbour that is not free has size zero here. -/
def reallocTake (prevsize nextsize needed : Nat) : Nat × Nat :=
  if prevsize > 0 ∧ (nextsize ≥ prevsize ∨ nextsize < 1) then
    if needed > prevsize then (prevsize, needed - prevsize) else (needed, 0)
  else if nextsize > 0 ∧ needed ≠ 0 then
    if needed > nextsize then (needed - nextsize, nextsize) else (0, needed)
  else
    (0, 0)

/-- Extend `oldnode` by `takeprev` bytes into the free chunk `prev` of size `prevsize`, and move
the contents down. Returns the node after the move. -/
def reallocTakeprev (h : Heap) (m : Mem) (prev oldnode next prevsize oldsize takeprev : Nat) :
    Except Fault (Mem × Nat) := do
  debugassert c .reallocPrevBlink (nodeBlink c m prev != 0)
  let m := unlinkNode c m prev
  let newnode := oldnode - takeprev
  let m ←
    if takeprev < prevsize then do
      let m := setSize c m prev (nodeSize c m prev - takeprev)
      debugassert c .reallocPrevSize (nodeSize c m prev ≥ c.sizeofMmFreenode)
      let m := setSize c m newnode (oldsize + takeprev)
      let m := setPreceding c m newnode (nodeSize c m prev ||| c.mmAllocBit)
      let m := updatePreceding c m next (nodeSize c m newnode)
      mmAddfreechunk c h m prev
    else
      let m := setSize c m newnode (nodeSize c m newnode + oldsize)
      let m := setPreceding c m newnode (nodePreceding c m newnode ||| c.mmAllocBit)
      let m := updatePreceding c m next (nodeSize c m newnode)
      .ok m
  let m := memcpy m (newnode + c.sizeofMmAllocnode) (oldnode + c.sizeofMmAllocnode)
    (oldsize - c.sizeofMmAllocnode)
  return (m, newnode)

def reallocTakenext (h : Heap) (m : Mem) (oldnode next nextsize oldsize takenext : Nat) :
    Except Fault Mem := do
  let andbeyond := next + nextsize
  debugassert c .reallocNextBlink (nodeBlink c m next != 0)
  let m := unlinkNode c m next
  let m := setSize c m oldnode (oldsize + takenext)
  let newnode := oldnode + nodeSize c m oldnode
  if takenext < nextsize then
    let m := setSize c m newnode (nextsize - takenext)
    debugassert c .reallocNextSize (nodeSize c m newnode ≥ c.sizeofMmFreenode)
    let m := setPreceding c m newnode (nodeSize c m oldnode)
    let m := updatePreceding c m andbeyond (nodeSize c m newnode)
    mmAddfreechunk c h m newnode
  else
    return updatePreceding c m andbeyond (nodeSize c m oldnode)

def sizeIfFree (m : Mem) (node : Nat) : Nat := if !isAllocated c m node then nodeSize c m node else 0

/-- The part of `mm_realloc` that holds the semaphore. The result is the new address, or nothing
when the chunk can neither keep its place nor be extended. -/
def mmReallocLocked (h : Heap) (oldmem newsize : Nat) : Except Fault (Option Nat × Heap) := do
  let m := h.mem
  let oldnode := oldmem - c.sizeofMmAllocnode
  debugassert c .reallocAllocated (isAllocated c m oldnode)
  debugassert c .reallocHeapmember (mmHeapmember h oldmem)
  let oldsize := nodeSize c m oldnode
  if newsize ≤ oldsize then
    if newsize < oldsize then
      return (some oldmem, { h with mem := ← mmShrinkchunk c h m oldnode newsize })
    else
      return (some oldmem, h)
  else
    let next := oldnode + oldsize
    let nextsize := sizeIfFree c m next
    let prev := oldnode - c.clearAllocBit (nodePreceding c m oldnode)
    let prevsize := sizeIfFree c m prev
    if nextsize + prevsize + oldsize ≥ newsize then
      let (takeprev, takenext) := reallocTake prevsize nextsize (newsize - oldsize)
      let (m, oldnode) ←
        if takeprev ≠ 0 then reallocTakeprev c h m prev oldnode next prevsize oldsize takeprev
        else .ok (m, oldnode)
      let m ←
        if takenext ≠ 0 then
          reallocTakenext c h m oldnode next nextsize (nodeSize c m oldnode) takenext
        else .ok m
      return (some (oldnode + c.sizeofMmAllocnode), { h with mem := m })
    else
      return (none, h)

def mmRealloc (h : Heap) (oldmem size : Nat) : Except Fault (Nat × Heap) := do
  if oldmem = 0 then
    mmMalloc c h size
  else if size < 1 then
    return (0, ← mmFree c h oldmem CallContext.task)
  else
    let newsize := c.mmAlignUp (c.add size c.sizeofMmAllocnode)
    let oldsize := nodeSize c h.mem (oldmem - c.sizeofMmAllocnode)
    match ← mmReallocLocked c h oldmem newsize with
    | (some newmem, h) => return (newmem, h)
    | (none, h) =>
      let (newmem, h) ← mmMalloc c h size
      if newmem ≠ 0 then
        let h := { h with mem := memcpy h.mem newmem oldmem oldsize }
        return (newmem, ← mmFree c h oldmem CallContext.task)
      else
        return (0, h)

/-- Where the aligned chunk begins in the raw one: at the first alignment point, or at the second
when the space before the first is too small for a free node. -/
def memalignPoint (alignment rawchunk : Nat) : Nat :=
  let mask := c.sub alignment 1
  let alignedchunk := c.add rawchunk mask &&& c.compl mask
  let precedingsize := c.sub (c.sub alignedchunk c.sizeofMmAllocnode)
    (c.sub rawchunk c.sizeofMmAllocnode)
  if alignedchunk ≠ rawchunk ∧ precedingsize < c.sizeofMmFreenode then
    c.add alignedchunk alignment
  else
    alignedchunk

def memalignLeading (h : Heap) (m : Mem) (node newnode : Nat) : Except Fault Mem := do
  let next := node + nodeSize c m node
  let precedingsize := c.sub newnode node
  let m := setSize c m newnode (c.sub next newnode)
  let m := setPreceding c m newnode (precedingsize ||| c.mmAllocBit)
  let m := setSize c m node precedingsize
  let m := setPreceding c m node (c.clearAllocBit (nodePreceding c m node))
  let m := updatePreceding c m next (nodeSize c m newnode)
  mmAddfreechunk c h m node

/-- The second critical section of `mm_memalign`: `rawchunk` came from `mm_malloc(allocsize)` in
the first one, and `size` is already a multiple of the granule. -/
def mmMemalignLocked (h : Heap) (alignment size allocsize rawchunk : Nat) :
    Except Fault (Nat × Heap) := do
  let m := h.mem
  let node := c.sub rawchunk c.sizeofMmAllocnode
  let mask := c.sub alignment 1
  let firstpoint := c.add rawchunk mask &&& c.compl mask
  let alignedchunk := memalignPoint c alignment rawchunk
  let newnode := c.sub alignedchunk c.sizeofMmAllocnode
  let (m, node, allocsize) ←
    if firstpoint ≠ rawchunk then do
      debugassert c .memalignLeading (firstpoint ≥ c.add rawchunk 8)
      let m ← memalignLeading c h m node newnode
      .ok (m, newnode, c.sub (nodeSize c m newnode) c.sizeofMmAllocnode)
    else
      .ok (m, node, allocsize)
  let size := c.mmAlignUp (c.add size c.sizeofMmAllocnode)
  if allocsize > size then
    return (alignedchunk, { h with mem := ← mmShrinkchunk c h m node size })
  else
    return (alignedchunk, { h with mem := m })

def mmMemalign (h : Heap) (alignment size : Nat) : Except Fault (Nat × Heap) := do
  if alignment ≤ c.mmMinChunk then
    mmMalloc c h size
  else
    let size := c.mmAlignUp size
    let allocsize := c.add size (c.add alignment alignment)
    let (rawchunk, h) ← mmMalloc c h allocsize
    if rawchunk = 0 then
      return (0, h)
    else
      mmMemalignLocked c h alignment size allocsize rawchunk

/-- The part of `mm_extend` that holds the semaphore: the old guard becomes an allocated chunk
that covers the new block, and the block ends in a new guard. -/
def mmExtendLocked (h : Heap) (mem size : Nat) : Except Fault Heap := do
  let blockend := c.add mem size
  let oldnode := h.mmHeapend
  debugassert c .extendAdjoining (oldnode + c.sizeofMmAllocnode == mem)
  let m := setSize c h.mem oldnode size
  debugassert c .extendAllocated (isAllocated c m oldnode)
  let newnode := c.sub blockend c.sizeofMmAllocnode
  let m := setSize c m newnode c.sizeofMmAllocnode
  let m := setPreceding c m newnode (nodeSize c m oldnode ||| c.mmAllocBit)
  return { h with mem := m, mmHeapend := newnode }

def mmExtend (h : Heap) (mem size : Nat) : Except Fault Heap := do
  debugassert c .extendSize (size ≥ 2 * c.sizeofMmAllocnode)
  debugassert c .extendBlockstart (c.mmAlignUp mem == mem)
  debugassert c .extendBlockend (c.mmAlignDown (c.add mem size) == c.add mem size)
  let h ← mmExtendLocked c h mem size
  mmFree c h mem CallContext.task

def mmAddregion (h : Heap) (heapstart heapsize : Nat) : Except Fault Heap := do
  debugassert c .addregionHeapsize (c.mmBytes != 2 || heapsize ≤ 256 ^ c.mmBytes)
  let heapbase := c.mmAlignUp heapstart
  let heapend := c.mmAlignDown (c.add heapstart heapsize)
  let heapsize := c.sub heapend heapbase
  let node := heapbase + c.sizeofMmAllocnode
  let guardnode := c.sub heapend c.sizeofMmAllocnode
  let m := setSize c h.mem heapbase c.sizeofMmAllocnode
  let m := setPreceding c m heapbase c.mmAllocBit
  let m := setSize c m node (c.sub heapsize (2 * c.sizeofMmAllocnode))
  let m := setPreceding c m node c.sizeofMmAllocnode
  let m := setSize c m guardnode c.sizeofMmAllocnode
  let m := setPreceding c m guardnode (nodeSize c m node ||| c.mmAllocBit)
  let h := { h with mmHeapsize := c.add h.mmHeapsize heapsize, mmHeapstart := heapbase,
                    mmHeapend := guardnode }
  return { h with mem := ← mmAddfreechunk c h m node }

def linkHooks (nodelist : Nat) (m : Mem) : Nat → Mem
  | 0 => m
  | n + 1 =>
    let m := linkHooks nodelist m n
    let m := setFlink c m (hookAddr c nodelist n) (hookAddr c nodelist (n + 1))
    setBlink c m (hookAddr c nodelist (n + 1)) (hookAddr c nodelist n)

def mmInitialize (m : Mem) (nodelist heapstart heapsize : Nat) : Except Fault Heap := do
  debugassert c .initializeMinChunk
    (c.mmMinChunk ≥ c.sizeofMmFreenode && c.mmMinChunk ≥ c.sizeofMmAllocnode)
  let m := memset m nodelist 0 (c.sizeofMmFreenode * c.mmNnodes)
  let m := linkHooks c nodelist m (c.mmNnodes - 1)
  mmAddregion c ⟨0, 0, 0, nodelist, 0, m⟩ heapstart heapsize

def mallocUsableSize (h : Heap) (mem : Nat) : Nat :=
  if mem = 0 then 0
  else c.sub (nodeSize c h.mem (mem - c.sizeofMmAllocnode)) c.sizeofMmAllocnode

structure Mallinfo where
  /-- The total size of the heap. -/
  arena : Nat
  /-- The number of free chunks. -/
  ordblks : Nat
  /-- The size of the largest free chunk. -/
  mxordblk : Nat
  /-- The total size of the allocated chunks. -/
  uordblks : Nat
  /-- The total size of the free chunks. -/
  fordblks : Nat
  deriving DecidableEq, Repr

def mallinfoNode (m : Mem) (node : Nat) (info : Mallinfo) : Except Fault Mallinfo :=
  if isAllocated c m node then do
    debugassert c .mallinfoAllocnode (nodeSize c m node ≥ c.sizeofMmAllocnode)
    return { info with uordblks := c.add info.uordblks (nodeSize c m node) }
  else do
    let blink := nodeBlink c m node
    let flink := nodeFlink c m node
    debugassert c .mallinfoFreenode (nodeSize c m node ≥ c.sizeofMmFreenode)
    debugassert c .mallinfoBlink (nodeFlink c m blink == node)
    debugassert c .mallinfoBlinkSize (nodeSize c m blink ≤ nodeSize c m node)
    debugassert c .mallinfoFlink (flink == 0 || nodeBlink c m flink == node)
    debugassert c .mallinfoFlinkSize
      (flink == 0 || nodeSize c m flink == 0 || nodeSize c m flink ≥ nodeSize c m node)
    return { info with
      ordblks := info.ordblks + 1
      fordblks := c.add info.fordblks (nodeSize c m node)
      mxordblk := if nodeSize c m node > info.mxordblk then nodeSize c m node else info.mxordblk }

def mallinfoLoop (h : Heap) : Nat → Nat → Option Nat → Mallinfo → Except Fault Mallinfo
  | 0, _, _, _ => .error .endless
  | fuel + 1, node, prev, info =>
    if node < h.mmHeapend then do
      let info ← mallinfoNode c h.mem node info
      debugassert c .mallinfoPreceding (prev.all fun prev =>
        nodeSize c h.mem prev == c.clearAllocBit (nodePreceding c h.mem node))
      mallinfoLoop h fuel (node + nodeSize c h.mem node) (some node) info
    else do
      debugassert c .mallinfoHeapend (node == h.mmHeapend)
      return info

def mmMallinfo (h : Heap) : Except Fault Mallinfo := do
  let info ← mallinfoLoop c h (h.mmHeapend + 1) h.mmHeapstart none ⟨0, 0, 0, 0, 0⟩
  let uordblks := c.add info.uordblks c.sizeofMmAllocnode
  debugassert c .mallinfoHeapsize (c.add uordblks info.fordblks == h.mmHeapsize)
  return { info with arena := h.mmHeapsize, uordblks := uordblks }

end Nuttx.Mm

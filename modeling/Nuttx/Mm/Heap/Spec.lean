import Nuttx.Mm.Heap.Proof.Steps

/-!
# A well-formed heap

What a reader of the memory finds who walks the region by `node->size` and the free list by `flink`.
The two walks are functions of the memory alone.
-/

namespace Nuttx.Mm

open ByteMemory

def walkChunks (c : HeapConfig) (m : Mem) (stop : Nat) : Nat → Nat → Option (List Chunk)
  | 0, _ => none
  | fuel + 1, node =>
    let chunk : Chunk := ⟨node, nodeSize c m node, isAllocated c m node⟩
    if node = stop then some [chunk]
    else (walkChunks c m stop fuel (node + nodeSize c m node)).map (chunk :: ·)

def walkNodes (c : HeapConfig) (m : Mem) : Nat → Nat → Option (List Nat)
  | 0, _ => none
  | fuel + 1, node =>
    if node = 0 then some []
    else (walkNodes c m fuel (nodeFlink c m node)).map (node :: ·)

namespace Heap

variable (c : HeapConfig) (h : Heap)

def chunks : Option (List Chunk) := walkChunks c h.mem h.mmHeapend (h.mmHeapend + 1) h.mmHeapstart

def nodes : Option (List Nat) := walkNodes c h.mem c.sizeMod (hookAddr c h.mmNodelist 0)

end Heap

structure WellFormed (c : HeapConfig) (h : Heap) (cs : List Chunk) (ns : List Nat) : Prop where
  chunks : h.chunks c = some cs
  nodes : h.nodes c = some ns
  /-- The chunks fill the region. -/
  fills : h.mmHeapstart + total cs = h.mmHeapend + c.sizeofMmAllocnode
  first : cs.head? = some (.guard c h.mmHeapstart)
  last : cs.getLast? = some (.guard c h.mmHeapend)
  /-- All chunks but the guards have room for a free node, and their sizes are multiples of the
  unit. -/
  sizes : ∀ k ∈ cs, k.addr ≠ h.mmHeapstart → k.addr ≠ h.mmHeapend → ChunkSize c k.size
  preceding : cs.IsChain fun k k' => c.clearAllocBit (nodePreceding c h.mem k'.addr) = k.size
  coalesced : Coalesced cs
  nodup : ns.Nodup
  /-- The nodes are the hooks and the chunks without `MM_ALLOC_BIT`. -/
  listed : ∀ x, x ∈ ns ↔
    (∃ i < c.mmNnodes, x = hookAddr c h.mmNodelist i) ∨ ∃ s, ⟨x, s, false⟩ ∈ cs
  /-- `blink` is the inverse of `flink`. -/
  blink : ns.IsChain fun x y => nodeBlink c h.mem y = x
  /-- A node lies between the hook of its size and the next one. -/
  binned : ∀ a s, ⟨a, s, false⟩ ∈ cs →
    [hookAddr c h.mmNodelist (c.mmSize2ndx s), a].Sublist ns ∧
    (c.mmSize2ndx s + 1 < c.mmNnodes → [a, hookAddr c h.mmNodelist (c.mmSize2ndx s + 1)].Sublist ns)
  /-- The hooks, which have size zero, apart, sizes do not decrease. -/
  sorted : ns.Pairwise fun x y => nodeSize c h.mem y = 0 ∨ nodeSize c h.mem x ≤ nodeSize c h.mem y

end Nuttx.Mm

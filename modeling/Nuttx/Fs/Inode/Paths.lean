import Nuttx.Fs.Inode.Model

/-!
# The set of paths of a tree of inodes

What the tree is for: a set of paths, each a list of names, with every path also those on the way to it.
A run reserves and removes paths, starting with a root alone.
-/

namespace Nuttx.Fs

variable (cfg : Config)

def components (path : List UInt8) : List (List UInt8) :=
  (path.splitOnP (· == slash)).filter (· ≠ [])

structure Absolute (path : List UInt8) : Prop where
  head : path.head? = some slash
  nonroot : components path ≠ []

def nameLt (m n : List UInt8) : Prop := m.map (charVal cfg) < n.map (charVal cfg)

inductive Child (h : Heap) (a : Addr) : Addr → Prop
  | first {inode : Inode} {b : Addr} (hnode : h a = some inode) (hchild : inode.iChild = some b) :
      Child h a b
  | peer {b c : Addr} {inode : Inode} (hb : Child h a b) (hnode : h b = some inode)
      (hpeer : inode.iPeer = some c) : Child h a c

inductive NodeAt (h : Heap) (root : Addr) : List (List UInt8) → Addr → Prop
  | root : NodeAt h root [] root
  | child {p : List (List UInt8)} {a b : Addr} {inode : Inode} (ha : NodeAt h root p a)
      (hchild : Child h a b) (hnode : h b = some inode) : NodeAt h root (p ++ [inode.iName]) b

def pathsOf (h : Heap) (root : Addr) : Set (List (List UInt8)) :=
  {p | p ≠ [] ∧ ∃ a, NodeAt h root p a}

structure Located (h : Heap) (root : Addr) (p : List (List UInt8)) (desc : Desc) : Prop where
  node : ∃ a, desc.node = some a ∧ NodeAt h root p a
  parent : ∃ b, desc.parent = some b ∧ NodeAt h root p.dropLast b
  peer : (desc.peer = none ∧ ∃ b inode, desc.parent = some b ∧ h b = some inode ∧
      inode.iChild = desc.node) ∨
    ∃ b l inode, desc.parent = some b ∧ desc.peer = some l ∧ Child h b l ∧ h l = some inode ∧
      inode.iPeer = desc.node

structure Supply (h : Heap) (path : List UInt8) (zalloc : List (Option Addr)) : Prop where
  nodup : zalloc.Nodup
  fresh : ∀ block ∈ zalloc, ∃ a, block = some a ∧ h a = none
  enough : (components path).length ≤ zalloc.length

def Returns {α : Type} (call : Nat → Nat → Option α) (r : α) : Prop :=
  ∃ n, ∀ fuel depth, n ≤ fuel → n ≤ depth → call fuel depth = some r

inductive Op
  | reserve (path : List UInt8) (zalloc : List (Option Addr))
  | remove (path : List UInt8)

def rootHeap (root : Addr) : Heap := Heap.put (fun _ => none) root (inodeAlloc [])

inductive Run (root : Addr) : List Op → Heap → Prop
  | start : Run root [] (rootHeap root)
  | reserve {ops : List Op} {h h' : Heap} {path : List UInt8} {zalloc : List (Option Addr)} {ret : Ret}
      {inode : Option Addr} (hrun : Run root ops h) (hpath : Absolute path)
      (hsupply : Supply h path zalloc)
      (hret : Returns (inodeReserve cfg h root · · path zalloc) (h', ret, inode)) :
      Run root (ops ++ [.reserve path zalloc]) h'
  | remove {ops : List Op} {h h' : Heap} {path : List UInt8} {ret : Ret}
      (hrun : Run root ops h) (hpath : Absolute path)
      (hret : Returns (inodeRemove cfg h root · · path) (h', ret)) :
      Run root (ops ++ [.remove path]) h'

def addPath (paths : Set (List (List UInt8))) (p : List (List UInt8)) : Set (List (List UInt8)) :=
  {q | q ∈ paths ∨ (q ≠ [] ∧ q <+: p)}

def removePath (paths : Set (List (List UInt8))) (p : List (List UInt8)) : Set (List (List UInt8)) :=
  {q | q ∈ paths ∧ ¬p <+: q}

def Op.apply (paths : Set (List (List UInt8))) : Op → Set (List (List UInt8))
  | .reserve path _ => addPath paths (components path)
  | .remove path => removePath paths (components path)

def pathsAfter (ops : List Op) : Set (List (List UInt8)) := ops.foldl Op.apply ∅

structure Refines (h : Heap) (root : Addr) (paths : Set (List (List UInt8))) : Prop where
  same : pathsOf h root = paths
  ascending : ∀ p a b inode inode', NodeAt h root p a → h a = some inode → inode.iPeer = some b →
    h b = some inode' → nameLt cfg inode.iName inode'.iName
  search : ∀ path nofollow, Absolute path → ∃ found,
    Returns (inodeSearch cfg h root · · (.setup path nofollow)) found ∧
      (found.ret = .ok ↔ components path ∈ paths) ∧
      (found.ret = .ok → Located h root (components path) found.desc)
  reserve : ∀ path zalloc, Absolute path → Supply h path zalloc → ∃ h' ret inode,
    Returns (inodeReserve cfg h root · · path zalloc) (h', ret, inode) ∧
      (components path ∈ paths → ret = .error .eexist ∧ h' = h) ∧
      (components path ∉ paths → ret = .ok ∧ pathsOf h' root = addPath paths (components path) ∧
        ∃ a, inode = some a ∧ NodeAt h' root (components path) a)
  remove : ∀ path, Absolute path → ∃ h' ret,
    Returns (inodeRemove cfg h root · · path) (h', ret) ∧
      (components path ∈ paths → ret = .ok) ∧ (components path ∉ paths → ret = .error .enoent) ∧
      pathsOf h' root = removePath paths (components path)

end Nuttx.Fs

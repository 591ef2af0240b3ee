import Mathlib.Data.BitVec

/-!
# The tree of inodes

The pseudo file system of `fs/inode`: `inode_search` and its helpers, `inode_reserve` and
`inode_remove`. Nodes are kept by address in a heap. A string is the list of its characters without
the `NUL` at its end. A call that has no result here does not return, or follows a pointer that is
`NULL` or to no node.
-/

namespace Nuttx.Fs

abbrev Addr := Nat

inductive Errno
  | einval
  | enoent
  | eexist
  | enomem
  | ebusy
  | eloop
  deriving DecidableEq, Repr

inductive Ret
  | ok
  | error (errno : Errno)
  deriving DecidableEq, Repr

inductive NodeType
  | pseudodir
  | driver
  | block
  | mountpt
  | namedsem
  | mqueue
  | shm
  | mtd
  | softlink (link : List UInt8)
  deriving DecidableEq, Repr

structure Inode where
  iPeer : Option Addr
  iChild : Option Addr
  iCrefs : Int
  iType : NodeType
  deleted : Bool
  iName : List UInt8
  deriving DecidableEq, Repr

abbrev Heap := Addr → Option Inode

/-- What the code is built and run with: whether `char` is signed, `SYMLOOP_MAX`, the working directory
of the task, and for which strings `asprintf` gets memory. -/
structure Config where
  charSigned : Bool
  symloopMax : Nat
  cwd : List UInt8
  asprintf : List UInt8 → Bool

def slash : UInt8 := 47

variable (cfg : Config)

def charVal (c : UInt8) : Int := if cfg.charSigned then c.toInt8.toInt else c.toNat

def inName (c : UInt8) : Bool := c != slash

def inodeCompare : List UInt8 → List UInt8 → Int
  | [], [] => 0
  | c :: _, [] => if c = slash then 0 else 1
  | [], _ :: _ => -1
  | c :: fname, n :: nname =>
    if c = slash then -1
    else if charVal cfg c > charVal cfg n then 1
    else if charVal cfg c < charVal cfg n then -1
    else inodeCompare fname nname

def inodeNextname (name : List UInt8) : List UInt8 :=
  (name.dropWhile inName).dropWhile (· == slash)

structure Desc where
  path : List UInt8
  node : Option Addr
  peer : Option Addr
  parent : Option Addr
  relpath : Option (List UInt8)
  nofollow : Bool
  deriving DecidableEq, Repr

def Desc.setup (path : List UInt8) (nofollow : Bool) : Desc :=
  ⟨path, none, none, none, none, nofollow⟩

/-- A call that has returned: its value, the search descriptor it leaves and how many times the loops
of `_inode_search` and `_inode_linktarget` went round. -/
structure Found where
  ret : Ret
  desc : Desc
  steps : Nat
  deriving DecidableEq, Repr

def Found.after (n : Nat) (r : Found) : Found := { r with steps := n + r.steps }

structure Cursor where
  name : List UInt8
  node : Option Addr
  left : Option Addr
  above : Option Addr

def leave (nofollow : Bool) (name : List UInt8) (node left above : Option Addr)
    (relpath : Option (List UInt8)) (ret : Ret) : Found :=
  ⟨ret, ⟨name, node, left, above, relpath, nofollow⟩, 1⟩

def Inode.isMountpt (node : Inode) : Bool := node.iType == .mountpt

def Inode.link? (node : Inode) : Option (List UInt8) :=
  match node.iType with
  | .softlink link => some link
  | _ => none

/-- How `_inode_search` goes on at a link, which is followed with the name `name` still to come, when
`_inode_linktarget` has returned `target`. The result is either what is returned or the node below which
the search continues. -/
def linkTaken (h : Heap) (nofollow : Bool) (name : List UInt8) (a : Addr) (left above : Option Addr)
    (target : Found) : Option (Found ⊕ Addr) :=
  match target.ret with
  | .error e => some (.inl (leave nofollow name (some a) left above none (.error e)))
  | .ok => do
      let newnode ← target.desc.node
      let inode ← h newnode
      if newnode ≠ a ∧ inode.isMountpt then
        let relpath ← target.desc.relpath
        let found := leave nofollow name (some newnode) target.desc.peer target.desc.parent
        if relpath ≠ [] then
          let buffer := relpath ++ slash :: name
          if cfg.asprintf buffer then some (.inl (found (some buffer) .ok))
          else some (.inl (found none (.error .enomem)))
        else some (.inl (found (some name) .ok))
      else some (.inr newnode)

@[grind =] def searchLoop (h : Heap) (linktarget : Addr → Option Found) (nofollow : Bool) :
    Nat → Cursor → Option Found
  | 0, _ => none
  | fuel + 1, ⟨name, node, left, above⟩ =>
    match node with
    | none => some (leave nofollow name none left above none (.error .enoent))
    | some a => do
        let node ← h a
        let result := inodeCompare cfg name node.iName
        if result < 0 then some (leave nofollow name none left above none (.error .enoent))
        else if result > 0 then
          (searchLoop h linktarget nofollow fuel ⟨name, node.iPeer, some a, above⟩).map (.after 1)
        else
          let name := inodeNextname name
          if name = [] ∨ node.isMountpt then
            some (leave nofollow name (some a) left above (some name) .ok)
          else if node.link?.isSome then do
            let target ← linktarget a
            match ← linkTaken cfg h nofollow name a left above target with
            | .inl found => some (found.after target.steps)
            | .inr a => do
                let node ← h a
                (searchLoop h linktarget nofollow fuel ⟨name, node.iChild, none, some a⟩).map
                  (.after (target.steps + 1))
          else
            (searchLoop h linktarget nofollow fuel ⟨name, node.iChild, none, some a⟩).map (.after 1)

def searchFrom (h : Heap) (root : Addr) (linktarget : Desc → Addr → Option Found) (fuel : Nat)
    (desc : Desc) : Option Found :=
  if desc.path.head? = some slash then
    searchLoop cfg h (linktarget desc) desc.nofollow fuel ⟨desc.path, some root, none, none⟩
  else some ⟨.error .einval, desc, 1⟩

/-- The loop of `_inode_linktarget`, with the function `_inode_search`; `last` is what that returned
before. -/
@[grind =] def linktargetLoop (h : Heap) (search : Desc → Option Found) : Nat → Nat → Addr → Found → Option Found
  | 0, _, _, _ => none
  | fuel + 1, count, a, last => do
      let node ← h a
      match node.link? with
      | none => some last
      | some link => do
          let found ← search (.setup link true)
          let found := found.after (last.steps + 1)
          match found.ret with
          | .error _ => some found
          | .ok =>
            if count + 1 > cfg.symloopMax then some { found with ret := .error .eloop }
            else do
              let node ← found.desc.node
              linktargetLoop h search fuel (count + 1) node found

/-- `_inode_linktarget`, with the function `_inode_search`. Its loop is left before it goes round more
than `SYMLOOP_MAX + 1` times. -/
def inodeLinktarget (h : Heap) (search : Desc → Option Found) (desc : Desc) (a : Addr) :
    Option Found :=
  (linktargetLoop cfg h search (cfg.symloopMax + 1) 0 a ⟨.error .enoent, desc, 0⟩).map fun found =>
    { found with desc := { found.desc with nofollow := desc.nofollow } }

def inodeSearchAux (h : Heap) (root : Addr) (fuel : Nat) : Nat → Desc → Option Found
  | 0, _ => none
  | depth + 1, desc =>
    searchFrom cfg h root (inodeLinktarget cfg h (inodeSearchAux h root fuel depth)) fuel desc

/-- `RELEASE_SEARCH` in `_inode_linktarget` has freed the buffer that held the path: the loop can go on
only where it does not read the names behind the link. -/
def released (h : Heap) (target : Found) : Option Found :=
  match target.ret with
  | .error _ => some target
  | .ok => do
      let inode ← target.desc.node.bind h
      if inode.isMountpt || inode.iChild.isSome then none else some target

/-- `_inode_search` for a path in `desc->buffer`. -/
def inodeSearchBuffer (h : Heap) (root : Addr) (fuel : Nat) : Nat → Desc → Option Found
  | 0, _ => none
  | depth + 1, desc =>
    searchFrom cfg h root (fun desc a =>
      (inodeLinktarget cfg h (inodeSearchAux cfg h root fuel depth) desc a).bind (released h)) fuel desc

variable (h : Heap) (root : Addr) (fuel depth : Nat)

def followTerminal (found : Found) : Option Found :=
  match found.ret with
  | .error _ => some found
  | .ok => do
      let node ← found.desc.node
      let inode ← h node
      if !found.desc.nofollow && inode.link?.isSome then
        (inodeLinktarget cfg h (inodeSearchAux cfg h root fuel depth) found.desc node).map
          (.after found.steps)
      else some found

def inodeSearch (desc : Desc) : Option Found :=
  if desc.path.head? = some slash then do
    let found ← inodeSearchAux cfg h root fuel depth desc
    followTerminal cfg h root fuel depth found
  else
    let buffer := cfg.cwd ++ slash :: desc.path
    if cfg.asprintf buffer then do
      let found ← inodeSearchBuffer cfg h root fuel depth { desc with path := buffer }
      followTerminal cfg h root fuel depth found
    else some ⟨.error .enomem, desc, 1⟩

namespace Heap

def put (h : Heap) (a : Addr) (node : Inode) : Heap := fun b => if b = a then some node else h b

def free (h : Heap) (a : Addr) : Heap := fun b => if b = a then none else h b

def setPeer (h : Heap) (a : Addr) (peer : Option Addr) : Option Heap :=
  (h a).map fun node => h.put a { node with iPeer := peer }

def setChild (h : Heap) (a : Addr) (child : Option Addr) : Option Heap :=
  (h a).map fun node => h.put a { node with iChild := child }

end Heap

def inodeAlloc (name : List UInt8) : Inode :=
  { iPeer := none, iChild := none, iCrefs := 0, iType := .pseudodir, deleted := false,
    iName := name.takeWhile inName }

def inodeInsert (h : Heap) (node : Addr) (peer parent : Option Addr) : Option Heap :=
  match peer with
  | some peer => do
      let inode ← h peer
      let h ← h.setPeer node inode.iPeer
      h.setPeer peer (some node)
  | none => do
      let parent ← parent
      let inode ← h parent
      let h ← h.setPeer node inode.iChild
      h.setChild parent (some node)

/-- The loop of `inode_reserve`, with the results of its calls of `kmm_zalloc`: the heap, the value
that is returned and the node that is left in `inode`. -/
def reserveLoop : List (Option Addr) → Heap → List UInt8 → Option Addr → Option Addr →
    Option (Heap × Ret × Option Addr)
  | some node :: zalloc, h, name, left, parent => do
      let h ← inodeInsert (h.put node (inodeAlloc name)) node left parent
      let nextname := inodeNextname name
      if nextname ≠ [] then reserveLoop zalloc h nextname none (some node)
      else some (h, .ok, some node)
  | _, h, _, _, _ => some (h, .error .enomem, none)

def inodeReserve (path : List UInt8)
    (zalloc : List (Option Addr)) : Option (Heap × Ret × Option Addr) :=
  if path = [] then some (h, .error .einval, none)
  else do
    let found ← inodeSearch cfg h root fuel depth (.setup path false)
    match found.ret with
    | .ok => some (h, .error .eexist, none)
    | .error _ => reserveLoop zalloc h found.desc.path found.desc.peer found.desc.parent

def inodeUnlink (path : List UInt8) :
    Option (Heap × Option Addr) := do
  let found ← inodeSearch cfg h root fuel depth (.setup path true)
  match found.ret with
  | .error _ => some (h, none)
  | .ok => do
      let node ← found.desc.node
      let inode ← h node
      let h ←
        match found.desc.peer with
        | some peer => h.setPeer peer inode.iPeer
        | none => do
            let parent ← found.desc.parent
            h.setChild parent inode.iPeer
      let h ← h.setPeer node none
      some (h, some node)

def inodeFree : Nat → Heap → Option Addr → Option Heap
  | 0, _, _ => none
  | _ + 1, h, none => some h
  | fuel + 1, h, some a => do
      let node ← h a
      let h ← inodeFree fuel h node.iPeer
      let node ← h a
      let h ← inodeFree fuel h node.iChild
      some (h.free a)

def inodeRemove (path : List UInt8) :
    Option (Heap × Ret) := do
  let (h, node) ← inodeUnlink cfg h root fuel depth path
  match node with
  | none => some (h, .error .enoent)
  | some a => do
      let node ← h a
      if node.iCrefs ≠ 0 then some (h.put a { node with deleted := true }, .error .ebusy)
      else do
        let h ← inodeFree fuel h (some a)
        some (h, .ok)

end Nuttx.Fs

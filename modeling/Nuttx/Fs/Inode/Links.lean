import Nuttx.Fs.Inode.Proof.Search
import Nuttx.Library.CallGraph

/-!
# Lookups through soft links

Which nodes the lookup of a path comes to when soft links on the way are followed, and which links
are looked up for it.
-/

namespace Nuttx.Fs

section Lookup

variable (cfg : Config) (h : Heap) (root : Addr)

inductive Hops (leads : List UInt8 → Addr → Prop) : Nat → Addr → Addr → Prop
  | stay (a : Addr) : Hops leads 0 a a
  | hop {k : Nat} {a b c : Addr} {inode : Inode} {link : List UInt8} (hnode : h a = some inode)
      (hlink : inode.link? = some link) (hleads : leads link b) (hrest : Hops leads k b c) :
      Hops leads (k + 1) a c

/-- A lookup that has come to `a` goes on below `b`: the same node, or the one behind the links from it,
of which no more than `SYMLOOP_MAX` are followed. -/
def Continues (leads : List UInt8 → Addr → Prop) (a b : Addr) : Prop :=
  ∃ k inode, k ≤ cfg.symloopMax ∧ Hops h leads k a b ∧ h b = some inode ∧ inode.isMountpt = false ∧
    inode.link? = none

inductive Meets (leads : List UInt8 → Addr → Prop) (path : List UInt8) : Addr → List UInt8 → Prop
  | root (hhead : path.head? = some slash) : Meets leads path root (inodeNextname path)
  | down {a b c : Addr} {rest : List UInt8} {inode : Inode} (ha : Meets leads path a rest)
      (hrest : rest ≠ []) (hcont : Continues cfg h leads a b) (hchild : Child h b c)
      (hnode : h c = some inode) (hname : inode.iName = rest.takeWhile inName) :
      Meets leads path c (inodeNextname rest)

variable (path : List UInt8)

/-- The path leads to the node `a`, which is not a mountpoint: the least relation that holds where a lookup
comes to the node with nothing behind its name. -/
def LeadsTo (a : Addr) : Prop :=
  ∀ leads : List UInt8 → Addr → Prop,
    (∀ path a inode, Meets cfg h root leads path a [] → h a = some inode → inode.isMountpt = false →
      leads path a) → leads path a

/-- For the path the path of a link is looked up: of one on the way or, if `last`, at its end, or of one
to which these lead. -/
def Opens (last : Bool) (path link : List UInt8) : Prop :=
  ∃ a rest k b inode, Meets cfg h root (LeadsTo cfg h root) path a rest ∧ (rest ≠ [] ∨ last = true) ∧
    k ≤ cfg.symloopMax ∧ Hops h (LeadsTo cfg h root) k a b ∧ h b = some inode ∧ inode.link? = some link

def Unresolved (last : Bool) (path : List UInt8) : Prop :=
  ∃ a rest b, Meets cfg h root (LeadsTo cfg h root) path a rest ∧ (rest ≠ [] ∨ last = true) ∧
    Hops h (LeadsTo cfg h root) (cfg.symloopMax + 1) a b

def Grounded (nofollow : Bool) : Prop :=
  ¬CallGraph.Loops (Opens cfg h root false) path ∧
    ∀ link, Opens cfg h root (!nofollow) path link → ¬CallGraph.Loops (Opens cfg h root false) link

def fullPath : List UInt8 :=
  if path.head? = some slash then path else cfg.cwd ++ slash :: path

def HasPath : Prop :=
  path.head? = some slash ∨ cfg.asprintf (fullPath cfg path) = true

/-- A relative path is looked up without a link that has names behind it. -/
def Kept : Prop :=
  path.head? = some slash ∨ ∀ a rest inode,
    Meets cfg h root (LeadsTo cfg h root) (fullPath cfg path) a rest → rest ≠ [] → h a = some inode →
      inode.link? = none

end Lookup

def linkLength (h : Heap) (a : Addr) : Nat := (((h a).bind Inode.link?).getD []).length

def longest (h : Heap) (nodes : List Addr) (path : List UInt8) : Nat :=
  (nodes.map (linkLength h)).foldr max path.length

def rounds (size longest : Nat) : Nat := (longest + 2) * (size + 2)

def stepBound (symloopMax size longest : Nat) : Nat → Nat
  | 0 => 0
  | depth + 1 =>
    (longest + 2) * (size + 2 + (symloopMax + 1) * (stepBound symloopMax size longest depth + 1))

/-- The search returns, within bounds that depend on the size of the tree, the lengths of the paths and
`SYMLOOP_MAX`, and reports `-ELOOP` where too many links would have to be followed. -/
def Settles (cfg : Config) (h : Heap) (root : Addr) (size : Nat) (longest : Nat) (path : List UInt8)
    (nofollow : Bool) : Prop :=
  ∃ found,
    inodeSearch cfg h root (rounds size longest) (size + 1) (.setup path nofollow) = some found ∧
      found.steps ≤ stepBound cfg.symloopMax size longest (size + 2) ∧
      (HasPath cfg path → Unresolved cfg h root (!nofollow) (fullPath cfg path) →
        found.ret = .error .eloop)

end Nuttx.Fs

import Mathlib.Data.BitVec

/-!
# The routing table and its cache

The routing table is a file; a few of its entries are kept in memory, the most recently used first.
The cache is made of `CONFIG_ROUTE_MAX_IPv4_CACHEROUTES` entries that are allocated once.
-/

namespace Nuttx.Route

structure Ipv4Route where
  target : UInt32
  netmask : UInt32
  router : UInt32
deriving DecidableEq, Repr

def inaddrBroadcast : UInt32 := 0xffffffff

def netIpv4addrMaskcmp (addr1 addr2 mask : UInt32) : Bool := addr1 &&& mask = addr2 &&& mask

def netIpv4Match (route : Ipv4Route) (target : UInt32) : Bool :=
  netIpv4addrMaskcmp route.target target route.netmask

structure Cache (n : Nat) where
  prealloc : Fin n → Ipv4Route
  cache : List (Fin n)
  free : List (Fin n)

variable (target : UInt32)

namespace Cache

variable {n : Nat}

def netAddNewest (slot : Fin n) (c : Cache n) : Cache n := { c with cache := slot :: c.cache }

variable (c : Cache n)

def netRemoveOldest : Option (Fin n) × Cache n :=
  (c.cache.getLast?, { c with cache := c.cache.dropLast })

def netAlloccache : Option (Fin n) × Cache n :=
  match c.free with
  | slot :: free => (some slot, { c with free := free })
  | [] => c.netRemoveOldest

def netResetCache : Cache n :=
  (List.finRange n).foldl (fun c slot => c.netAddNewest slot) { c with cache := [], free := [] }

def netInitCacheroute (n : Nat) : Cache n := netResetCache ⟨fun _ => ⟨0, 0, 0⟩, [], []⟩

def netFlushcache : Cache n := c.netResetCache

def find (p : Ipv4Route → Bool) (c : Cache n) : Option (Fin n) := c.cache.find? fun slot => p (c.prealloc slot)

def netForeachcache : Option Ipv4Route :=
  (c.find fun route => netIpv4Match route target).map c.prealloc

def netAddcache (route : Ipv4Route) (c : Cache n) : Option (Cache n) :=
  match c.find fun entry => route.target = entry.target ∧ route.netmask = entry.netmask with
  | some slot =>
    if c.cache.head? = some slot then some c
    else some ({ c with cache := c.cache.erase slot }.netAddNewest slot)
  | none =>
    match c.netAlloccache with
    | (none, _) => none
    | (some slot, c) =>
      some ({ c with prealloc := Function.update c.prealloc slot route }.netAddNewest slot)

end Cache

def netForeachroute (table : List Ipv4Route) : Option Ipv4Route :=
  table.find? fun route => netIpv4Match route target

def netMatchIpv4 (target netmask : UInt32) (route : Ipv4Route) : Bool :=
  netIpv4addrMaskcmp route.target target netmask && route.netmask = netmask

structure Host (n : Nat) where
  table : List Ipv4Route
  cache : Cache n

namespace Host

variable {n : Nat}

def netIpv4Router (host : Host n) : Option (Option UInt32 × Host n) :=
  if target = inaddrBroadcast then some (none, host)
  else
    let found :=
      match host.cache.netForeachcache target with
      | some route => some route
      | none => netForeachroute target host.table
    match found with
    | none => some (none, host)
    | some route =>
      (host.cache.netAddcache route).map fun cache => (some route.router, { host with cache := cache })

def netDelroute (target netmask : UInt32) (host : Host n) : Host n :=
  if host.table.any (netMatchIpv4 target netmask) then
    ⟨host.table.eraseP (netMatchIpv4 target netmask), host.cache.netFlushcache⟩
  else host

end Host

def scan (table : List Ipv4Route) : Option UInt32 :=
  if target = inaddrBroadcast then none else (netForeachroute target table).map Ipv4Route.router

inductive Event
  | lookup (target : UInt32)
  | delete (target netmask : UInt32)
  | flush

def Host.step {n : Nat} (host : Host n) : Event → Option (Host n)
  | .lookup target => (host.netIpv4Router target).map Prod.snd
  | .delete target netmask => some (host.netDelroute target netmask)
  | .flush => some { host with cache := host.cache.netFlushcache }

end Nuttx.Route

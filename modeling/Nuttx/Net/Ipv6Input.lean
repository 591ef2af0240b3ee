import Nuttx.Net.Ipv4Input

/-!
# `ipv6_input`

Which received packets are handed to the protocols above IPv6, and where their header ends. The loop
over the extension headers has no bound of its own; here it has fuel. ICMPv6 is configured in.
-/

namespace Nuttx.Net

/-- Where a packet goes. The protocols are told how long the header is. -/
inductive Ipv6Outcome
  | drop
  | forwarded
  | tcp (dev : Dev) (iphdrlen : UInt16)
  | udp (dev : Dev) (iphdrlen : UInt16)
  | icmpv6 (dev : Dev) (iphdrlen : UInt16)

/-- The configuration and the devices of the host: `CONFIG_NET_BROADCAST`, the address of the receiving
device, the addresses of all devices, and what `ipv6_forward` answers if there is forwarding. -/
structure Ipv6Net where
  broadcast : Bool
  ipv6addr : List UInt8
  addresses : List (List UInt8)
  forward : Option Bool

def ipProtoIcmp6 : UInt8 := 58

def nextHopbybotEh : UInt8 := 0

def nextEncapEh : UInt8 := 41

def nextRoutingEh : UInt8 := 43

def nextFragmentEh : UInt8 := 44

def nextRrsvpEh : UInt8 := 46

def nextEncapsecEh : UInt8 := 50

def nextAuthEh : UInt8 := 51

def nextDestoptEh : UInt8 := 60

def nextMobilityEh : UInt8 := 135

def nextHostidEh : UInt8 := 139

def nextShim6Eh : UInt8 := 140

def ipv6Exthdr (nxthdr : UInt8) : Bool :=
  nxthdr = nextHopbybotEh || nxthdr = nextEncapEh || nxthdr = nextRoutingEh ||
    nxthdr = nextFragmentEh || nxthdr = nextRrsvpEh || nxthdr = nextEncapsecEh ||
    nxthdr = nextAuthEh || nxthdr = nextDestoptEh || nxthdr = nextMobilityEh ||
    nxthdr = nextHostidEh || nxthdr = nextShim6Eh

def exthdrLen (len : UInt8) : UInt16 := (len.toUInt16 + 1) <<< 3

def ipv6Destipaddr (dev : Dev) : List UInt8 := dev.bytes (dev.llhdrlen + 24) 16

def netIsAddrMcast (dev : Dev) : Bool := dev.byte 24 = 0xff

variable (net : Ipv6Net) (dev : Dev)

def checkDestipaddr : Bool :=
  (dev.byte 24 = 0xff && dev.byte 25 = 0x02) || net.addresses.contains (ipv6Destipaddr dev)

def ipv6Unspecaddr : List UInt8 := List.replicate 16 0

structure Walk where
  iphdrlen : UInt16
  nxthdr : UInt8
  reads : List Nat

@[grind =] def extWalk (dev : Dev) : Nat → Nat → UInt16 → UInt8 → Option Walk
  | 0, _, iphdrlen, nxthdr => if ipv6Exthdr nxthdr then none else some ⟨iphdrlen, nxthdr, []⟩
  | fuel + 1, off, iphdrlen, nxthdr =>
    if ipv6Exthdr nxthdr then
      let extlen := exthdrLen (dev.byte (off + 1))
      (extWalk dev fuel (off + extlen.toNat) (iphdrlen + extlen) (dev.byte off)).map fun walk =>
        { walk with reads := (off + 1) :: off :: walk.reads }
    else some ⟨iphdrlen, nxthdr, []⟩

def ipv6Dispatch (dev : Dev) (walk : Walk) : Ipv6Outcome :=
  if walk.nxthdr = ipProtoTcp then .tcp dev walk.iphdrlen
  else if walk.nxthdr = ipProtoUdp then .udp dev walk.iphdrlen
  else if walk.nxthdr = ipProtoIcmp6 then .icmpv6 dev walk.iphdrlen
  else .drop

def ipv6Local (walk : Walk) : Ipv6Outcome :=
  if net.ipv6addr = ipv6Unspecaddr then .drop else ipv6Dispatch dev walk

def ipv6Addressed (walk : Walk) : Ipv6Outcome :=
  if net.broadcast && netIsAddrMcast dev then ipv6Local net dev walk
  else if checkDestipaddr net dev then ipv6Local net dev walk
  else if net.forward = some true then .forwarded
  else if walk.nxthdr ≠ ipProtoUdp then .drop
  else ipv6Local net dev walk

def ipv6Paylen (dev : Dev) : UInt16 := ipv6Len dev + UInt16.ofNat ipv6Hdrlen

def ipv6Input (net : Ipv6Net) (fuel : Nat) (dev : Dev) : Option (Ipv6Outcome × List Nat) :=
  if dev.byte 0 &&& 0xf0 ≠ 0x60 then some (.drop, [])
  else if dev.llhdrlen + ipv6Hdrlen > dev.len.toNat then some (.drop, [])
  else
    let dev := { dev with len := dev.len - UInt16.ofNat dev.llhdrlen }
    if ipv6Paylen dev ≤ dev.len then
      let dev := { dev with len := ipv6Paylen dev }
      (extWalk dev fuel ipv6Hdrlen (UInt16.ofNat ipv6Hdrlen) (dev.byte 6)).map fun walk =>
        (ipv6Addressed net dev walk, walk.reads)
    else some (.drop, [])

end Nuttx.Net

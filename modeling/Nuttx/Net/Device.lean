import Mathlib.Data.BitVec

/-!
# The network device and its packet buffer

A received packet lies in `d_buf` behind the link layer header. `d_len` is its length; `d_appdata`
is where the payload is said to begin, kept here as an index into `d_buf`.
-/

namespace Nuttx.Net

/-- `PF_INET` or `PF_INET6`. -/
inductive Domain
  | inet
  | inet6
deriving DecidableEq, Repr

structure Dev where
  buf : Nat → UInt8
  llhdrlen : Nat
  pktsize : UInt16
  ipaddr : UInt32
  netmask : UInt32
  len : UInt16
  sndlen : UInt16
  appdata : Nat

variable (dev : Dev)

namespace Dev

def bytes (off n : Nat) : List UInt8 :=
  (List.range n).map fun i => dev.buf (off + i)

def byte (k : Nat) : UInt8 := dev.buf (dev.llhdrlen + k)

@[simp]
theorem length_bytes (off n : Nat) : (dev.bytes off n).length = n := by
  rw [bytes, List.length_map, List.length_range]

end Dev

def received (ipaddr : UInt32) (packet : List UInt8) : Dev where
  buf := fun i => packet.getD i 0
  llhdrlen := 0
  pktsize := 576
  ipaddr := ipaddr
  netmask := 0xffffff00
  len := UInt16.ofNat packet.length
  sndlen := 0
  appdata := 40

def be16 (hi lo : UInt8) : UInt16 := (hi.toUInt16 <<< 8) + lo.toUInt16

def be32 (b0 b1 b2 b3 : UInt8) : UInt32 :=
  b0.toUInt32 <<< 24 ||| b1.toUInt32 <<< 16 ||| b2.toUInt32 <<< 8 ||| b3.toUInt32

def htons (hs : UInt16) : UInt16 := (hs <<< 8) ||| (hs >>> 8)

def chksumAdd (sum t : UInt16) : UInt16 :=
  let sum := sum + t
  if sum < t then sum + 1 else sum

def chksum : UInt16 → List UInt8 → UInt16
  | sum, b0 :: b1 :: data => chksum (chksumAdd sum (be16 b0 b1)) data
  | sum, [b0] => chksumAdd sum (be16 b0 0)
  | sum, [] => sum

def chksumResult (sum : UInt16) : UInt16 := if sum = 0 then 0xffff else htons sum

def ipv4Hdrlen : Nat := 20

def ipv6Hdrlen : Nat := 40

def ipv4HeaderLength : Nat := (dev.byte 0 &&& 0x0f).toNat * 4

def ipv4Len : UInt16 := be16 (dev.byte 2) (dev.byte 3)

def ipv6Len : UInt16 := be16 (dev.byte 4) (dev.byte 5)

def ipv4UpperlayerChksum (proto : UInt8) : UInt16 :=
  let iphdrlen := ipv4HeaderLength dev
  let upperlen := ipv4Len dev - UInt16.ofNat iphdrlen
  if upperlen > dev.pktsize then 0
  else
    let sum := upperlen + proto.toUInt16
    let sum := chksum sum (dev.bytes (dev.llhdrlen + 12) 8)
    let sum := chksum sum (dev.bytes (iphdrlen + dev.llhdrlen) upperlen.toNat)
    chksumResult sum

def ipv6UpperlayerChksum (proto : UInt8) (iplen : Nat) : UInt16 :=
  let upperlen := ipv6Len dev - UInt16.ofNat (iplen - ipv6Hdrlen)
  if upperlen > dev.pktsize then 0
  else
    let sum := upperlen + proto.toUInt16
    let sum := chksum sum (dev.bytes (dev.llhdrlen + 8) 32)
    let sum := chksum sum (dev.bytes (dev.llhdrlen + iplen) upperlen.toNat)
    chksumResult sum

def ipv4Chksum : UInt16 :=
  chksumResult (chksum 0 (dev.bytes dev.llhdrlen (ipv4HeaderLength dev)))

def ipProtoTcp : UInt8 := 6

def tcpChksum : Domain → UInt16
  | .inet => ipv4UpperlayerChksum dev ipProtoTcp
  | .inet6 => ipv6UpperlayerChksum dev ipProtoTcp ipv6Hdrlen

end Nuttx.Net

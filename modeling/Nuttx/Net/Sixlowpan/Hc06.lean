import Nuttx.Library.Buffer
import Nuttx.Net.Device

/-!
# 6LoWPAN header compression (HC06)

`sixlowpan_compresshdr_hc06` writes a compressed IPv6 header, and the UDP header behind it, into a frame;
`sixlowpan_uncompresshdr_hc06` restores them from it. Addresses and multi-byte fields are in network
order. UDP is configured in, and so are MAC addresses of one, two and eight bytes.

What is written through `g_hc06ptr` is a list here: the pointer only moves forward.
-/

namespace Nuttx.Sixlowpan

open Nuttx.Net (be16)
open Buffer (copy start)

/-- `net_ipv6addr_t`, byte by byte. -/
abbrev Ipv6Addr := Fin 16 → UInt8

def hi (w : UInt16) : UInt8 := (w >>> 8).toUInt8

def lo (w : UInt16) : UInt8 := w.toUInt8

variable (ipaddr : Ipv6Addr)

def word (i : Nat) : UInt16 := be16 (start ipaddr (2 * i)) (start ipaddr (2 * i + 1))

def setWord (i : Nat) (w : UInt16) : Ipv6Addr :=
  copy ipaddr (2 * i) 2 fun k => if k = 0 then hi w else lo w

def bytes (off len : Nat) : List UInt8 :=
  (List.range len).map fun k => start ipaddr (off + k)

structure Varaddr where
  addr : Nat → UInt8
  addrlen : UInt8

structure Ipv6Hdr where
  vtc : UInt8
  tcf : UInt8
  flow : UInt16
  len0 : UInt8
  len1 : UInt8
  proto : UInt8
  ttl : UInt8
  srcipaddr : Ipv6Addr
  destipaddr : Ipv6Addr
deriving DecidableEq

structure UdpHdr where
  srcport : UInt16
  destport : UInt16
  udplen : UInt16
  udpchksum : UInt16
deriving DecidableEq

def ipProtoUdp : UInt8 := 17

def ipv6Hdrlen : UInt8 := 40

def udpHdrlen : UInt8 := 8

structure Addrcontext where
  used : UInt8
  number : UInt8
  pref : Fin 8 → UInt8

def findAddrcontextBynumber (number : UInt8) (contexts : List Addrcontext) : Option Addrcontext :=
  contexts.find? fun c => c.used = 1 ∧ c.number = number

def netIpv6addrPrefixcmp (pref : Fin 8 → UInt8) (ipaddr : Ipv6Addr) : Bool :=
  ∀ k : Fin 8, pref k = start ipaddr k

def findAddrcontextByPrefix (contexts : List Addrcontext) : Option Addrcontext :=
  contexts.find? fun c => c.used = 1 ∧ netIpv6addrPrefixcmp c.pref ipaddr

def initialContext (pref0 : Fin 8 → UInt8) (preinit1 preinit2 : Option (Fin 8 → UInt8)) (i : Nat) :
    Addrcontext :=
  match i, preinit1, preinit2 with
  | 0, _, _ => ⟨1, 0, pref0⟩
  | 1, some pref1, _ => ⟨1, 1, pref1⟩
  | 2, some _, some pref2 => ⟨1, 2, pref2⟩
  | _, _, _ => ⟨0, 0, fun _ => 0⟩

def sixlowpanHc06Initialize (maxaddrcontext : Nat) (pref0 : Fin 8 → UInt8)
    (preinit1 preinit2 : Option (Fin 8 → UInt8)) : List Addrcontext :=
  (List.range maxaddrcontext).map (initialContext pref0 preinit1 preinit2)

variable (a : Ipv6Addr)

def netIsAddrUnspecified : Bool :=
  word a 0 = 0 ∧ word a 1 = 0 ∧ word a 2 = 0 ∧ word a 3 = 0 ∧ word a 4 = 0 ∧ word a 5 = 0 ∧
    word a 6 = 0 ∧ word a 7 = 0

def netIsAddrMcast : Bool := word a 0 &&& 0xff00 = 0xff00

def netIsAddrLinklocal : Bool := word a 0 = 0xfe80

def isIid16bitCompressable : Bool := word a 4 = 0 ∧ word a 5 = 0x00ff ∧ word a 6 = 0xfe00

def isMcastaddrCompressable48 : Bool :=
  word a 1 = 0 ∧ word a 2 = 0 ∧ word a 3 = 0 ∧ word a 4 = 0 ∧ word a 5 &&& 0xff00 = 0

def isMcastaddrCompressable32 : Bool :=
  word a 1 = 0 ∧ word a 2 = 0 ∧ word a 3 = 0 ∧ word a 4 = 0 ∧ word a 5 = 0 ∧ word a 6 &&& 0xff00 = 0

def isMcastaddrCompressable8 : Bool :=
  word a 0 &&& 0x00ff = 0x0002 ∧ word a 1 = 0 ∧ word a 2 = 0 ∧ word a 3 = 0 ∧ word a 4 = 0 ∧
    word a 5 = 0 ∧ word a 6 = 0 ∧ word a 7 &&& 0xff00 = 0

def sixlowpanIsbytebased (byte : UInt8) : Bool :=
  word a 5 = 0x00ff ∧ word a 6 = 0xfe00 ∧ word a 7 = byte.toUInt16

def sixlowpanIssaddrbased (saddr : Nat → UInt8) : Bool :=
  word a 5 = 0x00ff ∧ word a 6 = 0xfe00 ∧ word a 7 = be16 (saddr 0) (saddr 1)

def sixlowpanIseaddrbased (eaddr : Nat → UInt8) : Bool :=
  if word a 4 &&& 0x0200 = 0 then false
  else
    word a 4 = be16 (eaddr 0) (eaddr 1) ^^^ 0x0200 ∧ word a 5 = be16 (eaddr 2) (eaddr 3) ∧
      word a 6 = be16 (eaddr 4) (eaddr 5) ∧ word a 7 = be16 (eaddr 6) (eaddr 7)

def sixlowpanIsmacbased (mac : Varaddr) : Bool :=
  if mac.addrlen = 1 then sixlowpanIsbytebased a (mac.addr 0)
  else if mac.addrlen = 2 then sixlowpanIssaddrbased a mac.addr
  else if mac.addrlen = 8 then sixlowpanIseaddrbased a mac.addr
  else false

def iphcTc01 : UInt8 := 0x08
def iphcTc10 : UInt8 := 0x10
def iphcNh : UInt8 := 0x04
def iphcHlimMask : UInt8 := 0x03
def iphcCid : UInt8 := 0x80
def iphcSac : UInt8 := 0x40
def iphcSamMask : UInt8 := 0x30
def iphcM : UInt8 := 0x08
def iphcDac : UInt8 := 0x04
def iphcDamMask : UInt8 := 0x03
def iphcSamBit : UInt8 := 4
def iphcDamBit : UInt8 := 0

def compressIpaddr (bitpos : UInt8) : UInt8 × List UInt8 :=
  if isIid16bitCompressable a then (2 <<< bitpos, bytes a 14 2) else (1 <<< bitpos, bytes a 8 8)

def compressTagaddr (mac : Varaddr) (bitpos : UInt8) : UInt8 × List UInt8 :=
  if sixlowpanIsmacbased a mac then (3 <<< bitpos, []) else compressIpaddr a bitpos

def compressTraffic (ipv6 : Ipv6Hdr) : UInt8 × List UInt8 :=
  let tmp := (ipv6.vtc <<< 4) ||| (ipv6.tcf >>> 4)
  let tmp := ((tmp &&& 0x03) <<< 6) ||| (tmp >>> 2)
  if ipv6.tcf &&& 0x0f = 0 ∧ ipv6.flow = 0 then
    if ipv6.vtc &&& 0x0f = 0 ∧ ipv6.tcf &&& 0xf0 = 0 then (iphcTc10 ||| iphcTc01, [])
    else (iphcTc10, [tmp])
  else if ipv6.vtc &&& 0x0f = 0 ∧ ipv6.tcf &&& 0xf0 = 0 then
    (iphcTc01, [(tmp &&& 0xc0) ||| (ipv6.tcf &&& 0x0f), hi ipv6.flow, lo ipv6.flow])
  else (0, [tmp, ipv6.tcf, hi ipv6.flow, lo ipv6.flow])

def compressNext (proto : UInt8) : UInt8 × List UInt8 :=
  if proto = ipProtoUdp then (iphcNh, []) else (0, [proto])

def compressHlim (ttl : UInt8) : UInt8 × List UInt8 :=
  if ttl = 1 then (1, []) else if ttl = 64 then (2, []) else if ttl = 255 then (3, []) else (0, [ttl])

structure Encoded where
  iphc1 : UInt8
  iphc2 : UInt8
  inline : List UInt8

def isLinklocalPrefix : Bool :=
  netIsAddrLinklocal a ∧ word a 1 = 0 ∧ word a 2 = 0 ∧ word a 3 = 0

variable (contexts : List Addrcontext)

def compressSrc (mac : Varaddr) (a : Ipv6Addr) : Encoded :=
  if netIsAddrUnspecified a then ⟨iphcSac, 0, []⟩
  else
    match findAddrcontextByPrefix a contexts with
    | some c =>
      let tag := compressTagaddr a mac iphcSamBit
      ⟨iphcSac ||| tag.1, c.number <<< 4, tag.2⟩
    | none =>
      if isLinklocalPrefix a then
        let tag := compressTagaddr a mac iphcSamBit
        ⟨tag.1, 0, tag.2⟩
      else ⟨0, 0, bytes a 0 16⟩

def compressDest (mac : Varaddr) (a : Ipv6Addr) : Encoded :=
  if netIsAddrMcast a then
    if isMcastaddrCompressable8 a then ⟨iphcM ||| 3, 0, [lo (word a 7)]⟩
    else if isMcastaddrCompressable32 a then ⟨iphcM ||| 2, 0, start a 1 :: bytes a 13 3⟩
    else if isMcastaddrCompressable48 a then ⟨iphcM ||| 1, 0, start a 1 :: bytes a 11 5⟩
    else ⟨iphcM, 0, bytes a 0 16⟩
  else
    match findAddrcontextByPrefix a contexts with
    | some c =>
      let tag := compressTagaddr a mac iphcDamBit
      ⟨iphcDac ||| tag.1, c.number, tag.2⟩
    | none =>
      if isLinklocalPrefix a then
        let tag := compressTagaddr a mac iphcDamBit
        ⟨tag.1, 0, tag.2⟩
      else ⟨0, 0, bytes a 0 16⟩

def nhcUdpCsP00 : UInt8 := 0xf0
def nhcUdpCsP01 : UInt8 := 0xf1
def nhcUdpCsP10 : UInt8 := 0xf2
def nhcUdpCsP11 : UInt8 := 0xf3
def udp4BitPortMin : UInt16 := 0xf0b0
def udp8BitPortMin : UInt16 := 0xf000

def compressPorts (udp : UdpHdr) : List UInt8 :=
  if udp.srcport &&& 0xfff0 = udp4BitPortMin ∧ udp.destport &&& 0xfff0 = udp4BitPortMin then
    [nhcUdpCsP11, ((udp.srcport - udp4BitPortMin) <<< 4).toUInt8 + (udp.destport - udp4BitPortMin).toUInt8]
  else if udp.destport &&& 0xff00 = udp8BitPortMin then
    [nhcUdpCsP01, hi udp.srcport, lo udp.srcport, (udp.destport - udp8BitPortMin).toUInt8]
  else if udp.srcport &&& 0xff00 = udp8BitPortMin then
    [nhcUdpCsP10, (udp.srcport - udp8BitPortMin).toUInt8, hi udp.destport, lo udp.destport]
  else [nhcUdpCsP00, hi udp.srcport, lo udp.srcport, hi udp.destport, lo udp.destport]

def compressUdp (udp : UdpHdr) : List UInt8 := compressPorts udp ++ [hi udp.udpchksum, lo udp.udpchksum]

/-- `COMPRESS_HDR_INLINE` and `COMPRESS_HDR_ELIDED` -/
inductive CompressHdr
  | inline
  | elided
deriving DecidableEq

/-- What `sixlowpan_compresshdr_hc06` leaves: the compressed header from the old `g_frame_hdrlen` on, the
two lengths, and the answer. -/
structure Compressed where
  header : List UInt8
  frameHdrlen : UInt8
  uncompHdrlen : UInt8
  ret : CompressHdr

def hasContext (ipv6 : Ipv6Hdr) : Bool :=
  (findAddrcontextByPrefix ipv6.destipaddr contexts).isSome ||
    (findAddrcontextByPrefix ipv6.srcipaddr contexts).isSome

/-- `sixlowpan_compresshdr_hc06`. The byte `iphc[2]` is there if there is a context; otherwise the first
byte inline takes its place. -/
def compresshdrHc06 (radio destmac : Varaddr) (frameHdrlen : UInt8)
    (ipv6 : Ipv6Hdr) (udp : UdpHdr) : Compressed :=
  let cid := hasContext contexts ipv6
  let traffic := compressTraffic ipv6
  let next := compressNext ipv6.proto
  let hlim := compressHlim ipv6.ttl
  let src := compressSrc contexts radio ipv6.srcipaddr
  let dest := compressDest contexts destmac ipv6.destipaddr
  let iphc0 := 0x60 ||| traffic.1 ||| next.1 ||| hlim.1
  let iphc1 := (if cid then iphcCid else 0) ||| src.iphc1 ||| dest.iphc1
  let header := [iphc0, iphc1] ++ (if cid then [src.iphc2 ||| dest.iphc2] else []) ++ traffic.2 ++ next.2 ++
    hlim.2 ++ src.inline ++ dest.inline ++ (if ipv6.proto = ipProtoUdp then compressUdp udp else [])
  { header := header
    frameHdrlen := frameHdrlen + UInt8.ofNat header.length
    uncompHdrlen := if ipv6.proto = ipProtoUdp then ipv6Hdrlen + udpHdrlen else ipv6Hdrlen
    ret := if ipv6.proto = ipProtoUdp then .elided else .inline }

def gUncLlconf : List UInt16 := [0x000f, 0x0028, 0x0022, 0x0120]

def gUncCtxconf : List UInt16 := [0x0000, 0x0088, 0x0082, 0x0180]

def gUncMxconf : List UInt16 := [0x020f, 0x0225, 0x0223, 0x0221]

def gLlPrefix (k : Nat) : UInt8 := [0xfe, 0x80].getD k 0

def gTtlValues : List UInt8 := [0, 1, 64, 255]

def count (bits : UInt16) : Nat := if bits &&& 0x0f = 15 then 16 else (bits &&& 0x0f).toNat

structure Rule where
  usemac : Bool
  zeropad : Bool
  prefcount : Nat
  postcount : Nat
deriving DecidableEq

def rule (prefpost : UInt16) : Rule :=
  ⟨prefpost &&& 0x0100 ≠ 0, prefpost &&& 0x0200 ≠ 0, count (prefpost >>> 4), count prefpost⟩

def copyWords (srcptr : Nat → UInt8) : Nat → Nat → Ipv6Addr → Ipv6Addr
  | 0, _, ipaddr => ipaddr
  | n + 1, i, ipaddr =>
    copyWords (fun k => srcptr (k + 2)) n (i + 1) (setWord ipaddr i (be16 (srcptr 0) (srcptr 1)))

def applyRule (rule : Rule) (addr : Varaddr) (pref : Nat → UInt8) (frame : Nat → UInt8) (hc06ptr : Nat)
    (ipaddr : Ipv6Addr) : Ipv6Addr × Nat :=
  let srcptr := if rule.usemac then addr.addr else fun k => frame (hc06ptr + k)
  let postcount := if rule.usemac ∧ rule.postcount = 0 then addr.addrlen.toNat else rule.postcount
  let ipaddr := if rule.prefcount > 0 then copy ipaddr 0 rule.prefcount pref else ipaddr
  let ipaddr :=
    if rule.prefcount + postcount < 16 then
      copy ipaddr rule.prefcount (16 - (rule.prefcount + postcount)) fun _ => 0
    else ipaddr
  if postcount > 0 then
    let ipaddr :=
      if postcount ≤ 2 ∧ rule.prefcount < 11 ∧ ¬ rule.zeropad then
        setWord (setWord ipaddr 5 0x00ff) 6 0xfe00
      else ipaddr
    let destndx := 8 - postcount / 2
    let odd := postcount % 2 ≠ 0
    let ipaddr := if odd then setWord ipaddr (destndx - 1) (srcptr 0).toUInt16 else ipaddr
    let srcptr := if odd then fun k => srcptr (k + 1) else srcptr
    let ipaddr := copyWords srcptr (8 - destndx) destndx ipaddr
    let ipaddr :=
      if rule.usemac ∧ postcount = 8 then setWord ipaddr 4 (word ipaddr 4 ^^^ 0x0200) else ipaddr
    (ipaddr, if rule.usemac then hc06ptr else hc06ptr + postcount)
  else (ipaddr, hc06ptr)

def uncompressAddr (addr : Varaddr) (pref : Nat → UInt8) (prefpost : UInt16) (frame : Nat → UInt8)
    (hc06ptr : Nat) (ipaddr : Ipv6Addr) : Ipv6Addr × Nat :=
  applyRule (rule prefpost) addr pref frame hc06ptr ipaddr

structure Rx where
  ipv6 : Ipv6Hdr
  udp : UdpHdr
  hc06ptr : Nat
  frameHdrlen : UInt8
  uncompHdrlen : UInt8

variable (frame : Nat → UInt8) (iphc0 : UInt8) (rx : Rx)

def uncompressTraffic : Rx :=
  let p := rx.hc06ptr
  if iphc0 &&& iphcTc10 = 0 then
    if iphc0 &&& iphcTc01 = 0 then
      let tmp := frame p
      { rx with
        ipv6 := { rx.ipv6 with
          vtc := (0x60 : UInt8) ||| ((tmp >>> 2) &&& (0x0f : UInt8))
          tcf := ((tmp >>> 2) &&& (0x30 : UInt8)) ||| (tmp <<< 6) ||| (frame (p + 1) &&& 0x0f)
          flow := be16 (frame (p + 2)) (frame (p + 3)) }
        hc06ptr := p + 4 }
    else
      { rx with
        ipv6 := { rx.ipv6 with
          vtc := 0x60
          tcf := (frame p &&& (0x0f : UInt8)) ||| ((frame p >>> 2) &&& (0x30 : UInt8))
          flow := be16 (frame (p + 1)) (frame (p + 2)) }
        hc06ptr := p + 3 }
  else if iphc0 &&& iphcTc01 = 0 then
    { rx with
      ipv6 := { rx.ipv6 with
        vtc := (0x60 : UInt8) ||| ((frame p >>> 2) &&& (0x0f : UInt8))
        tcf := ((frame p <<< 6) &&& (0xc0 : UInt8)) ||| ((frame p >>> 2) &&& (0x30 : UInt8))
        flow := 0 }
      hc06ptr := p + 1 }
  else { rx with ipv6 := { rx.ipv6 with vtc := 0x60, tcf := 0, flow := 0 } }

def uncompressNext : Rx :=
  if iphc0 &&& iphcNh = 0 then
    { rx with ipv6 := { rx.ipv6 with proto := frame rx.hc06ptr }, hc06ptr := rx.hc06ptr + 1 }
  else rx

def uncompressHlim : Rx :=
  if iphc0 &&& iphcHlimMask ≠ 0 then
    { rx with ipv6 := { rx.ipv6 with ttl := gTtlValues.getD (iphc0 &&& iphcHlimMask).toNat 0 } }
  else { rx with ipv6 := { rx.ipv6 with ttl := frame rx.hc06ptr }, hc06ptr := rx.hc06ptr + 1 }

def Rx.setSrc (rx : Rx) (result : Ipv6Addr × Nat) : Rx :=
  { rx with ipv6 := { rx.ipv6 with srcipaddr := result.1 }, hc06ptr := result.2 }

def Rx.setDest (rx : Rx) (result : Ipv6Addr × Nat) : Rx :=
  { rx with ipv6 := { rx.ipv6 with destipaddr := result.1 }, hc06ptr := result.2 }

/-- The source address. The function returns early, with the buffer as it is, if the MAC address cannot be
extracted or there is no such context. -/
@[grind =] def uncompressSrc (srcaddr : Option Varaddr) (frame : Nat → UInt8)
    (iphc1 iphc2 : UInt8) (rx : Rx) : Except Rx Rx :=
  let tmp := (((iphc1 &&& iphcSamMask) >>> iphcSamBit) &&& 0x03).toNat
  match srcaddr with
  | none => .error rx
  | some addr =>
    if iphc1 &&& iphcSac ≠ 0 then
      let sci := if iphc1 &&& iphcCid ≠ 0 then iphc2 >>> 4 else 0
      let conf := gUncCtxconf.getD tmp 0
      if tmp ≠ 0 then
        match findAddrcontextBynumber sci contexts with
        | none => .error rx
        | some c => .ok (rx.setSrc (uncompressAddr addr (start c.pref) conf frame rx.hc06ptr rx.ipv6.srcipaddr))
      else .ok (rx.setSrc (uncompressAddr addr (fun _ => 0) conf frame rx.hc06ptr rx.ipv6.srcipaddr))
    else
      .ok (rx.setSrc
        (uncompressAddr addr gLlPrefix (gUncLlconf.getD tmp 0) frame rx.hc06ptr rx.ipv6.srcipaddr))

@[grind =] def uncompressDest (destaddr : Option Varaddr) (frame : Nat → UInt8)
    (iphc1 iphc2 : UInt8) (rx : Rx) : Except Rx Rx :=
  let tmp := (((iphc1 &&& iphcDamMask) >>> iphcDamBit) &&& 0x03).toNat
  match destaddr with
  | none => .error rx
  | some addr =>
    if iphc1 &&& iphcM ≠ 0 then
      if iphc1 &&& iphcDac ≠ 0 then .ok rx
      else
        let inlined := tmp > 0 ∧ tmp < 3
        let pref := fun k => if k = 0 then 0xff else if inlined then frame rx.hc06ptr else 0x02
        let p := if inlined then rx.hc06ptr + 1 else rx.hc06ptr
        .ok (rx.setDest (uncompressAddr addr pref (gUncMxconf.getD tmp 0) frame p rx.ipv6.destipaddr))
    else if iphc1 &&& iphcDac ≠ 0 then
      let dci := if iphc1 &&& iphcCid ≠ 0 then iphc2 &&& 0x0f else 0
      match findAddrcontextBynumber dci contexts with
      | none => .error rx
      | some c =>
        .ok (rx.setDest
          (uncompressAddr addr (start c.pref) (gUncCtxconf.getD tmp 0) frame rx.hc06ptr rx.ipv6.destipaddr))
    else
      .ok (rx.setDest
        (uncompressAddr addr gLlPrefix (gUncLlconf.getD tmp 0) frame rx.hc06ptr rx.ipv6.destipaddr))

def uncompressPorts (frame : Nat → UInt8) (rx : Rx) : Except Rx Rx :=
  let p := rx.hc06ptr
  let cs := frame p &&& nhcUdpCsP11
  if cs = nhcUdpCsP00 then
    .ok { rx with
      udp := { rx.udp with
        srcport := be16 (frame (p + 1)) (frame (p + 2)), destport := be16 (frame (p + 3)) (frame (p + 4)) }
      hc06ptr := p + 5 }
  else if cs = nhcUdpCsP01 then
    .ok { rx with
      udp := { rx.udp with
        srcport := be16 (frame (p + 1)) (frame (p + 2))
        destport := udp8BitPortMin + (frame (p + 3)).toUInt16 }
      hc06ptr := p + 4 }
  else if cs = nhcUdpCsP10 then
    .ok { rx with
      udp := { rx.udp with
        srcport := udp8BitPortMin + (frame (p + 1)).toUInt16
        destport := be16 (frame (p + 2)) (frame (p + 3)) }
      hc06ptr := p + 4 }
  else if cs = nhcUdpCsP11 then
    .ok { rx with
      udp := { rx.udp with
        srcport := udp4BitPortMin + (frame (p + 1) >>> 4).toUInt16
        destport := udp4BitPortMin + (frame (p + 1) &&& 0x0f).toUInt16 }
      hc06ptr := p + 2 }
  else .error rx

def uncompressUdp : Except Rx Rx :=
  if iphc0 &&& iphcNh ≠ 0 ∧ frame rx.hc06ptr &&& 0xf8 = 0xf0 then
    let checksumCompressed := frame rx.hc06ptr &&& 0x04
    match uncompressPorts frame { rx with ipv6 := { rx.ipv6 with proto := ipProtoUdp } } with
    | .error rx => .error rx
    | .ok rx =>
      let rx :=
        if checksumCompressed = 0 then
          { rx with
            udp := { rx.udp with udpchksum := be16 (frame rx.hc06ptr) (frame (rx.hc06ptr + 1)) }
            hc06ptr := rx.hc06ptr + 2 }
        else rx
      .ok { rx with uncompHdrlen := rx.uncompHdrlen + udpHdrlen }
  else .ok rx

def uncompressLen (ioLen iplen : UInt16) (rx : Rx) : Rx :=
  let rx := { rx with frameHdrlen := UInt8.ofNat rx.hc06ptr }
  let len :=
    if iplen = 0 then (0, ioLen.toUInt8 - rx.frameHdrlen + rx.uncompHdrlen - ipv6Hdrlen)
    else (hi (iplen - 40), lo (iplen - 40))
  { rx with
    ipv6 := { rx.ipv6 with len0 := len.1, len1 := len.2 }
    udp := if rx.ipv6.proto = ipProtoUdp then { rx.udp with udplen := be16 len.1 len.2 } else rx.udp }

/-- `sixlowpan_uncompresshdr_hc06`. The MAC addresses are what is extracted from the metadata of the frame;
an early return is an error. -/
def uncompresshdrHc06 (srcaddr destaddr : Option Varaddr)
    (iplen ioLen : UInt16) (frame : Nat → UInt8) (rx : Rx) : Except Rx Rx :=
  let iphc := rx.frameHdrlen.toNat
  let iphc0 := frame iphc
  let iphc1 := frame (iphc + 1)
  let iphc2 := frame (iphc + 2)
  let rx := { rx with hc06ptr := if iphc1 &&& iphcCid ≠ 0 then iphc + 3 else iphc + 2 }
  let rx := uncompressHlim frame iphc0 (uncompressNext frame iphc0 (uncompressTraffic frame iphc0 rx))
  match uncompressSrc contexts srcaddr frame iphc1 iphc2 rx with
  | .error rx => .error rx
  | .ok rx =>
    match uncompressDest contexts destaddr frame iphc1 iphc2 rx with
    | .error rx => .error rx
    | .ok rx =>
      match uncompressUdp frame iphc0 { rx with uncompHdrlen := rx.uncompHdrlen + ipv6Hdrlen } with
      | .error rx => .error rx
      | .ok rx => .ok (uncompressLen ioLen iplen rx)

end Nuttx.Sixlowpan

import Nuttx.Net.Sixlowpan.Proof.Fields

/-!
# Compression and uncompression

The receiver restores every byte of the headers exactly if it finds the right prefix under the
number of each context that was used.
-/

open List

namespace Nuttx.Sixlowpan

open Nuttx.Net (be16)
open Buffer (copy start Lies lies_append lies_getD start_of_fin)

theorem or_and (x y k : UInt8) : (x ||| y) &&& k = (x &&& k) ||| (y &&& k) := by
  apply UInt8.eq_of_toBitVec_eq
  exact BitVec.and_or_distrib_right

theorem compressTraffic_bits (ipv6 : Ipv6Hdr) : ∃ i : Fin 4, (compressTraffic ipv6).1 = UInt8.ofNat (8 * i) := by
  unfold compressTraffic
  split_ifs
  exacts [⟨3, rfl⟩, ⟨2, rfl⟩, ⟨1, rfl⟩, ⟨0, rfl⟩]

theorem compressNext_bits (proto : UInt8) : ∃ j : Fin 2, (compressNext proto).1 = UInt8.ofNat (4 * j) := by
  unfold compressNext
  split_ifs
  exacts [⟨1, rfl⟩, ⟨0, rfl⟩]

theorem compressHlim_bits (ttl : UInt8) : ∃ k : Fin 4, (compressHlim ttl).1 = UInt8.ofNat k := by
  unfold compressHlim
  split_ifs
  exacts [⟨1, rfl⟩, ⟨2, rfl⟩, ⟨3, rfl⟩, ⟨0, rfl⟩]

theorem iphc0_bits (ipv6 : Ipv6Hdr) :
    let iphc0 := 0x60 ||| (compressTraffic ipv6).1 ||| (compressNext ipv6.proto).1 ||| (compressHlim ipv6.ttl).1
    iphc0 &&& 0x18 = (compressTraffic ipv6).1 ∧ iphc0 &&& iphcNh = (compressNext ipv6.proto).1 ∧
      iphc0 &&& iphcHlimMask = (compressHlim ipv6.ttl).1 := by
  have hall : ∀ (i : Fin 4) (j : Fin 2) (k : Fin 4),
      (0x60 ||| UInt8.ofNat (8 * i) ||| UInt8.ofNat (4 * j) ||| UInt8.ofNat k) &&& 0x18 = UInt8.ofNat (8 * i) ∧
      (0x60 ||| UInt8.ofNat (8 * i) ||| UInt8.ofNat (4 * j) ||| UInt8.ofNat k) &&& iphcNh = UInt8.ofNat (4 * j) ∧
      (0x60 ||| UInt8.ofNat (8 * i) ||| UInt8.ofNat (4 * j) ||| UInt8.ofNat k) &&& iphcHlimMask = UInt8.ofNat k := by
    decide
  obtain ⟨i, hi⟩ := compressTraffic_bits ipv6
  obtain ⟨j, hj⟩ := compressNext_bits ipv6.proto
  obtain ⟨k, hk⟩ := compressHlim_bits ipv6.ttl
  rw [hi, hj, hk]
  exact hall i j k

theorem compressTagaddr_bits (a : Ipv6Addr) (mac : Varaddr) (bitpos : UInt8) (p : UInt8 → Prop)
    (h : ∀ mode : Fin 4, p (UInt8.ofNat mode <<< bitpos)) : p (compressTagaddr a mac bitpos).1 := by
  unfold compressTagaddr compressIpaddr
  split_ifs
  exacts [h 3, h 2, h 1]

theorem compressSrc_bits (contexts : List Addrcontext) (mac : Varaddr) (a : Ipv6Addr) :
    (compressSrc contexts mac a).iphc1 &&& 0x70 = (compressSrc contexts mac a).iphc1 := by
  obtain ⟨hcontext, hlocal⟩ := compressTagaddr_bits a mac iphcSamBit
    (fun x => (iphcSac ||| x) &&& 0x70 = iphcSac ||| x ∧ x &&& 0x70 = x) (by decide)
  have hsac : iphcSac &&& 0x70 = iphcSac := by decide
  have hfull : (0 : UInt8) &&& 0x70 = 0 := by decide
  unfold compressSrc
  cases findAddrcontextByPrefix a contexts with
  | some c =>
    dsimp only
    split_ifs
    exacts [hsac, hcontext]
  | none =>
    split_ifs
    exacts [hsac, hlocal, hfull]

theorem compressDest_bits (contexts : List Addrcontext) (mac : Varaddr) (a : Ipv6Addr) :
    (compressDest contexts mac a).iphc1 &&& 0x0f = (compressDest contexts mac a).iphc1 := by
  obtain ⟨hcontext, hlocal⟩ := compressTagaddr_bits a mac iphcDamBit
    (fun x => (iphcDac ||| x) &&& 0x0f = iphcDac ||| x ∧ x &&& 0x0f = x) (by decide)
  have hmcast : ∀ mode : Fin 4, (iphcM ||| UInt8.ofNat mode) &&& 0x0f = iphcM ||| UInt8.ofNat mode := by decide
  have hfull : (0 : UInt8) &&& 0x0f = 0 := by decide
  unfold compressDest
  cases findAddrcontextByPrefix a contexts with
  | some c =>
    dsimp only
    split_ifs
    exacts [hmcast 3, hmcast 2, hmcast 1, hmcast 0, hcontext]
  | none =>
    split_ifs
    exacts [hmcast 3, hmcast 2, hmcast 1, hmcast 0, hlocal, hfull]

theorem iphc1_bits {c : Bool} {s d : UInt8} (hs : s &&& 0x70 = s) (hd : d &&& 0x0f = d) :
    ((if c then iphcCid else 0) ||| s ||| d) &&& 0x70 = s ∧
      ((if c then iphcCid else 0) ||| s ||| d) &&& 0x0f = d ∧
      (((if c then iphcCid else 0) ||| s ||| d) &&& iphcCid ≠ 0 ↔ c = true) := by
  have hs0f : s &&& 0x0f = 0 := by rw [← hs, UInt8.and_assoc]; exact UInt8.and_zero
  have hs80 : s &&& iphcCid = 0 := by rw [← hs, UInt8.and_assoc]; exact UInt8.and_zero
  have hd70 : d &&& 0x70 = 0 := by rw [← hd, UInt8.and_assoc]; exact UInt8.and_zero
  have hd80 : d &&& iphcCid = 0 := by rw [← hd, UInt8.and_assoc]; exact UInt8.and_zero
  rw [or_and, or_and, or_and, or_and, or_and, or_and, hs, hd, hs0f, hs80, hd70, hd80]
  simp only [UInt8.or_zero]
  cases c with
  | true | false => exact ⟨UInt8.zero_or, UInt8.zero_or, by decide⟩

theorem small_number : ∀ n : UInt8, n < 16 → n >>> 4 = 0 ∧ n &&& 0x0f = n := by decide +kernel

theorem shifted_number (n : UInt8) : (n <<< 4) &&& 0x0f = 0 ∧ (n < 16 → (n <<< 4) >>> 4 = n) := by
  constructor
  · have hout : (n <<< 4) &&& (0x0f : UInt8) = ((n <<< 4) <<< 4) >>> 4 := ((shifted_halves (n <<< 4)).1.1).symm
    rw [hout, (shifted_halves n).2.1.1]
    rfl
  · intro hn
    rw [(shifted_halves n).1.1, (small_number n hn).2]

variable {contexts : List Addrcontext} {a : Ipv6Addr} {c : Addrcontext} {ipv6 : Ipv6Hdr}
  {frame : Nat → UInt8} {rx : Rx} {iplen ioLen : UInt16} {link : Link} {sent : UInt8}
  {headers : Headers}

theorem number_lt (hnumbers : ∀ c ∈ contexts, c.number < 16)
    (h : findAddrcontextByPrefix a contexts = some c) : c.number < 16 :=
  hnumbers c (mem_of_find?_eq_some h)

theorem compressSrc_iphc2_and (contexts : List Addrcontext) (mac : Varaddr) (a : Ipv6Addr) :
    (compressSrc contexts mac a).iphc2 &&& 0x0f = 0 := by
  unfold compressSrc
  cases findAddrcontextByPrefix a contexts with
  | some c =>
    dsimp only
    split_ifs
    exacts [UInt8.zero_and, (shifted_number c.number).1]
  | none =>
    split_ifs
    exacts [UInt8.zero_and, UInt8.zero_and, UInt8.zero_and]

section

variable (hnumbers : ∀ c ∈ contexts, c.number < 16)
include hnumbers

theorem compressDest_iphc2_shift
    (mac : Varaddr) (a : Ipv6Addr) : (compressDest contexts mac a).iphc2 >>> 4 = 0 := by
  have hzero : (0 : UInt8) >>> 4 = 0 := by decide
  unfold compressDest
  cases hfind : findAddrcontextByPrefix a contexts with
  | some c =>
    dsimp only
    split_ifs
    exacts [hzero, hzero, hzero, hzero, (small_number _ (number_lt hnumbers hfind)).1]
  | none =>
    split_ifs
    exacts [hzero, hzero, hzero, hzero, hzero, hzero]

theorem sci_eq {mac destmac : Varaddr} {b : Ipv6Addr} (hunspec : netIsAddrUnspecified a = false)
    (h : findAddrcontextByPrefix a contexts = some c) :
    ((compressSrc contexts mac a).iphc2 ||| (compressDest contexts destmac b).iphc2) >>> 4 = c.number := by
  have hsrc : (compressSrc contexts mac a).iphc2 = c.number <<< 4 := by
    rw [compressSrc, if_neg (ne_true_of_eq_false hunspec), h]
  rw [UInt8.shiftRight_or, compressDest_iphc2_shift hnumbers, UInt8.or_zero, hsrc,
    (shifted_number c.number).2 (number_lt hnumbers h)]

end

structure Link where
  contexts : List Addrcontext
  radio : Varaddr
  destmac : Varaddr
  numbers : ∀ c ∈ contexts, c.number < 16
  radio8 : radio.addrlen = 8
  destmac8 : destmac.addrlen = 8

structure Headers where
  ipv6 : Ipv6Hdr
  udp : UdpHdr
  version : ipv6.vtc >>> 4 = 6
  udplen : ipv6.proto = ipProtoUdp → udp.udplen = be16 ipv6.len0 ipv6.len1

def Link.compress (link : Link) (frameHdrlen : UInt8) (headers : Headers) : Compressed :=
  compresshdrHc06 link.contexts link.radio link.destmac frameHdrlen headers.ipv6 headers.udp

def Link.uncompress (link : Link) (iplen ioLen : UInt16) (frame : Nat → UInt8) (rx : Rx) : Except Rx Rx :=
  uncompresshdrHc06 link.contexts (some link.radio) (some link.destmac) iplen ioLen frame rx

def Link.fields (link : Link) (headers : Headers) (header : List UInt8) (rx : Rx) : Rx where
  ipv6 := { headers.ipv6 with
    len0 := rx.ipv6.len0
    len1 := rx.ipv6.len1
    srcipaddr := receivedSrc link.contexts headers.ipv6.srcipaddr
    destipaddr := receivedDest link.contexts headers.ipv6.destipaddr }
  udp := if headers.ipv6.proto = ipProtoUdp then { headers.udp with udplen := rx.udp.udplen } else rx.udp
  hc06ptr := rx.frameHdrlen.toNat + header.length
  frameHdrlen := rx.frameHdrlen
  uncompHdrlen :=
    if headers.ipv6.proto = ipProtoUdp then rx.uncompHdrlen + ipv6Hdrlen + udpHdrlen
    else rx.uncompHdrlen + ipv6Hdrlen

theorem uncompress_fixed (hversion : ipv6.vtc >>> 4 = 6) {iphc0 : UInt8}
    (htraffic : iphc0 &&& 0x18 = (compressTraffic ipv6).1)
    (hnext : iphc0 &&& iphcNh = (compressNext ipv6.proto).1)
    (hhlim : iphc0 &&& iphcHlimMask = (compressHlim ipv6.ttl).1) {p : Nat} (rx : Rx)
    (hlies : Lies frame p ((compressTraffic ipv6).2 ++ ((compressNext ipv6.proto).2 ++ (compressHlim ipv6.ttl).2))) :
    uncompressHlim frame iphc0 (uncompressNext frame iphc0
      (uncompressTraffic frame iphc0 { rx with hc06ptr := p })) =
      { rx with
        ipv6 := { rx.ipv6 with
          vtc := ipv6.vtc, tcf := ipv6.tcf, flow := ipv6.flow
          proto := if ipv6.proto = ipProtoUdp then rx.ipv6.proto else ipv6.proto, ttl := ipv6.ttl }
        hc06ptr := p + (compressTraffic ipv6).2.length + (compressNext ipv6.proto).2.length +
          (compressHlim ipv6.ttl).2.length } := by
  rw [lies_append, lies_append] at hlies
  obtain ⟨hlies0, hlies1, hlies2⟩ := hlies
  have h0 : Lies frame ({ rx with hc06ptr := p } : Rx).hc06ptr (compressTraffic ipv6).2 := hlies0
  rw [uncompressTraffic_eq hversion htraffic h0]
  rw [uncompressNext_eq hnext hlies1]
  rw [uncompressHlim_eq hhlim hlies2]

theorem Link.uncompress_eq (link : Link) (sent : UInt8) (headers : Headers)
    (hlies : Lies frame rx.frameHdrlen.toNat (link.compress sent headers).header) (iplen ioLen : UInt16) :
    link.uncompress iplen ioLen frame rx =
      .ok (uncompressLen ioLen iplen (link.fields headers (link.compress sent headers).header rx)) := by
  obtain ⟨contexts, radio, destmac, hnumbers, hradio, hdestmac⟩ := link
  obtain ⟨ipv6, udp, hversion, hudplen⟩ := headers
  obtain ⟨htraffic, hnext, hhlim⟩ := iphc0_bits ipv6
  obtain ⟨hsrc, hdest, hcid⟩ := iphc1_bits (c := hasContext contexts ipv6)
    (compressSrc_bits contexts radio ipv6.srcipaddr) (compressDest_bits contexts destmac ipv6.destipaddr)
  unfold Link.compress compresshdrHc06 at hlies ⊢
  dsimp only at hlies ⊢
  unfold Link.uncompress uncompresshdrHc06 Link.fields
  dsimp only
  generalize 0x60 ||| (compressTraffic ipv6).1 ||| (compressNext ipv6.proto).1 |||
    (compressHlim ipv6.ttl).1 = iphc0 at htraffic hnext hhlim hlies ⊢
  generalize (if hasContext contexts ipv6 = true then iphcCid else 0) |||
    (compressSrc contexts radio ipv6.srcipaddr).iphc1 |||
    (compressDest contexts destmac ipv6.destipaddr).iphc1 = iphc1 at hsrc hdest hcid hlies ⊢
  simp only [append_assoc, lies_append, cons_append, nil_append, Lies] at hlies
  obtain ⟨hiphc0, hiphc1, hctx, hlies0, hlies1, hlies2, hliessrc, hliesdest, hliesudp⟩ := hlies
  have hptr : (if iphc1 &&& iphcCid ≠ 0 then rx.frameHdrlen.toNat + 3 else rx.frameHdrlen.toNat + 2) =
      rx.frameHdrlen.toNat + 1 + 1 + (if hasContext contexts ipv6 = true then
        [(compressSrc contexts radio ipv6.srcipaddr).iphc2 |||
          (compressDest contexts destmac ipv6.destipaddr).iphc2] else []).length := by
    by_cases hhas : hasContext contexts ipv6 = true
    · rw [if_pos (hcid.mpr hhas), if_pos hhas]
      rfl
    · rw [if_neg (fun h => hhas (hcid.mp h)), if_neg hhas]
      rfl
  have hsci : netIsAddrUnspecified ipv6.srcipaddr = false → ∀ c,
      findAddrcontextByPrefix ipv6.srcipaddr contexts = some c →
      (if iphc1 &&& iphcCid ≠ 0 then frame (rx.frameHdrlen.toNat + 2) >>> 4 else 0) = c.number := by
    intro hunspec c hfind
    have hhas : hasContext contexts ipv6 = true := by simp [hasContext, hfind]
    rw [if_pos hhas] at hctx
    rw [if_pos (hcid.mpr hhas), hctx.1, sci_eq hnumbers hunspec hfind]
  have hdci : netIsAddrMcast ipv6.destipaddr = false → ∀ c,
      findAddrcontextByPrefix ipv6.destipaddr contexts = some c →
      (if iphc1 &&& iphcCid ≠ 0 then frame (rx.frameHdrlen.toNat + 2) &&& 0x0f else 0) = c.number := by
    intro hmcast c hfind
    have hhas : hasContext contexts ipv6 = true := by simp [hasContext, hfind]
    rw [if_pos hhas] at hctx
    rw [if_pos (hcid.mpr hhas), hctx.1, or_and, compressSrc_iphc2_and, UInt8.zero_or, compressDest,
      if_neg (ne_true_of_eq_false hmcast), hfind]
    exact (small_number _ (number_lt hnumbers hfind)).2
  have hfixed := (lies_append _ _ _ _).mpr ⟨hlies0, (lies_append _ _ _ _).mpr ⟨hlies1, hlies2⟩⟩
  rw [hiphc0, hiphc1, hptr, uncompress_fixed hversion htraffic hnext hhlim rx hfixed]
  rw [uncompressSrc_eq hradio hsrc hsci hliessrc]
  dsimp only [Rx.setSrc]
  rw [uncompressDest_eq hdestmac hdest hdci hliesdest]
  dsimp only [Rx.setDest]
  by_cases hudp : ipv6.proto = ipProtoUdp
  · have hnh : iphc0 &&& iphcNh ≠ 0 := by
      rw [hnext, compressNext, if_pos hudp]
      decide
    simp only [if_pos hudp] at hliesudp ⊢
    rw [uncompressUdp_eq hnh hliesudp]
    rw [hudp]
    simp only [length_append, length_cons, length_nil, Nat.zero_add, ← Nat.add_assoc]
  · have hnh : iphc0 &&& iphcNh = 0 := by rw [hnext, compressNext, if_neg hudp]
    simp only [if_neg hudp] at hliesudp ⊢
    rw [uncompressUdp, if_neg fun h => h.1 hnh]
    simp only [length_append, length_cons, length_nil, Nat.zero_add, Nat.add_zero, ← Nat.add_assoc]

def payloadLen (ipv6 : Ipv6Hdr) : Nat := (be16 ipv6.len0 ipv6.len1).toNat

/-- The receiver is told the length: by the fragment header, in a first fragment, or by the length of the
frame. The frame has at most 127 bytes then, and what is past the compressed header is the payload. -/
def LengthGiven (ipv6 : Ipv6Hdr) (past : Nat) (iplen ioLen : UInt16) : Prop :=
  iplen.toNat = 40 + payloadLen ipv6 ∨
    iplen = 0 ∧ ioLen.toNat ≤ 127 ∧ past ≤ ioLen.toNat ∧
      payloadLen ipv6 = ioLen.toNat - past + if ipv6.proto = ipProtoUdp then 8 else 0

theorem fragment_len (h : iplen.toNat = 40 + payloadLen ipv6) :
    iplen ≠ 0 ∧ iplen - 40 = be16 ipv6.len0 ipv6.len1 := by
  constructor
  · rintro rfl
    rw [UInt16.toNat_zero] at h
    omega
  · have hle : (40 : UInt16) ≤ iplen := by
      rw [UInt16.le_iff_toNat_le, h]
      exact Nat.le_add_right 40 _
    rw [← UInt16.toNat_inj, UInt16.toNat_sub_of_le _ _ hle, h]
    exact Nat.add_sub_cancel_left 40 _

theorem frame_len {past : Nat} {e : UInt8} (hextra : e.toNat ≤ 8)
    (hframe : ioLen.toNat ≤ 127) (hpast : past ≤ ioLen.toNat)
    (h : payloadLen ipv6 = ioLen.toNat - past + e.toNat) :
    ipv6.len0 = 0 ∧ ioLen.toUInt8 - UInt8.ofNat past + (ipv6Hdrlen + e) - ipv6Hdrlen = ipv6.len1 := by
  rw [payloadLen, toNat_be16] at h
  constructor
  · rw [← UInt8.toNat_inj]
    change _ = 0
    omega
  have hhdr : ipv6Hdrlen.toNat = 40 := rfl
  have hpast' : (UInt8.ofNat past).toNat = past := UInt8.toNat_ofNat_of_lt' (by change past < 256; omega)
  have hio : ioLen.toUInt8.toNat = ioLen.toNat := by
    rw [UInt16.toNat_toUInt8]
    omega
  rw [← UInt8.toNat_inj, UInt8.toNat_sub, UInt8.toNat_add, UInt8.toNat_sub, UInt8.toNat_add, hpast', hio, hhdr]
  omega

def afterwards : Except Rx Rx → Rx
  | .ok rx => rx
  | .error rx => rx

def Restored (headers : Headers) (past : Nat) (rx : Rx) : Prop :=
  rx.ipv6 = headers.ipv6 ∧ (headers.ipv6.proto = ipProtoUdp → rx.udp = headers.udp) ∧
    rx.frameHdrlen = UInt8.ofNat past

structure Link.Received (link : Link) (sent : UInt8) (headers : Headers) (iplen ioLen : UInt16)
    (frame : Nat → UInt8) (rx : Rx) : Prop where
  header : Lies frame rx.frameHdrlen.toNat (link.compress sent headers).header
  fresh : rx.uncompHdrlen = 0
  length : LengthGiven headers.ipv6 (rx.frameHdrlen.toNat + (link.compress sent headers).header.length)
    iplen ioLen

def Coherent (contexts : List Addrcontext) (a : Ipv6Addr) : Prop :=
  ∀ c, findAddrcontextByPrefix a contexts = some c →
    ∀ c', findAddrcontextBynumber c.number contexts = some c' → c'.pref = c.pref

theorem received_eq_iff (contexts : List Addrcontext) (a : Ipv6Addr) :
    received contexts a = a ↔ Coherent contexts a := by
  cases hfind : findAddrcontextByPrefix a contexts with
  | none =>
    refine iff_of_true (received_of_none hfind) fun c hc => ?_
    rw [hfind] at hc
    cases hc
  | some c =>
    obtain ⟨c', hnumber⟩ := findAddrcontextBynumber_of_byPrefix hfind
    have hpref : ∀ k : Fin 8, c.pref k = start a k := by
      have hfound := List.find?_some (p := fun c : Addrcontext =>
        decide (c.used = 1 ∧ netIpv6addrPrefixcmp c.pref a = true)) hfind
      exact of_decide_eq_true (of_decide_eq_true hfound).2
    rw [received_of_some hfind hnumber]
    constructor
    · intro hsame d hd d' hd'
      obtain rfl := Option.some.inj (hfind.symm.trans hd)
      obtain rfl := Option.some.inj (hnumber.symm.trans hd')
      funext k
      have hk := congrArg (fun b : Ipv6Addr => start b k) hsame
      rw [start_copy_begin (by omega), if_pos k.isLt, start_of_fin] at hk
      rw [hk, hpref k]
    · intro hcoherent
      funext i
      rw [← start_of_fin a i, ← start_of_fin (copy a 0 8 _) i, start_copy_begin i.isLt,
        hcoherent c hfind c' hnumber]
      by_cases hi : i.val < 8
      · rw [if_pos hi]
        exact (start_of_fin c.pref ⟨i, hi⟩).trans (hpref ⟨i, hi⟩)
      · rw [if_neg hi]

theorem receivedSrc_eq_iff (contexts : List Addrcontext) (a : Ipv6Addr) :
    receivedSrc contexts a = a ↔ netIsAddrUnspecified a = true ∨ Coherent contexts a := by
  unfold receivedSrc
  by_cases hunspec : netIsAddrUnspecified a = true
  · rw [if_pos hunspec]
    exact iff_of_true rfl (.inl hunspec)
  · rw [if_neg hunspec, received_eq_iff, or_iff_right hunspec]

theorem receivedDest_eq_iff (contexts : List Addrcontext) (a : Ipv6Addr) :
    receivedDest contexts a = a ↔ netIsAddrMcast a = true ∨ Coherent contexts a := by
  unfold receivedDest
  by_cases hmcast : netIsAddrMcast a = true
  · rw [if_pos hmcast]
    exact iff_of_true rfl (.inl hmcast)
  · rw [if_neg hmcast, received_eq_iff, or_iff_right hmcast]

theorem Link.uncompressLen_fields (h : link.Received sent headers iplen ioLen frame rx) :
    (uncompressLen ioLen iplen (link.fields headers (link.compress sent headers).header rx)).ipv6 =
        { headers.ipv6 with
          srcipaddr := receivedSrc link.contexts headers.ipv6.srcipaddr
          destipaddr := receivedDest link.contexts headers.ipv6.destipaddr } ∧
      (headers.ipv6.proto = ipProtoUdp →
        (uncompressLen ioLen iplen (link.fields headers (link.compress sent headers).header rx)).udp =
          headers.udp) := by
  obtain ⟨_, hfresh, hlength⟩ := h
  unfold uncompressLen Link.fields
  dsimp only
  rw [hfresh]
  generalize rx.frameHdrlen.toNat + (link.compress sent headers).header.length = past at hlength ⊢
  obtain hfragment | ⟨rfl, hframe, hpast, hpayload⟩ := hlength
  · obtain ⟨hne, hlen⟩ := fragment_len hfragment
    rw [if_neg hne, hlen, hi_be16, lo_be16]
    refine ⟨rfl, fun hudp => ?_⟩
    rw [if_pos hudp, if_pos hudp, ← headers.udplen hudp]
  rw [if_pos rfl]
  by_cases hudp : headers.ipv6.proto = ipProtoUdp
  · rw [if_pos hudp] at hpayload
    obtain ⟨hlen0, hlen1⟩ := frame_len (e := udpHdrlen) (by decide) hframe hpast hpayload
    simp only [if_pos hudp]
    rw [UInt8.zero_add, hlen1, ← hlen0]
    refine ⟨rfl, fun _ => ?_⟩
    rw [← headers.udplen hudp]
  · rw [if_neg hudp] at hpayload
    obtain ⟨hlen0, hlen1⟩ := frame_len (e := 0) (by decide) hframe hpast hpayload
    simp only [if_neg hudp]
    rw [UInt8.add_zero] at hlen1
    rw [UInt8.zero_add, hlen1, ← hlen0]
    exact ⟨rfl, fun hudp' => absurd hudp' hudp⟩

theorem Link.restored_iff_received (h : link.Received sent headers iplen ioLen frame rx) :
    Restored headers (rx.frameHdrlen.toNat + (link.compress sent headers).header.length)
        (afterwards (link.uncompress iplen ioLen frame rx)) ↔
      receivedSrc link.contexts headers.ipv6.srcipaddr = headers.ipv6.srcipaddr ∧
        receivedDest link.contexts headers.ipv6.destipaddr = headers.ipv6.destipaddr := by
  obtain ⟨hipv6, hudp⟩ := Link.uncompressLen_fields h
  rw [link.uncompress_eq sent headers h.header]
  unfold Restored afterwards
  rw [hipv6]
  constructor
  · rintro ⟨hsame, _⟩
    exact ⟨congrArg Ipv6Hdr.srcipaddr hsame, congrArg Ipv6Hdr.destipaddr hsame⟩
  · rintro ⟨hsrc, hdest⟩
    refine ⟨?_, hudp, rfl⟩
    rw [hsrc, hdest]

def UniqueNumbers (contexts : List Addrcontext) : Prop :=
  ∀ c ∈ contexts, ∀ c' ∈ contexts, c.used = 1 → c'.used = 1 → c'.number = c.number → c'.pref = c.pref

theorem UniqueNumbers.coherent (h : UniqueNumbers contexts) (a : Ipv6Addr) :
    Coherent contexts a := by
  intro c hc c' hc'
  have hfound := of_decide_eq_true (List.find?_some (p := fun c : Addrcontext =>
    decide (c.used = 1 ∧ netIpv6addrPrefixcmp c.pref a = true)) hc)
  have hfound' := of_decide_eq_true (List.find?_some (p := fun c' : Addrcontext =>
    decide (c'.used = 1 ∧ c'.number = c.number)) hc')
  exact h c (mem_of_find?_eq_some hc) c' (mem_of_find?_eq_some hc') hfound.1 hfound'.1 hfound'.2

/-- **When the round trip restores the headers.** Every byte of the IPv6 and UDP headers is restored, and
`g_frame_hdrlen` is just past the compressed header, exactly if the receiver finds the right prefix for a
source address that is not unspecified, and for a destination address that is not multicast. -/
theorem Link.restored_iff (link : Link) (sent : UInt8) (headers : Headers) (iplen ioLen : UInt16)
    (frame : Nat → UInt8) (rx : Rx) (h : link.Received sent headers iplen ioLen frame rx) :
    Restored headers (rx.frameHdrlen.toNat + (link.compress sent headers).header.length)
        (afterwards (link.uncompress iplen ioLen frame rx)) ↔
      (netIsAddrUnspecified headers.ipv6.srcipaddr = true ∨ Coherent link.contexts headers.ipv6.srcipaddr) ∧
        (netIsAddrMcast headers.ipv6.destipaddr = true ∨ Coherent link.contexts headers.ipv6.destipaddr) := by
  rw [Link.restored_iff_received h, receivedSrc_eq_iff, receivedDest_eq_iff]

/-! The contexts `aaaa::/64` and `bbbb::/64`; a UDP packet from `bbbb::1` to `fe80::2` in a first fragment. -/

def samplePref (b : UInt8) : Fin 8 → UInt8 := fun k => if k.val < 2 then b else 0

def sampleLink (second : Fin 16) : Link where
  contexts := [⟨1, 0, samplePref 0xaa⟩, ⟨1, UInt8.ofNat second, samplePref 0xbb⟩]
  radio := ⟨UInt8.ofNat, 8⟩
  destmac := ⟨UInt8.ofNat, 8⟩
  numbers := by
    have hsmall : ∀ n : Fin 16, UInt8.ofNat n < 16 := by decide
    intro c hc
    obtain rfl | hc := List.mem_cons.mp hc
    · decide
    · obtain rfl := List.mem_singleton.mp hc
      exact hsmall second
  radio8 := rfl
  destmac8 := rfl

def sampleHeaders : Headers where
  ipv6 :=
    { vtc := 0x60, tcf := 0, flow := 0, len0 := 0, len1 := 16, proto := 17, ttl := 64
      srcipaddr := fun i => if i.val < 2 then 0xbb else if i.val = 15 then 1 else 0
      destipaddr := fun i => if i.val = 0 then 0xfe else if i.val = 1 then 0x80 else if i.val = 15 then 2 else 0 }
  udp := ⟨0xf0b1, 0xf0b2, 16, 0x1234⟩
  version := by decide
  udplen := by decide

def sampleRx : Rx :=
  ⟨⟨0, 0, 0, 0, 0, 0, 0, fun _ => 0, fun _ => 0⟩, ⟨0, 0, 0, 0⟩, 0, 0, 0⟩

def sampleFrame (second : Fin 16) (i : Nat) : UInt8 := ((sampleLink second).compress 0 sampleHeaders).header.getD i 0

theorem sample_received (second : Fin 16) :
    (sampleLink second).Received 0 sampleHeaders 56 0 (sampleFrame second) sampleRx where
  header := lies_getD _ _
  fresh := rfl
  length := .inl (by decide)

theorem restored_sample :
    Restored sampleHeaders (0 + ((sampleLink 1).compress 0 sampleHeaders).header.length)
      (afterwards ((sampleLink 1).uncompress 56 0 (sampleFrame 1) sampleRx)) := by
  have hunique : UniqueNumbers (sampleLink 1).contexts := by
    unfold UniqueNumbers
    decide
  exact (Link.restored_iff (sampleLink 1) 0 sampleHeaders 56 0 (sampleFrame 1) sampleRx (sample_received 1)).mpr
    ⟨.inr (hunique.coherent _), .inr (hunique.coherent _)⟩

theorem shared_number_misleads :
    (sampleLink 0).Received 0 sampleHeaders 56 0 (sampleFrame 0) sampleRx ∧
      (afterwards ((sampleLink 0).uncompress 56 0 (sampleFrame 0) sampleRx)).ipv6.srcipaddr =
        (fun i => if i.val < 2 then 0xaa else if i.val = 15 then 1 else 0) ∧
      ¬ Restored sampleHeaders (0 + ((sampleLink 0).compress 0 sampleHeaders).header.length)
        (afterwards ((sampleLink 0).uncompress 56 0 (sampleFrame 0) sampleRx)) := by
  have hsrc : (afterwards ((sampleLink 0).uncompress 56 0 (sampleFrame 0) sampleRx)).ipv6.srcipaddr =
      (fun i => if i.val < 2 then 0xaa else if i.val = 15 then 1 else 0) := by decide
  refine ⟨sample_received 0, hsrc, fun hrestored => ?_⟩
  have hsame := congrArg Ipv6Hdr.srcipaddr hrestored.1
  rw [hsrc] at hsame
  exact absurd (congrFun hsame 0) (by decide)

theorem initialContext_number {pref0 : Fin 8 → UInt8} {preinit1 preinit2 : Option (Fin 8 → UInt8)} {i : Nat}
    (h : (initialContext pref0 preinit1 preinit2 i).used = 1) :
    i < 3 ∧ (initialContext pref0 preinit1 preinit2 i).number = UInt8.ofNat i := by
  unfold initialContext at h ⊢
  split at h
  · exact ⟨by decide, rfl⟩
  · exact ⟨by decide, rfl⟩
  · exact ⟨by decide, rfl⟩
  · exact absurd h (by decide)

theorem uniqueNumbers_initialize (maxaddrcontext : Nat) (pref0 : Fin 8 → UInt8)
    (preinit1 preinit2 : Option (Fin 8 → UInt8)) :
    UniqueNumbers (sixlowpanHc06Initialize maxaddrcontext pref0 preinit1 preinit2) := by
  intro c hc c' hc' hused hused' hnumber
  obtain ⟨i, _, rfl⟩ := mem_map.mp hc
  obtain ⟨j, _, rfl⟩ := mem_map.mp hc'
  obtain ⟨hi, hinumber⟩ := initialContext_number hused
  obtain ⟨hj, hjnumber⟩ := initialContext_number hused'
  have hsame : UInt8.ofNat j = UInt8.ofNat i := by rw [← hinumber, ← hjnumber, hnumber]
  have hij := congrArg UInt8.toNat hsame
  rw [UInt8.toNat_ofNat', UInt8.toNat_ofNat'] at hij
  obtain rfl : j = i := by omega
  rfl

end Nuttx.Sixlowpan

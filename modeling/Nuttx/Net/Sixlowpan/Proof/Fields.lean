import Nuttx.Net.Sixlowpan.Proof.Header

/-!
# The small fields, and UDP

Traffic class and flow label are packed in four ways, the hop limit in four and the ports of UDP in four.
-/

namespace Nuttx.Sixlowpan

open Nuttx.Net (be16)
open Buffer (Lies lies_append)

def rotated (tc : UInt8) : UInt8 := ((tc &&& 0x03) <<< 6) ||| (tc >>> 2)

theorem rotated_halves : ∀ tc : UInt8,
    (rotated tc >>> 2) &&& (0x0f : UInt8) = tc >>> 4 ∧
      ((rotated tc >>> 2) &&& (0x30 : UInt8)) ||| (rotated tc <<< 6) = tc <<< 4 ∧
      ((rotated tc <<< 6) &&& (0xc0 : UInt8)) ||| ((rotated tc >>> 2) &&& (0x30 : UInt8)) = tc <<< 4 := by
  decide +kernel

theorem shifted_halves : ∀ b : UInt8,
    ((b <<< 4) >>> 4 = b &&& 0x0f ∧ (b >>> 4) >>> 4 = 0) ∧ ((b <<< 4) <<< 4 = 0 ∧ (b >>> 4) <<< 4 = b &&& 0xf0) ∧
      (b &&& 0xf0) ||| (b &&& 0x0f) = b ∧
      (b &&& 0x0f = 0 → b <<< 4 = 0) ∧ (b &&& 0xf0 = 0 → b >>> 4 = 0) ∧
      (b &&& 0xf0 = 0 → (b >>> 2) &&& (0x30 : UInt8) = 0) := by
  decide +kernel

theorem nibbles (b : UInt8) : (b &&& 0xf0) ||| (b &&& 0x0f) = b := (shifted_halves b).2.2.1

def trafficClass (ipv6 : Ipv6Hdr) : UInt8 := (ipv6.vtc <<< 4) ||| (ipv6.tcf >>> 4)

theorem trafficClass_high (ipv6 : Ipv6Hdr) : trafficClass ipv6 >>> 4 = ipv6.vtc &&& 0x0f := by
  rw [trafficClass, UInt8.shiftRight_or, (shifted_halves ipv6.vtc).1.1, (shifted_halves ipv6.tcf).1.2, UInt8.or_zero]

theorem trafficClass_low (ipv6 : Ipv6Hdr) : trafficClass ipv6 <<< 4 = ipv6.tcf &&& 0xf0 := by
  rw [trafficClass, UInt8.shiftLeft_or, (shifted_halves ipv6.vtc).2.1.1, (shifted_halves ipv6.tcf).2.1.2,
    UInt8.zero_or]

theorem version6 {b : UInt8} (h : b >>> 4 = 6) : 0x60 ||| (b &&& 0x0f) = b := by
  have hhigh : b &&& 0xf0 = 0x60 := by
    rw [← (shifted_halves b).2.1.2, h]
    rfl
  rw [← hhigh, nibbles]

theorem low_nibble {b : UInt8} (h : b &&& 0xf0 = 0) :
    (rotated 0 &&& 0xc0) ||| (b &&& 0x0f) = b ∧
      (b &&& (0x0f : UInt8)) ||| ((b >>> 2) &&& (0x30 : UInt8)) = b := by
  have hb : b &&& 0x0f = b := by
    have hjoined := nibbles b
    rwa [h, UInt8.zero_or] at hjoined
  rw [hb, (shifted_halves b).2.2.2.2.2 h, UInt8.or_zero]
  exact ⟨UInt8.zero_or, rfl⟩

theorem trafficClass_zero {ipv6 : Ipv6Hdr} (hvtc : ipv6.vtc &&& 0x0f = 0) (htcf : ipv6.tcf &&& 0xf0 = 0) :
    trafficClass ipv6 = 0 := by
  rw [trafficClass, (shifted_halves _).2.2.2.1 hvtc, (shifted_halves _).2.2.2.2.1 htcf]
  rfl

variable {frame : Nat → UInt8} {iphc0 : UInt8} {rx : Rx}

theorem uncompressTraffic_eq {ipv6 : Ipv6Hdr}
    (hversion : ipv6.vtc >>> 4 = 6) (hbits : iphc0 &&& 0x18 = (compressTraffic ipv6).1)
    (hlies : Lies frame rx.hc06ptr (compressTraffic ipv6).2) :
    uncompressTraffic frame iphc0 rx =
      { rx with
        ipv6 := { rx.ipv6 with vtc := ipv6.vtc, tcf := ipv6.tcf, flow := ipv6.flow }
        hc06ptr := rx.hc06ptr + (compressTraffic ipv6).2.length } := by
  have hvtc : (0x60 : UInt8) ||| ((rotated (trafficClass ipv6) >>> 2) &&& (0x0f : UInt8)) = ipv6.vtc := by
    rw [(rotated_halves _).1, trafficClass_high, version6 hversion]
  have htcf := (rotated_halves (trafficClass ipv6)).2
  rw [trafficClass_low] at htcf
  have hencoded : compressTraffic ipv6 =
      if ipv6.tcf &&& 0x0f = 0 ∧ ipv6.flow = 0 then
        if ipv6.vtc &&& 0x0f = 0 ∧ ipv6.tcf &&& 0xf0 = 0 then (iphcTc10 ||| iphcTc01, [])
        else (iphcTc10, [rotated (trafficClass ipv6)])
      else if ipv6.vtc &&& 0x0f = 0 ∧ ipv6.tcf &&& 0xf0 = 0 then
        (iphcTc01, [(rotated (trafficClass ipv6) &&& 0xc0) ||| (ipv6.tcf &&& 0x0f), hi ipv6.flow, lo ipv6.flow])
      else (0, [rotated (trafficClass ipv6), ipv6.tcf, hi ipv6.flow, lo ipv6.flow]) := rfl
  rw [hencoded] at hbits hlies ⊢
  have h10 := and_of_and hbits (by decide : (0x18 : UInt8) &&& iphcTc10 = iphcTc10)
  have h01 := and_of_and hbits (by decide : (0x18 : UInt8) &&& iphcTc01 = iphcTc01)
  unfold uncompressTraffic
  rw [h10, h01]
  by_cases hflow : ipv6.tcf &&& 0x0f = 0 ∧ ipv6.flow = 0
  · have hnibbles := nibbles ipv6.tcf
    rw [hflow.1, UInt8.or_zero] at hnibbles
    simp only [if_pos hflow] at hlies ⊢
    by_cases hclass : ipv6.vtc &&& 0x0f = 0 ∧ ipv6.tcf &&& 0xf0 = 0
    · simp only [if_pos hclass]
      rw [← hvtc, ← hnibbles, hclass.2, hflow.2, trafficClass_zero hclass.1 hclass.2]
      rfl
    · simp only [if_neg hclass] at hlies ⊢
      obtain ⟨hfirst, _⟩ := hlies
      rw [hfirst, hvtc, htcf.2, hnibbles, hflow.2]
      rfl
  · simp only [if_neg hflow] at hlies ⊢
    by_cases hclass : ipv6.vtc &&& 0x0f = 0 ∧ ipv6.tcf &&& 0xf0 = 0
    · simp only [if_pos hclass] at hlies ⊢
      obtain ⟨hfirst, hsecond, hthird, _⟩ := hlies
      rw [trafficClass_zero hclass.1 hclass.2] at hfirst hvtc
      obtain ⟨hsent, hread⟩ := low_nibble hclass.2
      rw [hsent] at hfirst
      rw [hfirst, hsecond, hthird, be16_hi_lo, hread, ← hvtc]
      rfl
    · simp only [if_neg hclass] at hlies ⊢
      obtain ⟨hfirst, hsecond, hthird, hfourth, _⟩ := hlies
      rw [hfirst, hsecond, hthird, hfourth, be16_hi_lo, hvtc, htcf.1, nibbles]
      rfl

theorem uncompressNext_eq {proto : UInt8} (hbits : iphc0 &&& iphcNh = (compressNext proto).1)
    (hlies : Lies frame rx.hc06ptr (compressNext proto).2) :
    uncompressNext frame iphc0 rx =
      { rx with
        ipv6 := { rx.ipv6 with proto := if proto = ipProtoUdp then rx.ipv6.proto else proto }
        hc06ptr := rx.hc06ptr + (compressNext proto).2.length } := by
  unfold uncompressNext compressNext at *
  rw [hbits]
  by_cases hudp : proto = ipProtoUdp
  · simp only [if_pos hudp]
    rfl
  simp only [if_neg hudp] at hlies ⊢
  obtain ⟨hproto, _⟩ := hlies
  rw [hproto]
  rfl

theorem uncompressHlim_eq {ttl : UInt8} (hbits : iphc0 &&& iphcHlimMask = (compressHlim ttl).1)
    (hlies : Lies frame rx.hc06ptr (compressHlim ttl).2) :
    uncompressHlim frame iphc0 rx =
      { rx with
        ipv6 := { rx.ipv6 with ttl := ttl }, hc06ptr := rx.hc06ptr + (compressHlim ttl).2.length } := by
  unfold uncompressHlim compressHlim at *
  rw [hbits]
  by_cases h1 : ttl = 1
  · simp only [if_pos h1]
    rw [h1]
    rfl
  simp only [if_neg h1] at hlies ⊢
  by_cases h64 : ttl = 64
  · simp only [if_pos h64]
    rw [h64]
    rfl
  simp only [if_neg h64] at hlies ⊢
  by_cases h255 : ttl = 255
  · simp only [if_pos h255]
    rw [h255]
    rfl
  · simp only [if_neg h255] at hlies ⊢
    obtain ⟨httl, _⟩ := hlies
    rw [httl]
    rfl

theorem port_spec : ∀ b : UInt8,
    udp8BitPortMin + (be16 0xf0 b - udp8BitPortMin).toUInt8.toUInt16 = be16 0xf0 b ∧
      (b &&& 0xf0 = 0xb0 → ∃ k : Fin 16, b = UInt8.ofNat (0xb0 + k)) := by
  decide +kernel

theorem port8_of_and {port : UInt16} (h : port &&& 0xff00 = udp8BitPortMin) : port = be16 0xf0 (lo port) := by
  have hhi : hi port = 0xf0 := by
    have hmask : hi port &&& 0xff = 0xf0 := by
      rw [← (by decide : hi 0xff00 = 0xff), ← hi_and, h]
      decide
    rwa [and_ff] at hmask
  rw [← hhi, be16_hi_lo]

theorem port4_of_and {port : UInt16} (h : port &&& 0xfff0 = udp4BitPortMin) :
    ∃ k : Fin 16, port = be16 0xf0 (UInt8.ofNat (0xb0 + k)) := by
  have hhi : hi port = 0xf0 := by
    have hmask : hi port &&& 0xff = 0xf0 := by
      rw [← (by decide : hi 0xfff0 = 0xff), ← hi_and, h]
      decide
    rwa [and_ff] at hmask
  have hlo : lo port &&& 0xf0 = 0xb0 := by
    rw [← (by decide : lo 0xfff0 = 0xf0), ← lo_and, h]
    decide
  obtain ⟨k, hk⟩ := (port_spec _).2 hlo
  exact ⟨k, by rw [← hhi, ← hk, be16_hi_lo]⟩

def ports4 (srcport destport : UInt16) : UInt8 :=
  ((srcport - udp4BitPortMin) <<< 4).toUInt8 + (destport - udp4BitPortMin).toUInt8

theorem ports4_restored : ∀ j k : Fin 16,
    udp4BitPortMin + (ports4 (be16 0xf0 (UInt8.ofNat (0xb0 + j))) (be16 0xf0 (UInt8.ofNat (0xb0 + k))) >>> 4).toUInt16 =
        be16 0xf0 (UInt8.ofNat (0xb0 + j)) ∧
      udp4BitPortMin + (ports4 (be16 0xf0 (UInt8.ofNat (0xb0 + j))) (be16 0xf0 (UInt8.ofNat (0xb0 + k))) &&&
          0x0f).toUInt16 = be16 0xf0 (UInt8.ofNat (0xb0 + k)) := by
  decide

theorem uncompressPorts_eq {udp : UdpHdr} (hlies : Lies frame rx.hc06ptr (compressPorts udp)) :
    uncompressPorts frame rx =
      .ok { rx with
        udp := { rx.udp with srcport := udp.srcport, destport := udp.destport }
        hc06ptr := rx.hc06ptr + (compressPorts udp).length } ∧
    frame rx.hc06ptr &&& 0xf8 = 0xf0 ∧ frame rx.hc06ptr &&& 0x04 = 0 := by
  unfold uncompressPorts
  unfold compressPorts at hlies ⊢
  by_cases h11 : udp.srcport &&& 0xfff0 = udp4BitPortMin ∧ udp.destport &&& 0xfff0 = udp4BitPortMin
  · simp only [if_pos h11] at hlies ⊢
    obtain ⟨hnhc, hports, _⟩ := hlies
    obtain ⟨j, hj⟩ := port4_of_and h11.1
    obtain ⟨k, hk⟩ := port4_of_and h11.2
    obtain ⟨hsrc, hdest⟩ := ports4_restored j k
    rw [← hj, ← hk] at hsrc hdest
    unfold ports4 at hsrc hdest
    rw [hnhc, hports, hsrc, hdest]
    exact ⟨rfl, by decide, by decide⟩
  simp only [if_neg h11] at hlies ⊢
  by_cases h01 : udp.destport &&& 0xff00 = udp8BitPortMin
  · simp only [if_pos h01] at hlies ⊢
    obtain ⟨hnhc, hsrc0, hsrc1, hdest, _⟩ := hlies
    have hrestored := (port_spec (lo udp.destport)).1
    rw [← port8_of_and h01] at hrestored
    rw [hnhc, hsrc0, hsrc1, hdest, be16_hi_lo, hrestored]
    exact ⟨rfl, by decide, by decide⟩
  simp only [if_neg h01] at hlies ⊢
  by_cases h10 : udp.srcport &&& 0xff00 = udp8BitPortMin
  · simp only [if_pos h10] at hlies ⊢
    obtain ⟨hnhc, hsrc, hdest0, hdest1, _⟩ := hlies
    have hrestored := (port_spec (lo udp.srcport)).1
    rw [← port8_of_and h10] at hrestored
    rw [hnhc, hsrc, hdest0, hdest1, be16_hi_lo, hrestored]
    exact ⟨rfl, by decide, by decide⟩
  · simp only [if_neg h10] at hlies ⊢
    obtain ⟨hnhc, hsrc0, hsrc1, hdest0, hdest1, _⟩ := hlies
    rw [hnhc, hsrc0, hsrc1, hdest0, hdest1, be16_hi_lo, be16_hi_lo]
    exact ⟨rfl, by decide, by decide⟩

theorem uncompressUdp_eq {udp : UdpHdr}
    (hnh : iphc0 &&& iphcNh ≠ 0) (hlies : Lies frame rx.hc06ptr (compressUdp udp)) :
    uncompressUdp frame iphc0 rx =
      .ok { rx with
        ipv6 := { rx.ipv6 with proto := ipProtoUdp }
        udp := { udp with udplen := rx.udp.udplen }
        hc06ptr := rx.hc06ptr + (compressUdp udp).length
        uncompHdrlen := rx.uncompHdrlen + udpHdrlen } := by
  unfold compressUdp at hlies ⊢
  obtain ⟨hports, hsum0, hsum1, _⟩ := (lies_append _ _ _ _).mp hlies
  have hports' : Lies frame ({ rx with ipv6 := { rx.ipv6 with proto := ipProtoUdp } } : Rx).hc06ptr
    (compressPorts udp) := hports
  obtain ⟨heq, hnhc, hsum⟩ := uncompressPorts_eq hports'
  unfold uncompressUdp
  rw [if_pos ⟨hnh, hnhc⟩, heq]
  dsimp only
  rw [if_pos hsum, hsum0, hsum1, be16_hi_lo, List.length_append]
  rfl

end Nuttx.Sixlowpan

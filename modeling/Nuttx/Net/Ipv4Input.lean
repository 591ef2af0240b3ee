import Nuttx.Net.Device

/-!
# `ipv4_input`

Which received packets are handed to the protocols above IPv4. Broadcast support and ICMP are
configured in, forwarding is not; `group` says which addresses are multicast groups that the device has
joined.
-/

namespace Nuttx.Net

/-- Where a packet goes. -/
inductive Ipv4Outcome
  | drop
  | tcp (dev : Dev)
  | udp (dev : Dev)
  | icmp (dev : Dev)
  | igmp (dev : Dev)

def ipProtoIcmp : UInt8 := 1

def ipProtoIgmp : UInt8 := 2

def ipProtoUdp : UInt8 := 17

def ipv4Destipaddr (dev : Dev) : UInt32 :=
  be32 (dev.byte 16) (dev.byte 17) (dev.byte 18) (dev.byte 19)

def ipv4Broadcast (dev : Dev) : Prop :=
  dev.byte 9 = ipProtoUdp ∧
    (ipv4Destipaddr dev = 0xffffffff ∨
      ipv4Destipaddr dev &&& dev.netmask = dev.ipaddr &&& dev.netmask ∧
        ipv4Destipaddr dev &&& ~~~dev.netmask = 0xffffffff &&& ~~~dev.netmask)

instance (dev : Dev) : Decidable (ipv4Broadcast dev) := inferInstanceAs (Decidable (_ ∧ _))

def ipv4Dispatch (dev : Dev) : Ipv4Outcome :=
  if dev.byte 9 = ipProtoTcp then .tcp dev
  else if dev.byte 9 = ipProtoUdp then .udp dev
  else if dev.byte 9 = ipProtoIcmp then .icmp dev
  else if dev.byte 9 = ipProtoIgmp then .igmp dev
  else .drop

def ipv4Input (group : UInt32 → Bool) (dev : Dev) : Ipv4Outcome :=
  if dev.byte 0 &&& 0xf0 ≠ 0x40 ∨ dev.byte 0 &&& 0x0f < 5 then .drop
  else if dev.llhdrlen + ipv4Hdrlen > dev.len.toNat then .drop
  else
    let dev := { dev with len := dev.len - UInt16.ofNat dev.llhdrlen }
    if ipv4Len dev ≤ dev.len then
      let dev := { dev with len := ipv4Len dev }
      if dev.byte 6 &&& 0x3f ≠ 0 ∨ dev.byte 7 ≠ 0 then .drop
      else if ipv4Broadcast dev then .udp dev
      else if ipv4Destipaddr dev ≠ dev.ipaddr then
        if group (ipv4Destipaddr dev) = false ∧ dev.byte 9 ≠ ipProtoUdp then .drop
        else if ipv4Chksum dev ≠ 0xffff then .drop
        else ipv4Dispatch dev
      else if dev.ipaddr = 0 then .drop
      else if ipv4Chksum dev ≠ 0xffff then .drop
      else ipv4Dispatch dev
    else .drop

theorem ipv4Dispatch_tcp {dev dev' : Dev} (h : ipv4Dispatch dev = .tcp dev') : dev' = dev := by
  unfold ipv4Dispatch at h
  split_ifs at h
  exact (Ipv4Outcome.tcp.inj h).symm

theorem ipv4Input_tcp {group : UInt32 → Bool} {dev dev' : Dev} (h : ipv4Input group dev = .tcp dev') :
    dev' = { dev with len := ipv4Len dev } ∧ (ipv4Len dev).toNat + dev.llhdrlen ≤ dev.len.toNat ∧
      20 ≤ ipv4HeaderLength dev := by
  have hheader : ¬ (dev.byte 0 &&& 0xf0 ≠ 0x40 ∨ dev.byte 0 &&& 0x0f < 5) →
      20 ≤ ipv4HeaderLength dev := by
    intro hvhl
    have hwords : 5 ≤ (dev.byte 0 &&& 0x0f).toNat := by
      have := (not_or.mp hvhl).2
      rw [UInt8.lt_iff_toNat_lt] at this
      exact not_lt.mp this
    unfold ipv4HeaderLength
    omega
  have hfits : ¬ dev.llhdrlen + ipv4Hdrlen > dev.len.toNat →
      ipv4Len dev ≤ dev.len - UInt16.ofNat dev.llhdrlen →
      (ipv4Len dev).toNat + dev.llhdrlen ≤ dev.len.toNat := by
    intro hshort hle
    have hlt := dev.len.toNat_lt
    rw [UInt16.le_iff_toNat_le, UInt16.toNat_sub, UInt16.toNat_ofNat'] at hle
    omega
  unfold ipv4Input at h
  dsimp only at h
  split_ifs at h with hvhl hshort hle hfrag hcast hdest hgroup hsum hany hsum'
  all_goals exact ⟨ipv4Dispatch_tcp h, hfits hshort hle, hheader hvhl⟩

end Nuttx.Net

import Nuttx.Library.Machine
import Nuttx.Net.Ipv6Input

/-!
# The walk over the extension headers

`ipv6_input` follows them wherever they lead: it stays inside the packet iff the chain of headers
does.
-/

open List Option

namespace Nuttx.Net

/-- From a header at `off` that is announced as `nxthdr`, the packet has extension headers at the
offsets `offs`, and the header of the protocol `proto` follows at `stop`. -/
inductive ExtChain (dev : Dev) : Nat → UInt8 → List Nat → Nat → UInt8 → Prop
  | stop {off : Nat} {nxthdr : UInt8} (h : ipv6Exthdr nxthdr = false) :
    ExtChain dev off nxthdr [] off nxthdr
  | step {off stop : Nat} {nxthdr proto : UInt8} {offs : List Nat} (h : ipv6Exthdr nxthdr = true)
    (rest : ExtChain dev (off + 8 * ((dev.byte (off + 1)).toNat + 1)) (dev.byte off) offs stop proto) :
    ExtChain dev off nxthdr (off :: offs) stop proto

def headerBytes (offs : List Nat) : List Nat := offs.flatMap fun off => [off + 1, off]

theorem toNat_exthdrLen : ∀ len : UInt8, (exthdrLen len).toNat = 8 * (len.toNat + 1) := by
  decide +kernel

variable {dev : Dev} {off stop fuel : Nat} {nxthdr proto : UInt8} {offs : List Nat}

theorem ExtChain.le
    (h : ExtChain dev off nxthdr offs stop proto) : off ≤ stop := by
  induction h with
  | stop _ => exact le_rfl
  | step _ _ ih => omega

theorem ExtChain.unique {stop' : Nat} {proto' : UInt8}
    {offs' : List Nat} (h : ExtChain dev off nxthdr offs stop proto)
    (h' : ExtChain dev off nxthdr offs' stop' proto') :
    offs = offs' ∧ stop = stop' ∧ proto = proto' := by
  induction h generalizing offs' with
  | stop hnot =>
    cases h' with
    | stop => exact ⟨rfl, rfl, rfl⟩
    | step hext => exact absurd (hext.symm.trans hnot) (by decide)
  | step hext rest ih =>
    cases h' with
    | stop hnot => exact absurd (hext.symm.trans hnot) (by decide)
    | step hext' rest' =>
      obtain ⟨rfl, rfl, rfl⟩ := ih rest'
      exact ⟨rfl, rfl, rfl⟩

theorem extWalk_stop (h : ipv6Exthdr nxthdr = false) (dev : Dev) (fuel off : Nat)
    (iphdrlen : UInt16) : extWalk dev fuel off iphdrlen nxthdr = some ⟨iphdrlen, nxthdr, []⟩ := by
  cases fuel with
  | zero | succ fuel => rw [extWalk, h, if_neg Bool.false_ne_true]

theorem extWalk_of_chain (h : ExtChain dev off nxthdr offs stop proto) (hfuel : offs.length ≤ fuel)
    (iphdrlen : UInt16) :
    extWalk dev fuel off iphdrlen nxthdr =
      some ⟨iphdrlen + UInt16.ofNat (stop - off), proto, headerBytes offs⟩ := by
  induction h generalizing fuel iphdrlen with
  | stop hproto =>
    rw [extWalk_stop hproto, Nat.sub_self]
    change _ = some (Walk.mk (iphdrlen + 0) _ _)
    rw [UInt16.add_zero]
    rfl
  | @step off stop nxthdr proto offs hext rest ih =>
    cases fuel with
    | zero => exact absurd hfuel (Nat.not_succ_le_zero _)
    | succ fuel =>
      have hle := rest.le
      have hlen : iphdrlen + exthdrLen (dev.byte (off + 1)) +
          UInt16.ofNat (stop - (off + 8 * ((dev.byte (off + 1)).toNat + 1))) =
            iphdrlen + UInt16.ofNat (stop - off) := by
        rw [← UInt16.toNat_inj]
        simp only [UInt16.toNat_add, toNat_exthdrLen, UInt16.toNat_ofNat']
        omega
      rw [extWalk, if_pos hext]
      dsimp only
      rw [toNat_exthdrLen, ih (Nat.le_of_succ_le_succ hfuel), hlen]
      rfl

theorem chain_of_extWalk {iphdrlen : UInt16} {walk : Walk}
    (h : extWalk dev fuel off iphdrlen nxthdr = some walk) :
    ∃ offs stop proto, ExtChain dev off nxthdr offs stop proto ∧ offs.length ≤ fuel := by
  induction fuel generalizing off iphdrlen nxthdr walk with
  | zero =>
    cases hext : ipv6Exthdr nxthdr with
    | false => exact ⟨[], off, nxthdr, .stop hext, le_rfl⟩
    | true =>
      rw [extWalk, if_pos hext] at h
      cases h
  | succ fuel ih =>
    cases hext : ipv6Exthdr nxthdr with
    | false => exact ⟨[], off, nxthdr, .stop hext, Nat.zero_le _⟩
    | true =>
      rw [extWalk, if_pos hext] at h
      obtain ⟨walk', hwalk', -⟩ := map_eq_some_iff.mp h
      obtain ⟨offs, stop, proto, hchain, hle⟩ := ih hwalk'
      rw [toNat_exthdrLen] at hchain
      exact ⟨off :: offs, stop, proto, .step hext hchain, Nat.succ_le_succ hle⟩

theorem extWalk_len (dev : Dev) (len : UInt16) (fuel off : Nat) (iphdrlen : UInt16) (nxthdr : UInt8) :
    extWalk { dev with len := len } fuel off iphdrlen nxthdr = extWalk dev fuel off iphdrlen nxthdr := by
  induction fuel generalizing off iphdrlen nxthdr with
  | zero => rw [extWalk, extWalk]
  | succ fuel ih =>
    rw [extWalk, extWalk]
    dsimp only
    rw [ih]
    rfl

def Ipv6Outcome.passed : Ipv6Outcome → Option (Dev × UInt16)
  | .tcp dev iphdrlen | .udp dev iphdrlen | .icmpv6 dev iphdrlen => some (dev, iphdrlen)
  | .drop | .forwarded => none

/-- **The law of the header walk.** The input returns, it has read only bytes of the packet, and a
packet that is passed on is not longer than what was received and has its header inside. -/
structure HeaderLaw (net : Ipv6Net) (dev : Dev) : Prop where
  returns : ∃ fuel, (ipv6Input net fuel dev).isSome
  reads : ∀ fuel outcome reads, ipv6Input net fuel dev = some (outcome, reads) →
    ∀ k ∈ reads, k < (ipv6Paylen dev).toNat
  passed : ∀ fuel outcome reads, ipv6Input net fuel dev = some (outcome, reads) →
    ∀ dev' iphdrlen, outcome.passed = some (dev', iphdrlen) →
      ipv6Hdrlen ≤ iphdrlen.toNat ∧ iphdrlen ≤ dev'.len ∧
        dev'.len.toNat + dev.llhdrlen ≤ dev.len.toNat

structure Ipv6Checked (dev : Dev) : Prop where
  version : dev.byte 0 &&& 0xf0 = 0x60
  header : dev.llhdrlen + ipv6Hdrlen ≤ dev.len.toNat
  paylen : (ipv6Paylen dev).toNat + dev.llhdrlen ≤ dev.len.toNat

def Passes (net : Ipv6Net) (dev : Dev) (proto : UInt8) : Prop :=
  (proto = ipProtoTcp ∨ proto = ipProtoUdp ∨ proto = ipProtoIcmp6) ∧ net.ipv6addr ≠ ipv6Unspecaddr ∧
    ((net.broadcast && netIsAddrMcast dev) = true ∨ checkDestipaddr net dev = true ∨
      net.forward ≠ some true ∧ proto = ipProtoUdp)

instance (net : Ipv6Net) (dev : Dev) (proto : UInt8) : Decidable (Passes net dev proto) :=
  inferInstanceAs (Decidable (_ ∧ _))

def ChainInside (net : Ipv6Net) (dev : Dev) : Prop :=
  ∃ offs stop proto, ExtChain dev ipv6Hdrlen (dev.byte 6) offs stop proto ∧
    (∀ off ∈ offs, off + 1 < (ipv6Paylen dev).toNat) ∧
    (Passes net dev proto → ipv6Hdrlen ≤ stop % 2 ^ 16 ∧ stop % 2 ^ 16 ≤ (ipv6Paylen dev).toNat)

theorem passed_local (net : Ipv6Net) (dev : Dev) (walk : Walk) :
    (ipv6Local net dev walk).passed =
      if (walk.nxthdr = ipProtoTcp ∨ walk.nxthdr = ipProtoUdp ∨ walk.nxthdr = ipProtoIcmp6) ∧
        net.ipv6addr ≠ ipv6Unspecaddr then some (dev, walk.iphdrlen) else none := by
  unfold ipv6Local ipv6Dispatch
  by_cases haddr : net.ipv6addr = ipv6Unspecaddr
  · rw [if_pos haddr, if_neg fun h => h.2 haddr]
    rfl
  rw [if_neg haddr]
  by_cases htcp : walk.nxthdr = ipProtoTcp
  · rw [if_pos htcp, if_pos ⟨.inl htcp, haddr⟩]
    rfl
  by_cases hudp : walk.nxthdr = ipProtoUdp
  · rw [if_neg htcp, if_pos hudp, if_pos ⟨.inr (.inl hudp), haddr⟩]
    rfl
  by_cases hicmp : walk.nxthdr = ipProtoIcmp6
  · rw [if_neg htcp, if_neg hudp, if_pos hicmp, if_pos ⟨.inr (.inr hicmp), haddr⟩]
    rfl
  · rw [if_neg htcp, if_neg hudp, if_neg hicmp,
      if_neg fun h => h.1.elim htcp fun h => h.elim hudp hicmp]
    rfl

theorem passed_addressed (net : Ipv6Net) (dev : Dev) (walk : Walk) :
    (ipv6Addressed net dev walk).passed =
      if Passes net dev walk.nxthdr then some (dev, walk.iphdrlen) else none := by
  have hlocal (h : (net.broadcast && netIsAddrMcast dev) = true ∨ checkDestipaddr net dev = true ∨
      net.forward ≠ some true ∧ walk.nxthdr = ipProtoUdp) : (ipv6Local net dev walk).passed =
        if Passes net dev walk.nxthdr then some (dev, walk.iphdrlen) else none := by
    rw [passed_local]
    refine if_congr ?_ rfl rfl
    exact ⟨fun hok => ⟨hok.1, hok.2, h⟩, fun hok => ⟨hok.1, hok.2.1⟩⟩
  unfold ipv6Addressed
  by_cases hcast : (net.broadcast && netIsAddrMcast dev) = true
  · rw [if_pos hcast, hlocal (.inl hcast)]
  by_cases hdest : checkDestipaddr net dev = true
  · rw [if_neg hcast, if_pos hdest, hlocal (.inr (.inl hdest))]
  by_cases hforward : net.forward = some true
  · rw [if_neg hcast, if_neg hdest, if_pos hforward,
      if_neg fun h => h.2.2.elim hcast fun h => h.elim hdest fun h => h.1 hforward]
    rfl
  by_cases hudp : walk.nxthdr = ipProtoUdp
  · rw [if_neg hcast, if_neg hdest, if_neg hforward, if_neg (not_not.mpr hudp),
      hlocal (.inr (.inr ⟨hforward, hudp⟩))]
  · rw [if_neg hcast, if_neg hdest, if_neg hforward, if_pos hudp,
      if_neg fun h => h.2.2.elim hcast fun h => h.elim hdest fun h => hudp h.2]
    rfl

theorem ipv6Input_checked (h : Ipv6Checked dev) (net : Ipv6Net) (fuel : Nat) :
    ipv6Input net fuel dev =
      (extWalk dev fuel ipv6Hdrlen (UInt16.ofNat ipv6Hdrlen) (dev.byte 6)).map fun walk =>
        (ipv6Addressed net { dev with len := ipv6Paylen dev } walk, walk.reads) := by
  have hheader := h.header
  have hpaylen := h.paylen
  have hfits : ipv6Paylen dev ≤ dev.len - UInt16.ofNat dev.llhdrlen := by
    have := dev.len.toNat_lt
    rw [UInt16.le_iff_toNat_le, UInt16.toNat_sub, UInt16.toNat_ofNat']
    omega
  unfold ipv6Input
  rw [if_neg (not_not.mpr h.version), if_neg hheader.not_gt]
  refine (if_pos hfits).trans ?_
  dsimp only
  rw [extWalk_len, extWalk_len]
  rfl

theorem ipv6Input_unchecked (h : ¬ Ipv6Checked dev) (net : Ipv6Net) (fuel : Nat) :
    ipv6Input net fuel dev = some (.drop, []) := by
  unfold ipv6Input
  by_cases hversion : dev.byte 0 &&& 0xf0 ≠ 0x60
  · rw [if_pos hversion]
  by_cases hheader : dev.llhdrlen + ipv6Hdrlen > dev.len.toNat
  · rw [if_neg hversion, if_pos hheader]
  have hlong : ¬ ipv6Paylen dev ≤ dev.len - UInt16.ofNat dev.llhdrlen := by
    intro hle
    refine h ⟨not_not.mp hversion, Nat.le_of_not_lt hheader, ?_⟩
    have := dev.len.toNat_lt
    rw [UInt16.le_iff_toNat_le, UInt16.toNat_sub, UInt16.toNat_ofNat'] at hle
    omega
  rw [if_neg hversion, if_neg hheader]
  exact if_neg hlong

theorem ipv6Input_chain (h : Ipv6Checked dev)
    (hchain : ExtChain dev ipv6Hdrlen (dev.byte 6) offs stop proto) (net : Ipv6Net)
    (hfuel : offs.length ≤ fuel) :
    ipv6Input net fuel dev =
      some (ipv6Addressed net { dev with len := ipv6Paylen dev }
        ⟨UInt16.ofNat stop, proto, headerBytes offs⟩, headerBytes offs) := by
  have hle := hchain.le
  have hlen : UInt16.ofNat ipv6Hdrlen + UInt16.ofNat (stop - ipv6Hdrlen) = UInt16.ofNat stop := by
    rw [← UInt16.ofNat_add, Nat.add_sub_cancel' hle]
  rw [ipv6Input_checked h, extWalk_of_chain hchain hfuel, hlen]
  rfl

theorem chain_of_ipv6Input (h : Ipv6Checked dev) {net : Ipv6Net}
    (hsome : (ipv6Input net fuel dev).isSome) :
    ∃ offs stop proto, ExtChain dev ipv6Hdrlen (dev.byte 6) offs stop proto ∧ offs.length ≤ fuel := by
  rw [ipv6Input_checked h, isSome_map] at hsome
  obtain ⟨walk, hwalk⟩ := isSome_iff_exists.mp hsome
  exact chain_of_extWalk hwalk

theorem headerLaw_chain (h : Ipv6Checked dev)
    (hchain : ExtChain dev ipv6Hdrlen (dev.byte 6) offs stop proto) (net : Ipv6Net) :
    HeaderLaw net dev ↔ (∀ off ∈ offs, off + 1 < (ipv6Paylen dev).toNat) ∧
      (Passes net dev proto →
        ipv6Hdrlen ≤ stop % 2 ^ 16 ∧ stop % 2 ^ 16 ≤ (ipv6Paylen dev).toNat) := by
  have hpassed : (ipv6Addressed net { dev with len := ipv6Paylen dev }
      ⟨UInt16.ofNat stop, proto, headerBytes offs⟩).passed =
        if Passes net dev proto then some ({ dev with len := ipv6Paylen dev }, UInt16.ofNat stop)
        else none := passed_addressed net _ _
  have hstop : (UInt16.ofNat stop).toNat = stop % 2 ^ 16 := UInt16.toNat_ofNat'
  constructor
  · intro hlaw
    have hinput := ipv6Input_chain h hchain net le_rfl
    constructor
    · intro off hoff
      exact hlaw.reads _ _ _ hinput (off + 1) (mem_flatMap.mpr ⟨off, hoff, mem_cons_self⟩)
    intro hpasses
    rw [if_pos hpasses] at hpassed
    obtain ⟨hge, hle, -⟩ := hlaw.passed _ _ _ hinput _ _ hpassed
    rw [UInt16.le_iff_toNat_le] at hle
    rw [← hstop]
    exact ⟨hge, hle⟩
  rintro ⟨hreads, hinside⟩
  have hresult : ∀ fuel outcome reads, ipv6Input net fuel dev = some (outcome, reads) →
      outcome = ipv6Addressed net { dev with len := ipv6Paylen dev }
        ⟨UInt16.ofNat stop, proto, headerBytes offs⟩ ∧ reads = headerBytes offs := by
    intro fuel outcome reads hinput
    obtain ⟨offs', stop', proto', hchain', hfuel⟩ := chain_of_ipv6Input h (isSome_of_eq_some hinput)
    obtain ⟨rfl, rfl, rfl⟩ := hchain'.unique hchain
    rw [ipv6Input_chain h hchain net hfuel] at hinput
    obtain ⟨hout, hread⟩ := Prod.mk.inj (Option.some.inj hinput)
    exact ⟨hout.symm, hread.symm⟩
  refine ⟨⟨offs.length, ?_⟩, fun fuel outcome reads hinput k hk => ?_,
    fun fuel outcome reads hinput dev' iphdrlen hpass => ?_⟩
  · rw [ipv6Input_chain h hchain net le_rfl]
    rfl
  · obtain ⟨-, rfl⟩ := hresult fuel outcome reads hinput
    obtain ⟨off, hoff, hk⟩ := mem_flatMap.mp hk
    have := hreads off hoff
    simp only [mem_cons, not_mem_nil, or_false] at hk
    omega
  · obtain ⟨rfl, -⟩ := hresult fuel outcome reads hinput
    rw [hpassed] at hpass
    split_ifs at hpass with hpasses
    obtain ⟨rfl, rfl⟩ := Prod.mk.inj (Option.some.inj hpass)
    obtain ⟨hge, hle⟩ := hinside hpasses
    rw [UInt16.le_iff_toNat_le, hstop]
    exact ⟨hge, hle, h.paylen⟩

def oneHost : Ipv6Net where
  broadcast := true
  ipv6addr := [0x20, 1, 0xd, 0xb8, 0, 0, 0, 0, 0, 0, 0, 0, 0, 0, 0, 1]
  addresses := [[0x20, 1, 0xd, 0xb8, 0, 0, 0, 0, 0, 0, 0, 0, 0, 0, 0, 1]]
  forward := none

def packetToHost (hi lo nxthdr : UInt8) (rest : List UInt8) : Dev :=
  received 0
    ([0x60, 0, 0, 0, hi, lo, nxthdr, 64] ++
      [0x20, 1, 0xd, 0xb8, 0, 0, 0, 0, 0, 0, 0, 0, 0, 0, 0, 2] ++
      [0x20, 1, 0xd, 0xb8, 0, 0, 0, 0, 0, 0, 0, 0, 0, 0, 0, 1] ++ rest)

def wrappedPacket : Dev := packetToHost 0xff 0xdc 17 []

def overlongPacket : Dev := packetToHost 0 8 60 [17, 255, 0, 0, 0, 0, 0, 0]

def endlessPacket : Dev := packetToHost 0 0 0 []

theorem ExtChain.not_zero
    (h : ExtChain dev off nxthdr offs stop proto) (hzero : ∀ k, off ≤ k → dev.byte k = 0) :
    nxthdr ≠ 0 := by
  induction h with
  | stop hnot =>
    rintro rfl
    exact absurd hnot (by decide)
  | step hext rest ih =>
    exact fun _ => ih (fun k hk => hzero k (by omega)) (hzero _ le_rfl)

end Nuttx.Net

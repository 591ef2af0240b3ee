import Nuttx.Net.Ipv4Input
import Nuttx.Net.Tcp.Proof.Acknowledge
import Nuttx.Net.Tcp.Proof.Handshake

/-!
# What is handed over as payload

The length of the payload is computed from three fields of the packet in 16 bits, and where it
begins is fixed by `tcp_ipv4_select` before any of them is read.
-/

open List

namespace Nuttx.Tcp

open Net

def Denotes (dev : Dev) (first last : Nat) : Prop :=
  ∀ k, dev.appdata ≤ k ∧ k < dev.appdata + dev.len.toNat ↔ first ≤ k ∧ k < last

def segment (dev : Dev) : Hdr := tcpHdr dev (ipv4HeaderLength dev + dev.llhdrlen)

def BadHeaders (dev : Dev) : Prop :=
  (ipv4Len dev).toNat < ipv4HeaderLength dev + (segment dev).length ∨ (segment dev).length < 20

instance (dev : Dev) : Decidable (BadHeaders dev) := inferInstanceAs (Decidable (_ ∨ _))

/-- **The law of delivery**, for an accepted packet: what an established connection hands to its
callbacks is what lies behind the headers, and a packet with bad headers is not handed over (its window
is taken over all the same, and it may be answered). -/
structure PayloadLaw (dev : Dev) (outcome : Outcome) : Prop where
  delivered : ∀ conn dev' flags next, outcome = .callback conn dev' flags next →
    conn.state = .established →
    Denotes dev' (dev.llhdrlen + (ipv4HeaderLength dev + (segment dev).length))
      (dev.llhdrlen + (ipv4Len dev).toNat)
  dropped : BadHeaders dev → ∀ conn dev' flags next, outcome ≠ .callback conn dev' flags next

theorem interval_eq_iff {a b c d : Nat} :
    (∀ k, a ≤ k ∧ k < b ↔ c ≤ k ∧ k < d) ↔ b ≤ a ∧ d ≤ c ∨ a = c ∧ b = d := by
  constructor
  · intro h
    have h1 := h a
    have h2 := h (b - 1)
    have h3 := h c
    have h4 := h (d - 1)
    omega
  · rintro h k
    omega

def urgentBytes (tcp : Hdr) (dev : Dev) (conn : Conn) : UInt16 :=
  if tcp.flags &&& tcpFin ≠ 0 ∧ conn.stopped = false then 0
  else if tcp.flags &&& tcpUrg ≠ 0 then if tcp.urgp > dev.len then dev.len else tcp.urgp
  else 0

theorem urgentBytes_le (tcp : Hdr) (dev : Dev) (conn : Conn) :
    (urgentBytes tcp dev conn).toNat ≤ dev.len.toNat := by
  unfold urgentBytes
  split_ifs with hfin hurg hmore
  · exact Nat.zero_le _
  · exact le_rfl
  · rw [gt_iff_lt, UInt16.lt_iff_toNat_lt] at hmore
    exact not_lt.mp hmore
  · exact Nat.zero_le _

variable (cfg : Config)

def HandsOver (tcp : Hdr) (dev : Dev) (conn : Conn) : Prop :=
  tcp.flags &&& tcpCtl ≠ tcpSyn ∧ tcp.flags &&& tcpRst = 0 ∧ ¬ keepaliveProbe cfg tcp dev conn ∧
    ¬ outOfOrder tcp dev conn ∧
    (tcp.flags &&& tcpFin ≠ 0 ∧ conn.stopped = false ∨
      (urgentBytes tcp dev conn).toNat < dev.len.toNat ∧ conn.stopped = false ∨
      tcp.flags &&& tcpAck ≠ 0 ∧ conn.txUnacked > 0)

instance (cfg : Config) (tcp : Hdr) (dev : Dev) (conn : Conn) : Decidable (HandsOver cfg tcp dev conn) :=
  inferInstanceAs (Decidable (_ ∧ _))

variable {conn : Conn}

theorem skipUrgent_eq {tcp : Hdr}
    (hfin : ¬ (tcp.flags &&& tcpFin ≠ 0 ∧ conn.stopped = false)) (dev : Dev) :
    (skipUrgent tcp dev conn).1.stopped = conn.stopped ∧
      (skipUrgent tcp dev conn).2.len = dev.len - urgentBytes tcp dev conn ∧
      (skipUrgent tcp dev conn).2.appdata = dev.appdata + (urgentBytes tcp dev conn).toNat := by
  unfold skipUrgent urgentBytes
  rw [if_neg hfin]
  split_ifs
  · exact ⟨rfl, rfl, rfl⟩
  · exact ⟨rfl, rfl, rfl⟩
  · exact ⟨rfl, (UInt16.sub_zero _).symm, rfl⟩

theorem inputEstablished_cases (tcp : Hdr) (dev : Dev) (conn : Conn) {flags : UInt16}
    (hflags : flags = 0 ∨ flags = tcpAckdata) :
    (tcp.flags &&& tcpFin ≠ 0 ∧ conn.stopped = false ∨
        (urgentBytes tcp dev conn).toNat < dev.len.toNat ∧ conn.stopped = false ∨ flags = tcpAckdata) ∧
      (∃ conn' dev' flags' next,
        inputEstablished tcp dev conn flags = .callback conn' dev' flags' next ∧
        conn'.state = conn.state ∧ dev'.appdata = dev.appdata + (urgentBytes tcp dev conn).toNat ∧
        dev'.len = dev.len - urgentBytes tcp dev conn) ∨
    ¬ (tcp.flags &&& tcpFin ≠ 0 ∧ conn.stopped = false ∨
        (urgentBytes tcp dev conn).toNat < dev.len.toNat ∧ conn.stopped = false ∨ flags = tcpAckdata) ∧
      ∃ conn', inputEstablished tcp dev conn flags = .drop conn' := by
  by_cases hfin : tcp.flags &&& tcpFin ≠ 0 ∧ conn.stopped = false
  · refine .inl ⟨.inl hfin, _, _, _, _, if_pos hfin, rfl, ?_, ?_⟩
    · rw [urgentBytes, if_pos hfin]
      rfl
    · rw [urgentBytes, if_pos hfin]
      exact (UInt16.sub_zero _).symm
  obtain ⟨hstopped, hlen, happdata⟩ := skipUrgent_eq hfin dev
  have hstate := skipUrgent_state tcp dev conn
  have hleft : (skipUrgent tcp dev conn).2.len > 0 ∧ (skipUrgent tcp dev conn).1.stopped = false ↔
      (urgentBytes tcp dev conn).toNat < dev.len.toNat ∧ conn.stopped = false := by
    have hle := urgentBytes_le tcp dev conn
    have hlt := dev.len.toNat_lt
    rw [hlen, hstopped, gt_iff_lt, UInt16.lt_iff_toNat_lt, UInt16.toNat_sub]
    refine and_congr_left fun _ => ?_
    change 0 < _ ↔ _
    omega
  unfold inputEstablished
  rw [if_neg hfin, or_iff_right hfin]
  dsimp only
  by_cases hnew : (urgentBytes tcp dev conn).toNat < dev.len.toNat ∧ conn.stopped = false
  · rw [if_pos (hleft.mpr hnew), if_pos (by rcases hflags with rfl | rfl <;> decide)]
    exact .inl ⟨.inl hnew, _, _, _, _, rfl, hstate, happdata, hlen⟩
  rw [if_neg (mt hleft.mp hnew), or_iff_right hnew]
  rcases hflags with rfl | rfl
  · rw [if_neg (by decide)]
    exact .inr ⟨by decide, _, rfl⟩
  · rw [if_pos (by decide)]
    exact .inl ⟨rfl, _, _, _, _, rfl, hstate, happdata, hlen⟩

theorem rst_of_syn : ∀ flags : UInt8, flags &&& tcpCtl = tcpSyn → flags &&& tcpRst = 0 := by
  decide +kernel

def Outcome.Quiet (outcome : Outcome) : Prop :=
  ∀ conn dev flags next, outcome ≠ .callback conn dev flags next

theorem quiet_drop (conn : Option Conn) : (Outcome.drop conn).Quiet :=
  fun _ _ _ _ h => Outcome.noConfusion h

theorem quiet_send (conn : Conn) (flags : UInt8) : (Outcome.send conn flags).Quiet :=
  fun _ _ _ _ h => Outcome.noConfusion h

theorem quiet_tcpReset (tcp : Hdr) (conn : Option Conn) : (tcpReset tcp conn).Quiet := by
  unfold tcpReset
  split
  · exact quiet_drop conn
  · exact fun _ _ _ _ h => Outcome.noConfusion h

def Outcome.Delivers (outcome : Outcome) (tcp : Hdr) (pay : Dev) (conn : Conn) : Prop :=
  ∃ conn' dev' flags next, outcome = .callback conn' dev' flags next ∧ conn'.state = .established ∧
    dev'.appdata = pay.appdata + (urgentBytes tcp pay conn).toNat ∧
    dev'.len = pay.len - urgentBytes tcp pay conn

theorem ackData_stopped (tcp : Hdr) (conn : Conn) :
    (ackData cfg tcp conn).1.stopped = conn.stopped := by
  unfold ackData Conn.estimate Conn.setTxUnacked
  dsimp only
  split_ifs <;> rfl

theorem ackData_flags (tcp : Hdr) (conn : Conn) :
    (ackData cfg tcp conn).2 = 0 ∨ (ackData cfg tcp conn).2 = tcpAckdata := by
  rcases ackData_cases cfg tcp conn with ⟨-, hflags⟩ | ⟨-, hsame⟩
  · exact .inr hflags
  · rw [hsame]
    exact .inl rfl

theorem ackData_flags_iff (tcp : Hdr) (conn : Conn) :
    (ackData cfg tcp conn).2 = tcpAckdata ↔ tcp.flags &&& tcpAck ≠ 0 ∧ conn.txUnacked > 0 := by
  rcases ackData_cases cfg tcp conn with ⟨hack, hflags⟩ | ⟨hnot, hsame⟩
  · exact iff_of_true hflags hack
  · rw [hsame]
    exact iff_of_false (show ¬ (0 : UInt16) = tcpAckdata by decide) hnot

theorem inputFound_established_cases (accept : Bool) (tcp : Hdr) (dev : Dev) (iplen : Nat)
    (hstate : conn.state = .established) (hsyn : tcp.flags &&& tcpCtl ≠ tcpSyn)
    (hrst : tcp.flags &&& tcpRst = 0) :
    HandsOver cfg tcp (payload dev tcp iplen) conn ∧
        (inputFound cfg accept tcp dev iplen conn).Delivers tcp (payload dev tcp iplen) conn ∨
      ¬ HandsOver cfg tcp (payload dev tcp iplen) conn ∧
        (inputFound cfg accept tcp dev iplen conn).Quiet := by
  have hwindow : (conn.updateWindow tcp).state = .established := hstate
  unfold inputFound
  rw [if_neg (not_not.mpr hrst)]
  dsimp only
  split_ifs with hprobe horder
  · exact .inr ⟨fun h => h.2.2.1 hprobe, quiet_send _ _⟩
  · exact .inr ⟨fun h => h.2.2.2.1 horder, quiet_send _ _⟩
  unfold inputState
  rw [ackData_state, hwindow]
  generalize payload dev tcp iplen = pay at hprobe horder ⊢
  have hstopped : (ackData cfg tcp (conn.updateWindow tcp)).1.stopped = conn.stopped :=
    ackData_stopped cfg tcp _
  have hurgent : urgentBytes tcp pay (ackData cfg tcp (conn.updateWindow tcp)).1 =
      urgentBytes tcp pay conn := by
    rw [urgentBytes, urgentBytes, hstopped]
  have hacked := ackData_flags_iff cfg tcp (conn.updateWindow tcp)
  rcases inputEstablished_cases tcp pay (ackData cfg tcp (conn.updateWindow tcp)).1
    (ackData_flags cfg tcp (conn.updateWindow tcp)) with
    ⟨hcond, c, dev', flags, next, heq, hc, happdata, hlen⟩ | ⟨hcond, c, heq⟩
  · rw [hstopped, hurgent, hacked] at hcond
    rw [hurgent] at happdata hlen
    exact .inl ⟨⟨hsyn, hrst, hprobe, horder, hcond⟩, c, dev', flags, next, heq,
      hc.trans ((ackData_state cfg tcp _).trans hwindow), happdata, hlen⟩
  · rw [hstopped, hurgent, hacked] at hcond
    rw [heq]
    exact .inr ⟨fun h => hcond h.2.2.2.2, quiet_drop c⟩

/-- **What becomes of a segment of an established connection.** A reset closes it, data is delivered,
and otherwise the callbacks hear nothing. -/
theorem tcpInput_established_cases {table : Table} (accept : Bool) (domain : Domain)
    (dev : Dev) (iplen : Nat) (hactive : table.active = some conn)
    (hstate : conn.state = .established) {tcp : Hdr} (htcp : tcpHdr dev (iplen + dev.llhdrlen) = tcp) :
    ((tcpChksum dev domain = 0xffff ∧ tcp.flags &&& tcpRst ≠ 0) ∧
      ∃ conn' dev' flags next, conn'.state = .closed ∧
        tcpInput cfg table accept domain dev iplen = .callback conn' dev' flags next) ∨
    ((tcpChksum dev domain = 0xffff ∧ HandsOver cfg tcp (payload dev tcp iplen) conn) ∧
      (tcpInput cfg table accept domain dev iplen).Delivers tcp (payload dev tcp iplen) conn) ∨
    ¬ (tcpChksum dev domain = 0xffff ∧ tcp.flags &&& tcpRst ≠ 0) ∧
      ¬ (tcpChksum dev domain = 0xffff ∧ HandsOver cfg tcp (payload dev tcp iplen) conn) ∧
      (tcpInput cfg table accept domain dev iplen).Quiet := by
  unfold tcpInput
  rw [htcp, hactive]
  dsimp only
  by_cases hsum : tcpChksum dev domain = 0xffff
  swap
  · rw [if_pos hsum]
    exact .inr (.inr ⟨fun h => hsum h.1, fun h => hsum h.1, quiet_drop _⟩)
  rw [if_neg (not_not.mpr hsum)]
  by_cases hsyn : tcp.flags &&& tcpCtl = tcpSyn
  · rw [if_pos ⟨by rw [hstate]; decide, hsyn⟩]
    exact .inr (.inr ⟨fun h => h.2 (rst_of_syn _ hsyn), fun h => h.2.1 hsyn, quiet_tcpReset _ _⟩)
  rw [if_neg (fun h => hsyn h.2)]
  by_cases hrst : tcp.flags &&& tcpRst = 0
  · refine .inr ?_
    rcases inputFound_established_cases cfg accept tcp dev iplen hstate hsyn hrst with
      ⟨hhands, hdelivers⟩ | ⟨hnot, hquiet⟩
    · exact .inl ⟨⟨hsum, hhands⟩, hdelivers⟩
    · exact .inr ⟨fun h => h.2 hrst, fun h => hnot h.2, hquiet⟩
  · refine .inl ⟨⟨hsum, hrst⟩, ?_⟩
    have hwindow : (conn.updateWindow tcp).state ≠ .synRcvd := by
      rw [show (conn.updateWindow tcp).state = .established from hstate]
      decide
    unfold inputFound
    rw [if_pos hrst, if_neg hwindow]
    exact ⟨_, _, _, _, rfl, rfl⟩

def packetPayload (dev : Dev) : Dev :=
  payload (tcpIpv4Select dev) (segment dev) (ipv4HeaderLength dev)

theorem denotes_iff {dev dev' : Dev} {urgent : UInt16} (hlen : dev.len = ipv4Len dev)
    (hgood : ¬ BadHeaders dev) (hle : urgent.toNat ≤ (packetPayload dev).len.toNat)
    (happdata : dev'.appdata = (packetPayload dev).appdata + urgent.toNat)
    (hleft : dev'.len = (packetPayload dev).len - urgent) :
    Denotes dev' (dev.llhdrlen + (ipv4HeaderLength dev + (segment dev).length))
        (dev.llhdrlen + (ipv4Len dev).toNat) ↔
      (ipv4Len dev).toNat = ipv4HeaderLength dev + (segment dev).length ∨
        ipv4HeaderLength dev + (segment dev).length = 40 ∧ urgent = 0 := by
  have hlt := (ipv4Len dev).toNat_lt
  have hpay : (packetPayload dev).len.toNat =
      (ipv4Len dev).toNat - (ipv4HeaderLength dev + (segment dev).length) := by
    have hdef : (packetPayload dev).len =
        dev.len - UInt16.ofNat ((segment dev).length + ipv4HeaderLength dev) := rfl
    unfold BadHeaders at hgood
    rw [hdef, hlen, UInt16.toNat_sub, UInt16.toNat_ofNat']
    omega
  have hstart : (packetPayload dev).appdata = 40 + dev.llhdrlen := rfl
  have hrest : dev'.len.toNat = (packetPayload dev).len.toNat - urgent.toNat := by
    have := (packetPayload dev).len.toNat_lt
    rw [hleft, UInt16.toNat_sub]
    omega
  have hzero : urgent = 0 ↔ urgent.toNat = 0 := UInt16.toNat_inj.symm
  unfold BadHeaders at hgood
  unfold Denotes
  rw [interval_eq_iff, happdata, hrest, hpay, hzero, hstart]
  omega

theorem payloadLaw_iff {dev : Dev} (hlen : dev.len = ipv4Len dev) {table : Table}
    (hactive : table.active = some conn) (hstate : conn.state = .established) (accept : Bool) :
    PayloadLaw dev (tcpIpv4Input cfg table accept dev) ↔
      (tcpChksum dev .inet = 0xffff ∧ (segment dev).flags &&& tcpRst ≠ 0 → ¬ BadHeaders dev) ∧
      (tcpChksum dev .inet = 0xffff ∧ HandsOver cfg (segment dev) (packetPayload dev) conn →
        ¬ BadHeaders dev ∧
          ((ipv4Len dev).toNat = ipv4HeaderLength dev + (segment dev).length ∨
            ipv4HeaderLength dev + (segment dev).length = 40 ∧
              urgentBytes (segment dev) (packetPayload dev) conn = 0)) := by
  have hle := urgentBytes_le (segment dev) (packetPayload dev) conn
  have htcp : tcpHdr (tcpIpv4Select dev) (ipv4HeaderLength dev + (tcpIpv4Select dev).llhdrlen) =
      segment dev := rfl
  rcases tcpInput_established_cases cfg accept .inet (tcpIpv4Select dev) (ipv4HeaderLength dev) hactive
    hstate htcp with
    ⟨habort, c, dev', flags, next, hc, heq⟩ | ⟨hover, c, dev', flags, next, heq, hc, happdata, hleft⟩ |
      ⟨habort, hover, hquiet⟩
  · have heq : tcpIpv4Input cfg table accept dev = .callback c dev' flags next := heq
    constructor
    · intro law
      exact ⟨fun _ hbad => law.dropped hbad c dev' flags next heq, fun h => absurd h.2.2.1 habort.2⟩
    rintro ⟨hgood, -⟩
    refine ⟨fun conn' dev'' flags' next' h hest => ?_, fun hbad => absurd hbad (hgood habort)⟩
    obtain ⟨rfl, -⟩ := Outcome.callback.inj (heq.symm.trans h)
    rw [hc] at hest
    exact absurd hest (by decide)
  · have heq : tcpIpv4Input cfg table accept dev = .callback c dev' flags next := heq
    constructor
    · intro law
      have hgood : ¬ BadHeaders dev := fun hbad => law.dropped hbad c dev' flags next heq
      exact ⟨fun h => absurd hover.2.2.1 h.2, fun _ => ⟨hgood,
        (denotes_iff hlen hgood hle happdata hleft).mp (law.delivered c dev' flags next heq hc)⟩⟩
    · rintro ⟨-, h⟩
      obtain ⟨hgood, hexact⟩ := h hover
      refine ⟨fun conn' dev'' flags' next' h hest => ?_, fun hbad => absurd hbad hgood⟩
      obtain ⟨-, rfl, -⟩ := Outcome.callback.inj (heq.symm.trans h)
      exact (denotes_iff hlen hgood hle happdata hleft).mpr hexact
  · exact iff_of_true ⟨fun conn' dev'' flags' next' h => absurd h (hquiet _ _ _ _), fun _ => hquiet⟩
      ⟨fun h => absurd h habort, fun h => absurd h hover⟩

inductive OptionsInside (buf : Nat → UInt8) (stop last : Nat) : Nat → Prop
  | finished {p : Nat} (hstop : stop ≤ p) : OptionsInside buf stop last p
  | endOfOptions {p : Nat} (hlast : p < last) (hopt : buf p = tcpOptEnd) :
      OptionsInside buf stop last p
  | noop {p : Nat} (hlast : p < last) (hopt : buf p = tcpOptNoop)
      (hrest : OptionsInside buf stop last (p + 1)) : OptionsInside buf stop last p
  | mss {p : Nat} (hlast : p + 3 < last) (hopt : buf p = tcpOptMss)
      (hlen : buf (p + 1) = tcpOptMssLen) : OptionsInside buf stop last p
  | malformed {p : Nat} (hlast : p + 1 < last) (hopt : buf p ≠ tcpOptEnd ∧ buf p ≠ tcpOptNoop)
      (hlen : buf (p + 1) = 0) : OptionsInside buf stop last p
  | other {p : Nat} (hlast : p + 1 < last) (hopt : buf p ≠ tcpOptEnd ∧ buf p ≠ tcpOptNoop)
      (hmss : ¬ (buf p = tcpOptMss ∧ buf (p + 1) = tcpOptMssLen)) (hlen : buf (p + 1) ≠ 0)
      (hrest : OptionsInside buf stop last (p + (buf (p + 1)).toNat)) : OptionsInside buf stop last p

section

variable {dev : Dev} {hdrlen optlen last : Nat}

theorem optionLoop_of_le {i : Nat} (h : optlen ≤ i) (fuel : Nat) :
    optionLoop dev hdrlen optlen fuel i = (none, []) := by
  cases fuel with
  | zero => rfl
  | succ fuel => exact if_neg h.not_gt

theorem optionLoop_fuel {i : Nat} (fuel : Nat) (hfuel : optlen ≤ i + fuel) (extra : Nat) :
    optionLoop dev hdrlen optlen (fuel + extra) i = optionLoop dev hdrlen optlen fuel i := by
  induction fuel generalizing i with
  | zero =>
    have hle : optlen ≤ i := hfuel
    rw [optionLoop_of_le hle, optionLoop_of_le hle]
  | succ fuel ih =>
    rw [Nat.add_right_comm]
    unfold optionLoop
    dsimp only
    have hnoop := @ih (i + 1) (by omega)
    split_ifs with hi hend hopt hmss hlen
    · rfl
    · rw [hnoop]
    · rfl
    · rfl
    · have hpos : 0 < (dev.buf (hdrlen + 1 + i)).toNat := by
        rw [Nat.pos_iff_ne_zero]
        exact fun h => hlen (UInt8.toNat_inj.mp h)
      rw [ih (by omega)]
    · rfl

theorem optionLoop_reads_iff (fuel i : Nat) (hfuel : optlen ≤ i + fuel) :
    (∀ k ∈ (optionLoop dev hdrlen optlen fuel i).2, k < last) ↔
      OptionsInside dev.buf (hdrlen + optlen) last (hdrlen + i) := by
  induction fuel generalizing i with
  | zero =>
    have hle : optlen ≤ i := hfuel
    rw [optionLoop_of_le hle]
    exact iff_of_true (fun k hk => absurd hk not_mem_nil) (.finished (by omega))
  | succ fuel ih =>
    have hnext : hdrlen + 1 + i = hdrlen + i + 1 := by omega
    unfold optionLoop
    dsimp only
    rw [hnext]
    split_ifs with hi hend hnoop hmss hlen
    · simp only [mem_singleton, forall_eq]
      constructor
      · exact fun h => .endOfOptions h hend
      intro h
      cases h with
      | finished hstop => omega
      | endOfOptions hlast | noop hlast => exact hlast
      | mss hlast => omega
      | malformed hlast => omega
      | other hlast => omega
    · simp only [mem_cons, forall_eq_or_imp]
      rw [ih (i + 1) (by omega)]
      constructor
      · exact fun h => .noop h.1 hnoop h.2
      intro h
      cases h with
      | finished hstop => omega
      | endOfOptions hlast hopt => exact absurd hopt hend
      | noop hlast hopt hrest => exact ⟨hlast, hrest⟩
      | mss hlast hopt => exact absurd (hnoop.symm.trans hopt) (by decide)
      | malformed hlast hopt | other hlast hopt => exact absurd hnoop hopt.2
    · simp only [mem_cons, not_mem_nil, or_false, forall_eq_or_imp, forall_eq]
      constructor
      · exact fun h => .mss (by omega) hmss.1 hmss.2
      intro h
      cases h with
      | finished hstop => omega
      | endOfOptions hlast hopt => exact absurd hopt hend
      | noop hlast hopt => exact absurd hopt hnoop
      | mss hlast => omega
      | malformed hlast hopt hzero => exact absurd (hmss.2.symm.trans hzero) (by decide)
      | other hlast hopt hnot => exact absurd hmss hnot
    · simp only [mem_cons, not_mem_nil, or_false, forall_eq_or_imp, forall_eq]
      constructor
      · exact fun h => .malformed h.2 ⟨hend, hnoop⟩ hlen
      intro h
      cases h with
      | finished hstop => omega
      | endOfOptions hlast hopt => exact absurd hopt hend
      | noop hlast hopt => exact absurd hopt hnoop
      | mss hlast hopt hfour => exact absurd ⟨hopt, hfour⟩ hmss
      | malformed hlast => omega
      | other hlast => omega
    · have hpos : 0 < (dev.buf (hdrlen + i + 1)).toNat := by
        rw [Nat.pos_iff_ne_zero]
        exact fun h => hlen (UInt8.toNat_inj.mp h)
      simp only [mem_cons, forall_eq_or_imp]
      rw [ih _ (by omega), ← Nat.add_assoc]
      constructor
      · exact fun h => .other h.2.1 ⟨hend, hnoop⟩ hmss hlen h.2.2
      intro h
      cases h with
      | finished hstop => omega
      | endOfOptions hlast hopt => exact absurd hopt hend
      | noop hlast hopt => exact absurd hopt hnoop
      | mss hlast hopt hfour => exact absurd ⟨hopt, hfour⟩ hmss
      | malformed hlast hopt hzero => exact absurd hzero hlen
      | other hlast hopt hnot hne hrest => exact ⟨by omega, hlast, hrest⟩
    · exact iff_of_true (fun k hk => absurd hk not_mem_nil) (.finished (by omega))

end

theorem length_le_of_offset : ∀ offset : UInt8, ¬ offset &&& 0xf0 > 0x50 →
    (offset >>> 4).toNat * 4 ≤ 20 := by
  decide +kernel

theorem parseOptions_reads_iff (dev : Dev) (hdrlen last : Nat) (tcp : Hdr) :
    (∀ k ∈ (parseOptions dev hdrlen tcp).2, k < last) ↔
      OptionsInside dev.buf (hdrlen + (tcp.length - tcpHdrlen)) last hdrlen := by
  unfold parseOptions
  split
  case isTrue => exact optionLoop_reads_iff _ 0 (by omega)
  case isFalse hoffset =>
    have hlen : tcp.length ≤ tcpHdrlen := length_le_of_offset _ hoffset
    refine iff_of_true (fun k hk => absurd hk not_mem_nil) (.finished ?_)
    rw [Nat.sub_eq_zero_of_le hlen]
    exact le_rfl

/-- **When TCP delivers the payload.** For every packet that `ipv4_input` accepts and an established
connection: the payload is delivered exactly if every segment that reaches the callbacks has good
headers and is empty or without any options and urgent bytes; the options are read inside the headers
and the packet exactly if they say so; and the walk over them always ends. -/
theorem tcp_delivery_iff (cfg : Config) {group : UInt32 → Bool} {packet dev : Dev}
    (haccepted : ipv4Input group packet = .tcp dev) {table : Table} {conn : Conn}
    (hactive : table.active = some conn) (hstate : conn.state = .established) (accept : Bool) :
    (PayloadLaw dev (tcpIpv4Input cfg table accept dev) ↔
      (tcpChksum dev .inet = 0xffff ∧ (segment dev).flags &&& tcpRst ≠ 0 → ¬ BadHeaders dev) ∧
      (tcpChksum dev .inet = 0xffff ∧ HandsOver cfg (segment dev) (packetPayload dev) conn →
        ¬ BadHeaders dev ∧
          ((ipv4Len dev).toNat = ipv4HeaderLength dev + (segment dev).length ∨
            ipv4HeaderLength dev + (segment dev).length = 40 ∧
              urgentBytes (segment dev) (packetPayload dev) conn = 0))) ∧
    ((∀ k ∈ (parseOptions dev (ipv4HeaderLength dev + tcpHdrlen + dev.llhdrlen) (segment dev)).2,
        k < dev.llhdrlen + min (ipv4HeaderLength dev + (segment dev).length) (ipv4Len dev).toNat) ↔
      OptionsInside dev.buf
        (ipv4HeaderLength dev + tcpHdrlen + dev.llhdrlen + ((segment dev).length - tcpHdrlen))
        (dev.llhdrlen + min (ipv4HeaderLength dev + (segment dev).length) (ipv4Len dev).toNat)
        (ipv4HeaderLength dev + tcpHdrlen + dev.llhdrlen)) ∧
    ∀ hdrlen optlen extra,
      optionLoop dev hdrlen optlen (optlen + extra) 0 = optionLoop dev hdrlen optlen optlen 0 := by
  have hlen : dev.len = ipv4Len dev := by
    obtain ⟨rfl, -, -⟩ := ipv4Input_tcp haccepted
    rfl
  exact ⟨payloadLaw_iff cfg hlen hactive hstate accept, parseOptions_reads_iff dev _ _ _,
    fun hdrlen optlen extra => optionLoop_fuel optlen (by omega) extra⟩

def plainPacket : Dev :=
  received 0x0a000001
    [69, 0, 0, 42, 0, 0, 0, 0, 64, 6, 102, 204, 10, 0, 0, 2, 10, 0, 0, 1,
      4, 0, 0, 80, 0, 0, 0, 0, 0, 0, 0, 0, 80, 16, 3, 232, 43, 47, 0, 0, 104, 105]

def optionPacket : Dev :=
  received 0x0a000001
    [69, 0, 0, 46, 0, 0, 0, 0, 64, 6, 102, 200, 10, 0, 0, 2, 10, 0, 0, 1,
      4, 0, 0, 80, 0, 0, 0, 0, 0, 0, 0, 0, 96, 16, 3, 232, 25, 41, 0, 0, 1, 1, 1, 1, 104, 105]

def shortPacket : Dev :=
  received 0x0a000001
    [69, 0, 0, 40, 0, 0, 0, 0, 64, 6, 102, 206, 10, 0, 0, 2, 10, 0, 0, 1,
      4, 0, 0, 80, 0, 0, 0, 0, 0, 0, 0, 0, 240, 16, 3, 232, 243, 153, 0, 0]

def brokenOptionPacket : Dev :=
  received 0x0a000001
    [69, 0, 0, 44, 0, 0, 0, 0, 64, 6, 102, 202, 10, 0, 0, 2, 10, 0, 0, 1,
      4, 0, 0, 80, 0, 0, 0, 0, 0, 0, 0, 0, 96, 2, 3, 232, 129, 161, 0, 0, 1, 1, 1, 2]

def waiting : Table := ⟨some (inFlight .established 0 0), true, true, 0⟩

theorem tcp_delivery_plain :
    PayloadLaw { plainPacket with len := 42 }
      (tcpIpv4Input plainConfig waiting true { plainPacket with len := 42 }) := by
  have haccepted : ipv4Input (fun _ => false) plainPacket = .tcp { plainPacket with len := 42 } := rfl
  refine (tcp_delivery_iff plainConfig haccepted (rfl : waiting.active = _) rfl true).1.mpr
    ⟨fun _ => ?_, fun _ => ⟨?_, .inr ⟨?_, ?_⟩⟩⟩ <;> decide

/-- **The law is not kept.** Behind TCP options the payload is handed over together with the options'
bytes and without its end; a header of 60 bytes in a packet of 40 gives a payload of 65496 bytes; and
an option in the last byte makes the walk read behind the packet. -/
theorem tcp_delivery_fails :
    (∃ dev, ipv4Input (fun _ => false) optionPacket = .tcp dev ∧
      ¬ PayloadLaw dev (tcpIpv4Input plainConfig waiting true dev)) ∧
    (∃ dev, ipv4Input (fun _ => false) shortPacket = .tcp dev ∧
      ¬ PayloadLaw dev (tcpIpv4Input plainConfig waiting true dev)) ∧
    ∃ dev, ipv4Input (fun _ => false) brokenOptionPacket = .tcp dev ∧ (ipv4Len dev).toNat = 44 ∧
      44 ∈ (parseOptions dev 40 (segment dev)).2 := by
  refine ⟨⟨{ optionPacket with len := 46 }, rfl, fun law => ?_⟩,
    ⟨{ shortPacket with len := 40 }, rfl, fun law => ?_⟩,
    { brokenOptionPacket with len := 44 }, rfl, by decide, by decide⟩
  · have hexact := ((payloadLaw_iff plainConfig rfl rfl rfl true).mp law).2 (by decide +kernel)
    exact absurd hexact.2 (by decide)
  · have hgood := ((payloadLaw_iff plainConfig rfl rfl rfl true).mp law).2 (by decide +kernel)
    exact absurd hgood.1 (by decide)

end Nuttx.Tcp

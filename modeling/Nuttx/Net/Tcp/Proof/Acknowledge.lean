import Nuttx.Net.Tcp.Input

/-!
# What an acknowledgement does

The law of acknowledgements in the circular space of sequence numbers, and when the code keeps it.
-/

namespace Nuttx.Tcp

/-- **The law.** An acknowledgement of some of the bytes in flight moves the oldest unacknowledged
number there and takes the acknowledged bytes off; any other changes nothing. Differences of sequence
numbers are modulo 2^32. -/
structure AckLaw (conn : Conn) (tcp : Hdr) (conn' : Conn) : Prop where
  inside : (tcpGetsequence tcp.ackno - tcpGetsequence conn.sndseq).toNat ≤ conn.txUnacked.toNat →
    tcpGetsequence conn'.sndseq = tcpGetsequence tcp.ackno ∧
      conn'.txUnacked.toNat = conn.txUnacked.toNat -
        (tcpGetsequence tcp.ackno - tcpGetsequence conn.sndseq).toNat
  outside : conn.txUnacked.toNat < (tcpGetsequence tcp.ackno - tcpGetsequence conn.sndseq).toNat →
    conn'.sndseq = conn.sndseq ∧ conn'.txUnacked = conn.txUnacked

theorem ackData_numbers {cfg : Config} (hcfg : cfg.writeBuffers = false) {tcp : Hdr}
    (hack : tcp.flags &&& tcpAck ≠ 0) {conn : Conn} (hpos : conn.txUnacked > 0) :
    (ackData cfg tcp conn).1.sndseq = tcp.ackno ∧
      (ackData cfg tcp conn).1.txUnacked =
        (if tcpGetsequence tcp.ackno ≤ tcpAddsequence conn.sndseq conn.txUnacked.toUInt16 then
          (tcpAddsequence conn.sndseq conn.txUnacked.toUInt16 -
            tcpGetsequence tcp.ackno).toUInt16.toUInt32
        else if conn.state = .established then 0
        else conn.txUnacked) := by
  unfold ackData
  rw [if_pos ⟨hack, hpos⟩]
  simp only [hcfg, Bool.false_eq_true, if_false]
  constructor
  · split_ifs <;> exact tcpSetsequence_tcpGetsequence _
  · split_ifs <;> simp [Conn.setTxUnacked, hcfg, Conn.estimate]

variable {a : UInt32}

theorem sub_toNat_eq_zero {b : UInt32} : (a - b).toNat = 0 ↔ a = b := by
  rw [← UInt32.toNat_inj, UInt32.toNat_sub]
  have := a.toNat_lt
  have := b.toNat_lt
  omega

theorem window_end {u n : UInt32} (hin : (a - u).toNat ≤ n.toNat) (hall : n.toNat ≤ (a - u).toNat) :
    a = u + n := by
  apply UInt32.toNat_inj.mp
  rw [UInt32.toNat_sub] at hin hall
  rw [UInt32.toNat_add]
  have := u.toNat_lt
  have := a.toNat_lt
  omega

theorem ackLaw_iff_of_stored {conn conn' : Conn} {tcp : Hdr} (hseq : conn'.sndseq = tcp.ackno) :
    AckLaw conn tcp conn' ↔
      (tcpGetsequence tcp.ackno - tcpGetsequence conn.sndseq).toNat ≤ conn.txUnacked.toNat ∧
        conn'.txUnacked.toNat = conn.txUnacked.toNat -
          (tcpGetsequence tcp.ackno - tcpGetsequence conn.sndseq).toNat := by
  constructor
  · intro law
    rcases Nat.lt_or_ge conn.txUnacked.toNat
      (tcpGetsequence tcp.ackno - tcpGetsequence conn.sndseq).toNat with hout | hin
    · have hsame : tcp.ackno = conn.sndseq := hseq.symm.trans (law.outside hout).1
      rw [hsame, sub_toNat_eq_zero.mpr rfl] at hout
      exact absurd hout (Nat.not_lt_zero _)
    · exact ⟨hin, (law.inside hin).2⟩
  · rintro ⟨hin, hcount⟩
    exact ⟨fun _ => ⟨by rw [hseq], hcount⟩, fun hout => absurd hin hout.not_ge⟩

/-- **When the law is kept.** With nothing in flight it always is. Otherwise the acknowledgement has to
lie in the window, and its number must not be above the plain sum that marks the window's end. Before
the connection is established a failed comparison leaves the bytes in flight alone, so there the
repeated acknowledgement of the window's start is harmless too. -/
theorem ack_law_iff {cfg : Config} (hcfg : cfg.writeBuffers = false) (tcp : Hdr)
    (hack : tcp.flags &&& tcpAck ≠ 0) (conn : Conn) (hn : conn.txUnacked.toNat < 65536) :
    AckLaw conn tcp (ackData cfg tcp conn).1 ↔
      conn.txUnacked = 0 ∨
        (tcpGetsequence tcp.ackno - tcpGetsequence conn.sndseq).toNat ≤ conn.txUnacked.toNat ∧
          (tcpGetsequence tcp.ackno ≤ tcpGetsequence conn.sndseq + conn.txUnacked ∨
            conn.state ≠ .established ∧ tcp.ackno = conn.sndseq) := by
  by_cases hzero : conn.txUnacked = 0
  · refine iff_of_true ?_ (.inl hzero)
    rw [show ackData cfg tcp conn = (conn, 0) from if_neg fun h => by
      rw [hzero] at h; exact absurd h.2 (by decide)]
    refine ⟨fun hle => ?_, fun _ => ⟨rfl, rfl⟩⟩
    rw [hzero] at hle ⊢
    have hsub := Nat.le_zero.mp hle
    rw [hsub]
    exact ⟨(sub_toNat_eq_zero.mp hsub).symm, rfl⟩
  have hpos : conn.txUnacked > 0 := UInt32.pos_iff_ne_zero.mpr hzero
  obtain ⟨hseq, hunacked⟩ := ackData_numbers hcfg hack hpos
  have hadd : tcpAddsequence conn.sndseq conn.txUnacked.toUInt16 =
      tcpGetsequence conn.sndseq + conn.txUnacked := by
    have hwidth : conn.txUnacked.toUInt16.toUInt32 = conn.txUnacked := by
      apply UInt32.toNat_inj.mp
      rw [UInt16.toNat_toUInt32, UInt32.toNat_toUInt16]
      exact Nat.mod_eq_of_lt hn
    rw [tcpAddsequence, hwidth]
  rw [ackLaw_iff_of_stored hseq, hunacked, hadd, or_iff_right hzero]
  refine and_congr_right fun hin => ?_
  split_ifs with hle hest
  · refine iff_of_true ?_ (.inl hle)
    rw [UInt32.toNat_sub] at hin
    rw [UInt16.toNat_toUInt32, UInt32.toNat_toUInt16, UInt32.toNat_sub, UInt32.toNat_sub, UInt32.toNat_add]
    have := (tcpGetsequence conn.sndseq).toNat_lt
    have := (tcpGetsequence tcp.ackno).toNat_lt
    omega
  · refine iff_of_false (fun hall => hle ?_) ?_
    · -- nothing would be left, so the number is the end of the window
      rw [window_end hin (Nat.le_of_sub_eq_zero hall.symm)]
      exact UInt32.le_refl _
    · rintro (h | ⟨h, -⟩)
      · exact hle h
      · exact h hest
  · constructor
    · intro hsame
      have hsub : (tcpGetsequence tcp.ackno - tcpGetsequence conn.sndseq).toNat = 0 := by
        have := UInt32.lt_iff_toNat_lt.mp hpos
        omega
      exact .inr ⟨hest, tcpGetsequence_injective (sub_toNat_eq_zero.mp hsub)⟩
    · rintro (h | ⟨-, h⟩)
      · exact absurd h hle
      · rw [h, sub_toNat_eq_zero.mpr rfl, Nat.sub_zero]

def inFlight (state : State) (sndseq txUnacked : UInt32) : Conn where
  state := state
  stopped := false
  rcvseq := tcpSetsequence 0
  sndseq := tcpSetsequence sndseq
  sa := 0
  sv := 4
  rto := tcpRto
  timer := tcpRto
  nrtx := 0
  mss := 536
  sndWnd := 0
  txUnacked := txUnacked
  readahead := []
  expired := 0
  sent := 0
  isn := 0
  sndseqMax := 0

def pureAck (ackno : UInt32) : Hdr where
  seqno := tcpSetsequence 0
  ackno := tcpSetsequence ackno
  tcpoffset := 0x50
  flags := tcpAck
  wnd := 1000
  urgp := 0

def headersOnly : Net.Dev where
  buf := fun _ => 0
  llhdrlen := 14
  pktsize := 590
  ipaddr := 0
  netmask := 0
  len := 40
  sndlen := 0
  appdata := 54

theorem ack_law_five_of_ten :
    AckLaw (inFlight .established 100 10) (pureAck 105)
      (ackData plainConfig (pureAck 105) (inFlight .established 100 10)).1 :=
  (ack_law_iff rfl (pureAck 105) (by decide) (inFlight .established 100 10) (by decide)).mpr
    (.inr ⟨by decide, .inl (by decide)⟩)

/-- **The law is not kept.** With ten bytes in flight from 100 on, the old acknowledgement of 50 moves
the connection back, one of 200 moves it past everything ever sent, and in the window that begins at
2^32 - 5 the acknowledgement of two bytes takes all ten off. -/
theorem ack_law_fails :
    (∃ conn dev flags next,
      inputFound plainConfig true (pureAck 50) headersOnly 20 (inFlight .established 100 10) =
        .callback conn dev flags next ∧
      ¬ AckLaw (inFlight .established 100 10) (pureAck 50) conn) ∧
    (∃ conn dev flags next,
      inputFound plainConfig true (pureAck 200) headersOnly 20 (inFlight .established 100 10) =
        .callback conn dev flags next ∧
      ¬ AckLaw (inFlight .established 100 10) (pureAck 200) conn) ∧
    ∃ conn dev flags next,
      inputFound plainConfig true (pureAck 4294967293) headersOnly 20
          (inFlight .established 4294967291 10) = .callback conn dev flags next ∧
      ¬ AckLaw (inFlight .established 4294967291 10) (pureAck 4294967293) conn := by
  refine ⟨⟨_, _, _, _, rfl, fun law => ?_⟩, ⟨_, _, _, _, rfl, fun law => ?_⟩,
    ⟨_, _, _, _, rfl, fun law => ?_⟩⟩
  · exact absurd (law.outside (by decide)).1 (by decide)
  · exact absurd (law.outside (by decide)).1 (by decide)
  · exact absurd (law.inside (by decide)).2 (by decide)

end Nuttx.Tcp

import Nuttx.Library.Machine
import Nuttx.Net.Tcp.System
import Nuttx.Net.Tcp.Proof.Callback

/-!
# Who completes a handshake

While a connection waits for its SYN to be acknowledged, the SYN is the one thing in flight and
`sndseq` is the initial sequence number.
-/

namespace Nuttx.Tcp

open Net

def Handshaking (conn : Conn) : Prop := conn.state = .synRcvd ∨ conn.state = .synSent

def Outcome.conn? : Outcome → Option Conn
  | .drop conn | .reset conn => conn
  | .send conn _ | .synack conn _ | .callback conn _ _ _ => some conn

def SynInFlight (iss : UInt32) (conn : Conn) : Prop :=
  Handshaking conn → conn.sndseq = tcpSetsequence iss ∧ conn.txUnacked = 1

/-- The outcome of a segment keeps the SYN in flight as long as the handshake lasts; a connection that
is handed to the callbacks has left it or is about to. -/
def Outcome.Keeps (iss : UInt32) : Outcome → Prop
  | .drop conn | .reset conn => ∀ c, conn = some c → SynInFlight iss c
  | .send conn _ | .synack conn _ => SynInFlight iss conn
  | .callback conn _ _ next => next = .failed ∨ ¬ Handshaking conn

variable {iss : UInt32} {conn : Conn} {host : Host}

theorem Outcome.Keeps.of_not {outcome : Outcome}
    (h : ∀ c, outcome.conn? = some c → ¬ Handshaking c) : outcome.Keeps iss := by
  cases outcome with
  | drop conn | reset conn => exact fun c hc hs => absurd hs (h c hc)
  | send conn flags | synack conn ack => exact fun hs => absurd hs (h conn rfl)
  | callback conn dev flags next => exact .inr (h conn rfl)

theorem ackData_state (cfg : Config) (tcp : Hdr) (conn : Conn) :
    (ackData cfg tcp conn).1.state = conn.state := by
  unfold ackData Conn.estimate Conn.setTxUnacked
  dsimp only
  split_ifs <;> rfl

theorem ackData_cases (cfg : Config) (tcp : Hdr) (conn : Conn) :
    (tcp.flags &&& tcpAck ≠ 0 ∧ conn.txUnacked > 0) ∧ (ackData cfg tcp conn).2 = tcpAckdata ∨
      ¬ (tcp.flags &&& tcpAck ≠ 0 ∧ conn.txUnacked > 0) ∧ ackData cfg tcp conn = (conn, 0) := by
  by_cases h : tcp.flags &&& tcpAck ≠ 0 ∧ conn.txUnacked > 0
  · refine .inl ⟨h, ?_⟩
    unfold ackData
    rw [if_pos h]
  · exact .inr ⟨h, if_neg h⟩

theorem skipUrgent_state (tcp : Hdr) (dev : Dev) (conn : Conn) :
    (skipUrgent tcp dev conn).1.state = conn.state := by
  unfold skipUrgent
  split <;> rfl

section

variable (cfg : Config) (accept : Bool) (tcp : Hdr) (dev : Dev)
include cfg accept tcp dev

theorem inputState_not_handshaking (iplen : Nat)
    (flags : UInt16) (h : ¬ Handshaking conn) (c : Conn)
    (hc : (inputState cfg accept tcp dev iplen conn flags).conn? = some c) : ¬ Handshaking c := by
  unfold inputState at hc
  cases hstate : conn.state with
  | synRcvd => exact absurd (.inl hstate) h
  | synSent => exact absurd (.inr hstate) h
  | established =>
    rw [hstate] at hc
    have hskip := (skipUrgent_state tcp dev conn).trans hstate
    simp only [inputEstablished] at hc
    split_ifs at hc <;> cases hc <;> simp [Handshaking, hstate, hskip]
  | lastAck | closing =>
    rw [hstate] at hc
    split_ifs at hc <;> cases hc <;> simp [Handshaking, hstate, Conn.enter]
  | finWait1 =>
    rw [hstate] at hc
    simp only [inputFinWait1] at hc
    split_ifs at hc <;> cases hc <;> simp [Handshaking, hstate, Conn.enter]
  | finWait2 =>
    rw [hstate] at hc
    simp only [inputFinWait2] at hc
    split_ifs at hc <;> cases hc <;> simp [Handshaking, hstate, Conn.enter]
  | timeWait | closed | allocated =>
    rw [hstate] at hc
    cases hc
    exact h

theorem inputSynRcvd_of_ackdata (conn : Conn) :
    (∃ c dev' flags, c.state = .established ∧ accept = true ∧
      inputSynRcvd cfg accept tcp dev conn tcpAckdata = .callback c dev' flags .appsend) ∨
    accept = false ∧ inputSynRcvd cfg accept tcp dev conn tcpAckdata = .reset none := by
  cases accept with
  | false => exact .inr ⟨rfl, rfl⟩
  | true =>
    refine .inl ?_
    unfold inputSynRcvd
    rw [if_pos (by decide), if_pos rfl]
    split_ifs <;> exact ⟨_, _, _, rfl, rfl, rfl⟩

theorem inputSynRcvd_of_zero (conn : Conn) :
    inputSynRcvd cfg accept tcp dev conn 0 = .synack conn (tcpAck ||| tcpSyn) ∨
      inputSynRcvd cfg accept tcp dev conn 0 = .drop (some conn) := by
  unfold inputSynRcvd
  rw [if_neg (by decide)]
  split_ifs
  · exact .inl rfl
  · exact .inr rfl

end

theorem inputSynSent_cases (cfg : Config) (tcp : Hdr) (dev : Dev) (iplen : Nat) (conn : Conn)
    (flags : UInt16) :
    (flags &&& tcpAckdata ≠ 0 ∧ tcp.flags &&& tcpCtl = tcpSyn ||| tcpAck) ∧
      (∃ c dev' flags', c.state = .established ∧
        inputSynSent cfg tcp dev iplen conn flags = .callback c dev' flags' .appsend) ∨
    ¬ (flags &&& tcpAckdata ≠ 0 ∧ tcp.flags &&& tcpCtl = tcpSyn ||| tcpAck) ∧
      inputSynSent cfg tcp dev iplen conn flags = .callback conn dev tcpAbort .failed := by
  unfold inputSynSent
  split_ifs with h hbuffers
  · exact .inl ⟨h, _, _, _, rfl, rfl⟩
  · exact .inl ⟨h, _, _, _, rfl, rfl⟩
  · exact .inr ⟨h, rfl⟩

theorem not_handshaking_of_established (h : conn.state = .established) : ¬ Handshaking conn := by
  simp [Handshaking, h]

section

variable (cfg : Config)
include cfg

theorem inputState_keeps (accept : Bool) (tcp : Hdr) (dev : Dev)
    (iplen : Nat) (h : SynInFlight iss conn) :
    (inputState cfg accept tcp dev iplen (ackData cfg tcp conn).1 (ackData cfg tcp conn).2).Keeps
      iss := by
  have hstate := ackData_state cfg tcp conn
  by_cases hs : Handshaking conn
  · rcases hs with hs | hs
    · unfold inputState
      rw [hstate, hs]
      rcases ackData_cases cfg tcp conn with ⟨-, hflags⟩ | ⟨-, hnone⟩
      · rw [hflags]
        rcases inputSynRcvd_of_ackdata cfg accept tcp dev (ackData cfg tcp conn).1 with
          ⟨c, dev', flags, hc, -, heq⟩ | ⟨-, heq⟩
        · rw [heq]
          exact .inr (not_handshaking_of_established hc)
        · rw [heq]
          exact fun c hc => by cases hc
      · rw [hnone]
        rcases inputSynRcvd_of_zero cfg accept tcp dev conn with heq | heq
        · rw [heq]
          exact h
        rw [heq]
        rintro c hc
        cases hc
        exact h
    · unfold inputState
      rw [hstate, hs]
      rcases inputSynSent_cases cfg tcp dev iplen (ackData cfg tcp conn).1
        (ackData cfg tcp conn).2 with ⟨-, c, dev', flags, hc, heq⟩ | ⟨-, heq⟩
      · rw [heq]
        exact .inr (not_handshaking_of_established hc)
      · rw [heq]
        exact .inl rfl
  · refine .of_not (inputState_not_handshaking cfg accept tcp dev iplen _ ?_)
    simpa only [Handshaking, hstate] using hs

theorem inputFound_keeps (accept : Bool) (tcp : Hdr) (dev : Dev)
    (iplen : Nat) (h : SynInFlight iss conn) :
    (inputFound cfg accept tcp dev iplen conn).Keeps iss := by
  unfold inputFound
  dsimp only
  split_ifs
  · exact fun c hc => by cases hc
  · exact .inr (by simp [Handshaking, Conn.enter])
  · exact h
  · exact h
  · exact inputState_keeps cfg accept tcp _ iplen h

theorem tcpCallback_not_handshaking (app : App) (dev : Dev)
    (flags : UInt16) (h : ¬ Handshaking conn) :
    ¬ Handshaking (tcpCallback cfg app conn dev flags).1 := by
  rcases (tcpCallback_kept cfg app conn dev flags).state with hkept | hclosed
  · simpa only [Handshaking, hkept] using h
  · simp [Handshaking, hclosed]

theorem tcpAppsend_not_handshaking (dev : Dev) (result : UInt16)
    (h : ¬ Handshaking conn) : ¬ Handshaking (tcpAppsend cfg conn dev result).1 := by
  unfold tcpAppsend Conn.setTxUnacked
  split_ifs
  iterate 3 · simp [Handshaking, Conn.enter, Conn.close]
  all_goals exact h

theorem finish_keeps (app : App) (domain : Domain) (packet : Dev) {outcome : Outcome}
    (h : outcome.Keeps iss) (c : Conn)
    (hc : (finish cfg app domain packet outcome).1 = some c) : SynInFlight iss c := by
  cases outcome with
  | drop conn => exact h c hc
  | reset conn => exact h c hc
  | send conn flags =>
    cases hc
    exact h
  | synack conn ack =>
    cases hc
    exact h
  | callback conn dev flags next =>
    intro hs
    refine absurd hs ?_
    rcases h with rfl | hnot
    · cases hc
      simp [Handshaking, Conn.enter]
    -- the callbacks keep or close, and so does what comes after them
    have hcalled := tcpCallback_not_handshaking cfg app dev flags hnot
    cases next with
    | drop | ack =>
      cases hc
      exact hcalled
    | appsend =>
      cases hc
      exact tcpAppsend_not_handshaking cfg _ _ hcalled
    | ackAppsend len =>
      cases hc
      refine tcpAppsend_not_handshaking cfg _ _ ?_
      split <;> exact hcalled
    | lastAck =>
      cases hc
      simp [Handshaking, Conn.close, Conn.enter]
    | failed =>
      cases hc
      simp [Handshaking, Conn.enter]

theorem retransmit_cases (app : App) (dev : Dev) (conn c : Conn)
    (hc : (retransmit cfg app dev conn).1 = some c) : ¬ Handshaking c ∨ c = conn := by
  unfold retransmit at hc
  split at hc
  case h_3 hstate =>
    cases hc
    exact .inl (tcpCallback_not_handshaking cfg app _ _ (not_handshaking_of_established hstate))
  all_goals
    cases hc
    exact .inr rfl

theorem tcpTimer_cases (app : App) (bound : Bool) (dev : Dev) (hsec : Nat)
    (conn c : Conn) (hc : (tcpTimer cfg app bound dev hsec conn).1 = some c) :
    ¬ Handshaking c ∨
      c.state = conn.state ∧ c.sndseq = conn.sndseq ∧ c.txUnacked = conn.txUnacked := by
  unfold tcpTimer at hc
  dsimp only at hc
  split_ifs at hc with hwait hout hbound hclosed hunacked hlater hother hsyn hexhausted hpoll
  · cases hc
    exact .inl (tcpCallback_not_handshaking cfg app _ _ (by simp [Handshaking, Conn.enter]))
  · cases hc
    exact .inr ⟨rfl, rfl, rfl⟩
  · cases hc
    exact .inr ⟨rfl, rfl, rfl⟩
  · cases hc
    exact .inr ⟨rfl, rfl, rfl⟩
  · cases hc
    exact .inr ⟨rfl, rfl, rfl⟩
  · cases hc
    exact .inr ⟨rfl, rfl, rfl⟩
  · cases hc
    exact .inl (tcpCallback_not_handshaking cfg app _ _ (by simp [Handshaking, Conn.enter]))
  · rcases retransmit_cases cfg app _ _ c hc with hnot | rfl
    · exact .inl hnot
    · exact .inr ⟨rfl, rfl, rfl⟩
  · cases hc
    exact .inl (tcpAppsend_not_handshaking cfg _ _
      (tcpCallback_not_handshaking cfg app _ _ (not_handshaking_of_established hpoll.1)))
  · cases hc
    exact .inr ⟨rfl, rfl, rfl⟩

end

def Host.Inv (host : Host) : Prop := ∀ conn, host.conn = some conn → SynInFlight host.iss conn

theorem tcpReset_conn? (tcp : Hdr) (conn : Option Conn) : (tcpReset tcp conn).conn? = conn := by
  unfold tcpReset
  split <;> rfl

theorem tcpReset_keeps (tcp : Hdr) {conn : Option Conn}
    (h : ∀ c, conn = some c → SynInFlight iss c) : (tcpReset tcp conn).Keeps iss := by
  unfold tcpReset
  split <;> exact h

theorem tcpInput_keeps (cfg : Config) (accept : Bool) (domain : Domain) (dev : Dev)
    (iplen : Nat) (table : Table) (h : ∀ conn, table.active = some conn → SynInFlight iss conn)
    (hiss : table.active = none → table.tcpsequence = iss) :
    (tcpInput cfg table accept domain dev iplen).Keeps iss := by
  unfold tcpInput
  split
  · exact h
  cases hactive : table.active with
  | some conn =>
    have hconn := h conn hactive
    dsimp only
    split_ifs
    · exact tcpReset_keeps _ (fun c hc => by cases hc; exact hconn)
    · exact inputFound_keeps cfg accept _ dev iplen hconn
  | none =>
    dsimp only
    split_ifs
    · -- the new connection has just sent its SYN
      intro _
      rw [hiss hactive]
      unfold Conn.setMss
      split <;> exact ⟨rfl, rfl⟩
    · exact fun c hc => by cases hc
    · exact tcpReset_keeps _ (fun c hc => by cases hc)

theorem Host.step_inv (cfg : Config) (h : host.Inv) (event : Event) :
    (host.step cfg event).Inv := by
  cases event with
  | segment domain dev iplen listener free app =>
    intro c hc
    refine finish_keeps cfg app domain dev (tcpInput_keeps cfg app.accept domain dev iplen _ ?_ ?_) c hc
    · intro conn hconn
      have hsome : host.conn = some conn := hconn
      simpa only [Host.step, hsome, Option.isSome_some, if_true] using h conn hsome
    · intro hnone
      have hnone : host.conn = none := hnone
      simp [Host.step, hnone]
  | connect mss =>
    unfold Host.step
    dsimp only
    split
    · exact h
    · intro c hc
      cases hc
      exact fun _ => ⟨rfl, rfl⟩
  | timer app bound dev hsec =>
    intro c hc
    obtain ⟨conn, hconn, hc⟩ := Option.bind_eq_some_iff.mp hc
    rcases tcpTimer_cases cfg app bound dev hsec conn c hc with hnot | ⟨hstate, hseq, hunacked⟩
    · exact fun hs => absurd hs hnot
    · intro hs
      rw [hseq, hunacked]
      exact h conn hconn (by simpa only [Handshaking, hstate] using hs)
  | poll app bound dev =>
    intro c hc
    obtain ⟨conn, hconn, hc⟩ := Option.bind_eq_some_iff.mp hc
    unfold devicePoll at hc
    split_ifs at hc with hpoll
    · cases hc
      exact fun hs => absurd hs (tcpAppsend_not_handshaking cfg _ _
        (tcpCallback_not_handshaking cfg app _ _ (not_handshaking_of_established hpoll.1)))
    · cases hc
      exact h c hconn
  | nextsequence => exact h
  | release => exact fun c hc => by cases hc

theorem Reachable.inv {cfg : Config} (h : Reachable cfg host) : host.Inv := by
  induction h with
  | initial iss tcpsequence => exact fun c hc => by cases hc
  | step event _ ih => exact Host.step_inv cfg ih event

/-- The segment completes the handshake of the connection: its checksum is right, and in
`TCP_SYN_RCVD` it is an acknowledgement, in order if that can be told, and somebody still listens; in
`TCP_SYN_SENT` it is a SYN with an acknowledgement. -/
def Completes (domain : Domain) (dev : Dev) (iplen : Nat) (accept : Bool) (conn : Conn) : Prop :=
  let tcp := tcpHdr dev (iplen + dev.llhdrlen)
  tcpChksum dev domain = 0xffff ∧
    (conn.state = .synRcvd ∧ accept = true ∧ tcp.flags &&& tcpRst = 0 ∧ tcp.flags &&& tcpAck ≠ 0 ∧
        (dev.len = UInt16.ofNat (tcp.length + iplen) ∧ tcp.flags &&& (tcpSyn ||| tcpFin) = 0 ∨
          tcp.seqno = conn.rcvseq) ∨
      conn.state = .synSent ∧ tcp.flags &&& tcpCtl = tcpSyn ||| tcpAck)

theorem flags_of_ctl : ∀ flags : UInt8,
    (flags &&& tcpCtl = tcpSyn ||| tcpAck →
      flags &&& tcpRst = 0 ∧ flags &&& tcpAck ≠ 0 ∧ flags &&& tcpCtl ≠ tcpSyn) ∧
    (flags &&& tcpCtl = tcpSyn → flags &&& tcpAck = 0) := by
  decide +kernel

theorem not_sub_pos_iff {a b : UInt16} : ¬ a - b > 0 ↔ a = b := by
  have := a.toNat_lt
  have := b.toNat_lt
  rw [gt_iff_lt, UInt16.lt_iff_toNat_lt, UInt16.toNat_sub, ← UInt16.toNat_inj]
  change ¬ 0 < _ ↔ _
  omega

theorem not_keepaliveProbe (cfg : Config) (tcp : Hdr) (dev : Dev)
    (h : Handshaking conn) : ¬ keepaliveProbe cfg tcp dev conn :=
  fun hprobe => not_handshaking_of_established hprobe.2.2.2.1 h

theorem outOfOrder_synRcvd {tcp : Hdr} {dev : Dev} {iplen : Nat}
    (hstate : conn.state = .synRcvd) (hack : tcp.flags &&& tcpAck ≠ 0) :
    outOfOrder tcp (payload dev tcp iplen) (conn.updateWindow tcp) ↔
      ¬ (dev.len = UInt16.ofNat (tcp.length + iplen) ∧ tcp.flags &&& (tcpSyn ||| tcpFin) = 0 ∨
        tcp.seqno = conn.rcvseq) := by
  have hsyn : tcp.flags &&& tcpCtl ≠ tcpSyn := fun h => hack ((flags_of_ctl _).2 h)
  simp only [outOfOrder, Conn.updateWindow, payload, hstate, hsyn, reduceCtorEq, false_and, and_false,
    or_self, not_false_eq_true, true_and, not_or, not_and_or, ← not_sub_pos_iff, not_not, ne_eq]

theorem inputFound_synRcvd (cfg : Config) (accept : Bool) (tcp : Hdr) (dev : Dev) (iplen : Nat)
    (hstate : conn.state = .synRcvd) (hunacked : conn.txUnacked = 1) :
    (inputFound cfg accept tcp dev iplen conn).conn?.map Conn.state = some .established ↔
      accept = true ∧ tcp.flags &&& tcpRst = 0 ∧ tcp.flags &&& tcpAck ≠ 0 ∧
        (dev.len = UInt16.ofNat (tcp.length + iplen) ∧ tcp.flags &&& (tcpSyn ||| tcpFin) = 0 ∨
          tcp.seqno = conn.rcvseq) := by
  have hne : ∀ c : Conn, c.state = .synRcvd → ¬ (some c).map Conn.state = some .established := by
    intro c hc
    simp [hc]
  unfold inputFound
  by_cases hrst : tcp.flags &&& tcpRst = 0
  swap
  · rw [if_pos hrst, if_pos (show (conn.updateWindow tcp).state = .synRcvd from hstate)]
    exact iff_of_false (by simp [Outcome.conn?]) (fun h => hrst h.2.1)
  rw [if_neg (not_not.mpr hrst)]
  dsimp only
  have hwindow : Handshaking (conn.updateWindow tcp) := .inl hstate
  rw [if_neg (not_keepaliveProbe cfg tcp _ hwindow)]
  unfold inputState
  rw [ackData_state, show (conn.updateWindow tcp).state = .synRcvd from hstate]
  dsimp only
  rcases ackData_cases cfg tcp (conn.updateWindow tcp) with ⟨⟨hack, -⟩, hflags⟩ | ⟨hnot, hsame⟩
  · rw [hflags]
    split_ifs with horder
    · exact iff_of_false (hne _ hstate) (fun h => (outOfOrder_synRcvd hstate hack).mp horder h.2.2.2)
    have hinorder := not_not.mp (mt (outOfOrder_synRcvd hstate hack).mpr horder)
    rcases inputSynRcvd_of_ackdata cfg accept tcp (payload dev tcp iplen)
      (ackData cfg tcp (conn.updateWindow tcp)).1 with ⟨c, dev', flags, hc, haccept, heq⟩ | ⟨haccept, heq⟩
    · rw [heq]
      exact iff_of_true (by simp [Outcome.conn?, hc]) ⟨haccept, hrst, hack, hinorder⟩
    · rw [heq]
      exact iff_of_false (by simp [Outcome.conn?]) (by simp [haccept])
  · have hack : tcp.flags &&& tcpAck = 0 := by
      by_contra hack
      exact hnot ⟨hack, by rw [show (conn.updateWindow tcp).txUnacked = 1 from hunacked]; decide⟩
    rw [hsame]
    refine iff_of_false ?_ (fun h => h.2.2.1 hack)
    split_ifs with horder
    · exact hne _ hstate
    rcases inputSynRcvd_of_zero cfg accept tcp (payload dev tcp iplen) (conn.updateWindow tcp) with
      heq | heq
    all_goals
      rw [heq]
      exact hne _ hstate

theorem inputFound_synSent (cfg : Config) (accept : Bool) (tcp : Hdr) (dev : Dev) (iplen : Nat)
    (hstate : conn.state = .synSent) (hunacked : conn.txUnacked = 1) :
    (inputFound cfg accept tcp dev iplen conn).conn?.map Conn.state = some .established ↔
      tcp.flags &&& tcpCtl = tcpSyn ||| tcpAck := by
  have hne : ∀ c : Conn, c.state = .synSent → ¬ (some c).map Conn.state = some .established := by
    intro c hc
    simp [hc]
  unfold inputFound
  by_cases hrst : tcp.flags &&& tcpRst = 0
  swap
  · rw [if_pos hrst, if_neg (by simp [Conn.updateWindow, hstate])]
    exact iff_of_false (by simp [Outcome.conn?, Conn.enter]) (fun h => hrst ((flags_of_ctl _).1 h).1)
  rw [if_neg (not_not.mpr hrst)]
  dsimp only
  have hwindow : Handshaking (conn.updateWindow tcp) := .inr hstate
  rw [if_neg (not_keepaliveProbe cfg tcp _ hwindow)]
  unfold inputState
  rw [ackData_state, show (conn.updateWindow tcp).state = .synSent from hstate]
  dsimp only
  split_ifs with horder
  · -- a SYN with an acknowledgement is never out of order here
    exact iff_of_false (hne _ hstate) (fun h => horder.1 (.inl ⟨hstate, h⟩))
  rcases inputSynSent_cases cfg tcp (payload dev tcp iplen) iplen
    (ackData cfg tcp (conn.updateWindow tcp)).1 (ackData cfg tcp (conn.updateWindow tcp)).2 with
    ⟨⟨-, hctl⟩, c, dev', flags, hc, heq⟩ | ⟨hnot, heq⟩
  · rw [heq]
    exact iff_of_true (by simp [Outcome.conn?, hc]) hctl
  rw [heq]
  refine iff_of_false (hne _ ((ackData_state cfg tcp _).trans hstate)) (fun hctl => hnot ⟨?_, hctl⟩)
  rcases ackData_cases cfg tcp (conn.updateWindow tcp) with ⟨-, hflags⟩ | ⟨hnone, -⟩
  · rw [hflags]
    decide
  · refine absurd ⟨((flags_of_ctl _).1 hctl).2.1, ?_⟩ hnone
    rw [show (conn.updateWindow tcp).txUnacked = 1 from hunacked]
    decide

/-- **Exactly the completing segments complete a handshake.** The acknowledgement number does not
occur in `Completes`. -/
theorem established_iff_completes (cfg : Config) (hreach : Reachable cfg host)
    (hconn : host.conn = some conn) (hs : Handshaking conn) (domain : Domain) (dev : Dev)
    (iplen : Nat) (listener free accept : Bool) :
    (host.input cfg domain dev iplen listener free accept).conn?.map Conn.state = some .established ↔
      Completes domain dev iplen accept conn := by
  have hunacked := (hreach.inv conn hconn hs).2
  have hne : ¬ (some conn).map Conn.state = some .established := by
    intro h
    exact not_handshaking_of_established (Option.some.inj h) hs
  unfold Host.input tcpInput Completes
  rw [hconn]
  dsimp only
  split_ifs with hsum hreset
  · exact iff_of_false hne (fun h => hsum h.1)
  · rw [tcpReset_conn?]
    refine iff_of_false hne ?_
    rintro ⟨-, ⟨hstate, -⟩ | ⟨-, hctl⟩⟩
    · exact hreset.1 hstate
    · exact ((flags_of_ctl _).1 hctl).2.2 hreset.2
  · rw [and_iff_right (not_not.mp hsum)]
    rcases hs with hstate | hstate
    · rw [inputFound_synRcvd cfg accept _ dev iplen hstate hunacked]
      simp [hstate]
    · rw [inputFound_synSent cfg accept _ dev iplen hstate hunacked]
      simp [hstate]

theorem Completes.ack {domain : Domain} {dev : Dev} {iplen : Nat} {accept : Bool}
    (h : Completes domain dev iplen accept conn) :
    (tcpHdr dev (iplen + dev.llhdrlen)).flags &&& tcpAck ≠ 0 := by
  rcases h.2 with ⟨-, -, -, hack, -⟩ | ⟨-, hctl⟩
  · exact hack
  · exact ((flags_of_ctl _).1 hctl).2.1

/-- **When a handshake needs the right acknowledgement.** A segment that completes a handshake carries
an acknowledgement of any number; the number is the right one exactly if the sender chose it so. -/
theorem handshake_ack_iff (cfg : Config) {host : Host} (hreach : Reachable cfg host) {conn : Conn}
    (hconn : host.conn = some conn) (hs : Handshaking conn) (domain : Domain) (dev : Dev) (iplen : Nat)
    (listener free accept : Bool) :
    ((host.input cfg domain dev iplen listener free accept).conn?.map Conn.state = some .established →
        (tcpHdr dev (iplen + dev.llhdrlen)).flags &&& tcpAck ≠ 0 ∧
          tcpGetsequence (tcpHdr dev (iplen + dev.llhdrlen)).ackno = host.iss + 1) ↔
      (Completes domain dev iplen accept conn →
        tcpGetsequence (tcpHdr dev (iplen + dev.llhdrlen)).ackno = host.iss + 1) := by
  rw [established_iff_completes cfg hreach hconn hs]
  exact ⟨fun h hcomplete => (h hcomplete).2, fun h hcomplete => ⟨hcomplete.ack, h hcomplete⟩⟩

def synPacket : Dev :=
  received 0x0a000001
    [69, 0, 0, 40, 0, 0, 0, 0, 64, 6, 102, 206, 10, 0, 0, 2, 10, 0, 0, 1,
      4, 0, 0, 80, 0, 0, 3, 232, 0, 0, 0, 0, 80, 2, 3, 232, 143, 192, 0, 0]

def rightAckPacket : Dev :=
  received 0x0a000001
    [69, 0, 0, 40, 0, 0, 0, 0, 64, 6, 102, 206, 10, 0, 0, 2, 10, 0, 0, 1,
      4, 0, 0, 80, 0, 0, 3, 233, 0, 0, 0, 6, 80, 16, 3, 232, 143, 171, 0, 0]

def strayAckPacket : Dev :=
  received 0x0a000001
    [69, 0, 0, 40, 0, 0, 0, 0, 64, 6, 102, 206, 10, 0, 0, 2, 10, 0, 0, 1,
      4, 0, 0, 80, 0, 0, 3, 233, 222, 173, 190, 239, 80, 16, 3, 232, 242, 19, 0, 0]

def synReceived : Host :=
  Host.step plainConfig ⟨none, 0, 5⟩ (.segment .inet synPacket 20 true true idleApp)

theorem synReceived_reachable : Reachable plainConfig synReceived := .step _ (.initial 0 5)

theorem synReceived_spec : synReceived.conn.map Conn.state = some .synRcvd ∧ synReceived.iss = 5 := by
  decide +kernel

theorem handshake_ack_six :
    (tcpHdr rightAckPacket 20).flags &&& tcpAck ≠ 0 ∧
      tcpGetsequence (tcpHdr rightAckPacket 20).ackno = synReceived.iss + 1 := by
  obtain ⟨conn, hconn, hstate⟩ := Option.map_eq_some_iff.mp synReceived_spec.1
  have hnumber : tcpGetsequence (tcpHdr rightAckPacket 20).ackno = synReceived.iss + 1 := by
    rw [synReceived_spec.2]
    decide
  exact (handshake_ack_iff plainConfig synReceived_reachable hconn (.inl hstate) .inet
    rightAckPacket 20 true true true).mpr (fun _ => hnumber) (by decide +kernel)

/-- **Any acknowledgement completes a handshake.** The connection has sent the initial sequence number 5
and is established by an acknowledgement of 3735928559. -/
theorem handshake_stray_ack :
    Reachable plainConfig synReceived ∧ synReceived.conn.map Conn.state = some .synRcvd ∧
      synReceived.iss = 5 ∧
      (synReceived.input plainConfig .inet strayAckPacket 20 true true true).conn?.map Conn.state =
        some .established ∧
      tcpGetsequence (tcpHdr strayAckPacket 20).ackno = 3735928559 := by
  refine ⟨synReceived_reachable, synReceived_spec.1, synReceived_spec.2, ?_, ?_⟩
  · decide +kernel
  · decide

end Nuttx.Tcp

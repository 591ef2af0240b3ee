import Nuttx.Net.Tcp.Proof.Acknowledge
import Nuttx.Net.Tcp.Proof.SendLabels

/-!
# What is sent is what was written

A session follows a sender together with the bytes that were written, the highest number that was
acknowledged and the segments that were sent.
-/

open List

namespace Nuttx.Tcp

open Net

structure Session where
  sender : Sender
  stream : List UInt8
  acked : Nat
  log : List Segment

def SendEvent.written : SendEvent → List UInt8
  | .write data => data
  | .poll _ | .rexmit _ | .segment _ _ => []

def SendEvent.acked : SendEvent → Nat
  | .segment dev iplen =>
    let tcp := tcpHdr dev (iplen + dev.llhdrlen)
    if tcp.flags &&& tcpAck ≠ 0 then (tcpGetsequence tcp.ackno).toNat else 0
  | .write _ | .poll _ | .rexmit _ => 0

namespace Session

def step (cfg : Config) (watermark : Nat) (domain : Domain) (session : Session) (event : SendEvent) :
    Session :=
  let stepped := session.sender.step cfg watermark domain event
  { sender := stepped.1
    stream := session.stream ++ event.written
    acked := max session.acked event.acked
    log := session.log ++ stepped.2.toList }

def run (cfg : Config) (watermark : Nat) (domain : Domain) (session : Session)
    (events : List SendEvent) : Session :=
  events.foldl (step cfg watermark domain) session

def start (conn : Conn) : Session := ⟨⟨conn, [], []⟩, [], 0, []⟩

end Session

def Segment.Right (isn : Nat) (stream : List UInt8) (seg : Segment) : Prop :=
  ∀ i < seg.data.length, isn ≤ seg.seqno.toNat + i ∧
    seg.data[i]? = stream[seg.seqno.toNat + i - isn]?

/-- Every byte that was sent was sent with its own sequence number, and the bytes that are not yet
acknowledged are in the queues, in order. -/
structure Session.Faithful (isn : Nat) (session : Session) : Prop where
  labels : ∀ seg ∈ session.log, seg.Right isn session.stream
  held : ∃ n, (n = 0 ∨ isn + n ≤ session.acked) ∧
    bytes (session.sender.unackedQ ++ session.sender.writeQ) = session.stream.drop n

def StepOk (watermark : Nat) (domain : Domain) (sender : Sender) : SendEvent → Prop
  | .write data => data.length < 65536
  | .poll _ => True
  | .rexmit _ => sender.Alive
  | .segment dev iplen =>
    let tcp := tcpHdr dev (iplen + dev.llhdrlen)
    tcp.flags &&& tcpAck ≠ 0 → sender.conn.txUnacked > 0 →
      iplen = hdrlen domain ∧ sender.AckInside (tcpGetsequence tcp.ackno) ∧
        (Duplicates watermark (tcpGetsequence tcp.ackno) sender.unackedQ → sender.Alive)

def RunOk (cfg : Config) (watermark : Nat) (domain : Domain) : Sender → List SendEvent → Prop
  | _, [] => True
  | sender, event :: events =>
    StepOk watermark domain sender event ∧
      RunOk cfg watermark domain (sender.step cfg watermark domain event).1 events

variable {isn watermark : Nat} {stream : List UInt8} {seg : Segment} {flags : UInt16} {dev : Dev}
  {sender : Sender} {domain : Domain} {start : Nat}

theorem Segment.Right.of_prefix {k : Nat}
    (hseqno : seg.seqno.toNat = isn + k) (hdata : seg.data <+: stream.drop k) :
    seg.Right isn stream := by
  intro i hi
  refine ⟨by omega, ?_⟩
  obtain ⟨rest, hrest⟩ := hdata
  have hindex : seg.seqno.toNat + i - isn = k + i := by omega
  rw [hindex, ← List.getElem?_drop, ← hrest, List.getElem?_append_left hi]

theorem Segment.Right.append
    (h : seg.Right isn stream) (data : List UInt8) : seg.Right isn (stream ++ data) := by
  intro i hi
  obtain ⟨hle, hbyte⟩ := h i hi
  refine ⟨hle, ?_⟩
  have hin : seg.seqno.toNat + i - isn < stream.length := by
    by_contra hout
    rw [List.getElem?_eq_none (Nat.le_of_not_lt hout), List.getElem?_eq_getElem hi] at hbyte
    cases hbyte
  rw [hbyte, List.getElem?_append_left hin]

def Plain (flags : UInt16) : Prop :=
  flags = 0 ∨ flags = tcpPoll ∨ flags = tcpRexmit ∨ flags = tcpAckdata

theorem Plain.clear (h : Plain flags) : Plain (flags &&& ~~~tcpPoll) := by
  rcases h with rfl | rfl | rfl | rfl
  · exact .inl (by decide)
  · exact .inl (by decide)
  · exact .inr (.inr (.inl (by decide)))
  · exact .inr (.inr (.inr (by decide)))

def Offers (isn : Nat) (stream : List UInt8) (conn : Conn) (dev : Dev) : Prop :=
  dev.sndlen = 0 ∨ ∃ k, (tcpGetsequence conn.sndseq).toNat = isn + k ∧
    dev.bytes dev.appdata dev.sndlen.toNat <+: stream.drop k

theorem outgoing_right {cfg : Config} {conn : Conn}
    (h : Offers isn stream conn dev) (hflags : Plain flags)
    (hseg : outgoing dev (tcpRexmitSend cfg conn dev flags) = some seg) : seg.Right isn stream := by
  have hack : ¬ flags &&& tcpSndack ≠ 0 := by
    rcases hflags with rfl | rfl | rfl | rfl <;> decide
  unfold tcpRexmitSend outgoing at hseg
  rw [if_neg hack] at hseg
  split_ifs at hseg with hsome
  · obtain rfl := Option.some.inj hseg
    rcases h with hnone | ⟨k, hseqno, hdata⟩
    · rw [hnone] at hsome
      exact absurd hsome.1 (by decide)
    · exact Segment.Right.of_prefix hseqno hdata
  · cases hseg

theorem tcpAppsend_plain (cfg : Config) (conn : Conn) (dev : Dev) (hflags : Plain flags) :
    (tcpAppsend cfg conn dev flags).2 =
        tcpRexmitSend cfg (tcpAppsend cfg conn dev flags).1 dev flags ∧
      (tcpAppsend cfg conn dev flags).1.isn = conn.isn ∧
      (tcpAppsend cfg conn dev flags).1.sent = conn.sent ∧
      (tcpAppsend cfg conn dev flags).1.sndseq = conn.sndseq := by
  have hdown : ¬ flags &&& netdevDown ≠ 0 := by
    rcases hflags with rfl | rfl | rfl | rfl <;> decide
  have habort : ¬ flags &&& tcpAbort ≠ 0 := by
    rcases hflags with rfl | rfl | rfl | rfl <;> decide
  have hclose : ¬ flags &&& tcpClose ≠ 0 := by
    rcases hflags with rfl | rfl | rfl | rfl <;> decide
  unfold tcpAppsend Conn.setTxUnacked
  rw [if_neg hdown, if_neg habort, if_neg hclose]
  refine ⟨rfl, ?_⟩
  split_ifs <;> exact ⟨rfl, rfl, rfl⟩

theorem Holds.trySend
    (h : Holds isn stream start sender) (hwrap : isn + stream.length < 2 ^ 32) (domain : Domain)
    (hdev : dev.sndlen = 0) (hflags : Plain flags) :
    Holds isn stream start (sender.trySend domain dev flags).1 ∧
      Offers isn stream (sender.trySend domain dev flags).1.conn
        (sender.trySend domain dev flags).2.1 ∧
      Plain (sender.trySend domain dev flags).2.2 := by
  unfold Sender.trySend
  rw [if_neg (by rw [hdev]; decide)]
  split_ifs with hsend
  · cases hcase : sender.writeQ with
    | nil => exact absurd hcase hsend.2.2.1
    | cons wrb q =>
      obtain ⟨hseqno, hdata⟩ := h.send_data hwrap hcase domain dev
      refine ⟨h.send hwrap hcase domain dev, .inr ⟨_, hseqno, ?_⟩, hflags.clear⟩
      rw [hdata]
      exact List.take_prefix _ _
  · exact ⟨h, .inl hdev, hflags⟩

theorem handler_ackdata (watermark : Nat) (domain : Domain) (sender : Sender) (dev : Dev) :
    psockSendEventhandler watermark domain true sender dev tcpAckdata =
      let acked := sender.acknowledge watermark
        (tcpGetsequence (tcpHdr dev (hdrlen domain + dev.llhdrlen)).ackno)
      (if acked.2 then acked.1.rexmit else acked.1).trySend domain dev tcpAckdata := rfl

theorem ackData_sent (cfg : Config) (tcp : Hdr) (conn : Conn) :
    (ackData cfg tcp conn).1.isn = conn.isn ∧ (ackData cfg tcp conn).1.sent = conn.sent := by
  unfold ackData Conn.estimate Conn.setTxUnacked
  dsimp only
  split_ifs <;> exact ⟨rfl, rfl⟩

theorem ackData_ne_zero {cfg : Config} {tcp : Hdr} {conn : Conn} (h : (ackData cfg tcp conn).2 ≠ 0) :
    (ackData cfg tcp conn).2 = tcpAckdata ∧ tcp.flags &&& tcpAck ≠ 0 ∧ conn.txUnacked > 0 := by
  by_cases hack : tcp.flags &&& tcpAck ≠ 0 ∧ conn.txUnacked > 0
  · unfold ackData
    rw [if_pos hack]
    exact ⟨rfl, hack⟩
  · unfold ackData at h
    rw [if_neg hack] at h
    exact absurd rfl h

theorem Holds.ackdata (h : Holds isn stream start sender) (hwrap : isn + stream.length < 2 ^ 32)
    (hdev : dev.sndlen = 0) {ackno : UInt32}
    (hackno : ackno = tcpGetsequence (tcpHdr dev (hdrlen domain + dev.llhdrlen)).ackno)
    (hinside : sender.AckInside ackno)
    (halive : Duplicates watermark ackno sender.unackedQ → sender.Alive) :
    ∃ start', (start' = start ∨ isn + start' ≤ ackno.toNat) ∧
      Holds isn stream start' (psockSendEventhandler watermark domain true sender dev tcpAckdata).1 ∧
      Offers isn stream (psockSendEventhandler watermark domain true sender dev tcpAckdata).1.conn
        (psockSendEventhandler watermark domain true sender dev tcpAckdata).2.1 ∧
      Plain (psockSendEventhandler watermark domain true sender dev tcpAckdata).2.2 := by
  obtain ⟨start', hstart, hkept, hdup, hlive⟩ := h.acknowledge hwrap watermark hinside
  rw [handler_ackdata, ← hackno]
  dsimp only
  refine ⟨start', hstart, ?_⟩
  split_ifs with hrexmit
  · exact (hkept.rexmit hwrap (hlive (halive (hdup hrexmit)))).trySend hwrap domain hdev
      (.inr (.inr (.inr rfl)))
  · exact hkept.trySend hwrap domain hdev (.inr (.inr (.inr rfl)))

theorem Holds.appsend
    (h : Holds isn stream start sender) (hoffers : Offers isn stream sender.conn dev)
    (hflags : Plain flags) (cfg : Config) :
    Holds isn stream start { sender with conn := (tcpAppsend cfg sender.conn dev flags).1 } ∧
      ∀ seg, outgoing dev (tcpAppsend cfg sender.conn dev flags).2 = some seg →
        seg.Right isn stream := by
  obtain ⟨hout, hisn, hsent, hsndseq⟩ := tcpAppsend_plain cfg sender.conn dev hflags
  refine ⟨h.of_conn hisn hsent, fun seg hseg => ?_⟩
  rw [hout] at hseg
  refine outgoing_right ?_ hflags hseg
  unfold Offers
  rwa [hsndseq]

def Sender.Kept (isn : Nat) (stream : List UInt8) (acked start : Nat)
    (stepped : Sender × Option Segment) : Prop :=
  ∃ start', (start' = start ∨ isn + start' ≤ acked) ∧ Holds isn stream start' stepped.1 ∧
    ∀ seg, stepped.2 = some seg → seg.Right isn stream

theorem Holds.input
    (h : Holds isn stream start sender) (hwrap : isn + stream.length < 2 ^ 32) (cfg : Config)
    {iplen : Nat} (hok : StepOk watermark domain sender (.segment dev iplen)) :
    Sender.Kept isn stream (SendEvent.segment dev iplen).acked start
      (sender.input cfg watermark domain dev iplen) := by
  obtain ⟨hisn, hsent⟩ := ackData_sent cfg (tcpHdr dev (iplen + dev.llhdrlen))
    (sender.conn.updateWindow (tcpHdr dev (iplen + dev.llhdrlen)))
  have hconn := h.of_conn hisn hsent
  unfold Sender.input
  dsimp only
  split_ifs with hnone
  · exact ⟨start, .inl rfl, hconn, fun seg hseg => by cases hseg⟩
  obtain ⟨hflags, hack, hunacked⟩ := ackData_ne_zero hnone
  obtain ⟨hiplen, hinside, halive⟩ := hok hack hunacked
  have hacked : (SendEvent.segment dev iplen).acked =
      (tcpGetsequence (tcpHdr dev (iplen + dev.llhdrlen)).ackno).toNat := if_pos hack
  rw [hflags, hacked]
  subst hiplen
  obtain ⟨start', hstart, hkept, hoffers, hplain⟩ :=
    hconn.ackdata hwrap (rfl : ({ dev with sndlen := 0 } : Dev).sndlen = 0) rfl hinside halive
  obtain ⟨hkept', hright⟩ := hkept.appsend hoffers hplain cfg
  exact ⟨start', hstart, hkept', hright⟩

theorem Holds.step (h : Holds isn stream start sender) (cfg : Config)
    {event : SendEvent} (hwrap : isn + (stream ++ event.written).length < 2 ^ 32)
    (hok : StepOk watermark domain sender event) :
    Sender.Kept isn (stream ++ event.written) event.acked start
      (sender.step cfg watermark domain event) := by
  cases event with
  | write data => exact ⟨start, .inl rfl, h.tcpSend hok, fun seg hseg => by cases hseg⟩
  | poll dev =>
    rw [SendEvent.written, append_nil] at hwrap ⊢
    obtain ⟨hkept, hoffers, hplain⟩ := h.trySend hwrap domain
      (rfl : ({ dev with len := 0, sndlen := 0 } : Dev).sndlen = 0) (.inr (.inl rfl))
    obtain ⟨hkept', hright⟩ := hkept.appsend hoffers hplain cfg
    exact ⟨start, .inl rfl, hkept', hright⟩
  | rexmit dev =>
    rw [SendEvent.written, append_nil] at hwrap ⊢
    obtain ⟨hkept, hoffers, hplain⟩ := (h.rexmit hwrap hok).trySend hwrap domain
      (rfl : ({ dev with len := 0, sndlen := 0 } : Dev).sndlen = 0) (.inr (.inr (.inl rfl)))
    exact ⟨start, .inl rfl, hkept, fun seg hseg => outgoing_right hoffers hplain hseg⟩
  | segment dev iplen =>
    rw [SendEvent.written, append_nil] at hwrap ⊢
    exact h.input hwrap cfg hok

structure Session.Inv (isn : Nat) (session : Session) : Prop where
  labels : ∀ seg ∈ session.log, seg.Right isn session.stream
  holds : ∃ start, (start = 0 ∨ isn + start ≤ session.acked) ∧
    Holds isn session.stream start session.sender

theorem Session.Inv.step {session : Session} (h : session.Inv isn) (cfg : Config)
    {event : SendEvent}
    (hwrap : isn + (session.step cfg watermark domain event).stream.length < 2 ^ 32)
    (hok : StepOk watermark domain session.sender event) :
    (session.step cfg watermark domain event).Inv isn := by
  obtain ⟨start, hacked, hholds⟩ := h.holds
  obtain ⟨start', hstart', hholds', hright⟩ := hholds.step cfg hwrap hok
  refine ⟨fun seg hseg => ?_, start', ?_, hholds'⟩
  · rcases mem_append.mp hseg with hold | hnew
    · exact (h.labels seg hold).append _
    · exact hright seg (Option.mem_toList.mp hnew)
  · have hmax : (session.step cfg watermark domain event).acked = max session.acked event.acked := rfl
    omega

theorem Session.stream_length_le (cfg : Config) (watermark : Nat) (domain : Domain) (session : Session)
    (events : List SendEvent) :
    session.stream.length ≤ (session.run cfg watermark domain events).stream.length := by
  induction events generalizing session with
  | nil => exact le_rfl
  | cons event events ih =>
    refine le_trans ?_ (ih (session.step cfg watermark domain event))
    rw [step, length_append]
    exact Nat.le_add_right _ _

theorem Session.Inv.run {session : Session} (h : session.Inv isn) (cfg : Config)
    {events : List SendEvent} (hok : RunOk cfg watermark domain session.sender events)
    (hwrap : isn + (session.run cfg watermark domain events).stream.length < 2 ^ 32) :
    (session.run cfg watermark domain events).Inv isn := by
  induction events generalizing session with
  | nil => exact h
  | cons event events ih =>
    have hle := Session.stream_length_le cfg watermark domain
      (session.step cfg watermark domain event) events
    have hwrap' : isn + ((session.step cfg watermark domain event).run cfg watermark domain
      events).stream.length < 2 ^ 32 := hwrap
    exact ih (h.step cfg (by omega) hok.1) hok.2 hwrap'

/-- **What is sent is what was written.** In a run from a fresh connection whose events all meet
`StepOk`, every byte that was sent was sent with its own sequence number, and the bytes that are not yet
acknowledged are in the queues, in order. -/
theorem session_faithful (cfg : Config) (watermark : Nat) (domain : Domain) {conn : Conn}
    (hsent : conn.sent = 0) {events : List SendEvent}
    (hok : RunOk cfg watermark domain ⟨conn, [], []⟩ events)
    (hwrap : conn.isn.toNat +
      ((Session.start conn).run cfg watermark domain events).stream.length < 2 ^ 32) :
    ((Session.start conn).run cfg watermark domain events).Faithful conn.isn.toNat := by
  have hzero : conn.sent.toNat = 0 := by
    rw [hsent]
    rfl
  have hstart : (Session.start conn).Inv conn.isn.toNat := by
    refine ⟨fun seg hseg => absurd hseg not_mem_nil, 0, .inl rfl, ?_⟩
    refine ⟨rfl, le_rfl, rfl, trivial, trivial, Nat.zero_le _, fun wrb q hq => ?_, fun _ => hzero⟩
    cases hq
  obtain ⟨hlabels, start, hacked, hholds⟩ := hstart.run cfg hok hwrap
  exact ⟨hlabels, start, hacked, hholds.bytes_eq⟩

instance (watermark : Nat) (ackno : UInt32) (q : List Wrb) : Decidable (Duplicates watermark ackno q) :=
  inferInstanceAs (Decidable (∃ wrb ∈ q, _))

instance (watermark : Nat) (domain : Domain) (sender : Sender) (event : SendEvent) :
    Decidable (StepOk watermark domain sender event) :=
  match event with
  | .write data => inferInstanceAs (Decidable (data.length < 65536))
  | .poll _ => .isTrue trivial
  | .rexmit _ => inferInstanceAs (Decidable sender.Alive)
  | .segment _ _ => inferInstanceAs (Decidable (_ → _ → _))

instance RunOk.decidable (cfg : Config) (watermark : Nat) (domain : Domain) (sender : Sender) :
    (events : List SendEvent) → Decidable (RunOk cfg watermark domain sender events)
  | [] => .isTrue trivial
  | event :: events =>
    have := RunOk.decidable cfg watermark domain (sender.step cfg watermark domain event).1 events
    inferInstanceAs (Decidable (_ ∧ _))

def bufferConfig : Config := ⟨true, false, false⟩

def smallConn : Conn :=
  { inFlight .established 5 0 with mss := 4, sndWnd := 1000, isn := 5, sndseqMax := 5 }

def ackNine : Dev :=
  received 0x0a000001
    [69, 0, 0, 40, 0, 0, 0, 0, 64, 6, 102, 206, 10, 0, 0, 2, 10, 0, 0, 1,
      4, 0, 0, 80, 0, 0, 0, 0, 0, 0, 0, 9, 80, 16, 3, 232, 147, 145, 0, 0]

def ackFifteen : Dev :=
  received 0x0a000001
    [69, 0, 0, 40, 0, 0, 0, 0, 64, 6, 102, 206, 10, 0, 0, 2, 10, 0, 0, 1,
      4, 0, 0, 80, 0, 0, 0, 0, 0, 0, 0, 15, 80, 16, 3, 232, 147, 139, 0, 0]

def idleDev : Dev := received 0x0a000001 []

def sentTwice : List SendEvent :=
  [.write [0, 1, 2, 3, 4, 5, 6, 7, 8, 9], .poll idleDev, .poll idleDev, .poll idleDev, .rexmit idleDev]

theorem session_faithful_ackNine :
    ((Session.start smallConn).run bufferConfig 3 .inet
      (sentTwice ++ [.segment ackNine 20, .poll idleDev])).Faithful 5 :=
  session_faithful bufferConfig 3 .inet (rfl : smallConn.sent = 0) (by decide)
    (by decide)

/-- **A delayed acknowledgement mislabels the stream.** The first segment has been sent again when the
acknowledgement of all ten bytes arrives. It is taken for one of the four bytes that have been sent
again, and the fifth byte is sent as if it were the eleventh. -/
theorem delayed_ack_mislabels :
    (∃ seg ∈ ((Session.start smallConn).run bufferConfig 3 .inet sentTwice).log,
      (SendEvent.segment ackFifteen 20).acked = seg.seqno.toNat + seg.data.length) ∧
    ¬ ((Session.start smallConn).run bufferConfig 3 .inet
      (sentTwice ++ [.segment ackFifteen 20, .poll idleDev])).Faithful 5 := by
  refine ⟨by decide, fun hfaithful => ?_⟩
  have hmem : (⟨15, [4, 5, 6, 7]⟩ : Segment) ∈ ((Session.start smallConn).run bufferConfig 3 .inet
      (sentTwice ++ [.segment ackFifteen 20, .poll idleDev])).log := by
    decide
  exact absurd (hfaithful.labels _ hmem 0 (by decide)).2 (by decide)

end Nuttx.Tcp

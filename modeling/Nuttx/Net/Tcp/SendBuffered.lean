import Nuttx.Net.Tcp.System

/-!
# Sending through write buffers

What the application writes is kept in write buffers until it is acknowledged. A buffer waits in
`write_q` until all of it has been sent and then in `unacked_q`; a retransmission takes it back.
-/

namespace Nuttx.Tcp

open Net

def hdrlen : Domain → Nat
  | .inet => ipv4Hdrlen
  | .inet6 => ipv6Hdrlen

structure Wrb where
  seqno : UInt32
  sent : UInt16
  nrtx : UInt8
  nack : UInt8
  iob : List UInt8
deriving DecidableEq

def unsentSeqno : UInt32 := 0xffffffff

def Wrb.pktlen (wrb : Wrb) : UInt16 := UInt16.ofNat wrb.iob.length

structure Sender where
  conn : Conn
  writeQ : List Wrb
  unackedQ : List Wrb

def psockInsertSegment (wrb : Wrb) : List Wrb → List Wrb
  | [] => [wrb]
  | wrb0 :: q =>
    if wrb0.seqno < wrb.seqno then wrb0 :: psockInsertSegment wrb q else wrb :: wrb0 :: q

def Wrb.acknowledge (ackno : UInt32) (wrb : Wrb) : Wrb :=
  let nacked := ackno - wrb.seqno
  let nacked := if nacked > wrb.sent.toUInt32 then wrb.sent.toUInt32 else nacked
  { wrb with
      iob := wrb.iob.drop nacked.toNat
      seqno := ackno
      sent := wrb.sent - nacked.toUInt16 }

/-- An acknowledgement that ends where the buffer starts. Enough of them start a retransmission;
`count` is the length of the queue. -/
def Wrb.duplicate (watermark count : Nat) (wrb : Wrb) : Wrb × Bool :=
  let nack := wrb.nack + 1
  if nack.toNat = watermark then ({ wrb with nack := nack }, true)
  else if nack.toNat > watermark ∧ nack.toNat = count - 1 then ({ wrb with nack := 0 }, false)
  else ({ wrb with nack := nack }, false)

def ackUnacked (watermark : Nat) (ackno : UInt32) : List Wrb → List Wrb → List Wrb × Bool
  | kept, [] => (kept, false)
  | kept, wrb :: q =>
    if ackno > wrb.seqno then
      if ackno ≥ wrb.seqno + wrb.pktlen.toUInt32 then ackUnacked watermark ackno kept q
      else ackUnacked watermark ackno (kept ++ [wrb.acknowledge ackno]) q
    else if ackno = wrb.seqno then
      let dup := wrb.duplicate watermark (kept.length + q.length + 1)
      let after := ackUnacked watermark ackno (kept ++ [dup.1]) q
      (after.1, dup.2 || after.2)
    else ackUnacked watermark ackno (kept ++ [wrb]) q

def ackHead (ackno : UInt32) : List Wrb → List Wrb
  | [] => []
  | wrb :: q =>
    if wrb.sent > 0 ∧ ackno > wrb.seqno then wrb.acknowledge ackno :: q else wrb :: q

def Sender.acknowledge (watermark : Nat) (ackno : UInt32) (sender : Sender) : Sender × Bool :=
  let acked := ackUnacked watermark ackno [] sender.unackedQ
  ({ sender with unackedQ := acked.1, writeQ := ackHead ackno sender.writeQ }, acked.2)

def Conn.unsend (sent : UInt16) (conn : Conn) : Conn :=
  { conn with
      txUnacked := if conn.txUnacked > sent.toUInt32 then conn.txUnacked - sent.toUInt32 else 0
      sent := if conn.sent > sent.toUInt32 then conn.sent - sent.toUInt32 else 0 }

variable (conn : Conn)

def Conn.expire : Conn := { conn with expired := conn.expired + 1 }

def Wrb.again (wrb : Wrb) : Wrb := { wrb with sent := 0, nrtx := wrb.nrtx + 1 }

def rexmitHead : List Wrb → Conn × List Wrb
  | [] => (conn, [])
  | wrb :: q =>
    if wrb.sent > 0 then
      let conn := conn.unsend wrb.sent
      if wrb.again.nrtx ≥ tcpMaxrtx then (conn.expire, q) else (conn, wrb.again :: q)
    else (conn, wrb :: q)

def requeue (wrb : Wrb) (state : Conn × List Wrb) : Conn × List Wrb :=
  let conn := state.1.unsend wrb.sent
  if wrb.again.nrtx ≥ tcpMaxrtx then (conn.expire, state.2)
  else (conn, psockInsertSegment wrb.again state.2)

def Sender.rexmit (sender : Sender) : Sender :=
  let moved := sender.unackedQ.foldr requeue (rexmitHead sender.conn sender.writeQ)
  ⟨moved.1, moved.2, []⟩

def sendIpselect (domain : Domain) (dev : Dev) : Dev :=
  { dev with appdata := hdrlen domain + tcpHdrlen + dev.llhdrlen }

def devifIobSend (dev : Dev) (iob : List UInt8) (len : UInt32) (offset : UInt16) : Dev :=
  { dev with
      buf := fun i =>
        if dev.appdata ≤ i ∧ i < dev.appdata + len.toNat then
          iob.getD (offset.toNat + (i - dev.appdata)) (dev.buf i)
        else dev.buf i
      sndlen := len.toUInt16 }

def Conn.sndlen (wrb : Wrb) : UInt32 :=
  let sndlen := wrb.pktlen.toUInt32 - wrb.sent.toUInt32
  let sndlen := if sndlen > conn.mss.toUInt32 then conn.mss.toUInt32 else sndlen
  if sndlen > conn.sndWnd.toUInt32 then conn.sndWnd.toUInt32 else sndlen

def Conn.label (wrb : Wrb) : UInt32 :=
  if wrb.seqno = unsentSeqno then conn.isn + conn.sent else wrb.seqno

def Conn.count (seqno sndlen : UInt32) : Conn :=
  let predicted := seqno + sndlen
  { conn with
      sndseq := tcpSetsequence seqno
      txUnacked := conn.txUnacked + sndlen
      sent := conn.sent + sndlen
      sndseqMax :=
        if predicted > conn.sndseqMax ∨ seqno > predicted then predicted else conn.sndseqMax }

def Sender.send (domain : Domain) (sender : Sender) (dev : Dev) : Sender × Dev :=
  match sender.writeQ with
  | [] => (sender, dev)
  | wrb :: q =>
    let sndlen := sender.conn.sndlen wrb
    let seqno := sender.conn.label wrb
    let conn := sender.conn.count (seqno + wrb.sent.toUInt32) sndlen
    let dev := devifIobSend (sendIpselect domain dev) wrb.iob sndlen wrb.sent
    let wrb := { wrb with seqno := seqno, sent := wrb.sent + sndlen.toUInt16 }
    if wrb.sent ≥ wrb.pktlen then (⟨conn, q, psockInsertSegment wrb sender.unackedQ⟩, dev)
    else (⟨conn, wrb :: q, sender.unackedQ⟩, dev)

def psockLostConnection (abort : Bool) (sender : Sender) : Sender :=
  let conn := { sender.conn with sent := 0, sndseqMax := 0 }
  ⟨if abort then { conn.enter .closed with txUnacked := 0 } else conn, [], []⟩

def State.established? : State → Bool
  | .established | .finWait1 | .finWait2 | .closing => true
  | .closed | .allocated | .synRcvd | .synSent | .timeWait | .lastAck => false

def Sender.trySend (domain : Domain) (sender : Sender) (dev : Dev) (flags : UInt16) :
    Sender × Dev × UInt16 :=
  if dev.sndlen > 0 then (sender, dev, flags)
  else if sender.conn.state.established? ∧ flags &&& (tcpPoll ||| tcpRexmit) ≠ 0 ∧
      sender.writeQ ≠ [] ∧ sender.conn.sndWnd > 0 then
    let sent := sender.send domain dev
    (sent.1, sent.2, flags &&& ~~~tcpPoll)
  else (sender, dev, flags)

/-- `psock_send_eventhandler`; `watermark` is `CONFIG_NET_TCP_FAST_RETRANSMIT_WATERMARK`, and `bound` says
whether the device is the one of the connection. The TCP header is looked for behind an IP header
without options. -/
def psockSendEventhandler (watermark : Nat) (domain : Domain) (bound : Bool) (sender : Sender)
    (dev : Dev) (flags : UInt16) : Sender × Dev × UInt16 :=
  if flags &&& tcpDisconnEvents ≠ 0 then
    (psockLostConnection (flags &&& netdevDown ≠ 0) sender, dev, flags)
  else if bound = false then (sender, dev, flags)
  else
    let tcp := tcpHdr dev (hdrlen domain + dev.llhdrlen)
    let acked :=
      if flags &&& tcpAckdata ≠ 0 then sender.acknowledge watermark (tcpGetsequence tcp.ackno)
      else (sender, decide (flags &&& tcpRexmit ≠ 0))
    let sender := if acked.2 then acked.1.rexmit else acked.1
    sender.trySend domain dev flags

def psockTcpSend (data : List UInt8) (sender : Sender) : Sender :=
  if data = [] then sender
  else { sender with writeQ := sender.writeQ ++ [⟨unsentSeqno, 0, 0, 0, data⟩] }

structure Segment where
  seqno : UInt32
  data : List UInt8
deriving DecidableEq

def outgoing (dev : Dev) (sent : Option Sent) : Option Segment :=
  sent.map fun sent => ⟨tcpGetsequence sent.seqno, dev.bytes dev.appdata sent.len⟩

inductive SendEvent
  | write (data : List UInt8)
  | poll (dev : Dev)
  /-- The retransmission timer has run out. -/
  | rexmit (dev : Dev)
  /-- A segment arrives. -/
  | segment (dev : Dev) (iplen : Nat)

def Sender.input (cfg : Config) (watermark : Nat) (domain : Domain) (sender : Sender) (dev : Dev)
    (iplen : Nat) : Sender × Option Segment :=
  let tcp := tcpHdr dev (iplen + dev.llhdrlen)
  let acked := ackData cfg tcp (sender.conn.updateWindow tcp)
  let sender := { sender with conn := acked.1 }
  if acked.2 = 0 then (sender, none)
  else
    let called := psockSendEventhandler watermark domain true sender { dev with sndlen := 0 } acked.2
    let sent := tcpAppsend cfg called.1.conn called.2.1 called.2.2
    ({ called.1 with conn := sent.1 }, outgoing called.2.1 sent.2)

def Sender.step (cfg : Config) (watermark : Nat) (domain : Domain) (sender : Sender) :
    SendEvent → Sender × Option Segment
  | .write data => (psockTcpSend data sender, none)
  | .poll dev =>
    let dev := { dev with len := 0, sndlen := 0 }
    let called := psockSendEventhandler watermark domain true sender dev tcpPoll
    let sent := tcpAppsend cfg called.1.conn called.2.1 called.2.2
    ({ called.1 with conn := sent.1 }, outgoing called.2.1 sent.2)
  | .rexmit dev =>
    let dev := { dev with len := 0, sndlen := 0 }
    let called := psockSendEventhandler watermark domain true sender dev tcpRexmit
    (called.1, outgoing called.2.1 (tcpRexmitSend cfg called.1.conn called.2.1 called.2.2))
  | .segment dev iplen => sender.input cfg watermark domain dev iplen

end Nuttx.Tcp

import Nuttx.Net.Tcp.Conn

/-!
# `tcp_input`

The processing of one segment, cut in two at the call of `tcp_callback`: `tcpInput` is everything up
to that call (an `Outcome`), `finish` is the call and what is done with its result.
-/

namespace Nuttx.Tcp

open Net

structure Hdr where
  seqno : Seqno
  ackno : Seqno
  tcpoffset : UInt8
  flags : UInt8
  wnd : UInt16
  urgp : UInt16

def tcpHdr (dev : Dev) (off : Nat) : Hdr where
  seqno := ⟨dev.buf (off + 4), dev.buf (off + 5), dev.buf (off + 6), dev.buf (off + 7)⟩
  ackno := ⟨dev.buf (off + 8), dev.buf (off + 9), dev.buf (off + 10), dev.buf (off + 11)⟩
  tcpoffset := dev.buf (off + 12)
  flags := dev.buf (off + 13)
  wnd := be16 (dev.buf (off + 14)) (dev.buf (off + 15))
  urgp := be16 (dev.buf (off + 18)) (dev.buf (off + 19))

def tcpHdrlen : Nat := 20

def Hdr.length (tcp : Hdr) : Nat := (tcp.tcpoffset >>> 4).toNat * 4

def tcpMss (dev : Dev) (iplen : Nat) : UInt16 :=
  dev.pktsize - UInt16.ofNat dev.llhdrlen - UInt16.ofNat tcpHdrlen - UInt16.ofNat iplen

def tcpOptEnd : UInt8 := 0

def tcpOptNoop : UInt8 := 1

def tcpOptMss : UInt8 := 2

def tcpOptMssLen : UInt8 := 4

/-- The loop over the options, from option byte `i` on. The result is the value of the MSS option, if
one was found, and the indices into the buffer that were read. -/
def optionLoop (dev : Dev) (hdrlen optlen : Nat) : Nat → Nat → Option UInt16 × List Nat
  | 0, _ => (none, [])
  | fuel + 1, i =>
    if i < optlen then
      let opt := dev.buf (hdrlen + i)
      if opt = tcpOptEnd then (none, [hdrlen + i])
      else if opt = tcpOptNoop then
        let rest := optionLoop dev hdrlen optlen fuel (i + 1)
        (rest.1, (hdrlen + i) :: rest.2)
      else if opt = tcpOptMss ∧ dev.buf (hdrlen + 1 + i) = tcpOptMssLen then
        (some ((dev.buf (hdrlen + 2 + i)).toUInt16 <<< 8 ||| (dev.buf (hdrlen + 3 + i)).toUInt16),
          [hdrlen + i, hdrlen + 1 + i, hdrlen + 2 + i, hdrlen + 3 + i])
      else if dev.buf (hdrlen + 1 + i) = 0 then (none, [hdrlen + i, hdrlen + 1 + i])
      else
        let rest := optionLoop dev hdrlen optlen fuel (i + (dev.buf (hdrlen + 1 + i)).toNat)
        (rest.1, (hdrlen + i) :: (hdrlen + 1 + i) :: rest.2)
    else (none, [])

/-- The options of a segment whose TCP header ends at `hdrlen` if it has none. Every round of the
loop goes at least one byte further, so there are at most as many rounds as option bytes. -/
def parseOptions (dev : Dev) (hdrlen : Nat) (tcp : Hdr) : Option UInt16 × List Nat :=
  if tcp.tcpoffset &&& 0xf0 > 0x50 then
    let optlen := tcp.length - tcpHdrlen
    optionLoop dev hdrlen optlen optlen 0
  else (none, [])

def Conn.setMss (conn : Conn) (mss : UInt16) : Option UInt16 → Conn
  | some value => { conn with mss := if value > mss then mss else value }
  | none => conn

def Conn.estimate (conn : Conn) : Conn :=
  let m := conn.rto - conn.timer
  let m := m - (conn.sa >>> 3)
  let sa := conn.sa + m
  let m := if m ≥ 0x80 then 0 - m else m
  let m := m - (conn.sv >>> 2)
  let sv := conn.sv + m
  { conn with sa := sa, sv := sv, rto := (sa >>> 3) + sv }

variable (cfg : Config)

def ackData (tcp : Hdr) (conn : Conn) : Conn × UInt16 :=
  if tcp.flags &&& tcpAck ≠ 0 ∧ conn.txUnacked > 0 then
    let unackseq :=
      if cfg.writeBuffers then conn.sndseqMax
      else tcpAddsequence conn.sndseq conn.txUnacked.toUInt16
    let ackseq := tcpGetsequence tcp.ackno
    let conn :=
      if ackseq ≤ unackseq then conn.setTxUnacked cfg (unackseq - ackseq)
      else if conn.state = .established then { conn with txUnacked := 0 }
      else conn
    let conn := { conn with sndseq := tcpSetsequence ackseq }
    let conn := if conn.nrtx = 0 then conn.estimate else conn
    ({ conn with timer := conn.rto }, tcpAckdata)
  else (conn, 0)

/-- What is left to do when `tcp_callback` has returned. -/
inductive Next
  | drop
  | appsend
  | ackAppsend (len : UInt16)
  | lastAck
  | failed
  | ack

/-- The way a segment goes. -/
inductive Outcome
  | drop (conn : Option Conn)
  | reset (conn : Option Conn)
  | send (conn : Conn) (flags : UInt8)
  | synack (conn : Conn) (ack : UInt8)
  | callback (conn : Conn) (dev : Dev) (flags : UInt16) (next : Next)

def inputSynRcvd (accept : Bool) (tcp : Hdr) (dev : Dev) (conn : Conn)
    (flags : UInt16) : Outcome :=
  if flags &&& tcpAckdata ≠ 0 then
    let conn := conn.enter .established
    if accept then
      let conn :=
        if cfg.writeBuffers then
          let isn := tcpGetsequence tcp.ackno
          { conn with isn := isn, sndseq := tcpSetsequence isn, sent := 0, sndseqMax := 0 }
        else conn
      let conn := { conn with txUnacked := 0 }
      if dev.len > 0 then
        .callback { conn with rcvseq := netIncr32 conn.rcvseq dev.len } { dev with sndlen := 0 }
          (tcpConnected ||| tcpNewdata) .appsend
      else .callback conn { dev with sndlen := 0 } tcpConnected .appsend
    -- the listener is gone and the connection is freed
    else .reset none
  else if tcp.flags &&& tcpCtl = tcpSyn then .synack conn (tcpAck ||| tcpSyn)
  else .drop (some conn)

def inputSynSent (tcp : Hdr) (dev : Dev) (iplen : Nat) (conn : Conn)
    (flags : UInt16) : Outcome :=
  if flags &&& tcpAckdata ≠ 0 ∧ tcp.flags &&& tcpCtl = tcpSyn ||| tcpAck then
    let conn := conn.setMss (tcpMss dev iplen)
      (parseOptions dev (iplen + tcpHdrlen + dev.llhdrlen) tcp).1
    let conn := conn.enter .established
    let conn := { conn with rcvseq := netIncr32 tcp.seqno 1, txUnacked := 0 }
    let conn :=
      if cfg.writeBuffers then
        let isn := tcpGetsequence tcp.ackno
        { conn with isn := isn, sndseq := tcpSetsequence isn }
      else conn
    .callback conn { dev with len := 0, sndlen := 0 } (tcpConnected ||| tcpNewdata) .appsend
  else .callback conn dev tcpAbort .failed

def skipUrgent (tcp : Hdr) (dev : Dev) (conn : Conn) : Conn × Dev :=
  if tcp.flags &&& tcpUrg ≠ 0 then
    let urglen := if tcp.urgp > dev.len then dev.len else tcp.urgp
    ({ conn with rcvseq := netIncr32 conn.rcvseq urglen },
      { dev with len := dev.len - urglen, appdata := dev.appdata + urglen.toNat })
  else (conn, dev)

def inputEstablished (tcp : Hdr) (dev : Dev) (conn : Conn) (flags : UInt16) : Outcome :=
  if tcp.flags &&& tcpFin ≠ 0 ∧ conn.stopped = false then
    let conn := { conn with rcvseq := netIncr32 conn.rcvseq (dev.len + 1) }
    let flags := flags ||| tcpClose
    let flags := if dev.len > 0 then flags ||| tcpNewdata else flags
    .callback conn dev flags .lastAck
  else
    let skipped := skipUrgent tcp dev conn
    let conn := skipped.1
    let dev := skipped.2
    let flags := if dev.len > 0 ∧ conn.stopped = false then flags ||| tcpNewdata else flags
    if flags &&& (tcpNewdata ||| tcpAckdata) ≠ 0 then
      .callback conn { dev with sndlen := 0 } flags (.ackAppsend dev.len)
    else .drop (some conn)

def inputFinWait1 (tcp : Hdr) (dev : Dev) (conn : Conn) (flags : UInt16) : Outcome :=
  let conn := if dev.len > 0 then { conn with rcvseq := netIncr32 conn.rcvseq dev.len } else conn
  if tcp.flags &&& tcpFin ≠ 0 then
    let conn :=
      if flags &&& tcpAckdata ≠ 0 ∧ conn.txUnacked = 0 then
        { conn.enter .timeWait with timer := 0 }
      else conn.enter .closing
    .callback { conn with rcvseq := netIncr32 conn.rcvseq 1 } dev tcpClose .ack
  else if flags &&& tcpAckdata ≠ 0 ∧ conn.txUnacked = 0 then .drop (some (conn.enter .finWait2))
  else if dev.len > 0 then .send conn tcpAck
  else .drop (some conn)

def inputFinWait2 (tcp : Hdr) (dev : Dev) (conn : Conn) : Outcome :=
  let conn := if dev.len > 0 then { conn with rcvseq := netIncr32 conn.rcvseq dev.len } else conn
  if tcp.flags &&& tcpFin ≠ 0 then
    let conn := { conn.enter .timeWait with timer := 0 }
    .callback { conn with rcvseq := netIncr32 conn.rcvseq 1 } dev tcpClose .ack
  else if dev.len > 0 then .send conn tcpAck
  else .drop (some conn)

def inputState (accept : Bool) (tcp : Hdr) (dev : Dev) (iplen : Nat) (conn : Conn)
    (flags : UInt16) : Outcome :=
  match conn.state with
  | .synRcvd => inputSynRcvd cfg accept tcp dev conn flags
  | .synSent => inputSynSent cfg tcp dev iplen conn flags
  | .established => inputEstablished tcp dev conn flags
  | .lastAck =>
    if flags &&& tcpAckdata ≠ 0 then .callback (conn.enter .closed) dev tcpClose .drop
    else .drop (some conn)
  | .finWait1 => inputFinWait1 tcp dev conn flags
  | .finWait2 => inputFinWait2 tcp dev conn
  | .timeWait => .send conn tcpAck
  | .closing =>
    if flags &&& tcpAckdata ≠ 0 then .drop (some { conn.enter .timeWait with timer := 0 })
    else .drop (some conn)
  | .closed | .allocated => .drop (some conn)

def keepaliveProbe (tcp : Hdr) (dev : Dev) (conn : Conn) : Prop :=
  cfg.keepalive = true ∧ tcp.flags &&& tcpAck ≠ 0 ∧ tcp.flags &&& (tcpSyn ||| tcpFin ||| tcpRst) = 0 ∧
    conn.state = .established ∧ (dev.len = 0 ∨ dev.len = 1) ∧ conn.txUnacked = 0 ∧
    tcpGetsequence tcp.seqno < tcpGetsequence conn.rcvseq

instance (cfg : Config) (tcp : Hdr) (dev : Dev) (conn : Conn) :
    Decidable (keepaliveProbe cfg tcp dev conn) :=
  inferInstanceAs (Decidable (_ ∧ _))

/-- The segment carries data, a SYN or a FIN and is not the next one, and it is not part of a
handshake. -/
def outOfOrder (tcp : Hdr) (dev : Dev) (conn : Conn) : Prop :=
  ¬ (conn.state = .synSent ∧ tcp.flags &&& tcpCtl = tcpSyn ||| tcpAck ∨
      conn.state = .synRcvd ∧ tcp.flags &&& tcpCtl = tcpSyn) ∧
    (dev.len > 0 ∨ tcp.flags &&& (tcpSyn ||| tcpFin) ≠ 0) ∧ tcp.seqno ≠ conn.rcvseq

instance (tcp : Hdr) (dev : Dev) (conn : Conn) : Decidable (outOfOrder tcp dev conn) :=
  inferInstanceAs (Decidable (_ ∧ _))

def Conn.updateWindow (conn : Conn) (tcp : Hdr) : Conn := { conn with sndWnd := tcp.wnd }

def payload (dev : Dev) (tcp : Hdr) (iplen : Nat) : Dev :=
  { dev with len := dev.len - UInt16.ofNat (tcp.length + iplen) }

def inputFound (accept : Bool) (tcp : Hdr) (dev : Dev) (iplen : Nat) (conn : Conn) : Outcome :=
  let conn := conn.updateWindow tcp
  if tcp.flags &&& tcpRst ≠ 0 then
    -- in TCP_SYN_RCVD the connection is freed and it is the listener that is told
    if conn.state = .synRcvd then .drop none
    else .callback (conn.enter .closed) dev tcpAbort .drop
  else
    let dev := payload dev tcp iplen
    if keepaliveProbe cfg tcp dev conn then .send conn tcpAck
    else if outOfOrder tcp dev conn then .send conn tcpAck
    else
      let acked := ackData cfg tcp conn
      inputState cfg accept tcp dev iplen acked.1 acked.2

def tcpRto : UInt8 := 3

def tcpInitialMss (dev : Dev) : Domain → UInt16
  | .inet => if tcpMss dev ipv4Hdrlen > 536 then 536 else tcpMss dev ipv4Hdrlen
  | .inet6 => if tcpMss dev ipv6Hdrlen > 1220 then 1220 else tcpMss dev ipv6Hdrlen

def tcpAllocAccept (domain : Domain) (dev : Dev) (tcp : Hdr) (iss : UInt32) : Conn where
  state := .synRcvd
  stopped := false
  rcvseq := tcp.seqno
  sndseq := tcpSetsequence iss
  sa := 0
  sv := 4
  rto := tcpRto
  timer := tcpRto
  nrtx := 0
  mss := tcpInitialMss dev domain
  sndWnd := 0
  txUnacked := 1
  readahead := []
  expired := 0
  sent := 0
  isn := 0
  sndseqMax := 0

/-- What the rest of the network knows about a segment: the active connection it belongs to, whether
there is a listener on its port and a free connection for it, and `g_tcpsequence`. -/
structure Table where
  active : Option Conn
  listener : Bool
  free : Bool
  tcpsequence : UInt32

def tcpReset (tcp : Hdr) (conn : Option Conn) : Outcome :=
  if tcp.flags &&& tcpRst ≠ 0 then .drop conn else .reset conn

def tcpInput (table : Table) (accept : Bool) (domain : Domain) (dev : Dev)
    (iplen : Nat) : Outcome :=
  let tcp := tcpHdr dev (iplen + dev.llhdrlen)
  if tcpChksum dev domain ≠ 0xffff then .drop table.active
  else
    match table.active with
    | some conn =>
      if conn.state ≠ .synRcvd ∧ tcp.flags &&& tcpCtl = tcpSyn then tcpReset tcp (some conn)
      else inputFound cfg accept tcp dev iplen conn
    | none =>
      if tcp.flags &&& tcpCtl = tcpSyn ∧ table.listener = true then
        if table.free then
          let conn := tcpAllocAccept domain dev tcp table.tcpsequence
          let conn := { conn with rcvseq := netIncr32 conn.rcvseq 1 }
          let conn := conn.setMss (tcpMss dev iplen)
            (parseOptions dev (iplen + tcpHdrlen + dev.llhdrlen) tcp).1
          .synack conn (tcpAck ||| tcpSyn)
        else .drop none
      else tcpReset tcp none

def tcpIpv4Select (dev : Dev) : Dev :=
  { dev with appdata := ipv4Hdrlen + tcpHdrlen + dev.llhdrlen }

def tcpIpv4Input (table : Table) (accept : Bool) (dev : Dev) : Outcome :=
  let dev := tcpIpv4Select dev
  tcpInput cfg table accept .inet dev (ipv4HeaderLength dev)

structure Sent where
  flags : UInt8
  seqno : Seqno
  ackno : Seqno
  len : Nat

def tcpSend (conn : Conn) (flags : UInt8) (len : Nat) : Sent := ⟨flags, conn.sndseq, conn.rcvseq, len⟩

def tcpRexmitSend (conn : Conn) (dev : Dev) (result : UInt16) : Option Sent :=
  if dev.sndlen > 0 ∧ (cfg.writeBuffers = true ∨ conn.txUnacked > 0) then
    some (tcpSend conn (tcpAck ||| tcpPsh) dev.sndlen.toNat)
  else if result &&& tcpSndack ≠ 0 then some (tcpSend conn tcpAck 0)
  else none

def Conn.close (conn : Conn) (state : State) : Conn :=
  { conn.enter state with
      txUnacked := 1
      nrtx := 0
      sndseqMax := if cfg.writeBuffers then tcpGetsequence conn.sndseq + 1 else conn.sndseqMax }

def tcpAppsend (conn : Conn) (dev : Dev) (result : UInt16) : Conn × Option Sent :=
  if result &&& netdevDown ≠ 0 then (conn.enter .closed, none)
  else if result &&& tcpAbort ≠ 0 then
    let conn := conn.enter .closed
    (conn, some (tcpSend conn (tcpRst ||| tcpAck) 0))
  else if result &&& tcpClose ≠ 0 then
    let conn := conn.close cfg .finWait1
    (conn, some (tcpSend conn (tcpFin ||| tcpAck) 0))
  else
    let conn :=
      if cfg.writeBuffers then conn
      else
        let conn :=
          if dev.sndlen > 0 then conn.setTxUnacked cfg (conn.txUnacked + dev.sndlen.toUInt32)
          else conn
        { conn with nrtx := 0 }
    (conn, tcpRexmitSend cfg conn dev result)

/-- The segment that `tcp_reset` makes of the packet, with the TCP header where it is behind an IP header
without options. -/
def resetSegment (domain : Domain) (dev : Dev) : Sent :=
  let tcp := tcpHdr dev (dev.llhdrlen + match domain with | .inet => ipv4Hdrlen | .inet6 => ipv6Hdrlen)
  let upperlen : UInt16 :=
    match domain with
    | .inet => ipv4Len dev - UInt16.ofNat (ipv4HeaderLength dev)
    | .inet6 => ipv6Len dev
  let acklen : UInt16 := (if tcp.flags &&& tcpSyn ≠ 0 ∨ tcp.flags &&& tcpFin ≠ 0 then 1 else 0) + upperlen
  let acklen := acklen - UInt16.ofNat tcp.length
  { flags := tcpRst ||| tcpAck
    seqno := tcp.ackno
    ackno := tcpSetsequence (tcpAddsequence tcp.seqno acklen)
    len := 0 }

def finish (app : App) (domain : Domain) (packet : Dev) : Outcome → Option Conn × Option Sent
  | .drop conn => (conn, none)
  | .reset conn => (conn, some (resetSegment domain packet))
  | .send conn flags => (some conn, some (tcpSend conn flags 0))
  | .synack conn ack => (some conn, some (tcpSend conn ack 0))
  | .callback conn dev flags next =>
    let called := tcpCallback cfg app conn dev flags
    let conn := called.1
    let result := called.2.2
    match next with
    | .drop => (some conn, none)
    | .appsend =>
      let sent := tcpAppsend cfg conn called.2.1 result
      (some sent.1, sent.2)
    | .ackAppsend len =>
      let conn :=
        if result &&& tcpSndack ≠ 0 then { conn with rcvseq := netIncr32 conn.rcvseq len } else conn
      let sent := tcpAppsend cfg conn called.2.1 result
      (some sent.1, sent.2)
    | .lastAck =>
      let conn := conn.close cfg .lastAck
      (some conn, some (tcpSend conn (tcpFin ||| tcpAck) 0))
    | .failed =>
      -- a segment with RST does not come here
      (some (conn.enter .closed), some (resetSegment domain packet))
    | .ack => (some conn, some (tcpSend conn tcpAck 0))

end Nuttx.Tcp

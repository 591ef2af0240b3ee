import Nuttx.Net.Tcp.Input

/-!
# The life of a connection

Besides segments, a connection sees the timer, the polls of the device and the calls of its owner. A
`Host` follows one pair of ends from the moment there is no connection between them. Keep-alive probes
and delayed acknowledgements, which the timer sends, are left out.
-/

namespace Nuttx.Tcp

open Net

def tcpMaxrtx : UInt8 := 8

def tcpMaxsynrtx : UInt8 := 5

def timeWaitTimeout : Nat := 240

variable (cfg : Config)

def retriesExhausted (conn : Conn) : Bool :=
  (if cfg.writeBuffers then conn.expired > 0 else conn.nrtx ≥ tcpMaxrtx) ||
    (conn.stopped = false && conn.state = .synSent && conn.nrtx ≥ tcpMaxsynrtx)

def Conn.backoff (conn : Conn) : Conn :=
  { conn with
      timer := tcpRto <<< (if conn.nrtx > 4 then 4 else conn.nrtx)
      nrtx := conn.nrtx + 1 }

def retransmit (app : App) (dev : Dev) (conn : Conn) : Option Conn × Option Sent :=
  match conn.state with
  | .synRcvd => (some conn, some (tcpSend conn (tcpAck ||| tcpSyn) 0))
  | .synSent => (some conn, some (tcpSend conn tcpSyn 0))
  | .established =>
    let called := tcpCallback cfg app conn dev tcpRexmit
    (some called.1, tcpRexmitSend cfg called.1 called.2.1 called.2.2)
  | .finWait1 | .closing | .lastAck => (some conn, some (tcpSend conn (tcpFin ||| tcpAck) 0))
  | .closed | .allocated | .finWait2 | .timeWait => (some conn, none)

def tcpTimer (app : App) (bound : Bool) (dev : Dev) (hsec : Nat) (conn : Conn) :
    Option Conn × Option Sent :=
  let dev := { dev with len := 0, sndlen := 0 }
  if conn.stopped = false ∧ (conn.state = .timeWait ∨ conn.state = .finWait2) then
    let newtimer := conn.timer.toNat + hsec
    if newtimer ≥ timeWaitTimeout then
      let conn := { conn with timer := UInt8.ofNat timeWaitTimeout }
      if bound then (some (tcpCallback cfg app (conn.enter .closed) dev tcpTimedout).1, none)
      else (some conn, none)
    else (some { conn with timer := UInt8.ofNat newtimer }, none)
  else if ¬ (conn.stopped = false ∧ conn.state = .closed) then
    if conn.txUnacked > 0 then
      if conn.timer.toNat > hsec then
        (some { conn with timer := conn.timer - UInt8.ofNat hsec }, none)
      else
        let conn := { conn with timer := 0 }
        if bound = false then (some conn, none)
        else if conn.stopped = false ∧ conn.state = .synRcvd ∧ conn.nrtx ≥ tcpMaxsynrtx then
          -- the listener is told and the connection is freed
          (none, some (tcpSend conn (tcpRst ||| tcpAck) 0))
        else if retriesExhausted cfg conn then
          let conn := (tcpCallback cfg app (conn.enter .closed) dev tcpTimedout).1
          (some conn, some (tcpSend conn (tcpRst ||| tcpAck) 0))
        else retransmit cfg app dev conn.backoff
    else if conn.state = .established ∧ bound = true then
      let called := tcpCallback cfg app conn dev tcpPoll
      let sent := tcpAppsend cfg called.1 called.2.1 called.2.2
      (some sent.1, sent.2)
    else (some conn, none)
  else (some conn, none)

def devicePoll (app : App) (bound : Bool) (dev : Dev) (conn : Conn) : Option Conn × Option Sent :=
  let dev := { dev with len := 0, sndlen := 0 }
  if conn.state = .established ∧ bound = true then
    let called := tcpCallback cfg app conn dev tcpPoll
    let sent := tcpAppsend cfg called.1 called.2.1 called.2.2
    (some sent.1, sent.2)
  else (some conn, none)

def tcpConnect (mss : UInt16) (iss : UInt32) : Conn where
  state := .synSent
  stopped := false
  rcvseq := tcpSetsequence 0
  sndseq := tcpSetsequence iss
  sa := 0
  sv := 16
  rto := tcpRto
  timer := 0
  nrtx := 0
  mss := mss
  sndWnd := 0
  txUnacked := 1
  readahead := []
  expired := 0
  sent := 0
  isn := 0
  sndseqMax := 0

/-- The connection between the two ends, if there is one, with the initial sequence number that it
was given, and `g_tcpsequence`. -/
structure Host where
  conn : Option Conn
  iss : UInt32
  tcpsequence : UInt32

inductive Event
  /-- A segment between the two ends arrives. -/
  | segment (domain : Domain) (dev : Dev) (iplen : Nat) (listener free : Bool) (app : App)
  /-- The owner of an unused connection connects it. -/
  | connect (mss : UInt16)
  | timer (app : App) (bound : Bool) (dev : Dev) (hsec : Nat)
  | poll (app : App) (bound : Bool) (dev : Dev)
  /-- The timer of another connection, which increments `g_tcpsequence` as well. -/
  | nextsequence
  /-- The connection is freed. -/
  | release

def Host.input (host : Host) (domain : Domain) (dev : Dev) (iplen : Nat)
    (listener free accept : Bool) : Outcome :=
  tcpInput cfg ⟨host.conn, listener, free, host.tcpsequence⟩ accept domain dev iplen

def Host.step (host : Host) : Event → Host
  | .segment domain dev iplen listener free app =>
    let outcome := host.input cfg domain dev iplen listener free app.accept
    { host with
        conn := (finish cfg app domain dev outcome).1
        iss := if host.conn.isSome then host.iss else host.tcpsequence }
  | .connect mss =>
    if host.conn.isSome then host
    else { host with conn := some (tcpConnect mss host.tcpsequence), iss := host.tcpsequence }
  | .timer app bound dev hsec =>
    { host with
        conn := host.conn.bind fun conn => (tcpTimer cfg app bound dev hsec conn).1
        tcpsequence := host.tcpsequence + 1 }
  | .poll app bound dev =>
    { host with conn := host.conn.bind fun conn => (devicePoll cfg app bound dev conn).1 }
  | .nextsequence => { host with tcpsequence := host.tcpsequence + 1 }
  | .release => { host with conn := none }

/-- The states of the host, from one without a connection on. -/
inductive Reachable (cfg : Config) : Host → Prop
  | initial (iss tcpsequence : UInt32) : Reachable cfg ⟨none, iss, tcpsequence⟩
  | step {host : Host} (event : Event) : Reachable cfg host → Reachable cfg (host.step cfg event)

end Nuttx.Tcp

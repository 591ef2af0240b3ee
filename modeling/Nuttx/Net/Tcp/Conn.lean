import Nuttx.Net.Device
import Nuttx.Net.Tcp.Seqno

/-!
# Connections, callbacks and read-ahead buffering

`struct tcp_conn_s` as far as the input, the timer and the sender use it, the event flags that are
passed through the callbacks of a connection, and `tcp_callback` with the read-ahead queue behind
it.
-/

namespace Nuttx.Tcp

open Net

structure Config where
  writeBuffers : Bool
  keepalive : Bool
  iobThrottle : Bool

def plainConfig : Config := ⟨false, false, false⟩

def tcpFin : UInt8 := 0x01

def tcpSyn : UInt8 := 0x02

def tcpRst : UInt8 := 0x04

def tcpPsh : UInt8 := 0x08

def tcpAck : UInt8 := 0x10

def tcpUrg : UInt8 := 0x20

def tcpCtl : UInt8 := 0x3f

def tcpAckdata : UInt16 := 0x0001

def tcpNewdata : UInt16 := 0x0002

def tcpSndack : UInt16 := 0x0004

def tcpRexmit : UInt16 := 0x0008

def tcpPoll : UInt16 := 0x0010

def tcpClose : UInt16 := 0x0040

def tcpAbort : UInt16 := 0x0080

def tcpConnected : UInt16 := 0x0100

def tcpTimedout : UInt16 := 0x0200

def netdevDown : UInt16 := 0x1000

def devpollMask : UInt16 := 0xe000

def tcpConnEvents : UInt16 := tcpClose ||| tcpAbort ||| tcpConnected ||| tcpTimedout ||| netdevDown

def tcpDisconnEvents : UInt16 := tcpClose ||| tcpAbort ||| tcpTimedout ||| netdevDown

/-- The states of `tcpstateflags`. -/
inductive State
  | closed
  | allocated
  | synRcvd
  | synSent
  | established
  | finWait1
  | finWait2
  | closing
  | timeWait
  | lastAck
deriving DecidableEq, Repr

/-- `struct tcp_conn_s`. The flag `TCP_STOPPED` of `tcpstateflags` is a field of its own, which every
assignment of a state clears; `txUnacked` has 16 bits when there are no write buffers. -/
structure Conn where
  state : State
  stopped : Bool
  rcvseq : Seqno
  sndseq : Seqno
  sa : UInt8
  sv : UInt8
  rto : UInt8
  timer : UInt8
  nrtx : UInt8
  mss : UInt16
  sndWnd : UInt16
  txUnacked : UInt32
  readahead : List (List UInt8)
  expired : UInt16
  sent : UInt32
  isn : UInt32
  sndseqMax : UInt32

def Conn.enter (conn : Conn) (state : State) : Conn := { conn with state := state, stopped := false }

variable (cfg : Config)

def Conn.setTxUnacked (conn : Conn) (value : UInt32) : Conn :=
  { conn with txUnacked := if cfg.writeBuffers then value else value.toUInt16.toUInt32 }

/-- The event function of a callback. It may do what it likes with the device, the flags and the
connection, but the receive sequence number is not its own and it does not reopen a connection. -/
structure Handler where
  event : Conn → Dev → UInt16 → Conn × Dev × UInt16
  rcvseq_event : ∀ conn dev flags, (event conn dev flags).1.rcvseq = conn.rcvseq
  state_event : ∀ conn dev flags,
    (event conn dev flags).1.state = conn.state ∨ (event conn dev flags).1.state = .closed

structure Callback where
  flags : UInt16
  event : Option Handler

def devifEventTrigger (events triggers : UInt16) : Bool :=
  if events &&& triggers &&& ~~~devpollMask ≠ 0 then true
  else if events &&& devpollMask = triggers &&& devpollMask then triggers &&& devpollMask ≠ 0
  else false

def devifConnEvent : List Callback → Conn → Dev → UInt16 → Conn × Dev × UInt16
  | [], conn, dev, flags => (conn, dev, flags)
  | cb :: list, conn, dev, flags =>
    if flags = 0 then (conn, dev, flags)
    else
      match cb.event with
      | some handler =>
        if devifEventTrigger flags cb.flags then
          let after := handler.event conn dev flags
          devifConnEvent list after.1 after.2.1 after.2.2
        else devifConnEvent list conn dev flags
      | none => devifConnEvent list conn dev flags

structure Iobs where
  tryalloc : Bool → Bool
  trycopyin : Bool → Bool
  tryaddQueue : Bool

/-- The connection with the bytes in its read-ahead queue if all of it succeeded, and the number of
bytes that were buffered. -/
def tcpDatahandler (iobs : Iobs) (conn : Conn) (buffer : List UInt8) : Conn × Nat :=
  let queued (throttled : Bool) : Conn × Nat :=
    if iobs.trycopyin throttled then
      if iobs.tryaddQueue then
        ({ conn with readahead := conn.readahead ++ [buffer] }, buffer.length)
      else (conn, 0)
    else (conn, 0)
  if iobs.tryalloc true then queued true
  else if cfg.iobThrottle ∧ conn.readahead = [] ∧ iobs.tryalloc false then queued false
  else (conn, 0)

def tcpDataEvent (iobs : Iobs) (conn : Conn) (dev : Dev) (flags : UInt16) : Conn × Dev × UInt16 :=
  let ret := (flags &&& ~~~tcpNewdata) ||| tcpSndack
  if dev.len > 0 then
    let buffer := dev.bytes dev.appdata dev.len.toNat
    let handled := tcpDatahandler cfg iobs conn buffer
    let ret := if handled.2 < dev.len.toNat then ret &&& ~~~tcpSndack else ret
    (handled.1, { dev with len := 0 }, ret)
  else (conn, { dev with len := 0 }, ret)

/-- The event function of a receive call with room for `buflen` bytes, without what it does to the
socket and its reader. What does not fit goes to the read-ahead queue, or is lost. -/
def tcpRecvhandler (iobs : Iobs) (buflen : Nat) : Handler where
  event conn dev flags :=
    if flags &&& tcpNewdata ≠ 0 then
      let recvlen := min dev.len.toNat buflen
      let conn :=
        if recvlen < dev.len.toNat then
          let buffer := dev.bytes (dev.appdata + recvlen) (dev.len.toNat - recvlen)
          (tcpDatahandler cfg iobs conn buffer).1
        else conn
      (conn, { dev with len := 0 }, (flags &&& ~~~tcpNewdata) ||| tcpSndack)
    else (conn, dev, flags)
  rcvseq_event conn dev flags := by
    dsimp only [tcpDatahandler]
    split_ifs <;> rfl
  state_event conn dev flags := by
    dsimp only [tcpDatahandler]
    split_ifs <;> exact .inl rfl

def recvCallback (iobs : Iobs) (buflen : Nat) : Callback :=
  ⟨tcpNewdata ||| tcpDisconnEvents, some (tcpRecvhandler cfg iobs buflen)⟩

/-- Who takes part in the processing of a segment: the two callback lists of the connection, the
buffer pool, and whether there is a listener left that accepts the connection. -/
structure App where
  list : List Callback
  connevents : List Callback
  iobs : Iobs
  accept : Bool

def idleApp : App := ⟨[], [], ⟨fun _ => true, fun _ => true, true⟩, true⟩

def offerData (app : App) (conn : Conn) (dev : Dev) (flags : UInt16) : Conn × Dev × UInt16 :=
  let called := devifConnEvent app.list conn dev flags
  if called.2.2 &&& tcpNewdata ≠ 0 then
    tcpDataEvent cfg app.iobs called.1 called.2.1 called.2.2
  else called

def tcpCallback (app : App) (conn : Conn) (dev : Dev) (flags : UInt16) : Conn × Dev × UInt16 :=
  let handled := offerData cfg app conn dev flags
  if handled.2.2 &&& tcpConnEvents ≠ 0 then
    devifConnEvent app.connevents handled.1 handled.2.1 handled.2.2
  else handled

end Nuttx.Tcp

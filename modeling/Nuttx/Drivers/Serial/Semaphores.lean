import Nuttx.Drivers.Serial.Receive
import Nuttx.Drivers.Serial.Transmit

/-!
# The semaphores of a serial port

`uart_open`, `uart_read`, `uart_write` and `uart_tcdrain` over the semaphores `closesem`, `recv.sem` and
`xmit.sem`. What a call meets is an input of it: the results of the waits and of the lower half, and at
each test what the interrupt handlers have done to the rings, the FIFO and the connection by then. A list
of such inputs ends where the call has not returned yet.
-/

open Function

namespace Nuttx.Serial.Sems

open Receive (eintr eagain)

inductive Sem
  | close
  | recv
  | xmit
  deriving DecidableEq

/-- A call over the semaphores that are taken. A call that does not return has no result. -/
abbrev Task := StateT (Sem → Bool) Option

def emfile : Int := 24

def ebadfd : Int := 81

def etimedout : Int := 116

def enotconn : Int := 128

/-- `wait` is negative if a signal ends the wait. -/
def uartTakesem (sem : Sem) (wait : Int) : Task Int := fun taken =>
  if wait < 0 then some (wait, taken)
  else if taken sem then none
  else some (wait, update taken sem true)

def uartGivesem (sem : Sem) : Task Unit := fun taken => some ((), update taken sem false)

structure Open where
  wait : Int
  disconnected : Bool
  openCount : UInt8
  isconsole : Bool
  setup : Int
  attach : Int

/-- `ret` and `open_count` at `errout_with_sem`. -/
def Open.body (call : Open) (ret : Int) : Int × UInt8 :=
  let tmp := call.openCount + 1
  if call.disconnected then (-enotconn, call.openCount)
  else if tmp = 0 then (-emfile, call.openCount)
  else if tmp = 1 then
    if call.isconsole = false ∧ call.setup < 0 then (call.setup, call.openCount)
    else if call.attach < 0 then (call.attach, call.openCount)
    else (call.attach, tmp)
  else (ret, tmp)

def uartOpen (call : Open) : Task (Int × UInt8) := do
  let ret ← uartTakesem .close call.wait
  if ret < 0 then
    return (ret, call.openCount)
  let result := call.body ret
  uartGivesem .close
  return result

/-- What one pass of the loop of `uart_read` meets. -/
structure Pass where
  disconnected : Bool
  /-- The byte at `tail`, if the ring is not empty. -/
  next : Option UInt8
  /-- The file was closed. -/
  closed : Bool
  /-- A byte is there when the ring is tested again with the interrupt disabled. -/
  arrived : Bool
  /-- The port is found to be disconnected in the critical section. -/
  gone : Bool
  /-- The wait for `recvsem`. -/
  wait : Int
  /-- The port is found to be disconnected after the wait. -/
  lost : Bool

structure Read where
  wait : Int
  buflen : Nat
  nonblock : Bool
  passes : List Pass

variable (cfg : Receive.Config)

def readLoop (buflen : Nat) (nonblock : Bool) (recvd : Nat) : List Pass → Option Int
  | [] => if recvd < buflen then none else some recvd
  | pass :: passes =>
    let again := readLoop buflen nonblock recvd passes
    let wait :=
      if pass.arrived then again
      else if (if pass.gone then -enotconn else pass.wait) < 0 ∨ pass.lost then
        some (if recvd = 0 then if pass.lost then -enotconn else -eintr else recvd)
      else again
    if ¬ recvd < buflen then some recvd
    else if pass.disconnected then some (if recvd = 0 then -enotconn else recvd)
    else
      match pass.next with
      | some ch =>
        match Receive.process cfg.iflag ch with
        | none => again
        | some _ => readLoop buflen nonblock (recvd + 1) passes
      | none =>
        if cfg.fullblocks then
          if nonblock then some (if recvd < 1 then -eagain else recvd) else wait
        else if 0 < recvd then some recvd
        else if pass.closed then some (-ebadfd)
        else if nonblock then some (-eagain)
        else wait

def uartRead (call : Read) : Task Int := do
  let ret ← uartTakesem .recv call.wait
  if ret < 0 then
    return ret
  let recvd ← readLoop cfg call.buflen call.nonblock 0 call.passes
  uartGivesem .recv
  return recvd

/-- What one pass of the loop of `uart_putxmitchar` meets. -/
structure Test where
  full : Bool
  /-- The ring is still full in the critical section. -/
  still : Bool
  gone : Bool
  /-- The wait for `xmitsem`. -/
  wait : Int
  lost : Bool

/-- The tests that are left are those of the next byte. -/
def uartPutxmitchar (oktoblock : Bool) : List Test → Option (Int × List Test)
  | [] => none
  | test :: tests =>
    if test.full = false then some (0, tests)
    else if oktoblock then
      let ret := if test.still = false then 0 else if test.gone then -enotconn else test.wait
      if test.lost then some (-enotconn, tests)
      else if ret < 0 then some (-eintr, tests)
      else uartPutxmitchar oktoblock tests
    else some (-eagain, tests)

structure Write where
  /-- By an interrupt handler or the IDLE task. -/
  direct : Bool
  wait : Int
  disconnected : Bool
  nonblock : Bool
  buffer : List UInt8
  tests : List Test

variable (oflag : BitVec 32)

def writeLoop (oktoblock : Bool) (nwritten : Nat) : List UInt8 → List Test → Option Int
  | [], _ => some nwritten
  | ch :: buffer, tests => do
    let (ret, tests) ←
      match Transmit.process oflag ch with
      | .first _ => uartPutxmitchar oktoblock tests
      | .byte _ _ => some (0, tests)
    let (ret, tests) ← if 0 ≤ ret then uartPutxmitchar oktoblock tests else some (ret, tests)
    let buflen := buffer.length + 1
    if ret < 0 then some (if buflen < nwritten then nwritten - buflen else ret)
    else writeLoop oktoblock nwritten buffer tests

/-- `uart_irqwrite` spins on the FIFO and takes no semaphore. -/
def uartWrite (call : Write) : Task Int := do
  if call.direct then
    return if call.disconnected then -enotconn else call.buffer.length
  let ret ← uartTakesem .xmit call.wait
  if ret < 0 then
    return ret
  if call.disconnected then
    uartGivesem .xmit
    return -enotconn
  let nwritten ← writeLoop oflag (!call.nonblock) call.buffer.length call.buffer call.tests
  uartGivesem .xmit
  return nwritten

/-- What `uart_txempty` says, and the time since the first poll when the sleep behind it ends. -/
structure Poll where
  txempty : Bool
  elapsed : Nat

structure Drain where
  wait : Int
  disconnected : Bool
  /-- The waits for `xmitsem`, one for each time that the ring is found not to be empty. -/
  waits : List Int
  polls : List Poll
  timeout : Nat

def drainLoop (ret : Int) : List Int → Int
  | [] => ret
  | wait :: waits => if ret < 0 then ret else drainLoop wait waits

/-- Whether the FIFO runs empty before the timeout. -/
def pollLoop (timeout : Nat) : List Poll → Option Bool
  | [] => none
  | poll :: polls =>
    if poll.txempty then some true
    else if timeout ≤ poll.elapsed then some false
    else pollLoop timeout polls

/-- `ret` behind the critical section. -/
def Drain.drained (call : Drain) : Int := if call.disconnected then -enotconn else drainLoop 0 call.waits

/-- The FIFO is polled if the ring is empty and no error occurred. -/
def Drain.poll (call : Drain) (ret : Int) : Option Bool :=
  if 0 ≤ ret then pollLoop call.timeout call.polls else some true

def uartTcdrain (call : Drain) : Task Int := do
  let ret ← uartTakesem .xmit call.wait
  if ret < 0 then
    return ret
  let ret := call.drained
  let empty ← call.poll ret
  if empty = false then
    return -etimedout
  uartGivesem .xmit
  return ret

inductive Call
  | openPort (call : Open)
  | read (call : Read)
  | write (call : Write)
  | tcdrain (call : Drain)

/-- The semaphores that are taken when the call returns. -/
def Call.after (taken : Sem → Bool) : Call → Option (Sem → Bool)
  | openPort call => (uartOpen call taken).map Prod.snd
  | read call => (uartRead cfg call taken).map Prod.snd
  | write call => (uartWrite oflag call taken).map Prod.snd
  | tcdrain call => (uartTcdrain call taken).map Prod.snd

/-- The ring of a connected port is drained, every poll up to some point finds the FIFO not empty, and
the sleep behind the last of them ends at the timeout or later. -/
def Drain.TimesOut (call : Drain) : Prop :=
  0 ≤ call.wait ∧ call.disconnected = false ∧ (∀ wait ∈ call.waits, 0 ≤ wait) ∧
    ∃ early last late, call.polls = early ++ last :: late ∧
      (∀ poll ∈ early ++ [last], poll.txempty = false) ∧ call.timeout ≤ last.elapsed

def Call.TimesOut : Call → Prop
  | tcdrain call => call.TimesOut
  | _ => False

/-- A write by a task to a connected port whose ring has room at every test. -/
structure Write.Accepted (call : Write) : Prop where
  task : call.direct = false
  wait : 0 ≤ call.wait
  connected : call.disconnected = false
  room : ∀ test ∈ call.tests, test.full = false
  enough : 2 * call.buffer.length ≤ call.tests.length

end Nuttx.Serial.Sems

import Nuttx.Drivers.Serial.Buffer
import Nuttx.Library.Runs

/-!
# Transmitting

`uart_write` puts bytes into the ring; `uart_xmitchars` is called by the interrupt handler and sends
them. The writer is cut into its accesses to the ring, and the interrupt may come between any two of
them; this includes some points at which the code has disabled it. The task that writes goes on with the
first byte that was not reported as written.
-/

namespace Nuttx.Serial.Transmit

def opost : BitVec 32 := 1 <<< 0

def onlcr : BitVec 32 := 1 <<< 2

def ocrnl : BitVec 32 := 1 <<< 3

def onlret : BitVec 32 := 1 <<< 5

/-- **The output modes**: what a byte becomes. -/
def posixOutput (oflag : BitVec 32) (ch : UInt8) : List UInt8 :=
  if oflag &&& opost = 0 then [ch]
  else
    let ch := if ch = cr ∧ oflag &&& ocrnl ≠ 0 then nl else ch
    if ch = nl ∧ (oflag &&& onlcr ≠ 0 ∨ oflag &&& onlret ≠ 0) then [cr, nl] else [ch]

/-- The byte that `uart_putxmitchar` is called with: a carriage return before `ch`, or `ch` itself,
after a carriage return or not. -/
inductive Put
  | first (ch : UInt8)
  | byte (ch : UInt8) (paired : Bool)

def Put.ch : Put → UInt8
  | .first _ => cr
  | .byte ch _ => ch

/-- A call of `uart_write`: `nwritten` as it is set first, the bytes from the current one on, and
`O_NONBLOCK`. -/
structure Call where
  nwritten : Nat
  buffer : List UInt8
  nonblock : Bool

inductive Writer
  | idle
  /-- Before the condition of the loop. -/
  | loop (call : Call)
  /-- In `uart_putxmitchar`, before the test whether the ring is full. -/
  | test (call : Call) (put : Put)
  /-- The ring was found not to be full. -/
  | ready (call : Call) (put : Put)
  /-- The byte was written to its slot. -/
  | filled (call : Call) (put : Put)
  /-- The ring was found to be full, and the critical section was entered. -/
  | locked (call : Call) (put : Put)
  /-- Asleep on `xmitsem`. -/
  | waiting (call : Call) (put : Put)

structure State where
  xmit : UartBuffer
  writer : Writer
  left : List UInt8
  sent : List UInt8

def eintr : Int := 4

def eagain : Int := 11

def State.finish (s : State) (nwritten : Int) : State :=
  { s with writer := .idle, left := if 0 ≤ nwritten then s.left.drop nwritten.toNat else s.left }

/-- `uart_putxmitchar` returns an error: the bytes before the current one are reported, if there are
any. -/
def State.fail (s : State) (call : Call) (ret : Int) : State :=
  let buflen := call.buffer.length
  s.finish (if buflen < call.nwritten then call.nwritten - buflen else ret)

variable (oflag : BitVec 32)

def process (ch : UInt8) : Put :=
  if oflag &&& opost ≠ 0 then
    let ch := if ch = cr ∧ oflag &&& ocrnl ≠ 0 then nl else ch
    if ch = nl ∧ oflag &&& (onlcr ||| onlret) ≠ 0 then .first ch else .byte ch false
  else .byte ch false

def State.step (s : State) : State :=
  match s.writer with
  | .idle | .waiting _ _ => s
  | .loop call =>
    match call.buffer.head? with
    | none => s.finish call.nwritten
    | some ch => { s with writer := .test call (process oflag ch) }
  | .test call put =>
    if s.xmit.nexthead ≠ s.xmit.tail then { s with writer := .ready call put }
    else if call.nonblock then s.fail call (-eagain)
    else { s with writer := .locked call put }
  | .ready call put => { s with xmit := s.xmit.setSlot put.ch, writer := .filled call put }
  | .filled call put =>
    let xmit := s.xmit.advanceHead
    match put with
    | .first ch => { s with xmit := xmit, writer := .test call (.byte ch true) }
    | .byte _ _ => { s with xmit := xmit, writer := .loop { call with buffer := call.buffer.tail } }
  | .locked call put =>
    if s.xmit.nexthead ≠ s.xmit.tail then { s with writer := .test call put }
    else { s with writer := .waiting call put }

def State.wake (s : State) (signal : Bool) : State :=
  match s.writer with
  | .waiting call put => if signal then s.fail call (-eintr) else { s with writer := .test call put }
  | _ => s

def xmitchars (s : State) : Nat → State
  | 0 => s
  | count + 1 =>
    if s.xmit.head ≠ s.xmit.tail then
      xmitchars { s with
        xmit := s.xmit.setTail s.xmit.tail
        sent := s.sent ++ [s.xmit.buffer s.xmit.tail] } count
    else s

inductive Event
  | interrupt (count : Nat)
  | write (buflen : Nat) (nonblock : Bool)
  | step
  | wake (signal : Bool)

def next (s : State) : Event → State
  | .interrupt count => xmitchars s count
  | .write buflen nonblock =>
    match s.writer with
    | .idle =>
      let buffer := s.left.take buflen
      { s with writer := .loop ⟨buffer.length, buffer, nonblock⟩ }
    | _ => s
  | .step => s.step oflag
  | .wake signal => s.wake signal

def initial (size : Nat) (hsize : 2 ≤ size ∧ size < 2 ^ 15) (buffer : Nat → UInt8) (stream : List UInt8) :
    State :=
  ⟨.empty size hsize buffer, .idle, stream, []⟩

/-- **The second half of a pair is not given up**: a writer that does not block does not find the ring
full after it has put the carriage return of a pair, and no signal wakes up one that waits there. -/
def Fit (s : State) (event : Event) : Prop :=
  match s.writer, event with
  | .test call (.byte _ true), .step => call.nonblock = true → s.xmit.nexthead ≠ s.xmit.tail
  | .waiting _ (.byte _ true), .wake signal => signal = false
  | _, _ => True

end Nuttx.Serial.Transmit

import Nuttx.Drivers.Serial.Buffer

/-!
# Receiving

`uart_recvchars` is called by the interrupt handler and puts the bytes that have arrived into the ring;
`uart_read` takes them out. The reader is cut into its accesses to the ring, and the interrupt may come
between any two of them; this includes some points at which the code has disabled it.
-/

namespace Nuttx.Serial.Receive

def inlcr : BitVec 32 := 1 <<< 6

def igncr : BitVec 32 := 1 <<< 7

def icrnl : BitVec 32 := 1 <<< 8

variable (iflag : BitVec 32)

def translate (ch : UInt8) : UInt8 :=
  if ch = nl ∧ iflag &&& inlcr ≠ 0 then cr
  else if ch = cr ∧ iflag &&& icrnl ≠ 0 then nl
  else ch

def discarded (ch : UInt8) : BitVec 32 :=
  (if ch = cr then 1 else 0) &&& (iflag &&& igncr)

def process (ch : UInt8) : Option UInt8 :=
  if iflag &&& (inlcr ||| igncr ||| icrnl) ≠ 0 then
    let ch := translate iflag ch
    if discarded iflag ch ≠ 0 then none else some ch
  else some ch

/-- **The input modes of POSIX.** -/
def posixInput (ch : UInt8) : Option UInt8 :=
  if ch = cr then
    if iflag &&& igncr ≠ 0 then none
    else if iflag &&& icrnl ≠ 0 then some nl
    else some cr
  else if ch = nl ∧ iflag &&& inlcr ≠ 0 then some cr
  else some ch

def recvchar (rxbuf : UartBuffer) (ch : UInt8) : UartBuffer :=
  if rxbuf.nexthead = rxbuf.tail then rxbuf else (rxbuf.setSlot ch).advanceHead

def arrive (s : UartBuffer × List UInt8) (ch : UInt8) : UartBuffer × List UInt8 :=
  (recvchar s.1 ch, if 0 < s.1.room then s.2 ++ [ch] else s.2)

structure Config where
  fullblocks : Bool
  iflag : BitVec 32

structure Call where
  buflen : Nat
  nonblock : Bool
deriving DecidableEq

inductive Reader
  | idle
  /-- Before the condition of the loop. -/
  | loop (call : Call) (stored : List UInt8)
  /-- The ring was found not to be empty. -/
  | ready (call : Call) (stored : List UInt8) (tail : Nat)
  /-- The byte at the local `tail` was read. -/
  | fetched (call : Call) (stored : List UInt8) (tail : Nat) (ch : UInt8)
  /-- The index was advanced. -/
  | removed (call : Call) (stored : List UInt8) (ch : UInt8)
  /-- The ring was found to be empty. -/
  | empty (call : Call) (stored : List UInt8)
  /-- The receive interrupt was disabled. -/
  | masked (call : Call) (stored : List UInt8)
  /-- The ring is still empty, and the critical section was entered. -/
  | locked (call : Call) (stored : List UInt8)
  /-- Asleep on `recvsem`. -/
  | waiting (call : Call) (stored : List UInt8)
deriving DecidableEq

/-- The ring, the reader, the bytes that arrived while there was room in the ring, and the bytes
returned by the calls that were successful. -/
structure State where
  rxbuf : UartBuffer
  reader : Reader
  accepted : List UInt8
  returned : List UInt8

def eintr : Int := 4

def eagain : Int := 11

def State.finish (s : State) (recvd : Int) (stored : List UInt8) : State :=
  { s with reader := .idle, returned := if 0 ≤ recvd then s.returned ++ stored else s.returned }

variable (cfg : Config)

/-- The next access of the reader. `tail` is changed by the reader only, so that it can be read
together with `head`. -/
def State.step (s : State) : State :=
  match s.reader with
  | .idle | .waiting _ _ => s
  | .loop call stored =>
    if stored.length < call.buflen then
      if s.rxbuf.head ≠ s.rxbuf.tail then { s with reader := .ready call stored s.rxbuf.tail }
      else { s with reader := .empty call stored }
    else s.finish stored.length stored
  | .ready call stored tail => { s with reader := .fetched call stored tail (s.rxbuf.buffer tail) }
  | .fetched call stored tail ch => { s with rxbuf := s.rxbuf.setTail tail, reader := .removed call stored ch }
  | .removed call stored ch =>
    match process cfg.iflag ch with
    | none => { s with reader := .loop call stored }
    | some ch => { s with reader := .loop call (stored ++ [ch]) }
  | .empty call stored =>
    if cfg.fullblocks then
      if call.nonblock then s.finish (if stored.length < 1 then -eagain else stored.length) stored
      else { s with reader := .masked call stored }
    else if 0 < stored.length then s.finish stored.length stored
    else if call.nonblock then s.finish (-eagain) stored
    else { s with reader := .masked call stored }
  | .masked call stored =>
    if s.rxbuf.head = s.rxbuf.tail then { s with reader := .locked call stored }
    else { s with reader := .loop call stored }
  | .locked call stored =>
    if s.rxbuf.head ≠ s.rxbuf.tail then { s with reader := .loop call stored }
    else { s with reader := .waiting call stored }

def State.wake (s : State) (signal : Bool) : State :=
  match s.reader with
  | .waiting call stored =>
    if signal then s.finish (if stored.length = 0 then -eintr else stored.length) stored
    else { s with reader := .loop call stored }
  | _ => s

inductive Event
  | interrupt (bytes : List UInt8)
  | read (call : Call)
  | step
  | wake (signal : Bool)

def next (s : State) : Event → State
  | .interrupt bytes =>
    let arrived := bytes.foldl arrive (s.rxbuf, s.accepted)
    { s with rxbuf := arrived.1, accepted := arrived.2 }
  | .read call =>
    match s.reader with
    | .idle => { s with reader := .loop call [] }
    | _ => s
  | .step => s.step cfg
  | .wake signal => s.wake signal

def initial (size : Nat) (hsize : 2 ≤ size ∧ size < 2 ^ 15) (buffer : Nat → UInt8) : State :=
  ⟨.empty size hsize buffer, .idle, [], []⟩

end Nuttx.Serial.Receive

import Nuttx.Library.SlotRing
import Mathlib.Data.BitVec

/-!
# The device of a pipe

`struct pipe_dev_s` without its semaphores, and what `pipecommon_open`, `pipecommon_close`,
`pipecommon_read` and `pipecommon_write` do to it between two operations on them. The indices are
below `d_bufsize`, which their type `pipe_ndx_t` can hold; `d_nwriters` and `d_nreaders` are of type
`uint8_t`. Threads that wait in `poll` are left out.
-/

namespace Nuttx.Pipe

open SlotRing (next)

inductive Errno
  | eintr
  | eagain
  | enomem
  | epipe
  | ecanceled
  deriving DecidableEq, Repr

inductive Ret
  | ok (n : Nat)
  | error (errno : Errno)
  deriving DecidableEq, Repr

structure Oflags where
  rdok : Bool
  wrok : Bool
  nonblock : Bool
  deriving DecidableEq, Repr

/-- The fields `d_wrndx`, `d_rdndx`, `d_bufsize`, `d_nwriters` and `d_nreaders`, the two bits of
`d_flags`, the bytes at `d_buffer`, and whether that is not `NULL`. -/
structure Dev where
  wrndx : Nat
  rdndx : Nat
  bufsize : Nat
  nwriters : UInt8
  nreaders : UInt8
  policy1 : Bool
  unlinked : Bool
  buffer : Nat → UInt8
  allocated : Bool

namespace Dev

def contents (dev : Dev) : List UInt8 := SlotRing.contents dev.buffer dev.bufsize dev.rdndx dev.wrndx

def readLoop : Nat → Dev → List UInt8 × Dev
  | 0, dev => ([], dev)
  | len + 1, dev =>
    if dev.wrndx ≠ dev.rdndx then
      let rest := readLoop len { dev with rdndx := next dev.bufsize dev.rdndx }
      (dev.buffer dev.rdndx :: rest.1, rest.2)
    else
      ([], dev)

/-- The loop of `pipecommon_write` up to the end of the bytes or to a full buffer: how many bytes it
stores. -/
def writeLoop : List UInt8 → Dev → Nat × Dev
  | [], dev => (0, dev)
  | b :: bytes, dev =>
    let nxtwrndx := next dev.bufsize dev.wrndx
    if nxtwrndx ≠ dev.rdndx then
      let rest := writeLoop bytes
        { dev with buffer := Function.update dev.buffer dev.wrndx b, wrndx := nxtwrndx }
      (rest.1 + 1, rest.2)
    else
      (0, dev)

def openAlloc (crefs : Nat) (memory : Bool) (dev : Dev) : Option Dev :=
  if crefs = 1 ∧ dev.allocated = false then
    if memory then some { dev with allocated := true } else none
  else
    some dev

def openWriter (oflags : Oflags) (dev : Dev) : Dev :=
  if oflags.wrok then { dev with nwriters := dev.nwriters + 1 } else dev

def openWakes (oflags : Oflags) (dev : Dev) : Bool :=
  oflags.wrok && decide ((dev.openWriter oflags).nwriters = 1)

def openReader (oflags : Oflags) (dev : Dev) : Dev :=
  if oflags.rdok then { dev with nreaders := dev.nreaders + 1 } else dev

def openWaits (oflags : Oflags) (dev : Dev) : Bool :=
  oflags.rdok && !oflags.wrok && decide (dev.nwriters < 1) && decide (dev.wrndx = dev.rdndx)

def closeWriter (oflags : Oflags) (dev : Dev) : Dev :=
  if oflags.wrok then { dev with nwriters := dev.nwriters - 1 } else dev

def closeWakes (oflags : Oflags) (dev : Dev) : Bool :=
  oflags.wrok && decide ((dev.closeWriter oflags).nwriters ≤ 0)

def closeReader (oflags : Oflags) (dev : Dev) : Dev :=
  if oflags.rdok then { dev with nreaders := dev.nreaders - 1 } else dev

/-- No more references: under policy 0, or if the buffer is empty, it is freed and all counts and
indices are reset. -/
def closeLast (dev : Dev) : Dev :=
  if dev.policy1 = false ∨ dev.wrndx = dev.rdndx then
    { dev with allocated := false, wrndx := 0, rdndx := 0, nwriters := 0, nreaders := 0 }
  else
    dev

end Dev

end Nuttx.Pipe

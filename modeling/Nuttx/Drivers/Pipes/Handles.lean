import Nuttx.Drivers.Pipes.Device
import Nuttx.Library.Runs

/-!
# Opening and closing handles of a pipe

A pipe with its open handles, over any sequence of `pipecommon_open` and `pipecommon_close`. The VFS
holds a reference on the inode for every handle, from before the call of `pipecommon_open` to after
the call of `pipecommon_close`, so `i_crefs` is the number of handles with the one that is being opened
or closed. Reads and writes may leave any bytes in the buffer.
-/

namespace Nuttx.Pipe

inductive Access
  | rdonly
  | wronly
  | rdwr
  deriving DecidableEq, Repr

def Access.oflags : Access → Oflags
  | .rdonly => ⟨true, false, false⟩
  | .wronly => ⟨false, true, false⟩
  | .rdwr => ⟨true, true, false⟩

structure Handle where
  access : Access
  waiting : Bool
  deriving DecidableEq, Repr

structure Table where
  dev : Dev
  handles : List Handle

inductive HandleEvent
  /-- `pipecommon_open`; `memory` is whether a buffer can be allocated -/
  | openFile (access : Access) (memory : Bool)
  /-- `pipecommon_open` is interrupted while it waits for `d_bfsem` -/
  | openInterrupted (access : Access)
  /-- the wait of `pipecommon_open` for a writer ends -/
  | opened (i : Nat)
  /-- the wait of `pipecommon_open` for a writer is interrupted; `canceled` if so is the wait for
  `d_bfsem` in the `pipecommon_close` that follows -/
  | interrupted (i : Nat) (canceled : Bool)
  /-- `pipecommon_close`; `canceled` if the wait for `d_bfsem` is -/
  | closeFile (i : Nat) (canceled : Bool)
  /-- `pipecommon_read` and `pipecommon_write` -/
  | traffic (wrndx rdndx : Nat) (buffer : Nat → UInt8)
  /-- `PIPEIOC_POLICY` -/
  | policy (policy1 : Bool)

variable (s : Table)

namespace Table

def pipecommonOpen (access : Access) (memory : Bool) : Table :=
  match s.dev.openAlloc (s.handles.length + 1) memory with
  | none => s
  | some dev =>
    let dev := (dev.openWriter access.oflags).openReader access.oflags
    ⟨dev, s.handles ++ [⟨access, dev.openWaits access.oflags⟩]⟩

def pipecommonClose (dev : Dev) (crefs : Nat) (oflags : Oflags) : Dev :=
  if crefs > 1 then (dev.closeWriter oflags).closeReader oflags else dev.closeLast

def close (i : Nat) (handle : Handle) (canceled : Bool) : Table :=
  ⟨if canceled then s.dev else pipecommonClose s.dev s.handles.length handle.access.oflags,
    s.handles.eraseIdx i⟩

def step : HandleEvent → Table
  | .openFile access memory => s.pipecommonOpen access memory
  | .openInterrupted _ => s
  | .opened i => { s with handles := s.handles.modify i fun handle => { handle with waiting := false } }
  | .interrupted i canceled =>
    match s.handles[i]? with
    | some handle => if handle.waiting then s.close i handle canceled else s
    | none => s
  | .closeFile i canceled =>
    match s.handles[i]? with
    | some handle => if handle.waiting then s else s.close i handle canceled
    | none => s
  | .traffic wrndx rdndx buffer =>
    { s with dev := { s.dev with wrndx := wrndx, rdndx := rdndx, buffer := buffer } }
  | .policy policy1 => { s with dev := { s.dev with policy1 := policy1 } }

def pipecommonAllocdev (bufsize : Nat) : Table :=
  ⟨⟨0, 0, bufsize, 0, 0, false, false, fun _ => 0, false⟩, []⟩

def writers : Nat := s.handles.countP fun handle => handle.access.oflags.wrok

def readers : Nat := s.handles.countP fun handle => handle.access.oflags.rdok

def Exact : Prop := s.dev.nwriters.toNat = s.writers ∧ s.dev.nreaders.toNat = s.readers

/-- Closing a handle counts it off: the call is performed, and if it is the last handle, the pipe is
under policy 0 or empty. -/
def Uncounts (canceled : Bool) : Prop :=
  canceled = false ∧ (1 < s.handles.length ∨ s.dev.policy1 = false ∨ s.dev.wrndx = s.dev.rdndx)

def Counts (access : Access) : Prop :=
  (access.oflags.wrok = true → s.writers < 255) ∧ (access.oflags.rdok = true → s.readers < 255)

def Keeps : HandleEvent → Prop
  | .openFile access memory =>
    (s.dev.openAlloc (s.handles.length + 1) memory).isSome = true → s.Counts access
  | .interrupted i canceled => ∀ handle, s.handles[i]? = some handle → handle.waiting = true → s.Uncounts canceled
  | .closeFile i canceled => ∀ handle, s.handles[i]? = some handle → handle.waiting = false → s.Uncounts canceled
  | _ => True

end Table

end Nuttx.Pipe

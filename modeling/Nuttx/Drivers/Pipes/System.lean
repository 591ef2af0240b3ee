import Nuttx.Drivers.Pipes.Device
import Nuttx.Library.WaitSem
import Mathlib.Data.Fintype.Basic

/-!
# Threads that use a pipe

Any number of threads call `pipecommon_open`, `pipecommon_close`, `pipecommon_read` and
`pipecommon_write` for one pipe, while a handle for reading and one for writing stay open. A step of
a thread goes from one operation on a semaphore to the next one. Between `nxsem_post(&dev->d_bfsem)` and
the wait that follows it the thread holds `sched_lock`, which stops the other threads of its own CPU
only.

The code does not see the records of the bytes that were stored and removed.
-/

namespace Nuttx.Pipe

inductive Which
  | rd
  | wr
  deriving DecidableEq, Repr

inductive Call
  | read (oflags : Oflags) (len : Nat)
  | write (oflags : Oflags) (data : List UInt8)
  | openFile (oflags : Oflags) (memory : Bool)
  | closeFile (oflags : Oflags)
  deriving DecidableEq, Repr

def Call.closes : Call → Bool
  | .closeFile _ => true
  | _ => false

/-- What a thread does when it has `d_bfsem`. A write has stored the bytes `sent`, so that `nwritten`
is their number, and next it stores `byte` and `more`. `ret` is what a close returns afterwards: an
interrupted open closes the pipe and returns its error. -/
inductive Section
  | read (oflags : Oflags) (len : Nat)
  | write (oflags : Oflags) (sent : List UInt8) (byte : UInt8) (more : List UInt8)
  | openFile (oflags : Oflags) (memory : Bool)
  | closeFile (oflags : Oflags) (ret : Ret)
  deriving DecidableEq, Repr

inductive After
  | readDone (out : List UInt8)
  | written (data : List UInt8)
  | full (oflags : Oflags) (sent : List UInt8) (byte : UInt8) (more : List UInt8)
  | opened (oflags : Oflags)
  | closed (oflags : Oflags) (ret : Ret)
  deriving DecidableEq, Repr

inductive Pc
  /-- not in a call -/
  | idle
  /-- before `nxsem_wait(&dev->d_bfsem)` -/
  | take (sec : Section)
  /-- in that wait, or back from it with `d_bfsem` -/
  | enter (sec : Section)
  /-- before `nxsem_get_value` in the loop that wakes the waiting threads -/
  | check (sem : Which) (after : After)
  /-- before `nxsem_post` in that loop -/
  | post (sem : Which) (after : After)
  /-- behind that loop -/
  | finish (after : After)
  /-- `d_bfsem` was posted, before the wait for `d_rdsem` or `d_wrsem` -/
  | gave (sem : Which) (sec : Section)
  /-- in the wait for `d_rdsem` or `d_wrsem`, or back from it -/
  | sleep (sem : Which) (sec : Section)
  deriving DecidableEq, Repr

def Pc.gave? : Pc → Bool
  | .gave _ _ => true
  | _ => false

/-- A call that returned: the bytes a read copied to its caller, and the bytes of a write with those
of them that it stored. -/
inductive Return
  | read (out : List UInt8) (ret : Ret)
  | write (data stored : List UInt8) (ret : Ret)
  | other (ret : Ret)
  deriving DecidableEq, Repr

inductive SemOp
  | none
  | wait
  | post
  | cancel
  deriving DecidableEq, Repr

/-- What a step does: the device after it, an operation on each semaphore, where the thread is then,
what it returned, the bytes it stored and removed, and how the number of handles changes. -/
structure Effect where
  dev : Dev
  bfsem : SemOp := .none
  waitsem : Which → SemOp := fun _ => .none
  pc : Pc
  returned : Option Return := none
  stored : List UInt8 := []
  removed : List UInt8 := []
  acquired : Nat := 0
  released : Nat := 0

def only (sem : Which) (op : SemOp) : Which → SemOp := fun other => if other = sem then op else .none

variable (dev : Dev)

def Effect.leave (ret : Return) : Effect :=
  { dev := dev, bfsem := .post, pc := .idle, returned := some ret }

def Effect.rest (sem : Which) (sec : Section) : Effect :=
  { dev := dev, bfsem := .post, pc := .gave sem sec }

def Effect.sleep (sem : Which) (sec : Section) : Effect :=
  { dev := dev, waitsem := only sem .wait, pc := .sleep sem sec }

def shortWrite (sent : List UInt8) (errno : Errno) : Ret :=
  if sent.length = 0 then .error errno else .ok sent.length

def pipecommonRead (oflags : Oflags) (len : Nat) (dev : Dev) : Effect :=
  if dev.wrndx = dev.rdndx then
    if dev.nwriters ≤ 0 then .leave dev (.read [] (.ok 0))
    else if oflags.nonblock then .leave dev (.read [] (.error .eagain))
    else .rest dev .rd (.read oflags len)
  else
    let copied := dev.readLoop len
    { dev := copied.2, pc := .check .wr (.readDone copied.1), removed := copied.1 }

/-- `pipecommon_write` with `d_bfsem`, up to the end of the bytes or to a full buffer. Before the
first byte `last` is `nwritten`, so readers are woken if any byte was stored. -/
def pipecommonWrite (oflags : Oflags) (sent : List UInt8) (byte : UInt8) (more : List UInt8) (dev : Dev) :
    Effect :=
  let copied := dev.writeLoop (byte :: more)
  let stored := (byte :: more).take copied.1
  match (byte :: more).drop copied.1 with
  | [] => { dev := copied.2, pc := .check .rd (.written (sent ++ stored)), stored := stored }
  | byte :: more =>
    let after := After.full oflags (sent ++ stored) byte more
    { dev := copied.2, pc := if copied.1 > 0 then .check .rd after else .finish after, stored := stored }

def pipecommonWriteFull (oflags : Oflags) (sent : List UInt8) (byte : UInt8) (more : List UInt8)
    (dev : Dev) : Effect :=
  if oflags.nonblock then
    .leave dev (.write (sent ++ byte :: more) sent (shortWrite sent .eagain))
  else
    .rest dev .wr (.write oflags sent byte more)

def pipecommonOpen (crefs : Nat) (oflags : Oflags) (memory : Bool) (dev : Dev) : Effect :=
  match dev.openAlloc crefs memory with
  | none => { Effect.leave dev (.other (.error .enomem)) with released := 1 }
  | some dev =>
    { dev := dev.openWriter oflags
      pc := if dev.openWakes oflags then .check .rd (.opened oflags) else .finish (.opened oflags) }

def pipecommonOpened (oflags : Oflags) (dev : Dev) : Effect :=
  .rest (dev.openReader oflags) .rd (.openFile oflags true)

/-- What follows `nxsem_post(&dev->d_bfsem)`. An open tests only then if it has to wait. -/
def pipecommonWait (sem : Which) : Section → Effect
  | .openFile oflags memory =>
    if dev.openWaits oflags then .sleep dev .rd (.openFile oflags memory)
    else { dev := dev, pc := .idle, returned := some (.other (.ok 0)) }
  | sec => .sleep dev sem sec

/-- `pipecommon_close` with `d_bfsem`, up to the loop that wakes readers. A device that was unlinked
is freed with its semaphores. -/
def pipecommonClose (crefs : Nat) (oflags : Oflags) (ret : Ret) (dev : Dev) : Effect :=
  if crefs > 1 then
    { dev := dev.closeWriter oflags
      pc := if dev.closeWakes oflags then .check .rd (.closed oflags ret) else .finish (.closed oflags ret) }
  else if (dev.policy1 = false ∨ dev.wrndx = dev.rdndx) ∧ dev.unlinked then
    { dev := dev.closeLast, pc := .idle, returned := some (.other ret), released := 1 }
  else
    { Effect.leave dev.closeLast (.other ret) with released := 1 }

def pipecommonClosed (oflags : Oflags) (ret : Ret) (dev : Dev) : Effect :=
  { Effect.leave (dev.closeReader oflags) (.other ret) with released := 1 }

def entry : Call → Effect
  | .read oflags len =>
    if len = 0 then { dev := dev, pc := .idle, returned := some (.read [] (.ok 0)) }
    else { dev := dev, pc := .take (.read oflags len) }
  | .write _ [] => { dev := dev, pc := .idle, returned := some (.write [] [] (.ok 0)) }
  | .write oflags (byte :: more) =>
    if dev.nreaders ≤ 0 then
      { dev := dev, pc := .idle, returned := some (.write (byte :: more) [] (.error .epipe)) }
    else
      { dev := dev, pc := .take (.write oflags [] byte more) }
  | .openFile oflags memory => { dev := dev, pc := .take (.openFile oflags memory), acquired := 1 }
  | .closeFile oflags => { dev := dev, pc := .take (.closeFile oflags (.ok 0)) }

def effect (crefs : Nat) (count : Which → Int) : Pc → Effect
  | .idle => { dev := dev, pc := .idle }
  | .take sec => { dev := dev, bfsem := .wait, pc := .enter sec }
  | .enter (.read oflags len) => pipecommonRead oflags len dev
  | .enter (.write oflags sent byte more) => pipecommonWrite oflags sent byte more dev
  | .enter (.openFile oflags memory) => pipecommonOpen crefs oflags memory dev
  | .enter (.closeFile oflags ret) => pipecommonClose crefs oflags ret dev
  | .check sem after =>
    { dev := dev, pc := if count sem < 0 then .post sem after else .finish after }
  | .post sem after => { dev := dev, waitsem := only sem .post, pc := .check sem after }
  | .finish (.readDone out) => .leave dev (.read out (.ok out.length))
  | .finish (.written data) => .leave dev (.write data data (.ok data.length))
  | .finish (.full oflags sent byte more) => pipecommonWriteFull oflags sent byte more dev
  | .finish (.opened oflags) => pipecommonOpened oflags dev
  | .finish (.closed oflags ret) => pipecommonClosed oflags ret dev
  | .gave sem sec => pipecommonWait dev sem sec
  | .sleep _ (.openFile _ _) => { dev := dev, pc := .idle, returned := some (.other (.ok 0)) }
  | .sleep _ sec => { dev := dev, pc := .take sec }

/-- What is returned if the pipe could not be closed: an open that was interrupted returns its own
error. -/
def closeFailed (ret : Ret) (errno : Errno) : Ret :=
  match ret with
  | .ok _ => .error errno
  | .error errno => .error errno

def failed (errno : Errno) : Section → Effect
  | .read _ _ => { dev := dev, pc := .idle, returned := some (.read [] (.error errno)) }
  | .write _ sent byte more =>
    { dev := dev, pc := .idle
      returned := some (.write (sent ++ byte :: more) sent (shortWrite sent errno)) }
  | .openFile _ _ => { dev := dev, pc := .idle, returned := some (.other (.error errno)), released := 1 }
  | .closeFile oflags ret =>
    -- `nxsem_wait_uninterruptible` waits again after a signal, but not when the task was canceled
    if errno = .eintr then { dev := dev, pc := .take (.closeFile oflags ret) }
    else { dev := dev, pc := .idle, returned := some (.other (closeFailed ret errno)), released := 1 }

def interrupted (errno : Errno) : Pc → Effect
  | .enter sec => { failed dev errno sec with bfsem := .cancel }
  | .sleep sem (.openFile oflags _) =>
    { dev := dev, waitsem := only sem .cancel, pc := .take (.closeFile oflags (.error errno)) }
  | .sleep sem sec => { failed dev errno sec with waitsem := only sem .cancel }
  | pc => { dev := dev, pc := pc }

/-- The device, its semaphores, the threads, the number of handles beside the two that stay open, what
the calls of each thread returned, and the bytes that were stored and removed, each with the thread
that moved it and how many calls of the thread had returned before. -/
structure Sys (T : Type) where
  dev : Dev
  bfsem : WaitSem T
  waitsem : Which → WaitSem T
  pc : T → Pc
  handles : Nat
  returned : T → List Return
  stored : List ((T × Nat) × UInt8)
  removed : List ((T × Nat) × UInt8)

inductive Event (T : Type)
  /-- a thread makes a call -/
  | call (t : T) (call : Call)
  /-- a thread goes on; if it posts a semaphore, `w` gets the count if it waits -/
  | run (t w : T)
  /-- a signal or a cancellation ends the wait of a thread -/
  | interrupt (t : T) (canceled : Bool)
  deriving DecidableEq, Repr

variable {T : Type} [DecidableEq T]

def SemOp.perform (t w : T) : SemOp → WaitSem T → WaitSem T
  | .none, sem => sem
  | .wait, sem => sem.wait t
  | .post, sem => sem.post w
  | .cancel, sem => sem.cancel t

variable (s : Sys T)

namespace Sys

def crefs : Nat := s.handles + 2

def current (t : T) : T × Nat := (t, (s.returned t).length)

def perform (t w : T) (e : Effect) : Sys T where
  dev := e.dev
  bfsem := e.bfsem.perform t w s.bfsem
  waitsem := fun sem => (e.waitsem sem).perform t w (s.waitsem sem)
  pc := Function.update s.pc t e.pc
  handles := s.handles + e.acquired - e.released
  returned := Function.update s.returned t (s.returned t ++ e.returned.toList)
  stored := s.stored ++ e.stored.map fun b => (s.current t, b)
  removed := s.removed ++ e.removed.map fun b => (s.current t, b)

def Waits (t : T) : Prop :=
  t ∈ s.bfsem.waiters ∨ t ∈ (s.waitsem .rd).waiters ∨ t ∈ (s.waitsem .wr).waiters

instance (s : Sys T) (t : T) : Decidable (s.Waits t) := inferInstanceAs (Decidable (_ ∨ _ ∨ _))

/-- A call takes place if the thread is in none; to close a handle there has to be one beside the two
that stay open. -/
def step : Event T → Sys T
  | .call t call =>
    if s.pc t = .idle ∧ (call.closes = true → 0 < s.handles) then s.perform t t (entry s.dev call)
    else s
  | .run t w =>
    if s.Waits t then s
    else s.perform t w (effect s.dev s.crefs (fun sem => (s.waitsem sem).count) (s.pc t))
  | .interrupt t canceled =>
    if s.Waits t then
      s.perform t t (interrupted s.dev (if canceled then .ecanceled else .eintr) (s.pc t))
    else s

def run (events : List (Event T)) : Sys T := events.foldl step s

/-- While a thread is between the post and the wait no other one makes a step. On one CPU `sched_lock`
ensures this. -/
def Alone : Event T → Prop
  | .call u _ | .run u _ => ∀ t, (s.pc t).gave? = true → t = u
  | .interrupt _ _ => True

instance [Fintype T] (s : Sys T) (e : Event T) : Decidable (s.Alone e) := by
  cases e <;> unfold Alone <;> infer_instance

end Sys

end Nuttx.Pipe

import Nuttx.Library.PriorityList
import Mathlib.Data.BitVec

/-!
# Message queues

`mq_send`, `mq_timedsend`, `mq_receive` and `mq_timedreceive` for any number of queues and tasks, with
the pool of message structures behind them. A task runs from one critical section to the next without
being seen by the others, so a step of a task ends with a critical section, or with a read of a
counter that is made outside of one. `Call` tells where a task is between two steps.

Messages have an arrival number and a queue has a record of what was sent and what was taken; the
code does not see them. Calls from interrupt handlers and `mq_notify` are left out, and
`DEBUGASSERT` is compiled out.
-/

namespace Nuttx.Mq

def mqPrioMax : Nat := 255

inductive Errno
  | eperm
  | eintr
  | eagain
  | einval
  | emsgsize
  | etimedout
  | ecanceled
  deriving DecidableEq, Repr

/-- `TSTATE_WAIT_MQNOTEMPTY` and `TSTATE_WAIT_MQNOTFULL`. -/
inductive Wait
  | notEmpty
  | notFull
  deriving DecidableEq, Repr

/-- A message structure, by its `type`: `MQ_ALLOC_FIXED` or `MQ_ALLOC_DYN`. -/
inductive Addr
  | fixed (i : Nat)
  | dyn (i : Nat)
  deriving DecidableEq, Repr

structure Oflags where
  rdok : Bool
  wrok : Bool
  nonblock : Bool
  deriving DecidableEq, Repr

/-- `struct mqueue_msg_s`: `mail` are the first `msglen` bytes of the array. `arrival` is how many
messages had been put on the queue before. -/
structure Message where
  priority : UInt8
  mail : List UInt8
  arrival : Nat
  deriving DecidableEq, Repr

structure Outgoing where
  prio : UInt8
  mail : List UInt8
  deriving DecidableEq, Repr

/-- `struct mqueue_inode_s`. `nwait` has the two counters `nwaitnotempty` and `nwaitnotfull`. `sent`
are the messages put on the list and `taken` those taken off it, each with the task that did it, the
last ones first. -/
structure Msgq where
  maxmsgs : Int16
  maxmsgsize : Nat
  msglist : List Addr
  nmsgs : Int16
  nwait : Wait → Int16
  sent : List (Nat × Message)
  taken : List (Nat × Message)

/-- What a call returns. A successful receive has copied a message of a queue; a successful send has
nothing to return but what it was asked to send. -/
inductive Ret
  | sent (q : Nat) (m : Outgoing)
  | received (q : Nat) (msg : Message)
  | failed (errno : Errno)
  deriving DecidableEq, Repr

/-- Where a task is between two steps. -/
inductive Call
  /-- not in a call: what the last one returned -/
  | idle (ret : Option Ret)
  /-- before `nxmq_alloc_msg` in `file_mq_send` -/
  | sendAlloc (q : Nat) (m : Outgoing)
  /-- before `nxmq_alloc_msg` in `file_mq_timedsend` -/
  | timedAlloc (q : Nat) (oflags : Oflags) (m : Outgoing)
  /-- before the first test of `nmsgs` in `file_mq_timedsend` -/
  | timedTest (q : Nat) (oflags : Oflags) (m : Outgoing) (mqmsg : Addr)
  /-- the queue was full: before the critical section of `file_mq_timedsend` -/
  | timedFull (q : Nat) (oflags : Oflags) (m : Outgoing) (mqmsg : Addr)
  /-- in the loop of `nxmq_wait_send`; `file_mq_timedsend` has a message structure already -/
  | sendWait (q : Nat) (m : Outgoing) (mqmsg : Option Addr)
  /-- `file_mq_timedsend` fails: before `nxmq_free_msg` -/
  | timedFree (mqmsg : Addr) (errno : Errno)
  /-- before `nxmq_do_send` -/
  | doSend (q : Nat) (m : Outgoing) (mqmsg : Addr)
  /-- between the two critical sections of `nxmq_do_send` -/
  | wakeReceiver (q : Nat) (m : Outgoing)
  /-- in the loop of `nxmq_wait_receive` -/
  | receiveWait (q : Nat)
  /-- before `nxmq_do_receive` -/
  | doReceive (q : Nat) (mqmsg : Addr)
  /-- before the test of `nwaitnotfull` in `nxmq_do_receive` -/
  | testNotFull (q : Nat) (msg : Message)
  /-- after that test, before the critical section -/
  | wakeSender (q : Nat) (msg : Message)
  deriving DecidableEq, Repr

/-- The fields of a `struct tcb_s` that message queues use. `errcode` is `none` for `OK`, and
`taskState` is `none` for a task that waits for no queue. -/
structure Tcb where
  schedPriority : Nat
  taskState : Option Wait
  msgwaitq : Option Nat
  errcode : Option Errno
  call : Call
  deriving DecidableEq, Repr

/-- The queues, the tasks, the message structures, `g_msgfree`, the structures that `kmm_malloc` has
handed out, and the two lists `g_waitingformqnotempty` and `g_waitingformqnotfull`. `nullDeref` is set
when a pointer that is `NULL` is followed. -/
structure Kernel where
  msgq : Nat → Msgq
  tcb : Nat → Tcb
  mem : Addr → Message
  msgfree : List Nat
  allocated : List Nat
  waiting : Wait → List Nat
  nullDeref : Bool

namespace Kernel

variable (k : Kernel)

def modifyMsgq (q : Nat) (f : Msgq → Msgq) : Kernel :=
  { k with msgq := Function.update k.msgq q (f (k.msgq q)) }

def modifyTcb (t : Nat) (f : Tcb → Tcb) : Kernel :=
  { k with tcb := Function.update k.tcb t (f (k.tcb t)) }

def setCall (t : Nat) (call : Call) : Kernel :=
  k.modifyTcb t fun tcb => { tcb with call := call }

def addNwait (q : Nat) (w : Wait) (n : Int16) : Kernel :=
  k.modifyMsgq q fun msgq => { msgq with nwait := Function.update msgq.nwait w (msgq.nwait w + n) }

def block (t q : Nat) (w : Wait) : Kernel :=
  let k := k.modifyTcb t fun tcb =>
    { tcb with msgwaitq := some q, errcode := none, taskState := some w }
  { k.addNwait q w 1 with
    waiting := Function.update k.waiting w
      (PriorityList.insert (fun t => (k.tcb t).schedPriority) t (k.waiting w)) }

def unblock (t q : Nat) (w : Wait) : Kernel :=
  let k := k.modifyTcb t fun tcb => { tcb with msgwaitq := none, taskState := none }
  { k.addNwait q w (-1) with
    waiting := Function.update k.waiting w ((k.waiting w).erase t) }

def firstWaiter (q : Nat) (w : Wait) : Option Nat :=
  (k.waiting w).find? fun t => (k.tcb t).msgwaitq == some q

/-- `nxmq_alloc_msg`: the first free structure, or one from the heap. There it gets a block that is not
in use. -/
def nxmqAllocMsg (block : Nat) : Option Addr :=
  match k.msgfree with
  | i :: _ => some (.fixed i)
  | [] => if block ∈ k.allocated then none else some (.dyn block)

def allocMsg : Addr → Kernel
  | .fixed _ => { k with msgfree := k.msgfree.tail }
  | .dyn i => { k with allocated := i :: k.allocated }

def nxmqFreeMsg : Addr → Kernel
  | .fixed i => { k with msgfree := k.msgfree ++ [i] }
  | .dyn i => { k with allocated := k.allocated.erase i }

/-- The first part of `nxmq_do_send`: the structure is filled and put behind the messages whose
priority is not lower. -/
def insertMsg (t q : Nat) (m : Outgoing) (mqmsg : Addr) : Kernel :=
  let msg : Message := ⟨m.prio, m.mail, (k.msgq q).sent.length⟩
  let mem := Function.update k.mem mqmsg msg
  { k.modifyMsgq q fun msgq =>
      { msgq with
        msglist := PriorityList.insert (fun a => (mem a).priority.toNat) mqmsg msgq.msglist
        nmsgs := msgq.nmsgs + 1
        sent := (t, msg) :: msgq.sent } with
    mem := mem }

def takeMsg (t q : Nat) (mqmsg : Addr) : Kernel :=
  k.modifyMsgq q fun msgq =>
    { msgq with
      msglist := msgq.msglist.tail
      nmsgs := msgq.nmsgs - 1
      taken := (t, k.mem mqmsg) :: msgq.taken }

end Kernel

/-- What a step does. -/
inductive Action
  | skip
  /-- the task only gets to another place -/
  | goto (call : Call)
  | block (q : Nat) (w : Wait) (call : Call)
  | alloc (mqmsg : Addr) (call : Call)
  | insert (q : Nat) (m : Outgoing) (mqmsg : Addr)
  | take (q : Nat) (mqmsg : Addr)
  /-- the message is copied and its structure freed -/
  | receive (q : Nat) (mqmsg : Addr)
  | drop (mqmsg : Addr) (errno : Errno)
  | wake (q : Nat) (w : Wait) (ret : Ret)
  /-- the task is waiting and is restarted with an error -/
  | cancel (w : Wait) (errcode : Errno)

open Kernel in
def perform (k : Kernel) (t : Nat) : Action → Kernel
  | .skip => k
  | .goto call => k.setCall t call
  | .block q w call => (k.block t q w).setCall t call
  | .alloc mqmsg call => (k.allocMsg mqmsg).setCall t call
  | .insert q m mqmsg => (k.insertMsg t q m mqmsg).setCall t (.wakeReceiver q m)
  | .take q mqmsg => (k.takeMsg t q mqmsg).setCall t (.doReceive q mqmsg)
  | .receive q mqmsg => (k.nxmqFreeMsg mqmsg).setCall t (.testNotFull q (k.mem mqmsg))
  | .drop mqmsg errno => (k.nxmqFreeMsg mqmsg).setCall t (.idle (some (.failed errno)))
  | .wake q w ret =>
    match k.firstWaiter q w with
    | some btcb => (k.unblock btcb q w).setCall t (.idle (some ret))
    -- `btcb` is `NULL` and is written through
    | none => { k with nullDeref := true }
  | .cancel w errcode =>
    match (k.tcb t).msgwaitq with
    | some q => (k.unblock t q w).modifyTcb t fun tcb => { tcb with errcode := some errcode }
    | none => { k with nullDeref := true }

def fail (errno : Errno) : Action := .goto (.idle (some (.failed errno)))

variable (msgq : Msgq)

def nxmqVerifySend (oflags : Oflags) (mail : List UInt8) (prio : Nat) : Option Errno :=
  if prio > mqPrioMax then some .einval
  else if ! oflags.wrok then some .eperm
  else if mail.length > msgq.maxmsgsize then some .emsgsize
  else none

def nxmqVerifyReceive (oflags : Oflags) (msglen : Nat) : Option Errno :=
  if ! oflags.rdok then some .eperm
  else if msglen < msgq.maxmsgsize then some .emsgsize
  else none

/-- The outcome of one round of `nxmq_wait_send`. -/
inductive WaitResult
  | ok
  | error (errno : Errno)
  | block

def nxmqWaitSend (oflags : Oflags) (canceled : Bool) : WaitResult :=
  if canceled then .error .ecanceled
  else if msgq.nmsgs ≥ msgq.maxmsgs then
    if oflags.nonblock then .error .eagain else .block
  else .ok

def nxmqWaitSendAgain (errcode : Option Errno) : WaitResult :=
  match errcode with
  | some errno => .error errno
  | none => if msgq.nmsgs ≥ msgq.maxmsgs then .block else .ok

def afterWaitSend (q : Nat) (m : Outgoing) (mqmsg : Option Addr) : WaitResult → Action
  | .ok =>
    match mqmsg with
    | some mqmsg => .goto (.doSend q m mqmsg)
    | none => .goto (.sendAlloc q m)
  | .error errno =>
    match mqmsg with
    | some mqmsg => .goto (.timedFree mqmsg errno)
    | none => fail errno
  | .block => .block q .notFull (.sendWait q m mqmsg)

def waitReceiveLoop (q : Nat) (nonblock : Bool) : Action :=
  match msgq.msglist with
  | mqmsg :: _ => .take q mqmsg
  | [] => if nonblock then fail .eagain else .block q .notEmpty (.receiveWait q)

def nxmqWaitReceive (q : Nat) (oflags : Oflags) (canceled : Bool) : Action :=
  if canceled then fail .ecanceled else waitReceiveLoop msgq q oflags.nonblock

def nxmqWaitReceiveAgain (q : Nat) (errcode : Option Errno) : Action :=
  match errcode with
  | some errno => fail errno
  | none => waitReceiveLoop msgq q false

/-- A call that a task makes. `validTime` is the test of the argument `abstime` itself. -/
inductive Request
  | send (q : Nat) (oflags : Oflags) (mail : List UInt8) (prio : Nat)
  | timedsend (q : Nat) (oflags : Oflags) (mail : List UInt8) (prio : Nat)
  | receive (q : Nat) (oflags : Oflags) (msglen : Nat)
  | timedreceive (q : Nat) (oflags : Oflags) (msglen : Nat) (validTime : Bool)
  deriving DecidableEq, Repr

/-- What a step gets from outside: the block that `kmm_malloc` returns, the error of the conversion of
the time or of a time that has passed, and whether a cancellation is pending. -/
structure Env where
  block : Nat
  time : Option Errno
  canceled : Bool
  deriving DecidableEq, Repr

open Kernel in
def start (k : Kernel) (env : Env) : Request → Action
  | .send q oflags mail prio =>
    match nxmqVerifySend (k.msgq q) oflags mail prio with
    | some errno => fail errno
    | none =>
      let m : Outgoing := ⟨UInt8.ofNat prio, mail⟩
      if (k.msgq q).nmsgs ≥ (k.msgq q).maxmsgs then
        afterWaitSend q m none (nxmqWaitSend (k.msgq q) oflags env.canceled)
      else .goto (.sendAlloc q m)
  | .timedsend q oflags mail prio =>
    match nxmqVerifySend (k.msgq q) oflags mail prio with
    | some errno => fail errno
    | none => .goto (.timedAlloc q oflags ⟨UInt8.ofNat prio, mail⟩)
  | .receive q oflags msglen =>
    match nxmqVerifyReceive (k.msgq q) oflags msglen with
    | some errno => fail errno
    | none => nxmqWaitReceive (k.msgq q) q oflags env.canceled
  | .timedreceive q oflags msglen validTime =>
    match nxmqVerifyReceive (k.msgq q) oflags msglen with
    | some errno => fail errno
    | none =>
      if ! validTime then fail .einval
      else
        match (k.msgq q).msglist, env.time with
        | [], some errno => fail errno
        | _, _ => nxmqWaitReceive (k.msgq q) q oflags env.canceled

open Kernel in
def resume (k : Kernel) (env : Env) (errcode : Option Errno) : Call → Option Action
  | .idle _ => none
  | .sendAlloc q m =>
    (k.nxmqAllocMsg env.block).map fun mqmsg => .alloc mqmsg (.doSend q m mqmsg)
  | .timedAlloc q oflags m =>
    (k.nxmqAllocMsg env.block).map fun mqmsg => .alloc mqmsg (.timedTest q oflags m mqmsg)
  | .timedTest q oflags m mqmsg =>
    if (k.msgq q).nmsgs < (k.msgq q).maxmsgs then some (.goto (.doSend q m mqmsg))
    else some (.goto (.timedFull q oflags m mqmsg))
  | .timedFull q oflags m mqmsg =>
    match env.time with
    | some errno => some (.goto (.timedFree mqmsg errno))
    | none => some (afterWaitSend q m (some mqmsg) (nxmqWaitSend (k.msgq q) oflags env.canceled))
  | .sendWait q m mqmsg => some (afterWaitSend q m mqmsg (nxmqWaitSendAgain (k.msgq q) errcode))
  | .timedFree mqmsg errno => some (.drop mqmsg errno)
  | .doSend q m mqmsg => some (.insert q m mqmsg)
  | .wakeReceiver q m =>
    if (k.msgq q).nwait .notEmpty > 0 then some (.wake q .notEmpty (.sent q m))
    else some (.goto (.idle (some (.sent q m))))
  | .receiveWait q => some (nxmqWaitReceiveAgain (k.msgq q) q errcode)
  | .doReceive q mqmsg => some (.receive q mqmsg)
  | .testNotFull q msg =>
    if (k.msgq q).nwait .notFull > 0 then some (.goto (.wakeSender q msg))
    else some (.goto (.idle (some (.received q msg))))
  | .wakeSender q msg => some (.wake q .notFull (.received q msg))

def nxmqWaitIrq (k : Kernel) (wtcb : Nat) (errcode : Errno) : Action :=
  match (k.tcb wtcb).taskState with
  | some w => .cancel w errcode
  | none => .skip

inductive Event
  | call (t : Nat) (request : Request) (env : Env)
  | run (t : Nat) (env : Env)
  | waitIrq (t : Nat) (errcode : Errno)
  deriving DecidableEq, Repr

def Event.task : Event → Nat
  | .call t _ _ => t
  | .run t _ => t
  | .waitIrq t _ => t

def Call.isIdle : Call → Bool
  | .idle _ => true
  | _ => false

def action (k : Kernel) : Event → Option Action
  | .call t request env =>
    if (k.tcb t).taskState = none ∧ (k.tcb t).call.isIdle then some (start k env request) else none
  | .run t env =>
    if (k.tcb t).taskState = none then resume k env (k.tcb t).errcode (k.tcb t).call else none
  | .waitIrq t errcode => some (nxmqWaitIrq k t errcode)

/-- Nothing is known of what comes after a `NULL` pointer was followed. -/
def step (k : Kernel) (e : Event) : Option Kernel :=
  if k.nullDeref then none else (action k e).map (perform k e.task)

structure Initial (k : Kernel) : Prop where
  msgq : ∀ q, (k.msgq q).msglist = [] ∧ (k.msgq q).nmsgs = 0 ∧ (∀ w, (k.msgq q).nwait w = 0) ∧
    (k.msgq q).sent = [] ∧ (k.msgq q).taken = []
  tcb : ∀ t, (k.tcb t).taskState = none ∧ (k.tcb t).call = .idle none
  msgfree : k.msgfree.Nodup
  allocated : k.allocated = []
  waiting : ∀ w, k.waiting w = []
  nullDeref : k.nullDeref = false

end Nuttx.Mq

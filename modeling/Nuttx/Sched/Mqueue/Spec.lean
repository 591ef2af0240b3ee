import Nuttx.Sched.Mqueue.Model
import Mathlib.Data.Set.Card

/-!
# What a message queue is for

The messages of a queue stand in order of priority, and within a priority in order of arrival. Each
message sent is taken once or still queued.
-/

namespace Nuttx.Mq

def Kernel.queued (k : Kernel) (q : Nat) : List Message := (k.msgq q).msglist.map k.mem

def Kernel.Blocked (k : Kernel) (q : Nat) (w : Wait) : Set Nat :=
  Set.ofPred fun t => (k.tcb t).taskState = some w ∧ (k.tcb t).msgwaitq = some q

/-- The last entry of a record that is due to the task. -/
def lastOf (t : Nat) (record : List (Nat × Message)) : Option Message :=
  (record.find? fun entry => entry.1 == t).map Prod.snd

def Message.outgoing (msg : Message) : Outgoing := ⟨msg.priority, msg.mail⟩

structure Right (k : Kernel) (q : Nat) : Prop where
  notNull : k.nullDeref = false
  ordered : (k.queued q).Pairwise fun a b =>
    b.priority < a.priority ∨ a.priority = b.priority ∧ a.arrival < b.arrival
  nmsgs : (k.msgq q).nmsgs.toInt = (k.msgq q).msglist.length
  nwait : ∀ w, (k.Blocked q w).Finite ∧ ((k.msgq q).nwait w).toInt = (k.Blocked q w).ncard
  /-- no two messages are taken for one another -/
  distinct : ((k.msgq q).sent.map fun entry => entry.2.arrival).Nodup
  /-- each message sent has been taken once or is still queued, and is as it was sent -/
  conserved : ((k.msgq q).sent.map Prod.snd).Perm ((k.msgq q).taken.map Prod.snd ++ k.queued q)
  /-- a send that was successful has put its message on the queue -/
  delivered : ∀ t m, (k.tcb t).call = .idle (some (.sent q m)) →
    (lastOf t (k.msgq q).sent).map Message.outgoing = some m
  /-- a receive returns the message that the task took -/
  returned : ∀ t msg, (k.tcb t).call = .idle (some (.received q msg)) →
    lastOf t (k.msgq q).taken = some msg

def TakesOldest (k k' : Kernel) (q : Nat) : Prop :=
  ∀ t msg, (k'.msgq q).taken = (t, msg) :: (k.msgq q).taken →
    msg ∈ k.queued q ∧ ∀ other ∈ k.queued q,
      other.priority < msg.priority ∨ other.priority = msg.priority ∧ msg.arrival ≤ other.arrival

def SendsOwn (k k' : Kernel) (q : Nat) : Prop :=
  ∀ t msg, (k'.msgq q).sent = (t, msg) :: (k.msgq q).sent →
    ∃ mqmsg, (k.tcb t).call = .doSend q msg.outgoing mqmsg

def RunRight : Kernel → List Event → Prop
  | _, [] => True
  | k, e :: es => ∀ k', step k e = some k' →
      (∀ q, TakesOldest k k' q ∧ SendsOwn k k' q ∧ Right k' q) ∧ RunRight k' es

/-- The condition on a step: a task that is to be woken is still there, and no counter is at
`INT16_MAX` when it is incremented. -/
def Action.Meets (k : Kernel) : Action → Prop
  | .block q w _ => ((k.msgq q).nwait w).toInt < 0x7fff
  | .insert q _ _ => (k.msgq q).nmsgs.toInt < 0x7fff
  | .wake q w _ => ∃ t, t ∈ k.Blocked q w
  | _ => True

def RunMeets : Kernel → List Event → Prop
  | _, [] => True
  | k, e :: es => ∀ act, action k e = some act → act.Meets k ∧ RunMeets (perform k e.task act) es

end Nuttx.Mq

import Nuttx.Sched.Mqueue.Spec

/-!
# What a step can do

Each action with what is known of the state in which it is taken.
-/

namespace Nuttx.Mq

def Call.msg? : Call → Option Addr
  | .timedTest _ _ _ mqmsg => some mqmsg
  | .timedFull _ _ _ mqmsg => some mqmsg
  | .sendWait _ _ mqmsg => mqmsg
  | .timedFree mqmsg _ => some mqmsg
  | .doSend _ _ mqmsg => some mqmsg
  | .doReceive _ mqmsg => some mqmsg
  | _ => none

/-- What a call has done with a queue. -/
inductive Report
  | put (m : Outgoing)
  | got (msg : Message)

def Call.report (mem : Addr → Message) : Call → Option (Nat × Report)
  | .wakeReceiver q m => some (q, .put m)
  | .idle (some (.sent q m)) => some (q, .put m)
  | .doReceive q mqmsg => some (q, .got (mem mqmsg))
  | .testNotFull q msg => some (q, .got msg)
  | .wakeSender q msg => some (q, .got msg)
  | .idle (some (.received q msg)) => some (q, .got msg)
  | _ => none

def Kernel.Available (k : Kernel) (mqmsg : Addr) : Prop :=
  (∃ i, mqmsg = .fixed i ∧ k.msgfree.head? = some i) ∨ ∃ i, mqmsg = .dyn i ∧ i ∉ k.allocated

def Enabled (k : Kernel) (t : Nat) : Action → Prop
  | .skip => True
  | .goto call =>
    call.msg? = (k.tcb t).call.msg? ∧
      (call.report k.mem = none ∨ call.report k.mem = (k.tcb t).call.report k.mem)
  | .block _ _ call =>
    (k.tcb t).taskState = none ∧ call.msg? = (k.tcb t).call.msg? ∧ call.report k.mem = none
  | .alloc mqmsg call =>
    k.Available mqmsg ∧ (k.tcb t).call.msg? = none ∧ call.msg? = some mqmsg ∧ call.report k.mem = none
  | .insert q m mqmsg => (k.tcb t).call = .doSend q m mqmsg
  | .take q mqmsg => (k.msgq q).msglist.head? = some mqmsg ∧ (k.tcb t).call.msg? = none
  | .receive q mqmsg => (k.tcb t).call = .doReceive q mqmsg
  | .drop mqmsg _ => (k.tcb t).call.msg? = some mqmsg
  | .wake _ _ ret =>
    (k.tcb t).call.msg? = none ∧
      ((Call.idle (some ret)).report k.mem = none ∨
        (Call.idle (some ret)).report k.mem = (k.tcb t).call.report k.mem)
  | .cancel w _ => (k.tcb t).taskState = some w

theorem available_of_nxmqAllocMsg {k : Kernel} {block : Nat} {mqmsg : Addr}
    (h : k.nxmqAllocMsg block = some mqmsg) : k.Available mqmsg := by
  rw [Kernel.nxmqAllocMsg] at h
  split at h
  · next i rest hfree =>
      refine .inl ⟨i, (Option.some.inj h).symm, ?_⟩
      rw [hfree, List.head?_cons]
  · next hfree =>
      split_ifs at h with hmem
      exact .inr ⟨block, (Option.some.inj h).symm, hmem⟩

section Enabled

variable {k : Kernel} {t : Nat}

theorem enabled_fail (hmsg : (k.tcb t).call.msg? = none) (errno : Errno) :
    Enabled k t (fail errno) := ⟨hmsg.symm, .inl rfl⟩

variable (hstate : (k.tcb t).taskState = none)
include hstate

theorem enabled_afterWaitSend {mqmsg : Option Addr}
    (hmsg : (k.tcb t).call.msg? = mqmsg) (q : Nat) (m : Outgoing) (result : WaitResult) :
    Enabled k t (afterWaitSend q m mqmsg result) := by
  cases result with
  | ok =>
    cases mqmsg with
    | none | some mqmsg => exact ⟨hmsg.symm, .inl rfl⟩
  | error errno =>
    cases mqmsg with
    | none => exact enabled_fail hmsg errno
    | some mqmsg => exact ⟨hmsg.symm, .inl rfl⟩
  | block => exact ⟨hstate, hmsg.symm, rfl⟩

section

variable (hmsg : (k.tcb t).call.msg? = none)
include hmsg

theorem enabled_waitReceiveLoop (q : Nat) (nonblock : Bool) :
    Enabled k t (waitReceiveLoop (k.msgq q) q nonblock) := by
  rw [waitReceiveLoop]
  split
  · next mqmsg rest hlist =>
      refine ⟨?_, hmsg⟩
      rw [hlist, List.head?_cons]
  · split_ifs
    · exact enabled_fail hmsg _
    · exact ⟨hstate, hmsg.symm, rfl⟩

theorem enabled_nxmqWaitReceive (q : Nat) (oflags : Oflags) (canceled : Bool) :
    Enabled k t (nxmqWaitReceive (k.msgq q) q oflags canceled) := by
  rw [nxmqWaitReceive]
  split_ifs
  · exact enabled_fail hmsg _
  · exact enabled_waitReceiveLoop hstate hmsg q _

theorem enabled_start
    (env : Env) (request : Request) : Enabled k t (start k env request) := by
  cases request with
  | send q oflags mail prio =>
    rw [start]
    split
    · exact enabled_fail hmsg _
    dsimp only
    split_ifs
    · exact enabled_afterWaitSend hstate hmsg q _ _
    · exact ⟨hmsg.symm, .inl rfl⟩
  | timedsend q oflags mail prio =>
    rw [start]
    split
    · exact enabled_fail hmsg _
    · exact ⟨hmsg.symm, .inl rfl⟩
  | receive q oflags msglen =>
    rw [start]
    split
    · exact enabled_fail hmsg _
    · exact enabled_nxmqWaitReceive hstate hmsg q oflags _
  | timedreceive q oflags msglen validTime =>
    rw [start]
    split
    · exact enabled_fail hmsg _
    split_ifs
    · exact enabled_fail hmsg _
    · split
      · exact enabled_fail hmsg _
      · exact enabled_nxmqWaitReceive hstate hmsg q oflags _

end

theorem enabled_resume {env : Env} {errcode : Option Errno}
    {act : Action} (h : resume k env errcode (k.tcb t).call = some act) : Enabled k t act := by
  cases hcall : (k.tcb t).call with
  | idle ret =>
    rw [hcall, resume] at h
    cases h
  | sendAlloc q m | timedAlloc q oflags m =>
    rw [hcall, resume, Option.map_eq_some_iff] at h
    obtain ⟨mqmsg, halloc, rfl⟩ := h
    exact ⟨available_of_nxmqAllocMsg halloc, by rw [hcall]; rfl, rfl, rfl⟩
  | timedTest q oflags m mqmsg =>
    rw [hcall, resume] at h
    split_ifs at h
    all_goals
      cases h
      exact ⟨by rw [hcall]; rfl, .inl rfl⟩
  | timedFull q oflags m mqmsg =>
    rw [hcall, resume] at h
    split at h
    · cases h
      exact ⟨by rw [hcall]; rfl, .inl rfl⟩
    · cases h
      exact enabled_afterWaitSend hstate (by rw [hcall]; rfl) q m _
  | sendWait q m mqmsg =>
    rw [hcall, resume] at h
    cases h
    exact enabled_afterWaitSend hstate (by rw [hcall]; rfl) q m _
  | timedFree mqmsg errno =>
    rw [hcall, resume] at h
    cases h
    exact (congrArg Call.msg? hcall).trans rfl
  | doSend q m mqmsg | doReceive q mqmsg =>
    rw [hcall, resume] at h
    cases h
    exact hcall
  | receiveWait q =>
    rw [hcall, resume] at h
    cases h
    have hmsg : (k.tcb t).call.msg? = none := by rw [hcall]; rfl
    cases errcode with
    | some errno => exact enabled_fail hmsg errno
    | none => exact enabled_waitReceiveLoop hstate hmsg q false
  | testNotFull q msg | wakeReceiver q m =>
    rw [hcall, resume] at h
    split_ifs at h
    all_goals
      cases h
      exact ⟨by rw [hcall]; rfl, .inr (by rw [hcall]; rfl)⟩
  | wakeSender q msg =>
    rw [hcall, resume] at h
    cases h
    exact ⟨by rw [hcall]; rfl, .inr (by rw [hcall]; rfl)⟩

end Enabled

theorem enabled_of_action {k : Kernel} {e : Event} {act : Action} (h : action k e = some act) :
    Enabled k e.task act := by
  cases e with
  | call t request env =>
    rw [action] at h
    split_ifs at h with hidle
    cases h
    refine enabled_start hidle.1 ?_ env request
    cases hcall : (k.tcb t).call with
    | idle ret => rfl
    | _ =>
      rw [hcall] at hidle
      cases hidle.2
  | run t env =>
    rw [action] at h
    split_ifs at h with hstate
    exact enabled_resume hstate h
  | waitIrq t errcode =>
    rw [action, nxmqWaitIrq] at h
    split at h
    · next w hstate =>
        cases h
        exact hstate
    · cases h
      exact trivial

end Nuttx.Mq

import Nuttx.Library.Ownership
import Nuttx.Sched.Mqueue.Proof.Waits

/-!
# The message structures

A message structure is free, on the list of one queue or with one task, never in two places.
-/

open List

namespace Nuttx.Mq

open Kernel Ownership

inductive Owner
  | free
  | queue (q : Nat)
  | task (t : Nat)

def Kernel.Owns (k : Kernel) : Owner → Addr → Prop
  | .free, mqmsg => ∃ i ∈ k.msgfree, mqmsg = .fixed i
  | .queue q, mqmsg => mqmsg ∈ (k.msgq q).msglist
  | .task t, mqmsg => (k.tcb t).call.msg? = some mqmsg

structure Memory (k : Kernel) : Prop where
  exclusive : Exclusive k.Owns
  freeNodup : k.msgfree.Nodup
  listNodup : ∀ q, (k.msgq q).msglist.Nodup
  allocated : ∀ o i, k.Owns o (.dyn i) → i ∈ k.allocated

variable {k k' : Kernel} {t q : Nat} {mqmsg : Addr} {call : Call}

theorem setCall_call (k : Kernel) (t : Nat) (call : Call) (t' : Nat) :
    ((k.setCall t call).tcb t').call = if t' = t then call else (k.tcb t').call := by
  rw [setCall, modifyTcb_tcb]
  split_ifs <;> rfl

theorem setCall_msg? (k : Kernel) (t : Nat) (call : Call) {t' : Nat} {mqmsg : Addr}
    (h : ((k.setCall t call).tcb t').call.msg? = some mqmsg) :
    t' = t ∧ call.msg? = some mqmsg ∨ t' ≠ t ∧ (k.tcb t').call.msg? = some mqmsg := by
  rw [setCall_call] at h
  split_ifs at h with ht
  · exact .inl ⟨ht, h⟩
  · exact .inr ⟨ht, h⟩

theorem Memory.congr (h : Memory k) (hfree : k'.msgfree = k.msgfree)
    (halloc : k'.allocated = k.allocated) (hlist : ∀ q, (k'.msgq q).msglist = (k.msgq q).msglist)
    (hcall : ∀ t, (k'.tcb t).call.msg? = (k.tcb t).call.msg?) : Memory k' := by
  have howns : k'.Owns = k.Owns := by
    funext o mqmsg
    cases o with
    | free => rw [Owns, Owns, hfree]
    | queue q => rw [Owns, Owns, hlist]
    | task t => rw [Owns, Owns, hcall]
  exact ⟨howns ▸ h.exclusive, hfree ▸ h.freeNodup, fun q => hlist q ▸ h.listNodup q,
    fun o i => by rw [howns, halloc]; exact h.allocated o i⟩

theorem Memory.setCall (h : Memory k) (hmsg : call.msg? = (k.tcb t).call.msg?) :
    Memory (k.setCall t call) := by
  refine h.congr rfl rfl (fun _ => rfl) fun t' => ?_
  rw [setCall_call]
  split_ifs with ht
  · rw [ht, hmsg]
  · rfl

theorem Memory.alloc (h : Memory k) (havail : k.Available mqmsg)
    (hhas : (k.tcb t).call.msg? = none) (hmsg : call.msg? = some mqmsg) :
    Memory ((k.allocMsg mqmsg).setCall t call) := by
  rcases havail with ⟨i, rfl, hhead⟩ | ⟨i, rfl, hfresh⟩
  · obtain ⟨rest, hfree⟩ := List.head?_eq_some_iff.mp hhead
    have hnodup := h.freeNodup
    rw [hfree, nodup_cons] at hnodup
    have howner : k.Owns .free (.fixed i) := ⟨i, hfree ▸ mem_cons_self, rfl⟩
    have hstep : ∀ o b, ((k.allocMsg (.fixed i)).setCall t call).Owns o b →
        k.Owns o b ∧ b ≠ .fixed i ∨ o = .task t ∧ b = .fixed i := by
      refine h.exclusive.given howner ?_ ?_
      · rintro b ⟨j, hj, rfl⟩
        have hj : j ∈ rest := by
          have htail : (k.allocMsg (.fixed i)).msgfree = rest := by rw [allocMsg, hfree]; rfl
          exact htail ▸ hj
        refine .inl ⟨⟨j, hfree ▸ mem_cons_of_mem _ hj, rfl⟩, fun heq => ?_⟩
        exact hnodup.1 (Addr.fixed.inj heq ▸ hj)
      · intro o b hne hb
        cases o with
        | free => exact absurd rfl hne
        | queue q => exact .inl hb
        | task t' =>
          rcases setCall_msg? _ t call hb with ⟨rfl, hsome⟩ | ⟨-, hold⟩
          · rw [hmsg] at hsome
            exact .inr ⟨rfl, (Option.some.inj hsome).symm⟩
          · exact .inl hold
    refine ⟨h.exclusive.gain hstep, ?_, h.listNodup, fun o j hj => ?_⟩
    · show (k.msgfree.tail).Nodup
      rw [hfree]
      exact hnodup.2
    · rcases hstep o _ hj with ⟨hold, -⟩ | ⟨-, heq⟩
      · exact h.allocated o j hold
      · cases heq
  · have hstep : ∀ o b, ((k.allocMsg (.dyn i)).setCall t call).Owns o b →
        k.Owns o b ∧ b ≠ .dyn i ∨ o = .task t ∧ b = .dyn i := by
      have hold : ∀ o b, k.Owns o b → k.Owns o b ∧ b ≠ .dyn i := by
        rintro o b hb
        refine ⟨hb, ?_⟩
        rintro rfl
        exact hfresh (h.allocated o i hb)
      intro o b hb
      cases o with
      | free => exact .inl (hold .free b hb)
      | queue q => exact .inl (hold (.queue q) b hb)
      | task t' =>
        rcases setCall_msg? _ t call hb with ⟨rfl, hsome⟩ | ⟨-, hother⟩
        · rw [hmsg] at hsome
          exact .inr ⟨rfl, (Option.some.inj hsome).symm⟩
        · exact .inl (hold (.task t') b hother)
    refine ⟨h.exclusive.gain hstep, h.freeNodup, h.listNodup, fun o j hj => ?_⟩
    rcases hstep o _ hj with ⟨hold, -⟩ | ⟨-, heq⟩
    · exact mem_cons_of_mem _ (h.allocated o j hold)
    · rw [Addr.dyn.inj heq]
      exact mem_cons_self

def Kernel.outgoing (k : Kernel) (q : Nat) (m : Outgoing) : Message :=
  ⟨m.prio, m.mail, (k.msgq q).sent.length⟩

theorem insertMsg_msgq (k : Kernel) (t q : Nat) (m : Outgoing) (mqmsg : Addr) (q' : Nat) :
    (k.insertMsg t q m mqmsg).msgq q' = if q' = q then
      { k.msgq q with
        msglist := PriorityList.insert (fun a => ((k.insertMsg t q m mqmsg).mem a).priority.toNat) mqmsg
          (k.msgq q).msglist
        nmsgs := (k.msgq q).nmsgs + 1
        sent := (t, k.outgoing q m) :: (k.msgq q).sent } else k.msgq q' :=
  Function.update_apply ..

theorem takeMsg_msgq (k : Kernel) (t q : Nat) (mqmsg : Addr) (q' : Nat) :
    (k.takeMsg t q mqmsg).msgq q' = if q' = q then
      { k.msgq q with
        msglist := (k.msgq q).msglist.tail
        nmsgs := (k.msgq q).nmsgs - 1
        taken := (t, k.mem mqmsg) :: (k.msgq q).taken } else k.msgq q' := by
  rw [takeMsg, modifyMsgq_msgq]

theorem Memory.insert (h : Memory k) {m : Outgoing} (hmsg : (k.tcb t).call.msg? = some mqmsg)
    (hcall : call.msg? = none) : Memory ((k.insertMsg t q m mqmsg).setCall t call) := by
  have hmsgq := insertMsg_msgq k t q m mqmsg
  have howner : k.Owns (.task t) mqmsg := hmsg
  have hstep : ∀ o b, ((k.insertMsg t q m mqmsg).setCall t call).Owns o b →
      k.Owns o b ∧ b ≠ mqmsg ∨ o = .queue q ∧ b = mqmsg := by
    refine h.exclusive.given howner ?_ ?_
    · intro b hb
      rcases setCall_msg? _ t call hb with ⟨-, hsome⟩ | ⟨hne, -⟩
      · rw [hcall] at hsome
        cases hsome
      · exact absurd rfl hne
    intro o b hne hb
    cases o with
    | free => exact .inl hb
    | queue q' =>
      have hb : b ∈ ((k.insertMsg t q m mqmsg).msgq q').msglist := hb
      rw [hmsgq] at hb
      split_ifs at hb with hq
      · rcases PriorityList.mem_insert.mp hb with heq | hold
        · exact .inr ⟨hq ▸ rfl, heq⟩
        · exact .inl (hq ▸ hold)
      · exact .inl hb
    | task t' =>
      rcases setCall_msg? _ t call hb with ⟨rfl, -⟩ | ⟨-, hold⟩
      · exact absurd rfl hne
      · exact .inl hold
  refine ⟨h.exclusive.gain hstep, h.freeNodup, fun q' => ?_, fun o j hj => ?_⟩
  · show ((k.insertMsg t q m mqmsg).msgq q').msglist.Nodup
    rw [hmsgq]
    split_ifs with hq
    · rw [(PriorityList.insert_perm _ _ _).nodup_iff, nodup_cons]
      refine ⟨fun hmem => ?_, h.listNodup q⟩
      have := h.exclusive (.queue q) (.task t) mqmsg hmem hmsg
      cases this
    · exact h.listNodup q'
  · rcases hstep o _ hj with ⟨hold, -⟩ | ⟨-, heq⟩
    · exact h.allocated o j hold
    · exact h.allocated (.task t) j (heq ▸ hmsg)

theorem Memory.take (h : Memory k) (hhead : (k.msgq q).msglist.head? = some mqmsg)
    (hcall : call.msg? = some mqmsg) : Memory ((k.takeMsg t q mqmsg).setCall t call) := by
  obtain ⟨rest, hcons⟩ := List.head?_eq_some_iff.mp hhead
  have hmsgq := takeMsg_msgq k t q mqmsg
  have hnodup := h.listNodup q
  rw [hcons, nodup_cons] at hnodup
  have howner : k.Owns (.queue q) mqmsg := by
    rw [Owns, hcons]
    exact mem_cons_self
  have hstep : ∀ o b, ((k.takeMsg t q mqmsg).setCall t call).Owns o b →
      k.Owns o b ∧ b ≠ mqmsg ∨ o = .task t ∧ b = mqmsg := by
    refine h.exclusive.given howner ?_ ?_
    · intro b hb
      have hb : b ∈ ((k.takeMsg t q mqmsg).msgq q).msglist := hb
      rw [hmsgq, if_pos rfl, hcons, tail_cons] at hb
      refine .inl ⟨?_, fun heq => hnodup.1 (heq ▸ hb)⟩
      rw [Owns, hcons]
      exact mem_cons_of_mem _ hb
    intro o b hne hb
    cases o with
    | free => exact .inl hb
    | queue q' =>
      have hb : b ∈ ((k.takeMsg t q mqmsg).msgq q').msglist := hb
      have hq : q' ≠ q := fun heq => hne (heq ▸ rfl)
      rw [hmsgq, if_neg hq] at hb
      exact .inl hb
    | task t' =>
      rcases setCall_msg? _ t call hb with ⟨rfl, hsome⟩ | ⟨-, hold⟩
      · rw [hcall] at hsome
        exact .inr ⟨rfl, (Option.some.inj hsome).symm⟩
      · exact .inl hold
  refine ⟨h.exclusive.gain hstep, h.freeNodup, fun q' => ?_, fun o j hj => ?_⟩
  · show ((k.takeMsg t q mqmsg).msgq q').msglist.Nodup
    rw [hmsgq]
    split_ifs
    · exact (h.listNodup q).tail
    · exact h.listNodup q'
  · rcases hstep o _ hj with ⟨hold, -⟩ | ⟨-, heq⟩
    · exact h.allocated o j hold
    · exact h.allocated (.queue q) j (heq ▸ howner)

theorem Memory.free (h : Memory k) (hmsg : (k.tcb t).call.msg? = some mqmsg)
    (hcall : call.msg? = none) : Memory ((k.nxmqFreeMsg mqmsg).setCall t call) := by
  have howner : k.Owns (.task t) mqmsg := hmsg
  have htask : ∀ t' b, (((k.nxmqFreeMsg mqmsg).setCall t call).tcb t').call.msg? = some b →
      k.Owns (.task t') b ∧ b ≠ mqmsg := by
    intro t' b hb
    rcases setCall_msg? _ t call hb with ⟨-, hsome⟩ | ⟨hne, hold⟩
    · rw [hcall] at hsome
      cases hsome
    · have hold : k.Owns (.task t') b := by cases mqmsg <;> exact hold
      exact ⟨hold, h.exclusive.ne_of_owned howner (fun heq => hne (Owner.task.inj heq)) hold⟩
  have hqueue : ∀ q b, k.Owns (.queue q) b → b ≠ mqmsg := by
    intro q b hb
    refine h.exclusive.ne_of_owned howner (fun heq => ?_) hb
    cases heq
  cases mqmsg with
  | fixed i =>
    have hstep : ∀ o b, ((k.nxmqFreeMsg (.fixed i)).setCall t call).Owns o b →
        k.Owns o b ∧ b ≠ .fixed i ∨ o = .free ∧ b = .fixed i := by
      intro o b hb
      cases o with
      | free =>
        obtain ⟨j, hj, rfl⟩ := hb
        have hj : j ∈ k.msgfree ++ [i] := hj
        rcases mem_append.mp hj with hold | hnew
        · have hold : k.Owns .free (.fixed j) := ⟨j, hold, rfl⟩
          refine .inl ⟨hold, h.exclusive.ne_of_owned howner (fun heq => ?_) hold⟩
          cases heq
        · exact .inr ⟨rfl, mem_singleton.mp hnew ▸ rfl⟩
      | queue q => exact .inl ⟨hb, hqueue q b hb⟩
      | task t' => exact .inl (htask t' b hb)
    refine ⟨h.exclusive.gain hstep, ?_, h.listNodup, fun o j hj => ?_⟩
    · show (k.msgfree ++ [i]).Nodup
      rw [nodup_append_comm, singleton_append, nodup_cons]
      refine ⟨fun hmem => ?_, h.freeNodup⟩
      have := h.exclusive .free (.task t) (.fixed i) ⟨i, hmem, rfl⟩ hmsg
      cases this
    · rcases hstep o _ hj with ⟨hold, -⟩ | ⟨-, heq⟩
      · exact h.allocated o j hold
      · cases heq
  | dyn i =>
    have hstep : ∀ o b, ((k.nxmqFreeMsg (.dyn i)).setCall t call).Owns o b →
        k.Owns o b ∧ b ≠ .dyn i := by
      intro o b hb
      cases o with
      | free =>
        obtain ⟨j, hj, rfl⟩ := hb
        refine ⟨⟨j, hj, rfl⟩, fun heq => ?_⟩
        cases heq
      | queue q => exact ⟨hb, hqueue q b hb⟩
      | task t' => exact htask t' b hb
    refine ⟨h.exclusive.mono fun o b hb => (hstep o b hb).1, h.freeNodup, h.listNodup,
      fun o j hj => ?_⟩
    obtain ⟨hold, hne⟩ := hstep o _ hj
    have hji : j ≠ i := fun heq => hne (heq ▸ rfl)
    exact (mem_erase_of_ne hji).mpr (h.allocated o j hold)

end Nuttx.Mq

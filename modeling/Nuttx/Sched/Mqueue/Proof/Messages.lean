import Nuttx.Sched.Mqueue.Proof.Memory

/-!
# The messages of a queue

What insertion and removal do to the list, the number of messages and the record of what was sent and
taken.
-/

open List

namespace Nuttx.Mq

open Kernel

def Msgq.contents (msgq : Msgq) : List Addr × Int16 × List (Nat × Message) × List (Nat × Message) :=
  (msgq.msglist, msgq.nmsgs, msgq.sent, msgq.taken)

/-- The records of the queue have what the task reports. -/
def Msgq.Confirms (msgq : Msgq) (t : Nat) : Report → Prop
  | .put m => (lastOf t msgq.sent).map Message.outgoing = some m
  | .got msg => lastOf t msgq.taken = some msg

theorem lastOf_cons_self (t : Nat) (msg : Message) (record : List (Nat × Message)) :
    lastOf t ((t, msg) :: record) = some msg := by
  simp [lastOf]

theorem lastOf_cons_of_ne {t t' : Nat} (h : t' ≠ t) (msg : Message) (record : List (Nat × Message)) :
    lastOf t' ((t, msg) :: record) = lastOf t' record := by
  simp [lastOf, h.symm]

structure Messages (k : Kernel) (q : Nat) : Prop where
  ordered : PriorityList.Stable (fun msg => msg.priority.toNat) Message.arrival (k.queued q)
  nmsgs : (k.msgq q).nmsgs.toInt = (k.msgq q).msglist.length
  arrival : ∀ entry ∈ (k.msgq q).sent, entry.2.arrival < (k.msgq q).sent.length
  distinct : ((k.msgq q).sent.map fun entry => entry.2.arrival).Nodup
  conserved : ((k.msgq q).sent.map Prod.snd).Perm ((k.msgq q).taken.map Prod.snd ++ k.queued q)
  report : ∀ t r, (k.tcb t).call.report k.mem = some (q, r) → (k.msgq q).Confirms t r

section Fields

variable (k : Kernel) (t q : Nat) (w : Wait)

theorem addNwait_contents (n : Int16) (q' : Nat) :
    ((k.addNwait q w n).msgq q').contents = (k.msgq q').contents := by
  rw [addNwait, modifyMsgq_msgq]
  split_ifs with hq
  · rw [hq]
    rfl
  · rfl

theorem block_contents (q' : Nat) : ((k.block t q w).msgq q').contents = (k.msgq q').contents :=
  addNwait_contents (k.modifyTcb t _) q w 1 q'

theorem unblock_contents (q' : Nat) : ((k.unblock t q w).msgq q').contents = (k.msgq q').contents :=
  addNwait_contents (k.modifyTcb t _) q w (-1) q'

theorem block_call (t' : Nat) : ((k.block t q w).tcb t').call = (k.tcb t').call := by
  rw [block_tcb]
  split_ifs with ht
  · rw [ht]
  · rfl

theorem unblock_call (t' : Nat) : ((k.unblock t q w).tcb t').call = (k.tcb t').call := by
  rw [unblock_tcb]
  split_ifs with ht
  · rw [ht]
  · rfl

end Fields

variable {k k' : Kernel} {t q : Nat} {mqmsg : Addr} {call : Call}

theorem report_congr {mem mem' : Addr → Message}
    (h : ∀ mqmsg, call.msg? = some mqmsg → mem' mqmsg = mem mqmsg) : call.report mem' = call.report mem := by
  cases call with
  | doReceive q mqmsg => rw [Call.report, Call.report, h mqmsg rfl]
  | idle ret =>
    cases ret with
    | none => rfl
    | some ret => cases ret <;> rfl
  | _ => rfl

theorem setCall_report {mem : Addr → Message} {t' : Nat} {entry : Nat × Report}
    (h : ((k.setCall t call).tcb t').call.report mem = some entry) :
    t' = t ∧ call.report mem = some entry ∨ t' ≠ t ∧ (k.tcb t').call.report mem = some entry := by
  rw [setCall_call] at h
  split_ifs at h with ht
  · exact .inl ⟨ht, h⟩
  · exact .inr ⟨ht, h⟩

theorem Messages.congr (h : Messages k q) (hcontents : (k'.msgq q).contents = (k.msgq q).contents)
    (hmem : ∀ mqmsg ∈ (k.msgq q).msglist, k'.mem mqmsg = k.mem mqmsg)
    (hreport : ∀ t msg, (k'.tcb t).call.report k'.mem = some (q, msg) →
      (k.tcb t).call.report k.mem = some (q, msg)) : Messages k' q := by
  obtain ⟨hlist, hrest⟩ := Prod.mk.inj hcontents
  obtain ⟨hnmsgs, hrest⟩ := Prod.mk.inj hrest
  obtain ⟨hsent, htaken⟩ := Prod.mk.inj hrest
  have hqueued : k'.queued q = k.queued q := by
    rw [queued, queued, hlist]
    exact map_congr_left hmem
  constructor
  case ordered => exact hqueued ▸ h.ordered
  case nmsgs => rw [hnmsgs, hlist, h.nmsgs]
  case arrival => exact hsent ▸ h.arrival
  case distinct => exact hsent ▸ h.distinct
  case conserved => rw [hsent, htaken, hqueued]; exact h.conserved
  case report =>
    intro t r hr
    have hold := h.report t r (hreport t r hr)
    cases r with
    | put m => rw [Msgq.Confirms, hsent]; exact hold
    | got msg => rw [Msgq.Confirms, htaken]; exact hold

theorem Messages.setCall (h : Messages k q) (hcontents : (k'.msgq q).contents = (k.msgq q).contents)
    (hmem : k'.mem = k.mem) (hcall : ∀ t', (k'.tcb t').call = (k.tcb t').call)
    (hreport : call.report k.mem = none ∨ call.report k.mem = (k.tcb t).call.report k.mem) :
    Messages (k'.setCall t call) q := by
  refine h.congr hcontents (fun a _ => congrFun hmem a) fun t' msg hmsg => ?_
  have hmsg : ((k'.setCall t call).tcb t').call.report k.mem = some (q, msg) := hmem ▸ hmsg
  rcases setCall_report hmsg with ⟨rfl, hnew⟩ | ⟨-, hold⟩
  · rcases hreport with hnone | hsame
    · rw [hnone] at hnew
      cases hnew
    · rw [← hsame, hnew]
  · rw [← hcall, hold]

theorem insertMsg_mem_of_ne (k : Kernel) (t q : Nat) (m : Outgoing) {mqmsg a : Addr} (hne : a ≠ mqmsg) :
    (k.insertMsg t q m mqmsg).mem a = k.mem a := Function.update_of_ne hne ..

section

variable (h : Memory k) (hmsg : (k.tcb t).call.msg? = some mqmsg)
include h hmsg

theorem Memory.report_insert {m : Outgoing} {t' : Nat} {entry : Nat × Report}
    (hreport : (((k.insertMsg t q m mqmsg).setCall t (.wakeReceiver q m)).tcb t').call.report
      (k.insertMsg t q m mqmsg).mem = some entry) :
    t' = t ∧ entry = (q, .put m) ∨ t' ≠ t ∧ (k.tcb t').call.report k.mem = some entry := by
  rcases setCall_report hreport with ⟨ht, hnew⟩ | ⟨hne, hold⟩
  · exact .inl ⟨ht, (Option.some.inj hnew).symm⟩
  refine .inr ⟨hne, ?_⟩
  rw [← hold]
  refine (report_congr fun a ha => insertMsg_mem_of_ne k t q m ?_).symm
  have howner : k.Owns (.task t) mqmsg := hmsg
  exact h.exclusive.ne_of_owned howner (o := .task t') (fun heq => hne (Owner.task.inj heq)) ha

theorem Memory.ne_of_mem {a : Addr}
    (ha : a ∈ (k.msgq q).msglist) : a ≠ mqmsg := by
  have howner : k.Owns (.task t) mqmsg := hmsg
  refine h.exclusive.ne_of_owned howner (o := .queue q) (fun heq => ?_) ha
  cases heq

theorem Memory.queued_insert
    (m : Outgoing) : (k.insertMsg t q m mqmsg).queued q =
      PriorityList.insert (fun msg => msg.priority.toNat) (k.outgoing q m) (k.queued q) := by
  have hmap : (k.msgq q).msglist.map (k.insertMsg t q m mqmsg).mem = k.queued q :=
    map_congr_left fun a ha => insertMsg_mem_of_ne k t q m (h.ne_of_mem hmsg ha)
  rw [queued, insertMsg_msgq, if_pos rfl]
  refine (PriorityList.map_insert (fun msg : Message => msg.priority.toNat)
    (k.insertMsg t q m mqmsg).mem mqmsg _).trans ?_
  rw [show (k.insertMsg t q m mqmsg).mem mqmsg = k.outgoing q m from Function.update_self .., hmap]

end

theorem Messages.insert (h : Messages k q) (hmemory : Memory k)
    (hmsg : (k.tcb t).call.msg? = some mqmsg) (m : Outgoing)
    (hmax : (k.msgq q).nmsgs.toInt < 0x7fff) :
    Messages ((k.insertMsg t q m mqmsg).setCall t (.wakeReceiver q m)) q := by
  have hmsgq : (k.insertMsg t q m mqmsg).msgq q = _ := insertMsg_msgq k t q m mqmsg q
  rw [if_pos rfl] at hmsgq
  have hqueued := hmemory.queued_insert (q := q) hmsg m
  have hperm := PriorityList.insert_perm (fun msg : Message => msg.priority.toNat)
    (k.outgoing q m) (k.queued q)
  constructor
  case ordered =>
    show PriorityList.Stable _ _ ((k.insertMsg t q m mqmsg).queued q)
    rw [hqueued]
    refine h.ordered.insert fun msg hin => ?_
    obtain ⟨entry, hentry, rfl⟩ := mem_map.mp (h.conserved.mem_iff.mpr (mem_append_right _ hin))
    exact h.arrival entry hentry
  case nmsgs =>
    show ((k.insertMsg t q m mqmsg).msgq q).nmsgs.toInt =
      ((k.insertMsg t q m mqmsg).msgq q).msglist.length
    rw [hmsgq, (PriorityList.insert_perm _ _ _).length_eq, length_cons]
    have hcount := h.nmsgs
    refine Counter16.toInt_add_of_mem ?_ ?_ ?_
    · rw [hcount, Counter16.toInt_one]
      rfl
    · push_cast
      omega
    · push_cast
      omega
  case arrival =>
    show ∀ entry ∈ ((k.insertMsg t q m mqmsg).msgq q).sent,
      entry.2.arrival < ((k.insertMsg t q m mqmsg).msgq q).sent.length
    rw [hmsgq]
    intro entry hin
    rw [length_cons]
    rcases mem_cons.mp hin with rfl | hin
    · exact Nat.lt_succ_self _
    · exact Nat.lt_succ_of_lt (h.arrival entry hin)
  case distinct =>
    show (((k.insertMsg t q m mqmsg).msgq q).sent.map fun entry => entry.2.arrival).Nodup
    rw [hmsgq, map_cons, nodup_cons]
    refine ⟨fun hin => ?_, h.distinct⟩
    obtain ⟨entry, hsent, heq⟩ := mem_map.mp hin
    have hlt := h.arrival entry hsent
    rw [heq] at hlt
    exact Nat.lt_irrefl _ hlt
  case conserved =>
    show (((k.insertMsg t q m mqmsg).msgq q).sent.map Prod.snd).Perm
      (((k.insertMsg t q m mqmsg).msgq q).taken.map Prod.snd ++ (k.insertMsg t q m mqmsg).queued q)
    rw [hmsgq, hqueued]
    have hsent := (h.conserved.cons (k.outgoing q m)).trans perm_middle.symm
    exact hsent.trans (hperm.symm.append_left _)
  case report =>
    intro t' r hreport
    show ((k.insertMsg t q m mqmsg).msgq q).Confirms t' r
    rw [hmsgq]
    rcases hmemory.report_insert hmsg hreport with ⟨rfl, hnew⟩ | ⟨hne, hold⟩
    · rw [(Prod.mk.inj hnew).2, Msgq.Confirms, lastOf_cons_self]
      rfl
    · have hconfirms := h.report t' r hold
      cases r with
      | put m' => rw [Msgq.Confirms, lastOf_cons_of_ne hne]; exact hconfirms
      | got msg => exact hconfirms

theorem Messages.take (h : Messages k q) (hhead : (k.msgq q).msglist.head? = some mqmsg) (t : Nat) :
    Messages ((k.takeMsg t q mqmsg).setCall t (.doReceive q mqmsg)) q := by
  obtain ⟨rest, hcons⟩ := List.head?_eq_some_iff.mp hhead
  have hmsgq : (k.takeMsg t q mqmsg).msgq q = _ := takeMsg_msgq k t q mqmsg q
  rw [if_pos rfl, hcons, tail_cons] at hmsgq
  have hqueued : (k.takeMsg t q mqmsg).queued q = rest.map k.mem := by
    rw [queued, hmsgq]
    rfl
  have hold : k.queued q = k.mem mqmsg :: rest.map k.mem := by rw [queued, hcons, map_cons]
  constructor
  case ordered =>
    show PriorityList.Stable _ _ ((k.takeMsg t q mqmsg).queued q)
    have hordered := h.ordered
    rw [hold] at hordered
    rw [hqueued]
    exact (pairwise_cons.mp hordered).2
  case nmsgs =>
    show ((k.takeMsg t q mqmsg).msgq q).nmsgs.toInt = ((k.takeMsg t q mqmsg).msgq q).msglist.length
    rw [hmsgq]
    show ((k.msgq q).nmsgs - 1).toInt = rest.length
    have hcount := h.nmsgs
    rw [hcons, length_cons] at hcount
    have hlt := (k.msgq q).nmsgs.toInt_lt
    refine Counter16.toInt_sub_of_mem ?_ ?_ ?_
    · rw [hcount, Counter16.toInt_one]
      omega
    · omega
    · omega
  case arrival =>
    show ∀ entry ∈ ((k.takeMsg t q mqmsg).msgq q).sent,
      entry.2.arrival < ((k.takeMsg t q mqmsg).msgq q).sent.length
    rw [hmsgq]
    exact h.arrival
  case distinct =>
    show (((k.takeMsg t q mqmsg).msgq q).sent.map fun entry => entry.2.arrival).Nodup
    rw [hmsgq]
    exact h.distinct
  case conserved =>
    show (((k.takeMsg t q mqmsg).msgq q).sent.map Prod.snd).Perm
      (((k.takeMsg t q mqmsg).msgq q).taken.map Prod.snd ++ (k.takeMsg t q mqmsg).queued q)
    have hconserved := h.conserved
    rw [hold] at hconserved
    rw [hmsgq, hqueued, map_cons, cons_append]
    exact hconserved.trans perm_middle
  case report =>
    intro t' r hreport
    have hreport : (((k.takeMsg t q mqmsg).setCall t (.doReceive q mqmsg)).tcb t').call.report k.mem =
      some (q, r) := hreport
    show ((k.takeMsg t q mqmsg).msgq q).Confirms t' r
    rw [hmsgq]
    rcases setCall_report hreport with ⟨rfl, hnew⟩ | ⟨hne, hother⟩
    · rw [← (Prod.mk.inj (Option.some.inj hnew)).2, Msgq.Confirms, lastOf_cons_self]
    · have hconfirms := h.report t' r hother
      cases r with
      | put m => exact hconfirms
      | got msg => rw [Msgq.Confirms, lastOf_cons_of_ne hne]; exact hconfirms

theorem Messages.take_other (h : Messages k q) (t : Nat) (mqmsg : Addr) {q' : Nat} (hne : q ≠ q') :
    Messages ((k.takeMsg t q' mqmsg).setCall t (.doReceive q' mqmsg)) q := by
  refine h.congr ?_ (fun _ _ => rfl) fun t' msg hreport => ?_
  · show ((k.takeMsg t q' mqmsg).msgq q).contents = _
    rw [takeMsg_msgq, if_neg hne]
  · rcases setCall_report hreport with ⟨-, hnew⟩ | ⟨-, hold⟩
    · exact absurd (Prod.mk.inj (Option.some.inj hnew)).1.symm hne
    · exact hold

end Nuttx.Mq

import Nuttx.Library.Machine
import Nuttx.Sched.Mqueue.Proof.Steps

/-!
# The lists of waiting tasks

A task is on one of the lists exactly while it is in that state, and the counters of a queue count
the tasks on the lists that wait for it.
-/

open List

namespace Nuttx.Mq

open Kernel

section Fields

variable (k : Kernel) (t q : Nat) (w : Wait)

@[simp] theorem modifyTcb_tcb (f : Tcb → Tcb) (t' : Nat) :
    (k.modifyTcb t f).tcb t' = if t' = t then f (k.tcb t) else k.tcb t' :=
  Function.update_apply ..

@[simp] theorem modifyMsgq_msgq (f : Msgq → Msgq) (q' : Nat) :
    (k.modifyMsgq q f).msgq q' = if q' = q then f (k.msgq q) else k.msgq q' :=
  Function.update_apply ..

theorem addNwait_nwait (n : Int16) (q' : Nat) (w' : Wait) :
    ((k.addNwait q w n).msgq q').nwait w' =
      if q' = q ∧ w' = w then (k.msgq q).nwait w + n else (k.msgq q').nwait w' := by
  rw [addNwait, modifyMsgq_msgq]
  by_cases hq : q' = q
  · subst hq
    by_cases hw : w' = w
    · subst hw
      rw [if_pos rfl, if_pos ⟨rfl, rfl⟩]
      exact Function.update_self ..
    · rw [if_pos rfl, if_neg fun h => hw h.2]
      exact Function.update_of_ne hw ..
  · rw [if_neg hq, if_neg fun h => hq h.1]

theorem block_nwait (q' : Nat) (w' : Wait) :
    ((k.block t q w).msgq q').nwait w' =
      if q' = q ∧ w' = w then (k.msgq q).nwait w + 1 else (k.msgq q').nwait w' :=
  addNwait_nwait (k.modifyTcb t _) q w 1 q' w'

theorem unblock_nwait (q' : Nat) (w' : Wait) :
    ((k.unblock t q w).msgq q').nwait w' =
      if q' = q ∧ w' = w then (k.msgq q).nwait w + -1 else (k.msgq q').nwait w' :=
  addNwait_nwait (k.modifyTcb t _) q w (-1) q' w'

theorem block_waiting (w' : Wait) :
    (k.block t q w).waiting w' = if w' = w then
      PriorityList.insert
        (fun t' => ((k.modifyTcb t fun tcb =>
          { tcb with msgwaitq := some q, errcode := none, taskState := some w }).tcb t').schedPriority)
        t (k.waiting w) else k.waiting w' :=
  Function.update_apply ..

theorem unblock_waiting (w' : Wait) :
    (k.unblock t q w).waiting w' = if w' = w then (k.waiting w).erase t else k.waiting w' :=
  Function.update_apply ..

theorem block_tcb (t' : Nat) :
    (k.block t q w).tcb t' = if t' = t then
      { k.tcb t with msgwaitq := some q, errcode := none, taskState := some w } else k.tcb t' :=
  modifyTcb_tcb k t (fun tcb =>
    { tcb with msgwaitq := some q, errcode := none, taskState := some w }) t'

theorem unblock_tcb (t' : Nat) :
    (k.unblock t q w).tcb t' = if t' = t then
      { k.tcb t with msgwaitq := none, taskState := none } else k.tcb t' :=
  modifyTcb_tcb k t (fun tcb => { tcb with msgwaitq := none, taskState := none }) t'

end Fields

def Kernel.waitsFor (k : Kernel) (q t : Nat) : Bool := (k.tcb t).msgwaitq == some q

structure Waits (k : Kernel) : Prop where
  nodup : ∀ w, (k.waiting w).Nodup
  mem_iff : ∀ w t, t ∈ k.waiting w ↔ (k.tcb t).taskState = some w
  msgwaitq : ∀ t, (k.tcb t).taskState ≠ none → (k.tcb t).msgwaitq ≠ none
  nwait : ∀ q w, ((k.msgq q).nwait w).toInt = (k.waiting w).countP (k.waitsFor q)

variable {k k' : Kernel} {t q : Nat} {w : Wait}

theorem Waits.congr (h : Waits k) (hwaiting : k'.waiting = k.waiting)
    (hstate : ∀ t, (k'.tcb t).taskState = (k.tcb t).taskState)
    (hmsgwaitq : ∀ t, (k'.tcb t).msgwaitq = (k.tcb t).msgwaitq)
    (hnwait : ∀ q w, (k'.msgq q).nwait w = (k.msgq q).nwait w) : Waits k' where
  nodup w := hwaiting ▸ h.nodup w
  mem_iff w t := by rw [hwaiting, hstate, h.mem_iff]
  msgwaitq t := by rw [hstate, hmsgwaitq]; exact h.msgwaitq t
  nwait q w := by
    have hfor : k'.waitsFor q = k.waitsFor q := by
      funext t
      rw [waitsFor, waitsFor, hmsgwaitq]
    rw [hnwait, hwaiting, hfor, h.nwait]

theorem Waits.setCall (h : Waits k) (t : Nat) (call : Call) : Waits (k.setCall t call) := by
  refine h.congr rfl (fun t' => ?_) (fun t' => ?_) fun _ _ => rfl
  all_goals
    rw [Kernel.setCall, modifyTcb_tcb]
    split_ifs with ht
    · rw [ht]
    · rfl

theorem Waits.mem_filter_iff (h : Waits k) :
    t ∈ (k.waiting w).filter (k.waitsFor q) ↔ t ∈ k.Blocked q w := by
  rw [mem_filter, h.mem_iff, waitsFor, beq_iff_eq]
  rfl

theorem Waits.blocked_eq (h : Waits k) (q : Nat) (w : Wait) :
    k.Blocked q w = ((k.waiting w).filter (k.waitsFor q)).toFinset := by
  ext t
  rw [coe_toFinset]
  exact h.mem_filter_iff.symm

theorem Waits.finite_blocked (h : Waits k) (q : Nat) (w : Wait) : (k.Blocked q w).Finite := by
  rw [h.blocked_eq]
  exact Finset.finite_toSet _

theorem Waits.nwait_eq_ncard (h : Waits k) (q : Nat) (w : Wait) :
    ((k.msgq q).nwait w).toInt = (k.Blocked q w).ncard := by
  rw [h.nwait, h.blocked_eq, Set.ncard_coe_finset,
    toFinset_card_of_nodup ((h.nodup w).filter _), countP_eq_length_filter]

theorem countP_waitsFor_congr {l : List Nat} (ht : t ∉ l)
    (hsame : ∀ t', t' ≠ t → (k'.tcb t').msgwaitq = (k.tcb t').msgwaitq) (q : Nat) :
    l.countP (k'.waitsFor q) = l.countP (k.waitsFor q) := by
  refine countP_congr fun t' ht' => ?_
  have hne : t' ≠ t := fun heq => ht (heq ▸ ht')
  rw [waitsFor, waitsFor, hsame t' hne]

theorem Waits.block (h : Waits k) (hstate : (k.tcb t).taskState = none)
    (hmax : ((k.msgq q).nwait w).toInt < 0x7fff) : Waits (k.block t q w) := by
  have hnot : ∀ w', t ∉ k.waiting w' := by
    intro w' hmem
    rw [h.mem_iff, hstate] at hmem
    cases hmem
  have hsame : ∀ t', t' ≠ t → ((k.block t q w).tcb t').msgwaitq = (k.tcb t').msgwaitq := by
    intro t' hne
    rw [block_tcb, if_neg hne]
  have hself : (k.block t q w).waitsFor q t = true := by
    rw [waitsFor, block_tcb, if_pos rfl, beq_self_eq_true]
  constructor
  case nodup =>
    intro w'
    rw [block_waiting]
    split_ifs with hw
    · rw [(PriorityList.insert_perm _ t _).nodup_iff, nodup_cons]
      exact ⟨hnot w, h.nodup w⟩
    · exact h.nodup w'
  case mem_iff =>
    intro w' t'
    rw [block_waiting, block_tcb]
    by_cases ht : t' = t
    · subst ht
      rw [if_pos rfl]
      by_cases hw : w' = w
      · subst hw
        rw [if_pos rfl, PriorityList.mem_insert]
        exact ⟨fun _ => rfl, fun _ => .inl rfl⟩
      · rw [if_neg hw]
        refine ⟨fun hmem => absurd hmem (hnot w'), fun heq => absurd (Option.some.inj heq).symm hw⟩
    · rw [if_neg ht, ← h.mem_iff]
      split_ifs with hw
      · rw [PriorityList.mem_insert, hw]
        exact ⟨fun hmem => hmem.resolve_left ht, .inr⟩
      · rfl
  case msgwaitq =>
    intro t'
    rw [block_tcb]
    split_ifs with ht
    · exact fun _ => Option.some_ne_none q
    · exact h.msgwaitq t'
  case nwait =>
    intro q' w'
    rw [block_nwait, block_waiting]
    by_cases hw : w' = w
    · subst hw
      rw [if_pos rfl, (PriorityList.insert_perm _ t _).countP_eq, countP_cons,
        countP_waitsFor_congr (hnot w') hsame]
      by_cases hq : q' = q
      · subst hq
        rw [if_pos ⟨rfl, rfl⟩, if_pos hself]
        refine Counter16.toInt_add_of_mem ?_ ?_ ?_
        · rw [h.nwait, Counter16.toInt_one]
          rfl
        · push_cast
          omega
        · rw [h.nwait] at hmax
          omega
      · have hother : (k.block t q w').waitsFor q' t = false := by
          rw [waitsFor, block_tcb, if_pos rfl, beq_eq_false_iff_ne]
          exact fun heq => hq (Option.some.inj heq).symm
        rw [if_neg fun heq => hq heq.1, hother, if_neg Bool.false_ne_true, h.nwait, Nat.add_zero]
    · rw [if_neg fun heq => hw heq.2, if_neg hw, h.nwait, countP_waitsFor_congr (hnot w') hsame]

theorem Waits.unblock (h : Waits k) (hstate : (k.tcb t).taskState = some w)
    (hmsgwaitq : (k.tcb t).msgwaitq = some q) : Waits (k.unblock t q w) := by
  have hmem : t ∈ k.waiting w := (h.mem_iff w t).mpr hstate
  have hperm := perm_cons_erase hmem
  have hnot : ∀ w', t ∉ (k.unblock t q w).waiting w' := by
    intro w'
    rw [unblock_waiting]
    split_ifs with hw
    · exact (h.nodup w).not_mem_erase
    · rw [h.mem_iff, hstate]
      exact fun heq => hw (Option.some.inj heq).symm
  have hsame : ∀ t', t' ≠ t → ((k.unblock t q w).tcb t').msgwaitq = (k.tcb t').msgwaitq := by
    intro t' hne
    rw [unblock_tcb, if_neg hne]
  constructor
  case nodup =>
    intro w'
    rw [unblock_waiting]
    split_ifs
    · exact (h.nodup w).erase t
    · exact h.nodup w'
  case mem_iff =>
    intro w' t'
    by_cases ht : t' = t
    · subst ht
      rw [unblock_tcb, if_pos rfl]
      exact ⟨fun hin => absurd hin (hnot w'), fun heq => absurd heq (Option.some_ne_none w').symm⟩
    · rw [unblock_tcb, if_neg ht, ← h.mem_iff, unblock_waiting]
      split_ifs with hw
      · rw [mem_erase_of_ne ht, hw]
      · rfl
  case msgwaitq =>
    intro t'
    rw [unblock_tcb]
    split_ifs with ht
    · exact fun hne => absurd rfl hne
    · exact h.msgwaitq t'
  case nwait =>
    intro q' w'
    rw [unblock_nwait, countP_waitsFor_congr (hnot w') hsame, unblock_waiting]
    by_cases hw : w' = w
    · subst hw
      have hcount := h.nwait q' w'
      rw [hperm.countP_eq, countP_cons] at hcount
      rw [if_pos rfl]
      by_cases hq : q' = q
      · subst hq
        have hself : k.waitsFor q' t = true := by rw [waitsFor, hmsgwaitq, beq_self_eq_true]
        rw [if_pos hself] at hcount
        rw [if_pos ⟨rfl, rfl⟩]
        have hlt := ((k.msgq q').nwait w').toInt_lt
        refine Counter16.toInt_add_of_mem ?_ (by omega) ?_
        · rw [hcount, Counter16.toInt_neg_one]
          omega
        · rw [hcount] at hlt
          omega
      · have hother : k.waitsFor q' t = false := by
          rw [waitsFor, hmsgwaitq, beq_eq_false_iff_ne]
          exact fun heq => hq (Option.some.inj heq).symm
        rw [if_neg fun heq => hq heq.1, hcount, hother, if_neg Bool.false_ne_true, Nat.add_zero]
    · rw [if_neg fun heq => hw heq.2, if_neg hw, h.nwait]

theorem Waits.firstWaiter_isSome_iff (h : Waits k) :
    (k.firstWaiter q w).isSome ↔ ∃ t, t ∈ k.Blocked q w := by
  rw [firstWaiter, List.find?_isSome]
  constructor
  · rintro ⟨t, hmem, htest⟩
    exact ⟨t, h.mem_filter_iff.mp (mem_filter.mpr ⟨hmem, htest⟩)⟩
  · rintro ⟨t, ht⟩
    exact ⟨t, mem_filter.mp (h.mem_filter_iff.mpr ht)⟩

theorem Waits.exists_firstWaiter (h : Waits k) (hblocked : ∃ t, t ∈ k.Blocked q w) :
    ∃ btcb, btcb ∈ k.Blocked q w ∧ k.firstWaiter q w = some btcb := by
  obtain ⟨btcb, hfind⟩ := Option.isSome_iff_exists.mp (h.firstWaiter_isSome_iff.mpr hblocked)
  have hmem := mem_of_find?_eq_some hfind
  exact ⟨btcb, h.mem_filter_iff.mp (mem_filter.mpr ⟨hmem, List.find?_some hfind⟩), hfind⟩

end Nuttx.Mq

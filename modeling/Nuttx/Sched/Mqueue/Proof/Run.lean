import Nuttx.Sched.Mqueue.Proof.Messages

/-!
# Runs of a message queue

The invariants together hold along every run whose steps meet the condition. A step that does not
meet it leaves a counter wrong.
-/

open List Option

namespace Nuttx.Mq

open Kernel

structure Inv (k : Kernel) : Prop where
  waits : Waits k
  memory : Memory k
  messages : ∀ q, Messages k q
  notNull : k.nullDeref = false

variable {k k' : Kernel} {t q : Nat} {w : Wait} {mqmsg : Addr} {call : Call} {act : Action}

theorem inv_of_initial (h : Initial k) : Inv k := by
  have hcall : ∀ t, (k.tcb t).call.msg? = none := by
    intro t
    rw [(h.tcb t).2]
    rfl
  constructor
  case waits =>
    constructor
    case nodup =>
      intro w
      rw [h.waiting]
      exact nodup_nil
    case mem_iff =>
      intro w t
      rw [h.waiting, (h.tcb t).1]
      exact ⟨fun hmem => absurd hmem not_mem_nil, fun heq => absurd heq (some_ne_none w).symm⟩
    case msgwaitq => exact fun t hne => absurd (h.tcb t).1 hne
    case nwait =>
      intro q w
      rw [(h.msgq q).2.2.1, h.waiting]
      rfl
  case memory =>
    have hnobody : ∀ o a, k.Owns o a → o = .free ∧ ∃ i ∈ k.msgfree, a = .fixed i := by
      intro o a ha
      cases o with
      | free => exact ⟨rfl, ha⟩
      | queue q =>
        rw [Owns, (h.msgq q).1] at ha
        cases ha
      | task t =>
        rw [Owns, hcall] at ha
        cases ha
    refine ⟨fun o o' a ha ha' => (hnobody o a ha).1.trans (hnobody o' a ha').1.symm, h.msgfree,
      fun q => ?_, fun o i hi => ?_⟩
    · rw [(h.msgq q).1]
      exact nodup_nil
    · obtain ⟨-, j, -, heq⟩ := hnobody o _ hi
      cases heq
  case messages =>
    intro q
    obtain ⟨hlist, hnmsgs, -, hsent, htaken⟩ := h.msgq q
    have hqueued : k.queued q = [] := by rw [queued, hlist, map_nil]
    constructor
    case ordered => exact hqueued ▸ List.Pairwise.nil
    case nmsgs => rw [hnmsgs, hlist]; rfl
    case arrival => rw [hsent]; exact fun msg hmem => absurd hmem not_mem_nil
    case distinct => rw [hsent]; exact nodup_nil
    case conserved => rw [hsent, htaken, hqueued]; exact List.Perm.refl _
    case report =>
      intro t r hreport
      rw [(h.tcb t).2] at hreport
      cases hreport
  case notNull => exact h.nullDeref

theorem Memory.congr_contents (h : Memory k) (hfree : k'.msgfree = k.msgfree)
    (halloc : k'.allocated = k.allocated) (hcontents : ∀ q, (k'.msgq q).contents = (k.msgq q).contents)
    (hcall : ∀ t, (k'.tcb t).call = (k.tcb t).call) : Memory k' :=
  h.congr hfree halloc (fun q => (Prod.mk.inj (hcontents q)).1) fun t => congrArg Call.msg? (hcall t)

theorem Memory.unblock (h : Memory k) (t q : Nat) (w : Wait) : Memory (k.unblock t q w) :=
  h.congr_contents rfl rfl (unblock_contents k t q w) (unblock_call k t q w)

theorem Inv.block (h : Inv k) (hstate : (k.tcb t).taskState = none)
    (hmsg : call.msg? = (k.tcb t).call.msg?) (hreport : call.report k.mem = none)
    (hmax : ((k.msgq q).nwait w).toInt < 0x7fff) : Inv ((k.block t q w).setCall t call) where
  waits := (h.waits.block hstate hmax).setCall t call
  memory := by
    have hmemory : Memory (k.block t q w) :=
      h.memory.congr_contents rfl rfl (block_contents k t q w) (block_call k t q w)
    refine hmemory.setCall ?_
    rw [block_call, hmsg]
  messages q' := (h.messages q').setCall (block_contents k t q w q') rfl (block_call k t q w) (.inl hreport)
  notNull := h.notNull

theorem Inv.wake (h : Inv k) (hmsg : call.msg? = (k.tcb t).call.msg?)
    (hreport : call.report k.mem = none ∨ call.report k.mem = (k.tcb t).call.report k.mem)
    {btcb : Nat} (hbtcb : btcb ∈ k.Blocked q w) : Inv ((k.unblock btcb q w).setCall t call) where
  waits := (h.waits.unblock hbtcb.1 hbtcb.2).setCall t call
  memory := (h.memory.unblock btcb q w).setCall (by rw [unblock_call, hmsg])
  messages q' := (h.messages q').setCall (unblock_contents k btcb q w q') rfl
    (unblock_call k btcb q w) hreport
  notNull := h.notNull

theorem Inv.cancel (h : Inv k) (hstate : (k.tcb t).taskState = some w)
    (hmsgwaitq : (k.tcb t).msgwaitq = some q) (errcode : Errno) :
    Inv ((k.unblock t q w).modifyTcb t fun tcb => { tcb with errcode := some errcode }) := by
  have hcall : ∀ t', (((k.unblock t q w).modifyTcb t fun tcb =>
      { tcb with errcode := some errcode }).tcb t').call = (k.tcb t').call := by
    intro t'
    rw [modifyTcb_tcb, ← unblock_call k t q w t']
    split_ifs with ht
    · rw [ht]
    · rfl
  constructor
  case waits =>
    refine (h.waits.unblock hstate hmsgwaitq).congr rfl (fun t' => ?_) (fun t' => ?_) fun _ _ => rfl
    all_goals
      rw [modifyTcb_tcb]
      split_ifs with ht
      · rw [ht]
      · rfl
  case memory => exact h.memory.congr_contents rfl rfl (unblock_contents k t q w) hcall
  case messages =>
    refine fun q' => (h.messages q').congr (unblock_contents k t q w q') (fun _ _ => rfl) ?_
    intro t' msg hreport
    rw [hcall] at hreport
    exact hreport
  case notNull => exact h.notNull

theorem Inv.alloc (h : Inv k) (havail : k.Available mqmsg) (hhas : (k.tcb t).call.msg? = none)
    (hmsg : call.msg? = some mqmsg) (hreport : call.report k.mem = none) :
    Inv ((k.allocMsg mqmsg).setCall t call) where
  waits := by
    refine Waits.setCall (h.waits.congr ?_ (fun t' => ?_) (fun t' => ?_) fun q' w' => ?_) t call
    all_goals cases mqmsg <;> rfl
  memory := h.memory.alloc havail hhas hmsg
  messages q' := by
    refine (h.messages q').setCall ?_ ?_ (fun t' => ?_) (.inl hreport)
    all_goals cases mqmsg <;> rfl
  notNull := by cases mqmsg <;> exact h.notNull

theorem Inv.free (h : Inv k) (hhas : (k.tcb t).call.msg? = some mqmsg) (hmsg : call.msg? = none)
    (hreport : call.report k.mem = none ∨ call.report k.mem = (k.tcb t).call.report k.mem) :
    Inv ((k.nxmqFreeMsg mqmsg).setCall t call) where
  waits := by
    refine Waits.setCall (h.waits.congr ?_ (fun t' => ?_) (fun t' => ?_) fun q' w' => ?_) t call
    all_goals cases mqmsg <;> rfl
  memory := h.memory.free hhas hmsg
  messages q' := by
    refine (h.messages q').setCall ?_ ?_ (fun t' => ?_) hreport
    all_goals cases mqmsg <;> rfl
  notNull := by cases mqmsg <;> exact h.notNull

theorem Inv.insert (h : Inv k) {m : Outgoing} (hmsg : (k.tcb t).call.msg? = some mqmsg)
    (hmax : (k.msgq q).nmsgs.toInt < 0x7fff) :
    Inv ((k.insertMsg t q m mqmsg).setCall t (.wakeReceiver q m)) where
  waits := by
    have hwaits : Waits (k.insertMsg t q m mqmsg) := by
      refine h.waits.congr rfl (fun _ => rfl) (fun _ => rfl) fun q' w' => ?_
      rw [insertMsg_msgq]
      split_ifs with hq
      · rw [hq]
      · rfl
    exact hwaits.setCall t _
  memory := h.memory.insert hmsg rfl
  messages q' := by
    by_cases hq : q' = q
    · subst hq
      exact (h.messages q').insert h.memory hmsg m hmax
    · refine (h.messages q').congr ?_ (fun a ha => ?_) fun t' r hreport => ?_
      · show ((k.insertMsg t q m mqmsg).msgq q').contents = _
        rw [insertMsg_msgq, if_neg hq]
      · exact insertMsg_mem_of_ne k t q m (h.memory.ne_of_mem hmsg ha)
      · rcases h.memory.report_insert hmsg hreport with ⟨-, hnew⟩ | ⟨-, hold⟩
        · exact absurd (Prod.mk.inj hnew).1 hq
        · exact hold
  notNull := h.notNull

theorem Inv.take (h : Inv k) (hhead : (k.msgq q).msglist.head? = some mqmsg) :
    Inv ((k.takeMsg t q mqmsg).setCall t (.doReceive q mqmsg)) where
  waits := by
    have hwaits : Waits (k.takeMsg t q mqmsg) := by
      refine h.waits.congr rfl (fun _ => rfl) (fun _ => rfl) fun q' w' => ?_
      rw [takeMsg_msgq]
      split_ifs with hq
      · rw [hq]
      · rfl
    exact hwaits.setCall t _
  memory := h.memory.take hhead rfl
  messages q' := by
    by_cases hq : q' = q
    · subst hq
      exact (h.messages q').take hhead t
    · exact (h.messages q').take_other t mqmsg hq
  notNull := h.notNull

theorem Inv.perform (h : Inv k) (henabled : Enabled k t act) (hmeets : act.Meets k) :
    Inv (perform k t act) := by
  cases act with
  | skip => exact h
  | goto call =>
    exact ⟨h.waits.setCall t call, h.memory.setCall henabled.1,
      fun q => (h.messages q).setCall rfl rfl (fun _ => rfl) henabled.2, h.notNull⟩
  | block q w call => exact h.block henabled.1 henabled.2.1 henabled.2.2 hmeets
  | alloc mqmsg call => exact h.alloc henabled.1 henabled.2.1 henabled.2.2.1 henabled.2.2.2
  | insert q m mqmsg => exact h.insert (congrArg Call.msg? henabled) hmeets
  | take q mqmsg => exact h.take henabled.1
  | receive q mqmsg =>
    exact h.free (congrArg Call.msg? henabled) rfl (.inr (congrArg (Call.report k.mem) henabled).symm)
  | drop mqmsg errno => exact h.free henabled rfl (.inl rfl)
  | wake q w ret =>
    obtain ⟨btcb, hbtcb, hfirst⟩ := h.waits.exists_firstWaiter hmeets
    rw [perform, hfirst]
    change Inv ((k.unblock btcb q w).setCall t (.idle (some ret)))
    exact h.wake (show Call.msg? (.idle (some ret)) = _ from henabled.1.symm) henabled.2 hbtcb
  | cancel w errcode =>
    obtain ⟨q, hq⟩ := ne_none_iff_exists'.mp
      (h.waits.msgwaitq t fun hnone => some_ne_none w (henabled.symm.trans hnone))
    rw [perform, hq]
    exact h.cancel henabled hq errcode

theorem Inv.right (h : Inv k) (q : Nat) : Right k q where
  notNull := h.notNull
  ordered := by
    refine (h.messages q).ordered.imp fun hbefore => ?_
    rw [UInt8.lt_iff_toNat_lt, ← UInt8.toNat_inj]
    exact hbefore
  nmsgs := (h.messages q).nmsgs
  nwait w := ⟨h.waits.finite_blocked q w, h.waits.nwait_eq_ncard q w⟩
  distinct := (h.messages q).distinct
  conserved := (h.messages q).conserved
  delivered t m hcall := (h.messages q).report t (.put m) (by rw [hcall]; rfl)
  returned t msg hcall := (h.messages q).report t (.got msg) (by rw [hcall]; rfl)

/-- Only a `take` changes what was taken from the queue, and only an `insert` what was sent to it. -/
theorem perform_records (k : Kernel) (t : Nat) (act : Action) (q : Nat) :
    ((∀ mqmsg, act ≠ .take q mqmsg) → ((perform k t act).msgq q).taken = (k.msgq q).taken) ∧
    ((∀ m mqmsg, act ≠ .insert q m mqmsg) → ((perform k t act).msgq q).sent = (k.msgq q).sent) := by
  have hkept : ∀ {P Q : Prop} {q' : Msgq}, q'.contents = (k.msgq q).contents →
      (P → q'.taken = (k.msgq q).taken) ∧ (Q → q'.sent = (k.msgq q).sent) := fun h =>
    ⟨fun _ => congrArg (·.2.2.2) h, fun _ => congrArg (·.2.2.1) h⟩
  cases act with
  | skip | goto call => exact hkept rfl
  | alloc mqmsg call | receive q' mqmsg | drop mqmsg errno => cases mqmsg <;> exact hkept rfl
  | block q' w call => exact hkept (block_contents k t q' w q)
  | wake q' w ret =>
    rw [perform]
    split
    · next btcb _ => exact hkept (unblock_contents k btcb q' w q)
    · exact hkept rfl
  | insert q' m mqmsg =>
    by_cases hq : q = q'
    · subst hq
      refine ⟨fun _ => ?_, fun hact => absurd rfl (hact m mqmsg)⟩
      show ((k.insertMsg t q m mqmsg).msgq q).taken = _
      rw [insertMsg_msgq, if_pos rfl]
    · exact hkept (congrArg Msgq.contents ((insertMsg_msgq ..).trans (if_neg hq)))
  | take q' mqmsg =>
    by_cases hq : q = q'
    · subst hq
      refine ⟨fun hact => absurd rfl (hact mqmsg), fun _ => ?_⟩
      show ((k.takeMsg t q mqmsg).msgq q).sent = _
      rw [takeMsg_msgq, if_pos rfl]
    · exact hkept (congrArg Msgq.contents ((takeMsg_msgq ..).trans (if_neg hq)))
  | cancel w errcode =>
    rw [perform]
    split
    · next q' _ => exact hkept (unblock_contents k t q' w q)
    · exact hkept rfl

theorem Inv.takesOldest (h : Inv k) (henabled : Enabled k t act) (q : Nat) :
    TakesOldest k (Mq.perform k t act) q := by
  intro t' msg htaken
  by_cases hact : ∃ mqmsg, act = .take q mqmsg
  · obtain ⟨mqmsg, rfl⟩ := hact
    obtain ⟨rest, hcons⟩ := List.head?_eq_some_iff.mp henabled.1
    have hqueued : k.queued q = k.mem mqmsg :: rest.map k.mem := by rw [queued, hcons, map_cons]
    have hmsg : msg = k.mem mqmsg := by
      have htaken : ((k.takeMsg t q mqmsg).msgq q).taken = (t', msg) :: (k.msgq q).taken := htaken
      rw [takeMsg_msgq, if_pos rfl] at htaken
      exact (Prod.mk.inj (List.cons.inj htaken).1).2.symm
    have hordered := (h.messages q).ordered
    rw [hqueued] at hordered ⊢
    rw [hmsg]
    refine ⟨mem_cons_self, fun other hother => ?_⟩
    rw [UInt8.lt_iff_toNat_lt, ← UInt8.toNat_inj]
    rcases mem_cons.mp hother with rfl | hother
    · exact .inr ⟨rfl, le_rfl⟩
    · have hlater := (pairwise_cons.mp hordered).1 other hother
      dsimp only at hlater
      omega
  · rw [(perform_records k t act q).1 fun mqmsg heq => hact ⟨mqmsg, heq⟩] at htaken
    exact absurd htaken.symm (cons_ne_self _ _)

theorem sendsOwn (henabled : Enabled k t act) (q : Nat) : SendsOwn k (Mq.perform k t act) q := by
  intro t' msg hsent
  by_cases hact : ∃ m mqmsg, act = .insert q m mqmsg
  · obtain ⟨m, mqmsg, rfl⟩ := hact
    have hsent : ((k.insertMsg t q m mqmsg).msgq q).sent = (t', msg) :: (k.msgq q).sent := hsent
    rw [insertMsg_msgq, if_pos rfl] at hsent
    obtain ⟨rfl, rfl⟩ := Prod.mk.inj (List.cons.inj hsent).1
    exact ⟨mqmsg, henabled⟩
  · rw [(perform_records k t act q).2 fun m mqmsg heq => hact ⟨m, mqmsg, heq⟩] at hsent
    exact absurd hsent.symm (cons_ne_self _ _)

theorem Right.nwait_nonneg (h : Right k q) (w : Wait) : 0 ≤ ((k.msgq q).nwait w).toInt := by
  rw [(h.nwait w).2]
  exact Int.natCast_nonneg _

theorem Right.nmsgs_nonneg (h : Right k q) : 0 ≤ (k.msgq q).nmsgs.toInt := by
  rw [h.nmsgs]
  exact Int.natCast_nonneg _

theorem Inv.meets_of_right (h : Inv k) (hright : ∀ q, Right (Mq.perform k t act) q) :
    act.Meets k := by
  cases act with
  | block q w call =>
    by_contra hmax
    have hneg : (((k.block t q w).msgq q).nwait w).toInt = -0x8000 := by
      rw [block_nwait, if_pos ⟨rfl, rfl⟩]
      exact Counter16.toInt_add_one_of_max (Int.not_lt.mp hmax)
    have hnonneg : 0 ≤ (((k.block t q w).msgq q).nwait w).toInt := (hright q).nwait_nonneg w
    omega
  | insert q m mqmsg =>
    by_contra hmax
    have hneg : ((k.insertMsg t q m mqmsg).msgq q).nmsgs.toInt = -0x8000 := by
      rw [insertMsg_msgq, if_pos rfl]
      exact Counter16.toInt_add_one_of_max (Int.not_lt.mp hmax)
    have hnonneg : 0 ≤ ((k.insertMsg t q m mqmsg).msgq q).nmsgs.toInt := (hright q).nmsgs_nonneg
    omega
  | wake q w ret =>
    by_contra hblocked
    have hnone := Option.not_isSome_iff_eq_none.mp (mt h.waits.firstWaiter_isSome_iff.mp hblocked)
    have hnull := (hright q).notNull
    rw [Mq.perform, hnone] at hnull
    cases hnull
  | _ => exact trivial

theorem Inv.step_right_iff (h : Inv k) (henabled : Enabled k t act) :
    (∀ q, TakesOldest k (Mq.perform k t act) q ∧ SendsOwn k (Mq.perform k t act) q ∧
      Right (Mq.perform k t act) q) ↔ act.Meets k := by
  constructor
  · exact fun hall => h.meets_of_right fun q => (hall q).2.2
  · exact fun hmeets q => ⟨h.takesOldest henabled q, sendsOwn henabled q,
      (h.perform henabled hmeets).right q⟩

theorem Inv.runRight_iff (h : Inv k) (es : List Event) : RunRight k es ↔ RunMeets k es := by
  induction es generalizing k with
  | nil => exact Iff.rfl
  | cons e es ih =>
    rw [RunRight, RunMeets]
    constructor
    · intro hright act hact
      have hstep : step k e = some (Mq.perform k e.task act) := by
        rw [step, hact, if_neg (by rw [h.notNull]; exact Bool.false_ne_true)]
        rfl
      have henabled := enabled_of_action hact
      obtain ⟨hnow, hrest⟩ := hright _ hstep
      have hmeets := (h.step_right_iff henabled).mp hnow
      exact ⟨hmeets, (ih (h.perform henabled hmeets)).mp hrest⟩
    · intro hmeets k' hstep
      rw [step, if_neg (by rw [h.notNull]; exact Bool.false_ne_true)] at hstep
      obtain ⟨act, hact, rfl⟩ := map_eq_some_iff.mp hstep
      have henabled := enabled_of_action hact
      obtain ⟨hnow, hrest⟩ := hmeets act hact
      exact ⟨(h.step_right_iff henabled).mpr hnow, (ih (h.perform henabled hnow)).mpr hrest⟩

/-- Along a run that is right so far, whether the next action meets the condition can be computed. -/
def Inv.decidableMeets (h : Inv k) : (act : Action) → Decidable (act.Meets k)
  | .block _ _ _ | .insert _ _ _ => inferInstanceAs (Decidable (_ < _))
  | .wake _ _ _ => decidable_of_iff _ h.waits.firstWaiter_isSome_iff
  | .skip | .goto _ | .alloc _ _ | .take _ _ | .receive _ _ | .drop _ _ | .cancel _ _ => isTrue trivial

def Inv.decidableRunMeets {k : Kernel} (h : Inv k) : (es : List Event) → Decidable (RunMeets k es)
  | [] => isTrue trivial
  | e :: es =>
    match hact : action k e with
    | none => isTrue fun act hsome => by rw [hact] at hsome; cases hsome
    | some act =>
      have := h.decidableMeets act
      if hmeets : act.Meets k then
        have := (h.perform (enabled_of_action hact) hmeets).decidableRunMeets es
        decidable_of_iff (RunMeets (Mq.perform k e.task act) es) (by simp [RunMeets, hact, hmeets])
      else isFalse fun hall => hmeets (hall act hact).1

def atRest : Kernel where
  msgq _ := ⟨1, 8, [], 0, fun _ => 0, [], []⟩
  tcb _ := ⟨100, none, none, none, .idle none⟩
  mem _ := ⟨0, [], 0⟩
  msgfree := [0, 1]
  allocated := []
  waiting _ := []
  nullDeref := false

theorem initial_atRest : Initial atRest where
  msgq _ := ⟨rfl, rfl, fun _ => rfl, rfl, rfl⟩
  tcb _ := ⟨rfl, rfl⟩
  msgfree := by decide
  allocated := rfl
  waiting _ := rfl
  nullDeref := rfl

def readWrite : Oflags := ⟨true, true, false⟩

def calm : Env := ⟨0, none, false⟩

def senderWaits : List Event :=
  [.call 1 (.send 0 readWrite [65] 1) calm, .run 1 calm, .run 1 calm, .run 1 calm,
    .call 2 (.timedsend 0 readWrite [66] 1) calm, .run 2 calm, .run 2 calm, .run 2 calm]

/-- Task 3 takes the message and wakes task 2, which sends its own. -/
def senderWoken : List Event :=
  senderWaits ++ [.call 3 (.receive 0 readWrite 8) calm, .run 3 calm, .run 3 calm, .run 3 calm,
    .run 2 calm, .run 2 calm, .run 2 calm]

/-- Task 3 takes the message and sees that `nwaitnotfull` is positive. Then the time of task 2 is up,
and task 3 looks for a task to wake. -/
def senderGivesUp : List Event :=
  senderWaits ++ [.call 3 (.receive 0 readWrite 8) calm, .run 3 calm, .run 3 calm,
    .waitIrq 2 .etimedout] ++ [.run 3 calm]

theorem RunRight.right_last {es : List Event} {e : Event} (h : RunRight k (es ++ [e]))
    (hrun : (es ++ [e]).foldlM step k = some k') : Right k' q := by
  induction es generalizing k with
  | nil =>
    obtain ⟨k1, hstep, hlast⟩ := bind_eq_some_iff.mp hrun
    rw [← Option.some.inj hlast]
    exact ((h k1 hstep).1 q).2.2
  | cons e' es ih =>
    rw [cons_append, foldlM_cons] at hrun
    obtain ⟨k1, hstep, hrest⟩ := bind_eq_some_iff.mp hrun
    exact ih (h k1 hstep).2 hrest

theorem nullDeref_senderGivesUp :
    (senderGivesUp.foldlM step atRest).map Kernel.nullDeref = some true := by
  decide

theorem Memory.perform (h : Memory k) (henabled : Enabled k t act) : Memory (Mq.perform k t act) := by
  cases act with
  | skip => exact h
  | goto call => exact h.setCall henabled.1
  | block q w call =>
    have hblock : Memory (k.block t q w) :=
      h.congr_contents rfl rfl (block_contents k t q w) (block_call k t q w)
    exact hblock.setCall (by rw [block_call, henabled.2.1])
  | alloc mqmsg call => exact h.alloc henabled.1 henabled.2.1 henabled.2.2.1
  | insert q m mqmsg => exact h.insert (congrArg Call.msg? henabled) rfl
  | take q mqmsg => exact h.take henabled.1 rfl
  | receive q mqmsg => exact h.free (congrArg Call.msg? henabled) rfl
  | drop mqmsg errno => exact h.free henabled rfl
  | wake q w ret =>
    rw [Mq.perform]
    cases k.firstWaiter q w with
    | some btcb => exact (h.unblock btcb q w).setCall (by rw [unblock_call, henabled.1]; rfl)
    | none => exact h.congr rfl rfl (fun _ => rfl) fun _ => rfl
  | cancel w errcode =>
    rw [Mq.perform]
    cases (k.tcb t).msgwaitq with
    | none => exact h.congr rfl rfl (fun _ => rfl) fun _ => rfl
    | some q =>
      refine (h.unblock t q w).congr rfl rfl (fun _ => rfl) fun t' => ?_
      rw [modifyTcb_tcb]
      split_ifs with ht
      · rw [ht]
      · rfl

/-- **A message structure never has two owners** in any run, which ends where `NULL` is followed: what is
free, on the list of a queue or with a task is nowhere else. -/
theorem message_owned_once (h : Initial k) {es : List Event} (hrun : es.foldlM step k = some k') :
    Memory k' := by
  have hmemory := (inv_of_initial h).memory
  clear h
  induction es generalizing k with
  | nil => exact Option.some.inj hrun ▸ hmemory
  | cons e es ih =>
    rw [foldlM_cons] at hrun
    obtain ⟨k1, hstep, hrest⟩ := bind_eq_some_iff.mp hrun
    rw [step] at hstep
    split_ifs at hstep
    obtain ⟨act, hact, rfl⟩ := map_eq_some_iff.mp hstep
    exact ih hrest (hmemory.perform (enabled_of_action hact))

theorem message_owned_once_senderWoken : ∃ k', senderWoken.foldlM step atRest = some k' ∧ Memory k' :=
  have ⟨k', hrun⟩ := isSome_iff_exists.mp (show (senderWoken.foldlM step atRest).isSome = true by decide)
  ⟨k', hrun, message_owned_once initial_atRest hrun⟩

end Nuttx.Mq

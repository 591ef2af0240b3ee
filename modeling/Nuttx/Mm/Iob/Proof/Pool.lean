import Mathlib.Data.List.Basic
import Nuttx.Mm.Iob.Pool

/-!
# No buffer of the pool is lost or handed out twice

The counts of the semaphores are tied to the lists by the tasks that took a count.
-/

open List

namespace Nuttx.Mm.IobPool

variable {debug : Bool} {cfg : Config} {task : Nat} {i : Nat}

def waiters (cfg : Config) (tasks : List Phase) (sem : Sem) : Nat := tasks.countP (waitsOn cfg sem)

def pending (cfg : Config) (tasks : List Phase) (sem : Sem) : Nat := tasks.countP (wokenOn cfg sem)

def takers (cfg : Config) (tasks : List Phase) (sem : Sem) : Nat :=
  waiters cfg tasks sem + pending cfg tasks sem

def frees (tasks : List Phase) : Nat := tasks.countP (· == .freeing)

variable {tasks : List Phase} {old : Phase} {throttled : Bool} {s s' : IobPool}

theorem countP_set_add (h : tasks[i]? = some old) (new : Phase) (p : Phase → Bool) :
    (tasks.set i new).countP p + (if p old then 1 else 0) = tasks.countP p + (if p new then 1 else 0) := by
  obtain ⟨hi, rfl⟩ := List.getElem?_eq_some_iff.mp h
  have hle : (if p tasks[i] then 1 else 0) ≤ tasks.countP p := by
    split_ifs with hp
    · exact countP_pos_iff.mpr ⟨_, getElem_mem hi, hp⟩
    · exact Nat.zero_le _
  rw [countP_set hi]
  omega

theorem counts_set (cfg : Config) (h : tasks[i]? = some old) (new : Phase) :
    (∀ sem, waiters cfg (tasks.set i new) sem + (if waitsOn cfg sem old then 1 else 0)
      = waiters cfg tasks sem + (if waitsOn cfg sem new then 1 else 0)) ∧
    (∀ sem, pending cfg (tasks.set i new) sem + (if wokenOn cfg sem old then 1 else 0)
      = pending cfg tasks sem + (if wokenOn cfg sem new then 1 else 0)) ∧
    frees (tasks.set i new) + (if old == .freeing then 1 else 0)
      = frees tasks + (if new == .freeing then 1 else 0) :=
  ⟨fun _ => countP_set_add h new _, fun _ => countP_set_add h new _, countP_set_add h new _⟩

structure Posted (cfg : Config) (before after : List Phase) : Prop where
  frees : frees after = frees before
  takers : ∀ sem', takers cfg after sem' = takers cfg before sem'
  pending_le : ∀ sem', pending cfg before sem' ≤ pending cfg after sem'

theorem Posted.refl (cfg : Config) (tasks : List Phase) : Posted cfg tasks tasks :=
  ⟨rfl, fun _ => rfl, fun _ => Nat.le_refl _⟩

theorem posted_wake (cfg : Config) (h : tasks[i]? = some (.waiting throttled)) :
    Posted cfg tasks (tasks.set i (.woken throttled)) ∧
      pending cfg (tasks.set i (.woken throttled)) (semOf cfg throttled)
        = pending cfg tasks (semOf cfg throttled) + 1 := by
  obtain ⟨hw, hp, hf⟩ := counts_set cfg h (.woken throttled)
  simp only [waitsOn, wokenOn, Bool.false_eq_true, if_false, Nat.add_zero, decide_eq_true_eq] at hw hp
  refine ⟨⟨hf, fun sem => ?_, fun sem => ?_⟩, by rw [hp, if_pos rfl]⟩
  · have hwSem := hw sem
    have hpSem := hp sem
    unfold takers
    omega
  · rw [hp]
    exact Nat.le_add_right _ _

@[simp]
theorem addSemcount_tasks (s : IobPool) (sem : Sem) (n : Int) : (s.addSemcount sem n).tasks = s.tasks := by
  cases sem <;> rfl

@[simp]
theorem semcount_addSemcount (s : IobPool) (sem : Sem) (n : Int) :
    (s.addSemcount sem n).semcount sem = s.semcount sem + n := by
  cases sem <;> rfl

theorem nxsemPost_cases {sem : Sem} {wake : Nat}
    (h : nxsemPost cfg s sem wake = .ok s') (hmax : s.semcount sem < semValueMax) :
    ∃ tasks, s' = { s.addSemcount sem 1 with tasks := tasks } ∧ Posted cfg s.tasks tasks ∧
      (s.semcount sem < 0 → 0 < waiters cfg s.tasks sem →
        pending cfg tasks sem = pending cfg s.tasks sem + 1) := by
  rw [nxsemPost, if_neg (by omega)] at h
  dsimp only at h
  rw [semcount_addSemcount, addSemcount_tasks] at h
  by_cases hwake : s.semcount sem + 1 ≤ 0 ∧ s.tasks.any (waitsOn cfg sem) = true
  · rw [if_pos hwake] at h
    split at h
    next throttled htask =>
      split_ifs at h with hsem
      · subst hsem
        cases h
        obtain ⟨hposted, hone⟩ := posted_wake cfg htask
        exact ⟨_, rfl, hposted, fun _ _ => hone⟩
    next => cases h
  · rw [if_neg hwake] at h
    cases h
    refine ⟨s.tasks, ?_, Posted.refl _ _, fun hneg hpos => ?_⟩
    · cases sem <;> rfl
    · exact absurd ⟨by omega, any_eq_true.mpr (countP_pos_iff.mp hpos)⟩ hwake

def Idle : Phase → Prop
  | .out => True
  | .again _ => True
  | .posted _ => True
  | _ => False

structure SameCounts (cfg : Config) (before after : List Phase) : Prop where
  takers : ∀ sem, takers cfg after sem = takers cfg before sem
  pending : ∀ sem, pending cfg after sem = pending cfg before sem
  frees : frees after = frees before

theorem sameCounts_set (cfg : Config) {new : Phase} (h : tasks[i]? = some old)
    (hold : Idle old) (hnew : Idle new) : SameCounts cfg tasks (tasks.set i new) := by
  obtain ⟨hw, hp, hf⟩ := counts_set cfg h new
  have hzero : ∀ phase : Phase, Idle phase → (∀ sem, waitsOn cfg sem phase = false) ∧
      (∀ sem, wokenOn cfg sem phase = false) ∧ (phase == .freeing) = false := by
    intro phase hidle
    cases phase with
    | out | again throttled | posted throttled => exact ⟨fun _ => rfl, fun _ => rfl, rfl⟩
    | waiting throttled | woken throttled | freeing => exact absurd hidle id
  obtain ⟨hwold, hpold, hfold⟩ := hzero old hold
  obtain ⟨hwnew, hpnew, hfnew⟩ := hzero new hnew
  simp only [hwold, hwnew, hpold, hpnew, hfold, hfnew, Bool.false_eq_true, if_false, Nat.add_zero]
    at hw hp hf
  exact ⟨fun sem => congrArg₂ (· + ·) (hw sem) (hp sem), hp, hf⟩

structure Inv (cfg : Config) (s : IobPool) : Prop where
  parts : (s.freelist ++ s.committed ++ s.held.map Prod.snd).Perm (List.range cfg.nbuffers)
  iobSem : s.iobSem + takers cfg s.tasks .iob = s.freelist.length + s.committed.length
  committed_le : s.committed.length ≤ pending cfg s.tasks .iob
  throttleSem : 0 < cfg.throttle →
    s.throttleSem + takers cfg s.tasks .throttle + cfg.throttle + s.held.length + frees s.tasks
      = cfg.nbuffers
  no_frees : cfg.throttle = 0 → frees s.tasks = 0

theorem Inv.length_eq (h : Inv cfg s) :
    s.freelist.length + s.committed.length + s.held.length = cfg.nbuffers := by
  have hlen := h.parts.length_eq
  simpa [Nat.add_assoc] using hlen

theorem countP_replicate_out (ntasks : Nat) {p : Phase → Bool} (hp : p .out = false) :
    (List.replicate ntasks Phase.out).countP p = 0 := by
  rw [countP_replicate, if_neg (by simp [hp])]

theorem inv_init (cfg : Config) (ntasks : Nat) : Inv cfg (iobInitialize cfg ntasks) := by
  have hw : ∀ sem, waiters cfg (List.replicate ntasks .out) sem = 0 := fun sem =>
    countP_replicate_out ntasks rfl
  have hp : ∀ sem, pending cfg (List.replicate ntasks .out) sem = 0 := fun sem =>
    countP_replicate_out ntasks rfl
  have hf : frees (List.replicate ntasks .out) = 0 := countP_replicate_out ntasks rfl
  refine ⟨?_, ?_, Nat.zero_le _, fun _ => ?_, fun _ => hf⟩
  · simp [iobInitialize]
  · simp [iobInitialize, takers, hw, hp]
  · simp only [iobInitialize, takers, hw, hp, hf, length_nil]
    omega

theorem iobTryalloc_cases {iob : Option Nat}
    (h : iobTryalloc debug cfg s throttled = .ok (iob, s')) :
    (iob = none ∧ s' = s) ∨ ∃ b rest, s.freelist = b :: rest ∧ iob = some b ∧
      s' = { s with
        freelist := rest
        iobSem := s.iobSem - 1
        throttleSem := if cfg.throttle > 0 then s.throttleSem - 1 else s.throttleSem } := by
  unfold iobTryalloc at h
  by_cases hnone : cfg.throttle > 0 ∧ ¬ s.semcount (semOf cfg throttled) > 0
  · rw [if_pos hnone] at h
    cases h
    exact .inl ⟨rfl, rfl⟩
  rw [if_neg hnone] at h
  cases hfree : s.freelist with
  | nil =>
    rw [hfree] at h
    cases h
    exact .inl ⟨rfl, rfl⟩
  | cons b rest =>
    rw [hfree] at h
    obtain ⟨-, -, h⟩ := Result.bind_eq_ok h
    refine .inr ⟨b, rest, rfl, ?_⟩
    by_cases hthr : cfg.throttle > 0
    · rw [if_pos hthr] at h
      obtain ⟨-, -, h⟩ := Result.bind_eq_ok h
      cases h
      exact ⟨rfl, by rw [if_pos hthr]⟩
    · rw [if_neg hthr] at h
      cases h
      exact ⟨rfl, by rw [if_neg hthr]⟩

section

variable (hinv : Inv cfg s)
include hinv

theorem inv_tryalloc
    {iob : Option Nat} {new : Phase} (htask : s.tasks[task]? = some old) (hold : Idle old)
    (hnew : Idle new) (h : iobTryalloc debug cfg s throttled = .ok (iob, s')) :
    Inv cfg (s'.hand task iob new) := by
  obtain ⟨rfl, rfl⟩ | ⟨b, rest, hfree, rfl, rfl⟩ := iobTryalloc_cases h
  · have hsame := sameCounts_set cfg htask hold hnew
    obtain ⟨hparts, hiob, hcomm, hthr, hnof⟩ := hinv
    refine ⟨hparts, ?_, ?_, fun hpos => ?_, fun hzero => hsame.frees.trans (hnof hzero)⟩
    · simpa only [hand, hsame.takers] using hiob
    · simpa only [hand, hsame.pending] using hcomm
    · simpa only [hand, hsame.takers, hsame.frees] using hthr hpos
  have hsame := sameCounts_set cfg htask hold (show Idle .out from trivial)
  obtain ⟨hparts, hiob, hcomm, hthr, hnof⟩ := hinv
  rw [hfree] at hparts hiob
  refine ⟨?_, ?_, ?_, fun hpos => ?_, fun hzero => hsame.frees.trans (hnof hzero)⟩
  · exact perm_middle.trans hparts
  · simp only [hand, hsame.takers]
    simp only [length_cons] at hiob
    omega
  · simpa only [hand, hsame.pending] using hcomm
  · have := hthr hpos
    simp only [hand, hsame.takers, hsame.frees, length_cons, if_pos hpos]
    omega

theorem inv_shift {sem : Sem} {n : Int}
    (hsum : ∀ sem', (takers cfg tasks sem' : Int) + (if sem = sem' then n else 0)
      = takers cfg s.tasks sem')
    (hcomm : s.committed.length ≤ pending cfg tasks .iob) (hf : frees tasks = frees s.tasks) :
    Inv cfg { s.addSemcount sem n with tasks := tasks } := by
  obtain ⟨hparts, hiob, -, hthr, hnof⟩ := hinv
  have hsumIob := hsum .iob
  have hsumThr := hsum .throttle
  cases sem with
  | iob | throttle =>
    simp only [if_true, reduceCtorEq, if_false] at hsumIob hsumThr
    refine ⟨hparts, ?_, hcomm, fun hpos => ?_, fun hzero => hf.trans (hnof hzero)⟩
    · simp only [addSemcount]
      omega
    · have := hthr hpos
      simp only [addSemcount, hf]
      omega

theorem inv_wait
    (htask : s.tasks[task]? = some (.again throttled)) : Inv cfg (nxsemWait cfg s task throttled) := by
  have hcomm := hinv.committed_le
  by_cases hpos : s.semcount (semOf cfg throttled) > 0
  · obtain ⟨hw, hp, hf⟩ := counts_set cfg htask (.woken throttled)
    simp only [waitsOn, wokenOn, Bool.false_eq_true, if_false, Nat.add_zero, decide_eq_true_eq] at hw hp
    rw [nxsemWait, if_pos hpos, addSemcount_tasks]
    refine inv_shift hinv (fun sem => ?_) ?_ hf
    · rw [takers, takers, hw, hp]
      split_ifs <;> omega
    · rw [hp]
      omega
  · obtain ⟨hw, hp, hf⟩ := counts_set cfg htask (.waiting throttled)
    simp only [waitsOn, wokenOn, Bool.false_eq_true, if_false, Nat.add_zero, decide_eq_true_eq] at hw hp
    rw [nxsemWait, if_neg hpos, addSemcount_tasks]
    refine inv_shift hinv (fun sem => ?_) (by rw [hp]; exact hcomm) hf
    rw [takers, takers, hw, hp]
    split_ifs <;> omega

theorem inv_signal (htask : s.tasks[task]? = some (.waiting throttled)) :
    Inv cfg { s.addSemcount (semOf cfg throttled) 1 with
      tasks := s.tasks.set task (.again throttled) } := by
  obtain ⟨hw, hp, hf⟩ := counts_set cfg htask (.again throttled)
  simp only [waitsOn, wokenOn, Bool.false_eq_true, if_false, Nat.add_zero, decide_eq_true_eq] at hw hp
  refine inv_shift hinv (fun sem => ?_) (by rw [hp]; exact hinv.committed_le) hf
  rw [takers, takers, ← hw sem, hp]
  split_ifs <;> omega

theorem Inv.semcount_lt (throttled : Bool)
    (hsome : 0 < takers cfg s.tasks (semOf cfg throttled)) (hcommitted : s.committed = []) :
    s.semcount (semOf cfg throttled) < semValueMax := by
  have hlen := hinv.length_eq
  have hmax := cfg.nbuffers_le
  have hiob := hinv.iobSem
  rw [hcommitted, length_nil] at hlen hiob
  by_cases hpos : cfg.throttle > 0
  · have hthr := hinv.throttleSem hpos
    cases hsem : semOf cfg throttled with
    | iob | throttle =>
      rw [hsem] at hsome
      simp only [semcount]
      omega
  · rw [semOf, if_neg hpos] at hsome ⊢
    simp only [semcount]
    omega

theorem inv_resume {task wake : Nat} (htask : s.tasks[task]? = some (.woken throttled))
    (h : allocCommitted cfg s task throttled wake = .ok s') : Inv cfg s' := by
  unfold allocCommitted at h
  split at h
  next iob rest hcommitted =>
      obtain ⟨hparts, hiob, hcomm, hthr, hnof⟩ := hinv
      rw [hcommitted] at hparts hiob hcomm
      rw [length_cons] at hiob hcomm
      obtain ⟨hw, hp, hf⟩ := counts_set cfg htask .out
      simp only [waitsOn, wokenOn, Bool.false_eq_true, if_false, Nat.add_zero, decide_eq_true_eq]
        at hw hp
      have hpIob := hp .iob
      have hpThr := hp .throttle
      have hparts' : (s.freelist ++ rest ++ (iob :: s.held.map Prod.snd)).Perm
          (List.range cfg.nbuffers) := by
        refine List.Perm.trans ?_ hparts
        rw [append_assoc, append_assoc]
        exact perm_middle.append_left _
      -- whichever semaphore the count was of, the other one is made to agree
      have htake : ∀ g t : Int, g + takers cfg (s.tasks.set task .out) .iob
            = s.freelist.length + rest.length →
          rest.length ≤ pending cfg (s.tasks.set task .out) .iob →
          (0 < cfg.throttle → t + takers cfg (s.tasks.set task .out) .throttle + cfg.throttle
            + (s.held.length + 1 : Nat) + frees s.tasks = cfg.nbuffers) →
          Inv cfg { s with
            committed := rest, iobSem := g, throttleSem := t, held := (task, iob) :: s.held
            tasks := s.tasks.set task .out } := fun g t hg hc ht =>
        ⟨hparts', hg, hc, fun hpos => by
          rw [show frees (s.tasks.set task .out) = frees s.tasks from hf]
          exact ht hpos, fun hzero => hf.trans (hnof hzero)⟩
      simp only [takers, hw] at htake hiob hthr
      by_cases hpos : cfg.throttle > 0
      · have hthr' := hthr hpos
        cases throttled with
        | true =>
          have hsem : semOf cfg true = .throttle := by rw [semOf, if_pos hpos, if_pos rfl]
          simp only [hsem, if_true, reduceCtorEq, if_false] at hpIob hpThr
          simp only [if_pos hpos, if_true] at h
          cases h
          exact htake (s.iobSem - 1) s.throttleSem (by omega) (by omega) (fun _ => by omega)
        | false =>
          have hsem : semOf cfg false = .iob := by rw [semOf, if_pos hpos, if_neg (by simp)]
          simp only [hsem, if_true, reduceCtorEq, if_false] at hpIob hpThr
          simp only [if_pos hpos, Bool.false_eq_true, if_false] at h
          cases h
          exact htake s.iobSem (s.throttleSem - 1) (by omega) (by omega) (fun _ => by omega)
      · have hsem : semOf cfg throttled = .iob := by rw [semOf, if_neg hpos]
        simp only [hsem, if_true, reduceCtorEq, if_false] at hpIob hpThr
        simp only [if_neg hpos] at h
        cases h
        exact htake s.iobSem s.throttleSem (by omega) (by omega) (fun hpos' => absurd hpos' hpos)
  next hcommitted =>
      obtain ⟨hw, hp, hf⟩ := counts_set cfg htask (.posted throttled)
      simp only [waitsOn, wokenOn, Bool.false_eq_true, if_false, Nat.add_zero, decide_eq_true_eq]
        at hw hp
      have hself := hp (semOf cfg throttled)
      rw [if_pos rfl] at hself
      have hmax := hinv.semcount_lt throttled (by rw [takers]; omega) hcommitted
      obtain ⟨tasks, rfl, hposted, -⟩ := nxsemPost_cases h (by
        cases hsem : semOf cfg throttled <;> rw [hsem] at hmax <;> exact hmax)
      have hshift : Inv cfg { s.addSemcount (semOf cfg throttled) 1 with tasks := tasks } := by
        refine inv_shift hinv (fun sem => ?_) (by rw [hcommitted]; exact Nat.zero_le _)
          (hposted.frees.trans hf)
        have hpSem := hp sem
        have hwSem := hw sem
        have htakers : takers cfg tasks sem = takers cfg (s.tasks.set task (.posted throttled)) sem :=
          hposted.takers sem
        rw [htakers, takers, takers]
        split_ifs at hpSem ⊢ <;> omega
      cases hsem : semOf cfg throttled <;> rw [hsem] at hshift <;> exact hshift

theorem inv_free {task holder iob wake : Nat}
    (htask : s.tasks[task]? = some .out) (hheld : (holder, iob) ∈ s.held)
    (h : iobFree debug cfg { s with held := s.held.erase (holder, iob) } task iob wake = .ok s') :
    Inv cfg s' := by
  have hlen := hinv.length_eq
  obtain ⟨hparts, hiob, hcomm, hthr, hnof⟩ := hinv
  have hmax := cfg.nbuffers_le
  have herase := perm_cons_erase hheld
  have hheldLen := herase.length_eq
  rw [length_cons] at hheldLen
  have hback : (s.freelist ++ s.committed ++ iob :: (s.held.erase (holder, iob)).map Prod.snd).Perm
      (List.range cfg.nbuffers) :=
    ((herase.map Prod.snd).symm.append_left _).trans hparts
  -- the task is counted until it has posted the second semaphore
  obtain ⟨parked, hparked, htakers, hpending, hfrees⟩ : ∃ parked,
      s.tasks.set task (if cfg.throttle > 0 then .freeing else .out) = parked ∧
      (∀ sem, takers cfg parked sem = takers cfg s.tasks sem) ∧
      (∀ sem, pending cfg parked sem = pending cfg s.tasks sem) ∧
      frees parked = frees s.tasks + if cfg.throttle > 0 then 1 else 0 := by
    refine ⟨_, rfl, ?_⟩
    obtain ⟨hw, hp, hf⟩ := counts_set cfg htask (if cfg.throttle > 0 then .freeing else .out)
    by_cases hpos : cfg.throttle > 0
    · simp only [if_pos hpos] at hw hp hf ⊢
      exact ⟨fun sem => congrArg₂ (· + ·) (hw sem) (hp sem), hp, hf⟩
    · simp only [if_neg hpos] at hw hp hf ⊢
      exact ⟨fun sem => congrArg₂ (· + ·) (hw sem) (hp sem), hp, hf⟩
  obtain ⟨s1, hpost, h⟩ := Result.bind_eq_ok h
  obtain ⟨-, -, h⟩ := Result.bind_eq_ok h
  cases h
  -- the post, with the buffer on either list
  have hlists : ∀ freelist committed : List Nat,
      (freelist ++ committed ++ (s.held.erase (holder, iob)).map Prod.snd).Perm
        (List.range cfg.nbuffers) →
      freelist.length + committed.length = s.freelist.length + s.committed.length + 1 →
      (committed.length ≤ s.committed.length ∨
        s.iobSem < 0 ∧ committed.length ≤ s.committed.length + 1) →
      nxsemPost cfg { s with
        freelist := freelist, committed := committed, held := s.held.erase (holder, iob)
        tasks := parked } .iob wake = .ok s' →
      Inv cfg s' := by
    intro freelist committed hperm hcount hroute hpost
    obtain ⟨tasks, rfl, hposted, hwoken⟩ := nxsemPost_cases hpost (by
      show s.iobSem < semValueMax
      omega)
    have hsum : ∀ sem, takers cfg tasks sem = takers cfg s.tasks sem := fun sem =>
      (hposted.takers sem).trans (htakers sem)
    have hle : pending cfg s.tasks .iob ≤ pending cfg tasks .iob := by
      rw [← hpending]
      exact hposted.pending_le .iob
    refine ⟨hperm, ?_, ?_, fun hpos => ?_, fun hzero => ?_⟩
    · simp only [addSemcount, hsum]
      omega
    · show committed.length ≤ pending cfg tasks .iob
      rcases hroute with hshort | ⟨hneg, hlong⟩
      · omega
      -- whoever is waiting is woken; if nobody is, there are more tasks with a count than buffers
      by_cases hwaits : 0 < waiters cfg s.tasks .iob
      · have hwaits' : 0 < waiters cfg parked .iob := by
          have htakersIob := htakers .iob
          have hpendingIob := hpending .iob
          rw [takers, takers] at htakersIob
          omega
        have hone := hwoken hneg hwaits'
        have hpendingIob := hpending .iob
        dsimp only at hone
        omega
      · rw [takers] at hiob
        omega
    · have hthr' := hthr hpos
      have hfrees' : frees tasks = frees s.tasks + 1 :=
        hposted.frees.trans (hfrees.trans (by rw [if_pos hpos]))
      simp only [addSemcount, hsum, hfrees']
      omega
    · have hnone := hnof hzero
      exact hposted.frees.trans (hfrees.trans (by rw [if_neg (by omega), hnone]))
  subst hparked
  by_cases hneg : s.iobSem < 0
  · simp only [if_pos hneg] at hpost
    refine hlists s.freelist (iob :: s.committed) ?_ (by rw [length_cons]; omega) (.inr ⟨hneg, by simp⟩) hpost
    refine List.Perm.trans ?_ hback
    rw [append_assoc, append_assoc]
    exact perm_middle.symm.append_left _
  · simp only [if_neg hneg] at hpost
    refine hlists (iob :: s.freelist) s.committed ?_ (by rw [length_cons]; omega) (.inl (Nat.le_refl _)) hpost
    exact perm_middle.symm.trans hback

theorem inv_freeThrottle {task wake : Nat} (htask : s.tasks[task]? = some .freeing)
    (h : iobFreeThrottle debug cfg s task wake = .ok s') : Inv cfg s' := by
  obtain ⟨hparts, hiob, hcomm, hthr, hnof⟩ := hinv
  have hmax := cfg.nbuffers_le
  obtain ⟨hw, hp, hf⟩ := counts_set cfg htask .out
  have htakers : ∀ sem, takers cfg (s.tasks.set task .out) sem = takers cfg s.tasks sem :=
    fun sem => congrArg₂ (· + ·) (hw sem) (hp sem)
  have hpending : ∀ sem, pending cfg (s.tasks.set task .out) sem = pending cfg s.tasks sem := hp
  have hfrees : frees (s.tasks.set task .out) + 1 = frees s.tasks := hf
  have hpos : 0 < cfg.throttle := by
    by_contra hzero
    have := hnof (by omega)
    omega
  have hthr' := hthr hpos
  obtain ⟨s1, hpost, h⟩ := Result.bind_eq_ok h
  obtain ⟨-, -, h⟩ := Result.bind_eq_ok h
  cases h
  obtain ⟨tasks, rfl, hposted, -⟩ := nxsemPost_cases hpost (by
    show s.throttleSem < semValueMax
    omega)
  have hsum : ∀ sem, takers cfg tasks sem = takers cfg s.tasks sem := fun sem =>
    (hposted.takers sem).trans (htakers sem)
  have hfrees' : frees tasks + 1 = frees s.tasks := by
    rw [← hfrees]
    exact congrArg (· + 1) hposted.frees
  refine ⟨hparts, ?_, ?_, fun _ => ?_, fun hzero => absurd hzero (by omega)⟩
  · simpa only [addSemcount, hsum] using hiob
  · calc s.committed.length ≤ pending cfg s.tasks .iob := hcomm
      _ = pending cfg (s.tasks.set task .out) .iob := (hpending .iob).symm
      _ ≤ pending cfg tasks .iob := hposted.pending_le .iob
  · simp only [addSemcount, hsum]
    omega

theorem inv_step {e : Event} (h : step debug cfg s e = .ok s') : Inv cfg s' := by
  cases e with
  | tryalloc task throttled | alloc task throttled =>
    rw [step] at h
    split_ifs at h with htask
    obtain ⟨⟨iob, s1⟩, halloc, h⟩ := Result.bind_eq_ok h
    cases h
    exact inv_tryalloc hinv htask trivial trivial halloc
  | wait task =>
    rw [step] at h
    split at h
    next throttled htask =>
      cases h
      exact inv_wait hinv htask
    next => cases h
  | signal task =>
    rw [step] at h
    split at h
    next throttled htask =>
      cases h
      rw [addSemcount_tasks]
      exact inv_signal hinv htask
    next => cases h
  | resume task wake =>
    rw [step] at h
    split at h
    next throttled htask => exact inv_resume hinv htask h
    next => cases h
  | retry task =>
    rw [step] at h
    split at h
    next throttled htask =>
      obtain ⟨⟨iob, s1⟩, halloc, h⟩ := Result.bind_eq_ok h
      cases h
      exact inv_tryalloc hinv htask trivial trivial halloc
    next => cases h
  | free task holder iob wake =>
    rw [step] at h
    split_ifs at h with hfree
    exact inv_free hinv hfree.1 hfree.2 h
  | freeThrottle task wake =>
    rw [step] at h
    split_ifs at h with htask
    exact inv_freeThrottle hinv htask h

theorem inv_run {es : List Event} (h : run debug cfg s es = .ok s') : Inv cfg s' := by
  induction es generalizing s with
  | nil =>
    cases h
    exact hinv
  | cons e es ih =>
    rw [run, foldlM_cons] at h
    obtain ⟨s1, hstep, h⟩ := Result.bind_eq_ok h
    exact ih (inv_step hinv hstep) h

end

/-- **The pool is conserved.** Whatever the tasks and interrupt handlers did, every buffer is on the
free list, on the committed list or held by one caller, and on one of them only once. When no task is
left that has a count of a semaphore and has not looked for its buffer, nothing is committed and the
count of `g_iob_sem` is the number of free buffers less the number of tasks that wait for one. -/
theorem pool_conserved {debug : Bool} {cfg : Config} {ntasks : Nat} {es : List Event} {s : IobPool}
    (h : run debug cfg (iobInitialize cfg ntasks) es = .ok s) :
    (s.freelist ++ s.committed ++ s.held.map Prod.snd).Nodup ∧
      (∀ iob, iob ∈ s.freelist ++ s.committed ++ s.held.map Prod.snd ↔ iob < cfg.nbuffers) ∧
      ((∀ throttled, Phase.woken throttled ∉ s.tasks) →
        s.committed = [] ∧
          s.iobSem = s.freelist.length - (s.tasks.countP (waitsOn cfg .iob) : Int)) := by
  have hinv := inv_run (inv_init cfg ntasks) h
  refine ⟨hinv.parts.nodup_iff.mpr nodup_range,
    fun iob => hinv.parts.mem_iff.trans mem_range, fun hnone => ?_⟩
  have hpending : pending cfg s.tasks .iob = 0 := by
    rw [pending, countP_eq_zero]
    intro phase hmem hwoken
    cases phase with
    | woken throttled => exact hnone throttled hmem
    | _ => simp [wokenOn] at hwoken
  have hcommitted : s.committed = [] := by
    apply length_eq_zero_iff.mp
    have := hinv.committed_le
    omega
  refine ⟨hcommitted, ?_⟩
  have hiob := hinv.iobSem
  rw [hcommitted, takers, hpending, length_nil] at hiob
  unfold waiters at hiob
  omega

theorem pool_conserved_two :
    ∃ s, run true ⟨1, 0, by decide, by decide⟩ (iobInitialize ⟨1, 0, by decide, by decide⟩ 2)
        [.alloc 0 false, .alloc 1 false, .wait 1, .free 0 0 0 1, .resume 1 0] = .ok s ∧
      s.held = [(1, 0)] ∧ s.committed = [] ∧ s.iobSem = 0 := by
  have hrun : run true ⟨1, 0, by decide, by decide⟩ (iobInitialize ⟨1, 0, by decide, by decide⟩ 2)
      [.alloc 0 false, .alloc 1 false, .wait 1, .free 0 0 0 1, .resume 1 0]
        = .ok ⟨[], [], 0, 1, [(1, 0)], [.out, .out]⟩ := by decide
  have hpool := (pool_conserved hrun).2.2 (by decide)
  exact ⟨_, hrun, rfl, hpool.1, hpool.2⟩

end Nuttx.Mm.IobPool

import Mathlib.Data.BitVec

/-!
# Process ids

`nxtask_assign_pid`, `nxsched_releasepid` and `nxsched_get_tcb` over `g_pidhash` with
`CONFIG_MAX_TASKS` = 2 ^ k and a 16-bit `pid_t`. The code does not see `live`, the task that every
pid belongs to.
-/

open Function

namespace Nuttx.Task

/-- A number stored as a `pid_t`. -/
def pidT (x : Int) : Int := (x + 32768) % 65536 - 32768

/-- `struct pidhash_s` -/
structure Pidhash (T : Type) where
  tcb : Option T
  pid : Int

structure Tasks (T : Type) where
  lastpid : Int
  pidhash : Nat → Pidhash T
  live : Int → Option T

variable {T : Type} (k : Nat) (s : Tasks T) (tcb : T)

def pidHash (pid : Int) : Nat := pid.toNat &&& (2 ^ k - 1)

def nextPid (lastpid : Int) : Int := if pidT (lastpid + 1) ≤ 0 then 1 else pidT (lastpid + 1)

def assignLoop : Nat → Tasks T → Option Int × Tasks T
  | 0, s => (none, s)
  | tries + 1, s =>
    let pid := nextPid s.lastpid
    if (s.pidhash (pidHash k pid)).tcb.isNone then
      (some pid, { s with
        lastpid := pid
        pidhash := update s.pidhash (pidHash k pid) ⟨some tcb, pid⟩ })
    else assignLoop tries { s with lastpid := pid }

def nxtaskAssignPid : Option Int × Tasks T := assignLoop k tcb (2 ^ k) s

def nxschedReleasepid (pid : Int) : Tasks T :=
  { s with pidhash := update s.pidhash (pidHash k pid) ⟨none, -1⟩ }

def Pidhash.get (entry : Pidhash T) (pid : Int) : Option T :=
  if 0 ≤ pid ∧ pid = entry.pid then entry.tcb else none

def nxschedGetTcb (pid : Int) : Option T := (s.pidhash (pidHash k pid)).get pid

inductive Event (T : Type)
  | create (tcb : T)
  | exit (pid : Int)

/-- A task that has a pid other than 0 gives it back when it exits. -/
def Tasks.step : Event T → Tasks T
  | .create tcb =>
    match nxtaskAssignPid k s tcb with
    | (some pid, s) => { s with live := update s.live pid (some tcb) }
    | (none, s) => s
  | .exit pid =>
    if (s.live pid).isSome ∧ pid ≠ 0 then
      { nxschedReleasepid k s pid with live := update s.live pid none }
    else s

/-- Only the IDLE task is there. -/
def Tasks.start (idle : T) (lastpid : Fin 32768) : Tasks T where
  lastpid := lastpid.val
  pidhash := update (fun _ => ⟨none, -1⟩) 0 ⟨some idle, 0⟩
  live := update (fun _ => none) 0 (some idle)

structure Inv (s : Tasks T) : Prop where
  last : 0 ≤ s.lastpid ∧ s.lastpid < 32768
  idle : ∃ tcb, s.pidhash 0 = ⟨some tcb, 0⟩
  live : nxschedGetTcb k s = s.live

variable {k s tcb}

theorem pidHash_eq (n : Nat) : pidHash k n = n % 2 ^ k := Nat.and_two_pow_sub_one_eq_mod n k

/-- The candidate after `j` tries: behind 32767 comes 1. -/
theorem nextPid_iterate {n : Nat} (hn : n < 32768) (j : Nat) (hj : j ≤ 2 ^ 14) :
    nextPid^[j] n = if n + j < 32768 then (n + j : Int) else n + j - 32767 := by
  induction j with
  | zero => simp [hn]
  | succ j ih =>
    rw [iterate_succ_apply', ih (by omega)]
    unfold nextPid pidT
    split_ifs <;> omega

/-- `2 ^ k` successive candidates reach every slot but that of the IDLE task. -/
theorem exists_nextPid {n i : Nat} (hk : k ≤ 14) (hn : n < 32768) (hpos : 0 < i) (hi : i < 2 ^ k) :
    ∃ j < 2 ^ k, pidHash k (nextPid^[j + 1] n) = i := by
  suffices h : ∃ j < 2 ^ k, ∃ q, nextPid^[j + 1] n = ((2 ^ k * q + i : Nat) : Int) by
    obtain ⟨j, hj, q, hq⟩ := h
    exact ⟨j, hj, by rw [hq, pidHash_eq, Nat.mul_add_mod, Nat.mod_eq_of_lt hi]⟩
  have hle : 2 ^ k ≤ 2 ^ 14 := Nat.pow_le_pow_right (by decide) hk
  obtain ⟨c, hc⟩ : 2 ^ k ∣ 2 ^ 15 := Nat.pow_dvd_pow 2 (by omega)
  have hdiv := Nat.div_add_mod n (2 ^ k)
  have hmod := Nat.mod_lt n (Nat.two_pow_pos k)
  have hlt : n / 2 ^ k < c := Nat.div_lt_of_lt_mul (hc ▸ hn)
  have hend := Nat.mul_le_mul_left (2 ^ k) hlt
  rw [← hc, Nat.mul_succ] at hend
  rcases Nat.lt_or_ge (n % 2 ^ k) i with hgt | hge
  · refine ⟨i - n % 2 ^ k - 1, by omega, n / 2 ^ k, ?_⟩
    rw [nextPid_iterate hn _ (by omega), if_pos (by omega)]
    omega
  rcases Nat.lt_or_ge (n / 2 ^ k + 1) c with hnext | hlast
  · have hnext := Nat.mul_le_mul_left (2 ^ k) hnext
    rw [← hc, Nat.mul_succ, Nat.mul_succ] at hnext
    refine ⟨2 ^ k - n % 2 ^ k + i - 1, by omega, n / 2 ^ k + 1, ?_⟩
    rw [nextPid_iterate hn _ (by omega), if_pos (by omega), Nat.mul_succ]
    omega
  · -- the numbers that are left before 32768 and those from 1 on
    obtain rfl : n / 2 ^ k + 1 = c := by omega
    rw [Nat.mul_succ] at hc
    refine ⟨2 ^ k + i - 2 - n % 2 ^ k, by omega, 0, ?_⟩
    rw [nextPid_iterate hn _ (by omega), if_neg (by omega)]
    omega

/-- By induction on the tries: the first candidate whose slot is free is taken. -/
theorem assignLoop_spec (tcb : T) (tries : Nat) (s : Tasks T) :
    (∃ j < tries, ∃ pid, pid = nextPid^[j + 1] s.lastpid ∧ (s.pidhash (pidHash k pid)).tcb = none ∧
      assignLoop k tcb tries s = (some pid, { s with
        lastpid := pid
        pidhash := update s.pidhash (pidHash k pid) ⟨some tcb, pid⟩ })) ∨
    (∀ j < tries, (s.pidhash (pidHash k (nextPid^[j + 1] s.lastpid))).tcb ≠ none) ∧
      assignLoop k tcb tries s = (none, { s with lastpid := nextPid^[tries] s.lastpid }) := by
  induction tries generalizing s with
  | zero => exact .inr ⟨fun j hj => absurd hj (Nat.not_lt_zero j), rfl⟩
  | succ tries ih =>
    rw [assignLoop]
    split_ifs with hfree
    · exact .inl ⟨0, tries.succ_pos, _, rfl, Option.isNone_iff_eq_none.mp hfree, rfl⟩
    · rcases ih { s with lastpid := nextPid s.lastpid } with ⟨j, hj, pid, hpid, h⟩ | ⟨hall, h⟩
      · exact .inl ⟨j + 1, Nat.succ_lt_succ hj, pid, hpid, h⟩
      · refine .inr ⟨fun j hj => ?_, h⟩
        cases j with
        | zero => exact mt Option.isNone_iff_eq_none.mpr hfree
        | succ j => exact hall j (Nat.lt_of_succ_lt_succ hj)

theorem nextPid_mem (j : Nat) (x : Int) : 0 < nextPid^[j + 1] x ∧ nextPid^[j + 1] x < 32768 := by
  rw [iterate_succ_apply', nextPid, pidT]
  split_ifs <;> omega

/-- The slot of a pid gets another entry, when no other task is in it. -/
theorem Inv.replace (h : Inv k s) {pid last : Int} {e : Pidhash T} (hlast : 0 ≤ last ∧ last < 32768)
    (hpid : 0 ≤ pid) (hne : pidHash k pid ≠ 0)
    (hother : ∀ q ≠ pid, pidHash k q = pidHash k pid → nxschedGetTcb k s q = none)
    (he : e.pid ≠ pid → e.tcb = none) :
    Inv k ⟨last, update s.pidhash (pidHash k pid) e, update s.live pid e.tcb⟩ := by
  obtain ⟨idle, hidle⟩ := h.idle
  refine ⟨hlast, ⟨idle, (update_of_ne hne.symm ..).trans hidle⟩, funext fun q => ?_⟩
  rw [nxschedGetTcb, ← h.live]
  dsimp only
  by_cases hhash : pidHash k q = pidHash k pid
  · rw [hhash, update_self, Pidhash.get]
    by_cases hq : q = pid
    · rw [hq, update_self]
      split_ifs with heq
      · rfl
      · exact (he fun hp => heq ⟨hpid, hp.symm⟩).symm
    · rw [update_of_ne hq, hother q hq hhash]
      split_ifs with heq
      · exact he (heq.2 ▸ hq)
      · rfl
  · rw [update_of_ne hhash, update_of_ne fun hq => hhash (congrArg _ hq)]
    rfl

theorem getTcb_of_free {pid : Int} (h : (s.pidhash (pidHash k pid)).tcb = none) :
    nxschedGetTcb k s pid = none := by
  rw [nxschedGetTcb, Pidhash.get, h, ite_self]

theorem Inv.step (h : Inv k s) (event : Event T) : Inv k (s.step k event) := by
  obtain ⟨idle, hidle⟩ := h.idle
  cases event with
  | create tcb =>
    rw [Tasks.step, nxtaskAssignPid]
    rcases assignLoop_spec (k := k) tcb (2 ^ k) s with ⟨j, -, pid, hpid, hfree, heq⟩ | ⟨-, heq⟩
    · rw [heq]
      have hmem := hpid ▸ nextPid_mem j s.lastpid
      refine h.replace ⟨Int.le_of_lt hmem.1, hmem.2⟩ (Int.le_of_lt hmem.1) (fun hzero => ?_)
        (fun q _ hq => getTcb_of_free (hq ▸ hfree)) fun hne => absurd rfl hne
      rw [hzero, hidle] at hfree
      cases hfree
    · rw [heq]
      obtain ⟨m, hm⟩ := Nat.exists_eq_add_one.mpr (Nat.two_pow_pos k)
      have hmem := hm ▸ nextPid_mem m s.lastpid
      exact ⟨⟨Int.le_of_lt hmem.1, hmem.2⟩, h.idle, h.live⟩
  | exit pid =>
    rw [Tasks.step]
    split_ifs with hlive
    · obtain ⟨hsome, hne⟩ := hlive
      rw [← h.live, nxschedGetTcb, Pidhash.get] at hsome
      split_ifs at hsome with hpid
      · refine h.replace h.last hpid.1 (fun hzero => ?_) (fun q hq hhash => ?_) fun _ => rfl
        · rw [hzero, hidle] at hpid
          exact hne hpid.2
        · rw [nxschedGetTcb, hhash, Pidhash.get, if_neg fun heq => hq (heq.2.trans hpid.2.symm)]
      · cases hsome
    · exact h

theorem inv_start (idle : T) (lastpid : Fin 32768) : Inv k (.start idle lastpid) := by
  refine ⟨⟨Int.natCast_nonneg _, Int.ofNat_lt.mpr lastpid.isLt⟩, ⟨idle, rfl⟩, funext fun pid => ?_⟩
  simp only [nxschedGetTcb, Tasks.start, update_apply]
  by_cases hzero : pid = 0
  · rw [hzero, if_pos (pidHash_eq 0 ▸ Nat.zero_mod _), if_pos rfl]
    rfl
  · rw [if_neg hzero]
    split_ifs
    · exact if_neg fun h => hzero h.2
    · exact ite_self none

/-- **Pids are unique and can be got**: after every sequence of creations and exits, a pid is refused
exactly if every slot is occupied, a new pid is positive and belongs to no task, and a task is found by
its pid. -/
theorem pids_exact (k : Fin 15) (idle : T) (lastpid : Fin 32768) (events : List (Event T)) :
    let s := events.foldl (Tasks.step k.val) (.start idle lastpid)
    (∀ tcb, ((nxtaskAssignPid k s tcb).1 = none ↔ ∀ i < 2 ^ k.val, (s.pidhash i).tcb ≠ none) ∧
      ∀ pid, (nxtaskAssignPid k s tcb).1 = some pid → 0 < pid ∧ s.live pid = none) ∧
    ∀ pid, nxschedGetTcb k s pid = s.live pid := by
  intro s
  have h : Inv k s := List.foldlRecOn events _ (inv_start idle lastpid) fun s h event _ => h.step event
  obtain ⟨idle, hidle⟩ := h.idle
  obtain ⟨n, hn⟩ := Int.eq_ofNat_of_zero_le h.last.1
  have hlast := h.last.2
  refine ⟨fun tcb => ?_, congrFun h.live⟩
  rcases assignLoop_spec (k := k) tcb (2 ^ k.val) s with ⟨j, -, pid, hpid, hfree, heq⟩ | ⟨hall, heq⟩
  · rw [nxtaskAssignPid, heq]
    refine ⟨iff_of_false (fun h => by cases h) fun h => h _ ?_ hfree, ?_⟩
    · exact Nat.lt_of_le_of_lt Nat.and_le_right (Nat.sub_lt (Nat.two_pow_pos _) Nat.one_pos)
    · rintro _ ⟨⟩
      exact ⟨hpid ▸ (nextPid_mem ..).1, h.live ▸ getTcb_of_free hfree⟩
  · rw [nxtaskAssignPid, heq]
    refine ⟨iff_of_true rfl fun i hi => ?_, fun _ h => by cases h⟩
    rcases Nat.eq_zero_or_pos i with rfl | hpos
    · rw [hidle]
      exact Option.some_ne_none idle
    · obtain ⟨j, hj, rfl⟩ := exists_nextPid (n := n) (by omega) (by omega) hpos hi
      exact hn ▸ hall j hj

end Nuttx.Task

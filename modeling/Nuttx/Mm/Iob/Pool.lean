import Nuttx.Include.Assert
import Mathlib.Data.List.Basic

/-!
# The pool of I/O buffers

`iob_initialize`, `iob_tryalloc`, `iob_alloc` and `iob_free` over the two free lists and the two
counting semaphores, by any number of tasks and interrupt handlers. A step is a piece of one of the
functions that no other task can interrupt: the functions run in a critical section, which is given up
where they wait on a semaphore or post one. The buffers are numbered.
-/

namespace Nuttx.Mm

namespace IobPool

def semValueMax : Nat := 0x7fff

/-- `CONFIG_IOB_NBUFFERS` and `CONFIG_IOB_THROTTLE`, which must be the smaller. The semaphores count
all buffers. -/
structure Config where
  nbuffers : Nat
  throttle : Nat
  throttle_lt : throttle < nbuffers
  nbuffers_le : nbuffers ≤ semValueMax

/-- `g_iob_sem` and `g_throttle_sem`. -/
inductive Sem
  | iob
  | throttle
  deriving DecidableEq, Repr

/-- Where a task is. -/
inductive Phase
  /-- in none of the functions, or where they do not give up the critical section -/
  | out
  /-- in `iob_allocwait`, about to wait for the semaphore -/
  | again (throttled : Bool)
  /-- in `iob_allocwait`, waiting for the semaphore -/
  | waiting (throttled : Bool)
  /-- in `iob_allocwait`, with a count of the semaphore, about to look at the committed list -/
  | woken (throttled : Bool)
  /-- in `iob_allocwait`, after the count was given back -/
  | posted (throttled : Bool)
  /-- in `iob_free`, between the two posts -/
  | freeing
  deriving DecidableEq, Repr

end IobPool

open IobPool in
structure IobPool where
  freelist : List Nat
  committed : List Nat
  iobSem : Int
  throttleSem : Int
  held : List (Nat × Nat)
  tasks : List Phase
  deriving DecidableEq, Repr

namespace IobPool

inductive Assertion
  | tryallocIobSem
  | tryallocThrottleSem
  | freeIobSem
  | freeThrottleSem
  deriving DecidableEq, Repr

/-- Why a step does not take place: the task is somewhere else, or an assertion fails. -/
inductive Stop
  | disabled
  | assertion (site : Assertion)
  deriving DecidableEq, Repr

def iobInitialize (cfg : Config) (ntasks : Nat) : IobPool where
  freelist := (List.range cfg.nbuffers).reverse
  committed := []
  iobSem := cfg.nbuffers
  throttleSem := cfg.nbuffers - cfg.throttle
  held := []
  tasks := List.replicate ntasks .out

def semOf (cfg : Config) (throttled : Bool) : Sem :=
  if cfg.throttle > 0 then (if throttled then .throttle else .iob) else .iob

def semcount (s : IobPool) : Sem → Int
  | .iob => s.iobSem
  | .throttle => s.throttleSem

def addSemcount (s : IobPool) (sem : Sem) (n : Int) : IobPool :=
  match sem with
  | .iob => { s with iobSem := s.iobSem + n }
  | .throttle => { s with throttleSem := s.throttleSem + n }

def waitsOn (cfg : Config) (sem : Sem) : Phase → Bool
  | .waiting throttled => semOf cfg throttled = sem
  | _ => false

def wokenOn (cfg : Config) (sem : Sem) : Phase → Bool
  | .woken throttled => semOf cfg throttled = sem
  | _ => false

def nxsemPost (cfg : Config) (s : IobPool) (sem : Sem) (wake : Nat) : Except Stop IobPool :=
  if s.semcount sem ≥ semValueMax then
    .ok s
  else
    let s := s.addSemcount sem 1
    if s.semcount sem ≤ 0 ∧ s.tasks.any (waitsOn cfg sem) then
      match s.tasks[wake]? with
      | some (.waiting throttled) =>
        if semOf cfg throttled = sem then
          .ok { s with tasks := s.tasks.set wake (.woken throttled) }
        else
          .error .disabled
      | _ => .error .disabled
    else
      .ok s

def nxsemWait (cfg : Config) (s : IobPool) (task : Nat) (throttled : Bool) : IobPool :=
  let sem := semOf cfg throttled
  let phase := if s.semcount sem > 0 then Phase.woken throttled else Phase.waiting throttled
  let s := s.addSemcount sem (-1)
  { s with tasks := s.tasks.set task phase }

def assert (debug : Bool) (site : Assertion) (holds : Bool) : Except Stop Unit :=
  debugAssert debug (.assertion site) holds

def iobTryalloc (debug : Bool) (cfg : Config) (s : IobPool) (throttled : Bool) :
    Except Stop (Option Nat × IobPool) :=
  if cfg.throttle > 0 ∧ ¬ s.semcount (semOf cfg throttled) > 0 then
    .ok (none, s)
  else
    match s.freelist with
    | [] => .ok (none, s)
    | iob :: rest => do
        let s := { s with freelist := rest, iobSem := s.iobSem - 1 }
        assert debug .tryallocIobSem (s.iobSem ≥ 0)
        if cfg.throttle > 0 then
          let s := { s with throttleSem := s.throttleSem - 1 }
          assert debug .tryallocThrottleSem (s.throttleSem ≥ -(cfg.throttle : Int))
          return (some iob, s)
        else
          return (some iob, s)

def hand (s : IobPool) (task : Nat) (iob : Option Nat) (phase : Phase) : IobPool :=
  match iob with
  | some iob => { s with held := (task, iob) :: s.held, tasks := s.tasks.set task .out }
  | none => { s with tasks := s.tasks.set task phase }

/-- A task that has a count takes a buffer of the committed list. Without one it gives its count
back. -/
def allocCommitted (cfg : Config) (s : IobPool) (task : Nat) (throttled : Bool) (wake : Nat) :
    Except Stop IobPool :=
  match s.committed with
  | iob :: rest =>
    let s := { s with committed := rest }
    let s :=
      if cfg.throttle > 0 then
        if throttled then
          { s with iobSem := s.iobSem - 1 }
        else
          { s with throttleSem := s.throttleSem - 1 }
      else
        s
    .ok (s.hand task (some iob) .out)
  | [] => nxsemPost cfg { s with tasks := s.tasks.set task (.posted throttled) } (semOf cfg throttled) wake

def iobFree (debug : Bool) (cfg : Config) (s : IobPool) (task iob wake : Nat) : Except Stop IobPool := do
  let s :=
    if s.iobSem < 0 then
      { s with committed := iob :: s.committed }
    else
      { s with freelist := iob :: s.freelist }
  let s := { s with tasks := s.tasks.set task (if cfg.throttle > 0 then .freeing else .out) }
  let s ← nxsemPost cfg s .iob wake
  assert debug .freeIobSem (s.iobSem ≤ cfg.nbuffers)
  return s

def iobFreeThrottle (debug : Bool) (cfg : Config) (s : IobPool) (task wake : Nat) : Except Stop IobPool := do
  let s := { s with tasks := s.tasks.set task .out }
  let s ← nxsemPost cfg s .throttle wake
  assert debug .freeThrottleSem (s.throttleSem ≤ cfg.nbuffers - cfg.throttle)
  return s

inductive Event
  /-- `iob_tryalloc`, or `iob_alloc` by an interrupt handler or the idle task -/
  | tryalloc (task : Nat) (throttled : Bool)
  /-- `iob_alloc` by a task, up to the first wait -/
  | alloc (task : Nat) (throttled : Bool)
  /-- a task waits for the semaphore -/
  | wait (task : Nat)
  /-- a waiting task is woken by a signal; it will wait again -/
  | signal (task : Nat)
  /-- a task with a count looks at the committed list -/
  | resume (task wake : Nat)
  /-- a task that gave its count back tries again -/
  | retry (task : Nat)
  /-- `iob_free` of a buffer by whoever holds it -/
  | free (task holder iob wake : Nat)
  /-- `iob_free` goes on -/
  | freeThrottle (task wake : Nat)
  deriving DecidableEq, Repr

def step (debug : Bool) (cfg : Config) (s : IobPool) : Event → Except Stop IobPool
  | .tryalloc task throttled =>
    if s.tasks[task]? = some .out then do
      let (iob, s) ← iobTryalloc debug cfg s throttled
      return s.hand task iob .out
    else
      .error .disabled
  | .alloc task throttled =>
    if s.tasks[task]? = some .out then do
      let (iob, s) ← iobTryalloc debug cfg s throttled
      return s.hand task iob (.again throttled)
    else
      .error .disabled
  | .wait task =>
    match s.tasks[task]? with
    | some (.again throttled) => .ok (nxsemWait cfg s task throttled)
    | _ => .error .disabled
  | .signal task =>
    match s.tasks[task]? with
    | some (.waiting throttled) =>
      let s := s.addSemcount (semOf cfg throttled) 1
      .ok { s with tasks := s.tasks.set task (.again throttled) }
    | _ => .error .disabled
  | .resume task wake =>
    match s.tasks[task]? with
    | some (.woken throttled) => allocCommitted cfg s task throttled wake
    | _ => .error .disabled
  | .retry task =>
    match s.tasks[task]? with
    | some (.posted throttled) => do
        let (iob, s) ← iobTryalloc debug cfg s throttled
        return s.hand task iob (.again throttled)
    | _ => .error .disabled
  | .free task holder iob wake =>
    if s.tasks[task]? = some .out ∧ (holder, iob) ∈ s.held then
      iobFree debug cfg { s with held := s.held.erase (holder, iob) } task iob wake
    else
      .error .disabled
  | .freeThrottle task wake =>
    if s.tasks[task]? = some .freeing then
      iobFreeThrottle debug cfg s task wake
    else
      .error .disabled

def run (debug : Bool) (cfg : Config) (s : IobPool) (es : List Event) : Except Stop IobPool :=
  es.foldlM (step debug cfg) s

end IobPool

end Nuttx.Mm

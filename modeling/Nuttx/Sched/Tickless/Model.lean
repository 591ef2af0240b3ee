import Mathlib.Data.BitVec

/-!
# Time without a periodic tick

With `CONFIG_SCHED_TICKLESS_ALARM` an alarm wakes the scheduler. It finds out how many ticks have
passed since `g_stop_time`, hands them to `nxsched_timer_process` and moves `g_stop_time` on. A `time_t`
is a `uint32_t`; the nanoseconds are a `long`, which has room for two seconds of them.
-/

namespace Nuttx.Tickless

def nsecPerSec : Nat := 1000000000

structure Config where
  usecPerTick : Nat
  haveLongLong : Bool
  longBits : Nat
  intBits : Nat

namespace Config

variable (cfg : Config)

def nsecPerTick : Nat := cfg.usecPerTick * 1000

def msecPerTick : Nat := cfg.usecPerTick / 1000

def wordBits : Nat := if cfg.haveLongLong then 64 else cfg.longBits

def roundDiv (x unit : Nat) : Nat :=
  (x % 2 ^ cfg.wordBits + unit / 2) % 2 ^ cfg.wordBits / unit

def sec2tick (sec : Nat) : Nat :=
  if cfg.msecPerTick * 1000 = cfg.usecPerTick then cfg.roundDiv (sec * 1000) cfg.msecPerTick
  else cfg.roundDiv (sec * 1000 * 1000) cfg.usecPerTick

end Config

structure Timespec where
  sec : UInt32
  nsec : Int
  deriving DecidableEq, Repr

def clockTimespecSubtract (ts1 ts2 : Timespec) : Timespec :=
  if ts1.sec < ts2.sec then ⟨0, 0⟩
  else if ts1.sec = ts2.sec ∧ ts1.nsec ≤ ts2.nsec then ⟨0, 0⟩
  else if ts1.nsec < ts2.nsec then
    ⟨ts1.sec - ts2.sec - 1, ts1.nsec + nsecPerSec - ts2.nsec⟩
  else ⟨ts1.sec - ts2.sec, ts1.nsec - ts2.nsec⟩

def elapsed (cfg : Config) (delta : Timespec) : Nat :=
  (cfg.sec2tick delta.sec.toNat % 2 ^ cfg.intBits + (delta.nsec / cfg.nsecPerTick).toNat) %
    2 ^ cfg.intBits

def correct (cfg : Config) (ts delta : Timespec) : Timespec :=
  let nsec := ts.nsec - delta.nsec % cfg.nsecPerTick
  if nsec < 0 then ⟨ts.sec - 1, nsec + nsecPerSec⟩ else ⟨ts.sec, nsec⟩

/-- `nxsched_alarm_expiration` at the time `ts`: the ticks for `nxsched_timer_process`, and
`g_stop_time`. -/
def nxschedAlarmExpiration (cfg : Config) (stopTime ts : Timespec) : Nat × Timespec :=
  let delta := clockTimespecSubtract ts stopTime
  (elapsed cfg delta, correct cfg ts delta)

def nxschedCancelTimer (cfg : Config) (stopTime now : Timespec) : Nat × Timespec :=
  let ts := stopTime
  let stopTime := now
  let ts := clockTimespecSubtract stopTime ts
  (elapsed cfg ts, correct cfg stopTime ts)

/-- A call, with the time at which it is made. -/
inductive Call
  | alarmExpiration (ts : Timespec)
  | cancelTimer (now : Timespec)
  deriving DecidableEq, Repr

def Call.time : Call → Timespec
  | .alarmExpiration ts => ts
  | .cancelTimer now => now

def step (cfg : Config) (stopTime : Timespec) : Call → Nat × Timespec
  | .alarmExpiration ts => nxschedAlarmExpiration cfg stopTime ts
  | .cancelTimer now => nxschedCancelTimer cfg stopTime now

def run (cfg : Config) (stopTime : Timespec) : List Call → Nat × Timespec
  | [] => (0, stopTime)
  | c :: cs =>
    let first := step cfg stopTime c
    let rest := run cfg first.2 cs
    (first.1 + rest.1, rest.2)

def Timespec.Normalised (ts : Timespec) : Prop := 0 ≤ ts.nsec ∧ ts.nsec < nsecPerSec

instance (ts : Timespec) : Decidable ts.Normalised := inferInstanceAs (Decidable (_ ∧ _))

def Timespec.toNsec (ts : Timespec) : Int := ts.sec.toNat * nsecPerSec + ts.nsec

def TicksFit (cfg : Config) : Timespec → List Call → Prop
  | _, [] => True
  | stopTime, c :: cs =>
    (c.time.toNsec - stopTime.toNsec) / cfg.nsecPerTick < 2 ^ cfg.intBits ∧
      TicksFit cfg (step cfg stopTime c).2 cs

def SecFits (cfg : Config) (sec : Nat) : Prop :=
  if cfg.msecPerTick * 1000 = cfg.usecPerTick then
    sec * 1000 + cfg.msecPerTick / 2 < 2 ^ cfg.wordBits
  else sec * 1000 * 1000 + cfg.usecPerTick / 2 < 2 ^ cfg.wordBits

def SecsFit (cfg : Config) : Timespec → List Call → Prop
  | _, [] => True
  | stopTime, c :: cs =>
    SecFits cfg (clockTimespecSubtract c.time stopTime).sec.toNat ∧
      SecsFit cfg (step cfg stopTime c).2 cs

/-- No time is lost: the ticks handed out are those that have passed, and `g_stop_time` is that many
ticks after the start. -/
structure Right (cfg : Config) (t0 : Timespec) (cs : List Call) : Prop where
  ticks : ((run cfg t0 cs).1 : Int) =
    (((cs.map Call.time).getLastD t0).toNsec - t0.toNsec) / cfg.nsecPerTick
  normalised : (run cfg t0 cs).2.Normalised
  stopTime : (run cfg t0 cs).2.toNsec = t0.toNsec + (run cfg t0 cs).1 * cfg.nsecPerTick

end Nuttx.Tickless

import Nuttx.Sched.Tickless.Model

/-!
# No time is lost

Each call hands out the whole ticks since `g_stop_time` and moves `g_stop_time` on by as many, so
the sum telescopes.
-/

open List

namespace Nuttx.Tickless

structure Config.Valid (cfg : Config) : Prop where
  dvd : cfg.nsecPerTick ∣ nsecPerSec
  long : 32 ≤ cfg.longBits

variable {cfg : Config}

def Config.ticksPerSec (cfg : Config) : Nat := nsecPerSec / cfg.nsecPerTick

namespace Config

section

variable (h : cfg.Valid)
include h

theorem Valid.nsecPerTick_pos : 0 < cfg.nsecPerTick :=
  Nat.pos_of_dvd_of_pos h.dvd (by decide)

theorem Valid.nsecPerTick_mul : cfg.nsecPerTick * cfg.ticksPerSec = nsecPerSec :=
  Nat.mul_div_cancel' h.dvd

theorem Valid.usecPerTick_mul : cfg.usecPerTick * cfg.ticksPerSec = 1000000 := by
  have hmul := h.nsecPerTick_mul
  rw [nsecPerTick, Nat.mul_right_comm] at hmul
  exact Nat.eq_of_mul_eq_mul_right (by decide : 0 < 1000) hmul

theorem Valid.usecPerTick_pos : 0 < cfg.usecPerTick := by
  have hpos := h.nsecPerTick_pos
  rw [nsecPerTick] at hpos
  omega

theorem Valid.usecPerTick_le : cfg.usecPerTick ≤ 1000000 :=
  Nat.le_of_dvd (by decide) ⟨_, h.usecPerTick_mul.symm⟩

theorem Valid.two_pow_le : 2 ^ 32 ≤ 2 ^ cfg.wordBits := by
  apply Nat.pow_le_pow_right (by decide)
  have hlong := h.long
  rw [wordBits]
  split_ifs <;> omega

end

theorem roundDiv_eq {x unit k : Nat} (hx : x = k * unit) (hunit : 0 < unit)
    (hfits : x + unit / 2 < 2 ^ cfg.wordBits) : cfg.roundDiv x unit = k := by
  have hlt : x < 2 ^ cfg.wordBits := Nat.lt_of_le_of_lt (Nat.le_add_right _ _) hfits
  have hhalf : unit / 2 < unit := Nat.div_lt_self hunit (by decide)
  rw [roundDiv, Nat.mod_eq_of_lt hlt, Nat.mod_eq_of_lt hfits, hx, Nat.mul_comm,
    Nat.mul_add_div hunit, Nat.div_eq_of_lt hhalf, Nat.add_zero]

theorem roundDiv_lt {x unit k : Nat} (hx : x = k * unit) (hunit : 0 < unit)
    (hsmall : unit / 2 < 2 ^ cfg.wordBits) (hover : ¬ x + unit / 2 < 2 ^ cfg.wordBits) :
    cfg.roundDiv x unit < k := by
  rw [roundDiv, Nat.div_lt_iff_lt_mul hunit, ← hx, Nat.mod_add_mod]
  have hsub : (x + unit / 2) % 2 ^ cfg.wordBits ≤ x + unit / 2 - 2 ^ cfg.wordBits := by
    rw [Nat.mod_eq_sub_mod (not_lt.mp hover)]
    exact Nat.mod_le _ _
  omega

theorem Valid.msecPerTick_mul (h : cfg.Valid) (hmsec : cfg.msecPerTick * 1000 = cfg.usecPerTick)
    (sec : Nat) : sec * 1000 = sec * cfg.ticksPerSec * cfg.msecPerTick := by
  have hmul := h.usecPerTick_mul
  rw [← hmsec, Nat.mul_right_comm] at hmul
  have hthousand : cfg.msecPerTick * cfg.ticksPerSec = 1000 := by omega
  rw [Nat.mul_assoc, Nat.mul_comm cfg.ticksPerSec, hthousand]

theorem Valid.usec_mul (h : cfg.Valid) (sec : Nat) :
    sec * 1000 * 1000 = sec * cfg.ticksPerSec * cfg.usecPerTick := by
  rw [Nat.mul_assoc sec cfg.ticksPerSec, Nat.mul_comm cfg.ticksPerSec, h.usecPerTick_mul]
  omega

theorem Valid.sec2tick_eq (h : cfg.Valid) {sec : Nat} (hfits : SecFits cfg sec) :
    cfg.sec2tick sec = sec * cfg.ticksPerSec := by
  have hpos := h.usecPerTick_pos
  rw [sec2tick]
  rw [SecFits] at hfits
  split_ifs at hfits ⊢ with hmsec
  · exact roundDiv_eq (h.msecPerTick_mul hmsec sec) (by omega) hfits
  · exact roundDiv_eq (h.usec_mul sec) hpos hfits

theorem Valid.sec2tick_lt (h : cfg.Valid) {sec : Nat} (hfits : ¬ SecFits cfg sec) :
    cfg.sec2tick sec < sec * cfg.ticksPerSec := by
  have hpos := h.usecPerTick_pos
  have hle := h.usecPerTick_le
  have hword := h.two_pow_le
  rw [sec2tick]
  rw [SecFits] at hfits
  split_ifs at hfits ⊢ with hmsec
  · exact roundDiv_lt (h.msecPerTick_mul hmsec sec) (by omega) (by omega) hfits
  · exact roundDiv_lt (h.usec_mul sec) hpos (by omega) hfits

end Config

variable {ts stopTime delta : Timespec}

theorem Timespec.Normalised.toNsec_nonneg (h : ts.Normalised) : 0 ≤ ts.toNsec := by
  have hnsec := h.1
  simp only [toNsec, nsecPerSec]
  omega

theorem clockTimespecSubtract_spec (hts : ts.Normalised) (hstop : stopTime.Normalised)
    (hle : stopTime.toNsec ≤ ts.toNsec) :
    (clockTimespecSubtract ts stopTime).Normalised ∧
      (clockTimespecSubtract ts stopTime).toNsec = ts.toNsec - stopTime.toNsec := by
  obtain ⟨hts0, hts1⟩ := hts
  obtain ⟨hstop0, hstop1⟩ := hstop
  rw [Timespec.toNsec, Timespec.toNsec] at hle
  rw [clockTimespecSubtract]
  simp only [nsecPerSec] at hts1 hstop1 hle
  split_ifs with hsec heq hnsec
  · rw [UInt32.lt_iff_toNat_lt] at hsec
    omega
  · obtain ⟨hsec, hnsec⟩ := heq
    rw [hsec] at hle
    simp only [Timespec.Normalised, Timespec.toNsec, nsecPerSec, hsec]
    rw [show (0 : UInt32).toNat = 0 from rfl]
    omega
  · rw [UInt32.lt_iff_toNat_lt] at hsec
    have hsub : (ts.sec - stopTime.sec).toNat = ts.sec.toNat - stopTime.sec.toNat :=
      UInt32.toNat_sub_of_le _ _ (UInt32.le_iff_toNat_le.mpr (by omega))
    have hone : (ts.sec - stopTime.sec - 1).toNat = ts.sec.toNat - stopTime.sec.toNat - 1 := by
      rw [UInt32.toNat_sub_of_le _ _ (UInt32.le_iff_toNat_le.mpr ?_), hsub]
      · rfl
      · rw [hsub, show (1 : UInt32).toNat = 1 from rfl]
        omega
    simp only [Timespec.Normalised, Timespec.toNsec, nsecPerSec, hone]
    omega
  · rw [UInt32.lt_iff_toNat_lt] at hsec
    have hsub : (ts.sec - stopTime.sec).toNat = ts.sec.toNat - stopTime.sec.toNat :=
      UInt32.toNat_sub_of_le _ _ (UInt32.le_iff_toNat_le.mpr (by omega))
    simp only [Timespec.Normalised, Timespec.toNsec, nsecPerSec, hsub]
    omega

section

variable (h : cfg.Valid)
include h

theorem Config.Valid.sec_mul (sec : Nat) :
    (sec * nsecPerSec : Int) = cfg.nsecPerTick * (sec * cfg.ticksPerSec : Nat) := by
  have hnat : sec * nsecPerSec = cfg.nsecPerTick * (sec * cfg.ticksPerSec) := by
    rw [Nat.mul_left_comm, h.nsecPerTick_mul]
  exact_mod_cast hnat

theorem Config.Valid.toNsec_emod (delta : Timespec) :
    delta.toNsec % cfg.nsecPerTick = delta.nsec % cfg.nsecPerTick := by
  rw [Timespec.toNsec, h.sec_mul, Int.mul_add_emod_self_left]

theorem correct_spec (hts : ts.Normalised) (hdelta : delta.Normalised)
    (hle : delta.toNsec ≤ ts.toNsec) :
    (correct cfg ts delta).Normalised ∧
      (correct cfg ts delta).toNsec = ts.toNsec - delta.nsec % cfg.nsecPerTick := by
  have hpos := h.nsecPerTick_pos
  have hmod0 : 0 ≤ delta.nsec % cfg.nsecPerTick := Int.emod_nonneg _ (by omega)
  have hmod1 : delta.nsec % cfg.nsecPerTick ≤ delta.nsec := by
    have hquot : 0 ≤ cfg.nsecPerTick * (delta.nsec / cfg.nsecPerTick) :=
      Int.mul_nonneg (by omega) (Int.ediv_nonneg hdelta.1 (by omega))
    have hsplit := Int.mul_ediv_add_emod delta.nsec cfg.nsecPerTick
    omega
  obtain ⟨hts0, hts1⟩ := hts
  have hnsec := hdelta.2
  rw [Timespec.toNsec, Timespec.toNsec] at hle
  simp only [nsecPerSec] at hts1 hnsec hle
  rw [correct]
  split_ifs with hneg
  · have hone : (ts.sec - 1).toNat = ts.sec.toNat - 1 := by
      rw [UInt32.toNat_sub_of_le _ _ (UInt32.le_iff_toNat_le.mpr ?_)]
      · rfl
      · rw [show (1 : UInt32).toNat = 1 from rfl]
        omega
    simp only [Timespec.Normalised, Timespec.toNsec, nsecPerSec, hone]
    omega
  · simp only [Timespec.Normalised, Timespec.toNsec, nsecPerSec]
    omega

theorem elapsed_le (hdelta : delta.Normalised)
    (hfits : delta.toNsec / cfg.nsecPerTick < 2 ^ cfg.intBits) :
    (elapsed cfg delta : Int) ≤ delta.toNsec / cfg.nsecPerTick ∧
      ((elapsed cfg delta : Int) = delta.toNsec / cfg.nsecPerTick ↔
        SecFits cfg delta.sec.toNat) := by
  obtain ⟨n, hn⟩ := Int.eq_ofNat_of_zero_le
    (Int.ediv_nonneg hdelta.1 (Int.natCast_nonneg cfg.nsecPerTick))
  have htotal : delta.toNsec / cfg.nsecPerTick = (delta.sec.toNat * cfg.ticksPerSec + n : Nat) := by
    have hpos := h.nsecPerTick_pos
    rw [Timespec.toNsec, h.sec_mul, Int.mul_add_ediv_left _ _ (by omega), hn]
    rfl
  have hlt : delta.sec.toNat * cfg.ticksPerSec + n < 2 ^ cfg.intBits := by
    rw [htotal] at hfits
    exact_mod_cast hfits
  have helapsed : ∀ s, s ≤ delta.sec.toNat * cfg.ticksPerSec → cfg.sec2tick delta.sec.toNat = s →
      elapsed cfg delta = s + n := by
    intro s hs hsec
    have hsum : s + n < 2 ^ cfg.intBits := by omega
    have hword : s < 2 ^ cfg.intBits := by omega
    rw [elapsed, hsec, hn, Int.toNat_natCast, Nat.mod_eq_of_lt hword, Nat.mod_eq_of_lt hsum]
  rw [htotal]
  by_cases hsec : SecFits cfg delta.sec.toNat
  · rw [helapsed _ le_rfl (h.sec2tick_eq hsec)]
    exact ⟨Int.le_refl _, fun _ => hsec, fun _ => rfl⟩
  have hless := h.sec2tick_lt hsec
  rw [helapsed _ hless.le rfl]
  refine ⟨by omega, fun heq => ?_, fun habs => absurd habs hsec⟩
  omega

theorem step_spec {c : Call} (hts : c.time.Normalised) (hstop : stopTime.Normalised)
    (hle : stopTime.toNsec ≤ c.time.toNsec) :
    (step cfg stopTime c).2.Normalised ∧
      (step cfg stopTime c).2.toNsec = stopTime.toNsec +
        (c.time.toNsec - stopTime.toNsec) / cfg.nsecPerTick * cfg.nsecPerTick := by
  have hstep : (step cfg stopTime c).2 =
      correct cfg c.time (clockTimespecSubtract c.time stopTime) := by cases c <;> rfl
  obtain ⟨hdelta, hsub⟩ := clockTimespecSubtract_spec hts hstop hle
  have hnonneg := hstop.toNsec_nonneg
  obtain ⟨hnorm, hcorrect⟩ := correct_spec h hts hdelta (by omega)
  rw [hstep]
  refine ⟨hnorm, ?_⟩
  have hmod := h.toNsec_emod (clockTimespecSubtract c.time stopTime)
  have hdiv := Int.mul_ediv_add_emod (c.time.toNsec - stopTime.toNsec) cfg.nsecPerTick
  rw [hcorrect, ← hmod, hsub, Int.mul_comm ((c.time.toNsec - stopTime.toNsec) / _)]
  omega

theorem step_ticks {c : Call} (hts : c.time.Normalised) (hstop : stopTime.Normalised)
    (hle : stopTime.toNsec ≤ c.time.toNsec)
    (hfits : (c.time.toNsec - stopTime.toNsec) / cfg.nsecPerTick < 2 ^ cfg.intBits) :
    ((step cfg stopTime c).1 : Int) ≤ (c.time.toNsec - stopTime.toNsec) / cfg.nsecPerTick ∧
      (((step cfg stopTime c).1 : Int) = (c.time.toNsec - stopTime.toNsec) / cfg.nsecPerTick ↔
        SecFits cfg (clockTimespecSubtract c.time stopTime).sec.toNat) := by
  have hstep : (step cfg stopTime c).1 = elapsed cfg (clockTimespecSubtract c.time stopTime) := by
    cases c <;> rfl
  obtain ⟨hdelta, hsub⟩ := clockTimespecSubtract_spec hts hstop hle
  rw [hstep, ← hsub]
  exact elapsed_le h hdelta (hsub ▸ hfits)

end

def Nondecreasing (times : List Timespec) : Prop :=
  times.Pairwise fun a b => a.toNsec ≤ b.toNsec

theorem run_spec (h : cfg.Valid) {last : Timespec} {cs : List Call} (hstop : stopTime.Normalised)
    (hlast0 : stopTime.toNsec ≤ last.toNsec)
    (hlast1 : last.toNsec < stopTime.toNsec + cfg.nsecPerTick)
    (hnorm : ∀ c ∈ cs, c.time.Normalised) (htimes : Nondecreasing (last :: cs.map Call.time))
    (hfits : TicksFit cfg stopTime cs) :
    (run cfg stopTime cs).2.Normalised ∧
      (run cfg stopTime cs).2.toNsec = stopTime.toNsec +
        (((cs.map Call.time).getLastD last).toNsec - stopTime.toNsec) / cfg.nsecPerTick *
          cfg.nsecPerTick ∧
      ((run cfg stopTime cs).1 : Int) ≤
        (((cs.map Call.time).getLastD last).toNsec - stopTime.toNsec) / cfg.nsecPerTick ∧
      (((run cfg stopTime cs).1 : Int) =
        (((cs.map Call.time).getLastD last).toNsec - stopTime.toNsec) / cfg.nsecPerTick ↔
          SecsFit cfg stopTime cs) := by
  induction cs generalizing stopTime last with
  | nil =>
    have hzero : (last.toNsec - stopTime.toNsec) / cfg.nsecPerTick = 0 :=
      Int.ediv_eq_zero_of_lt (by omega) (by omega)
    rw [map_nil, getLastD_nil, hzero]
    refine ⟨hstop, ?_, Int.le_refl _, fun _ => trivial, fun _ => rfl⟩
    rw [Int.zero_mul, Int.add_zero]
    rfl
  | cons c cs ih =>
    rw [map_cons] at htimes ⊢
    obtain ⟨hfrom, hrest⟩ := pairwise_cons.mp htimes
    have hts := hnorm c mem_cons_self
    have hle : stopTime.toNsec ≤ c.time.toNsec :=
      Int.le_trans hlast0 (hfrom _ mem_cons_self)
    obtain ⟨hnext, hmoved⟩ := step_spec h hts hstop hle
    obtain ⟨hless, hexact⟩ := step_ticks h hts hstop hle hfits.1
    have hsplit := Int.mul_ediv_add_emod (c.time.toNsec - stopTime.toNsec) cfg.nsecPerTick
    have hmod0 := Int.emod_nonneg (c.time.toNsec - stopTime.toNsec)
      (show (cfg.nsecPerTick : Int) ≠ 0 by omega)
    have hmod1 := Int.emod_lt_of_pos (c.time.toNsec - stopTime.toNsec)
      (show (0 : Int) < cfg.nsecPerTick by omega)
    rw [Int.mul_comm] at hsplit
    obtain ⟨hnormalised, hstopTime, hsum, hall⟩ := ih hnext (by omega) (by omega)
      (fun c hc => hnorm c (mem_cons_of_mem _ hc)) hrest hfits.2
    rw [getLastD_cons]
    -- the ticks of the first call and the ticks of the others
    have htelescope : ∀ t : Int, (t - (step cfg stopTime c).2.toNsec) / cfg.nsecPerTick =
        (t - stopTime.toNsec) / cfg.nsecPerTick -
          (c.time.toNsec - stopTime.toNsec) / cfg.nsecPerTick := by
      intro t
      rw [hmoved, ← Int.sub_sub, Int.sub_mul_ediv_right _ _ (by omega)]
    rw [htelescope] at hstopTime hsum hall
    refine ⟨hnormalised, ?_, ?_, ?_⟩
    · show (run cfg (step cfg stopTime c).2 cs).2.toNsec = _
      rw [hstopTime, hmoved, Int.sub_mul]
      omega
    · rw [run]
      omega
    · rw [run, SecsFit, ← hexact, ← hall]
      omega

theorem secsFit_of_haveLongLong (h : cfg.Valid) (hlong : cfg.haveLongLong = true)
    (stopTime : Timespec) (cs : List Call) : SecsFit cfg stopTime cs := by
  have hle := h.usecPerTick_le
  induction cs generalizing stopTime with
  | nil => exact trivial
  | cons c cs ih =>
    refine ⟨?_, ih _⟩
    have hsec := (clockTimespecSubtract c.time stopTime).sec.toNat_lt
    have hword : cfg.wordBits = 64 := by rw [Config.wordBits, if_pos hlong]
    rw [SecFits, hword]
    split_ifs <;> omega

/-- **No time is lost.** The ticks handed out are those that have passed exactly if the seconds of each
interval can be converted to ticks, and with `long long` they always can. -/
theorem ticks_right_iff (cfg : Config) (h : cfg.Valid) (t0 : Timespec) (cs : List Call)
    (ht0 : t0.Normalised) (hnorm : ∀ c ∈ cs, c.time.Normalised)
    (htimes : Nondecreasing (t0 :: cs.map Call.time)) (hfits : TicksFit cfg t0 cs) :
    (Right cfg t0 cs ↔ SecsFit cfg t0 cs) ∧ (cfg.haveLongLong = true → Right cfg t0 cs) := by
  have hpos := h.nsecPerTick_pos
  obtain ⟨hnormalised, hstopTime, -, hall⟩ :=
    run_spec h ht0 (Int.le_refl _) (by omega) hnorm htimes hfits
  have hright : SecsFit cfg t0 cs → Right cfg t0 cs := by
    intro hsecs
    have hticks := hall.mpr hsecs
    exact ⟨hticks, hnormalised, hticks ▸ hstopTime⟩
  exact ⟨⟨fun hright => hall.mp hright.ticks, hright⟩,
    fun hlong => hright (secsFit_of_haveLongLong h hlong t0 cs)⟩

/-- The second call borrows a second, in the difference of the times and in the correction. -/
def hours : List Call :=
  [.alarmExpiration ⟨0, 999999999⟩, .cancelTimer ⟨1, 5⟩, .alarmExpiration ⟨10800, 10000001⟩]

theorem ticks_right_iff_hours :
    (⟨10000, false, 32, 32⟩ : Config).Valid ∧ Right ⟨10000, false, 32, 32⟩ ⟨0, 0⟩ hours ∧
      run ⟨10000, false, 32, 32⟩ ⟨0, 0⟩ hours = (1080001, ⟨10800, 10000000⟩) := by
  have hvalid : (⟨10000, false, 32, 32⟩ : Config).Valid := ⟨by decide, by decide⟩
  have hticks : TicksFit ⟨10000, false, 32, 32⟩ ⟨0, 0⟩ hours := ⟨by decide, by decide, by decide, trivial⟩
  have hsecs : SecsFit ⟨10000, false, 32, 32⟩ ⟨0, 0⟩ hours := by
    refine ⟨?_, ?_, ?_, trivial⟩ <;> unfold SecFits <;> decide
  refine ⟨hvalid, (ticks_right_iff _ hvalid _ _ (by decide) (by decide) ?_ hticks).1.mpr hsecs, by decide⟩
  unfold Nondecreasing
  decide

theorem ticks_right_fifty_days :
    (⟨10000, false, 32, 32⟩ : Config).Valid ∧
      TicksFit ⟨10000, false, 32, 32⟩ ⟨0, 0⟩ [.alarmExpiration ⟨4294968, 0⟩] ∧
      ¬ Right ⟨10000, false, 32, 32⟩ ⟨0, 0⟩ [.alarmExpiration ⟨4294968, 0⟩] := by
  refine ⟨⟨by decide, by decide⟩, ⟨by decide, trivial⟩, fun hright => ?_⟩
  have hticks := hright.ticks
  revert hticks
  decide

end Nuttx.Tickless

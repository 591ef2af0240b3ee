import Nuttx.Drivers.Rwbuffer.Model
import Mathlib.Data.Nat.ModEq

/-!
# The buffers are transparent

What a reader of the layer sees is the write buffer over the device. The read-ahead buffer agrees with
the device outside of the write buffer; inside of it, its blocks may be old, which does no harm until
the write buffer is flushed.
-/

open Option

namespace Nuttx.Rwbuffer

open Stretch Extent

variable {Block : Type} {cfg : Config} {rwb : Rwb Block} {count : Nat} {b : Nat}

def Rwb.wr (rwb : Rwb Block) : Extent Block := ⟨rwb.wrblockstart, rwb.wrnblocks, rwb.wrbuffer⟩

def Rwb.rh (rwb : Rwb Block) : Extent Block := ⟨rwb.rhblockstart, rwb.rhnblocks, rwb.rhbuffer⟩

def Rwb.view (rwb : Rwb Block) : Nat → Block := rwb.wr.cover rwb.media

theorem mem_wr :
    rwb.wr.Mem b ↔ rwb.wrblockstart ≤ b ∧ (b : Int) < rwb.wrblockstart + rwb.wrnblocks := Iff.rfl

theorem mem_rh :
    rwb.rh.Mem b ↔ rwb.rhblockstart ≤ b ∧ (b : Int) < rwb.rhblockstart + rwb.rhnblocks := Iff.rfl

structure Inv (cfg : Config) (rwb : Rwb Block) : Prop where
  wr_fits : rwb.wrnblocks ≤ cfg.wrmaxblocks
  wr_start : 0 < rwb.wrnblocks → 0 ≤ rwb.wrblockstart
  wr_end : 0 < rwb.wrnblocks → rwb.wrblockstart + rwb.wrnblocks ≤ cfg.nblocks
  rh_fits : rwb.rhnblocks ≤ cfg.rhmaxblocks
  agrees : ∀ b, rwb.rh.Mem b → ¬ rwb.wr.Mem b → rwb.rh.value b = rwb.media b

def Config.Works (cfg : Config) : Prop :=
  ∀ startblock nblocks, startblock + nblocks ≤ cfg.nblocks →
    cfg.fault (.rhreload startblock nblocks) = none ∧ cfg.fault (.wrflush startblock nblocks) = none

theorem inside_of {size : Nat} {offset : Int} (hfirst : 0 ≤ offset)
    (hlast : offset + count ≤ size) : inside size offset count = some () := if_pos ⟨hfirst, hlast⟩

theorem not_mem_of_overlap {e f : Extent Block} (h : overlap e.start e.count f.start f.count = false)
    (hmem : e.Mem b) : ¬ f.Mem b := by
  intro hmem'
  unfold overlap at h
  unfold Mem at hmem hmem'
  simp only [Bool.not_eq_false', Bool.or_eq_true, decide_eq_true_eq] at h
  omega

/-- What reading ahead leaves: the read-ahead buffer as it was, or blocks of the device from
`startblock` on. -/
structure Reloaded (cfg : Config) (startblock : Nat) (rwb rwb' : Rwb Block) : Prop where
  media : rwb'.media = rwb.media
  wr : rwb'.wr = rwb.wr
  fits : rwb'.rhnblocks ≤ cfg.rhmaxblocks
  rh : rwb'.rh = rwb.rh ∨ ∀ b, rwb'.rh.Mem b → startblock ≤ b ∧ rwb'.rh.value b = rwb.media b

variable {startblock nblocks : Nat} {rwb' : Rwb Block}

variable (rwb) in
theorem rhreload_spec (hworks : cfg.Works) (hblock : startblock < cfg.nblocks) :
    ∃ ret rwb', rhreload cfg rwb startblock = some (ret, rwb') ∧ 0 ≤ ret ∧
      Reloaded cfg startblock rwb rwb' ∧ rwb'.rh.Mem startblock ∧
      ∀ b, rwb'.rh.Mem b → rwb'.rh.value b = rwb.media b := by
  have hpos := cfg.rhmaxblocks_pos
  unfold rhreload
  rw [if_neg (by omega)]
  dsimp only
  generalize hcount : (if startblock + cfg.rhmaxblocks > cfg.nblocks then cfg.nblocks
    else startblock + cfg.rhmaxblocks) - startblock = count
  have hbounds : 0 < count ∧ count ≤ cfg.rhmaxblocks ∧ startblock + count ≤ cfg.nblocks := by
    split at hcount <;> omega
  rw [(hworks startblock count hbounds.2.2).1, inside_of (by omega) (by omega)]
  have hall : ∀ b, (mk (startblock : Int) count
      (blit rwb.rhbuffer 0 count (drop rwb.media startblock))).Mem b →
      startblock ≤ b ∧ blit rwb.rhbuffer 0 count (drop rwb.media startblock)
        ((b : Int) - startblock).toNat = rwb.media b := by
    intro b hmem
    rw [mem_mk] at hmem
    rw [blit_drop_of_mem (by omega) (by omega)]
    refine ⟨by omega, congrArg rwb.media ?_⟩
    omega
  exact ⟨_, _, rfl, by omega, ⟨rfl, rfl, hbounds.2.1, .inr hall⟩,
    ⟨Int.le_refl _, show (startblock : Int) < startblock + count by omega⟩, fun b hmem => (hall b hmem).2⟩

theorem readAhead_spec (hfits : rwb.rhnblocks ≤ cfg.rhmaxblocks) {remaining : Nat}
    (hagrees : ∀ b, startblock ≤ b → b < startblock + remaining → rwb.rh.Mem b →
      rwb.rh.value b = rwb.media b) (rdbuffer : Nat → Block) (pos : Nat) :
    ∃ rdblocks, readAhead cfg rwb startblock remaining rdbuffer pos =
        some (rdblocks, blit rdbuffer pos rdblocks (drop rwb.media startblock)) ∧
      rdblocks ≤ remaining ∧ (rwb.rh.Mem startblock → 0 < remaining → 0 < rdblocks) := by
  unfold readAhead
  by_cases hmem : rwb.rh.Mem startblock
  · have hrange := hmem
    unfold Mem Rwb.rh at hrange
    dsimp only at hrange
    rw [if_pos (by omega)]
    rw [if_pos hrange]
    generalize hcount : (if (rwb.rhblockstart + rwb.rhnblocks - startblock).toNat > remaining then remaining
      else (rwb.rhblockstart + rwb.rhnblocks - startblock).toNat) = rdblocks
    have hbounds : rdblocks ≤ remaining ∧ startblock + rdblocks ≤ rwb.rhblockstart + rwb.rhnblocks ∧
        (0 < remaining → 0 < rdblocks) := by
      split at hcount <;> omega
    refine ⟨rdblocks, ?_, hbounds.1, fun _ => hbounds.2.2⟩
    unfold bufferread
    dsimp only
    rw [inside_of (by omega) (by omega)]
    show some (rdblocks, blit rdbuffer pos rdblocks _) = _
    congr 2
    funext i
    unfold blit
    split_ifs with hi
    · have hvalue := hagrees (startblock + (i - pos)) (by omega) (by omega)
        (by unfold Mem Rwb.rh; dsimp only; omega)
      unfold value Rwb.rh at hvalue
      dsimp only at hvalue
      unfold drop
      rw [← hvalue]
      congr 1
      omega
    · rfl
  · refine ⟨0, ?_, by omega, fun h => absurd h hmem⟩
    unfold Mem Rwb.rh at hmem
    rw [blit_zero]
    rw [if_neg hmem, ite_self]

theorem Reloaded.refl (hfits : rwb.rhnblocks ≤ cfg.rhmaxblocks) (startblock : Nat) :
    Reloaded cfg startblock rwb rwb := ⟨rfl, rfl, hfits, .inl rfl⟩

theorem Reloaded.trans {rwb'' : Rwb Block}
    (h : Reloaded cfg (startblock + count) rwb rwb') (h' : Reloaded cfg (startblock + count) rwb' rwb'') :
    Reloaded cfg startblock rwb rwb'' := by
  refine ⟨h'.media.trans h.media, h'.wr.trans h.wr, h'.fits, ?_⟩
  rcases h'.rh with hsame | hloaded
  · rcases h.rh with hsame' | hloaded
    · exact .inl (hsame.trans hsame')
    · refine .inr fun b hmem => ?_
      rw [hsame] at hmem ⊢
      exact ⟨by have := (hloaded b hmem).1; omega, (hloaded b hmem).2⟩
  · refine .inr fun b hmem => ⟨by have := (hloaded b hmem).1; omega, ?_⟩
    rw [(hloaded b hmem).2, h.media]

/-- **The loop reads the device**, if the read-ahead buffer agrees with it. By induction on the fuel:
each time round but the first a block is read. -/
theorem readLoop_spec (hworks : cfg.Works) (fuel : Nat) {remaining : Nat}
    (hend : startblock + remaining ≤ cfg.nblocks) (hfits : rwb.rhnblocks ≤ cfg.rhmaxblocks)
    (hagrees : ∀ b, startblock ≤ b → b < startblock + remaining → rwb.rh.Mem b →
      rwb.rh.value b = rwb.media b) (rdbuffer : Nat → Block) (pos : Nat)
    (hfuel : remaining < fuel ∨ remaining = fuel ∧ rwb.rh.Mem startblock) :
    ∃ rwb', readLoop cfg rwb startblock rdbuffer pos fuel remaining =
        some ((0, blit rdbuffer pos remaining (drop rwb.media startblock)), rwb') ∧
      Reloaded cfg startblock rwb rwb' := by
  induction fuel generalizing rwb startblock remaining rdbuffer pos with
  | zero =>
    obtain rfl : remaining = 0 := by omega
    rw [blit_zero]
    exact ⟨rwb, rfl, .refl hfits startblock⟩
  | succ fuel ih =>
    rw [readLoop]
    by_cases hzero : remaining = 0
    · rw [if_pos hzero, hzero, blit_zero]
      exact ⟨rwb, rfl, .refl hfits startblock⟩
    obtain ⟨rdblocks, hahead, hle, hsome⟩ := readAhead_spec hfits hagrees rdbuffer pos
    rw [if_neg hzero, hahead]
    dsimp only [bind_eq_bind, bind_some]
    by_cases hdone : remaining - rdblocks = 0
    · obtain rfl : rdblocks = remaining := by omega
      rw [if_pos hdone]
      exact ⟨rwb, rfl, .refl hfits startblock⟩
    obtain ⟨ret, loaded, hreload, hret, hloaded, hmem, hfresh⟩ :=
      rhreload_spec rwb hworks (show startblock + rdblocks < cfg.nblocks by omega)
    rw [if_neg hdone, hreload]
    dsimp only [bind_some]
    rw [if_neg (by omega)]
    have hprogress : remaining - rdblocks < fuel ∨
        remaining - rdblocks = fuel ∧ loaded.rh.Mem (startblock + rdblocks) := by
      rcases Nat.lt_or_ge (remaining - rdblocks) fuel with hlt | hge
      · exact .inl hlt
      · refine .inr ⟨?_, hmem⟩
        rcases hfuel with hmore | ⟨heq, hfirst⟩
        · omega
        · have := hsome hfirst (by omega)
          omega
    obtain ⟨rwb', hrest, hreloaded⟩ := ih (by omega) hloaded.fits
      (fun b _ _ hb => by rw [hfresh b hb, hloaded.media])
      (blit rdbuffer pos rdblocks (drop rwb.media startblock)) (pos + rdblocks) hprogress
    refine ⟨rwb', ?_, hloaded.trans hreloaded⟩
    rw [hrest, hloaded.media, ← drop_drop, blit_blit_append, Nat.add_sub_cancel' hle]

theorem rwbRead_device (hworks : cfg.Works)
    (hend : startblock + nblocks ≤ cfg.nblocks) (hfits : rwb.rhnblocks ≤ cfg.rhmaxblocks)
    (hagrees : ∀ b, startblock ≤ b → b < startblock + nblocks → rwb.rh.Mem b →
      rwb.rh.value b = rwb.media b) (rdbuffer : Nat → Block) (pos : Nat) :
    ∃ rwb', rwbRead_ cfg rwb startblock nblocks rdbuffer pos =
        some (((nblocks : Int), blit rdbuffer pos nblocks (drop rwb.media startblock)), rwb') ∧
      Reloaded cfg startblock rwb rwb' := by
  obtain ⟨rwb', hloop, hreloaded⟩ :=
    readLoop_spec hworks (nblocks + 1) hend hfits hagrees rdbuffer pos (.inl (Nat.lt_succ_self _))
  refine ⟨rwb', ?_, hreloaded⟩
  rw [rwbRead_, hloop]
  rfl

structure Flushed (cfg : Config) (rwb rwb' : Rwb Block) : Prop where
  media : rwb'.media = rwb.view
  empty : rwb'.wrnblocks = 0
  rh_fits : rwb'.rhnblocks ≤ cfg.rhmaxblocks
  agrees : ∀ b, rwb'.rh.Mem b → rwb'.rh.value b = rwb.view b

theorem Reloaded.agrees_view (h : Reloaded cfg (rwb.wrblockstart + rwb.wrnblocks).toNat rwb rwb')
    (hagrees : ∀ b, rwb.rh.Mem b → ¬ rwb.wr.Mem b → rwb.rh.value b = rwb.media b)
    (hapart : ∀ b, rwb.rh.Mem b → ¬ rwb.wr.Mem b) :
    ∀ b, rwb'.rh.Mem b → rwb'.rh.value b = rwb.view b := by
  intro b hmem
  rcases h.rh with hsame | hloaded
  · rw [hsame] at hmem ⊢
    rw [Rwb.view, cover_of_not_mem (hapart b hmem)]
    exact hagrees b hmem (hapart b hmem)
  · obtain ⟨hbehind, hvalue⟩ := hloaded b hmem
    rw [Rwb.view, cover_of_not_mem, hvalue]
    rintro ⟨-, hlt⟩
    change (b : Int) < rwb.wrblockstart + rwb.wrnblocks at hlt
    omega

theorem view_put {offset : Nat} (src : Nat → Block) (hoffset : startblock = rwb.wrblockstart + offset)
    (hle : offset ≤ rwb.wrnblocks) (hcount : count = max rwb.wrnblocks (offset + nblocks)) :
    Rwb.view { rwb with wrnblocks := count, wrbuffer := blit rwb.wrbuffer offset nblocks src } =
      blit rwb.view startblock nblocks src :=
  cover_put (e := rwb.wr) (Int.add_zero _) (fun i _ => congrArg rwb.wrbuffer (Nat.zero_add i)) (.inl rfl)
    (by rwa [Nat.zero_add]) (by rwa [Nat.zero_add]) hoffset src rwb.media

theorem readBehind_spec (hworks : cfg.Works) (h : Inv cfg rwb) (hsome : 0 < rwb.wrnblocks)
    (hapart : ∀ b, rwb.rh.Mem b → ¬ rwb.wr.Mem b) {padblocks : Nat}
    (hroom : rwb.wrnblocks + padblocks ≤ cfg.wrmaxblocks)
    (hend : rwb.wrblockstart + rwb.wrnblocks + padblocks ≤ cfg.nblocks) :
    ∃ rwb', readBehind cfg rwb padblocks = some rwb' ∧ rwb'.media = rwb.media ∧ rwb'.view = rwb.view ∧
      rwb'.wrblockstart = rwb.wrblockstart ∧ rwb'.wrnblocks = rwb.wrnblocks + padblocks ∧
      rwb'.rhnblocks ≤ cfg.rhmaxblocks ∧ ∀ b, rwb'.rh.Mem b → rwb'.rh.value b = rwb.view b := by
  have hstart := h.wr_start hsome
  have hin : (rwb.wrblockstart + rwb.wrnblocks).toNat + padblocks ≤ cfg.nblocks := by omega
  obtain ⟨loaded, hread, hloaded⟩ := rwbRead_device hworks hin h.rh_fits
    (fun b _ _ hmem => h.agrees b hmem (hapart b hmem)) rwb.wrbuffer rwb.wrnblocks
  have hwrstart : loaded.wrblockstart = rwb.wrblockstart := congrArg start hloaded.wr
  have hwrcount : loaded.wrnblocks = rwb.wrnblocks := congrArg count hloaded.wr
  have hpad : readBehind cfg rwb padblocks = some { loaded with
      wrbuffer := blit rwb.wrbuffer rwb.wrnblocks padblocks
        (drop rwb.media (rwb.wrblockstart + rwb.wrnblocks).toNat)
      wrnblocks := loaded.wrnblocks + padblocks } := by
    rw [readBehind, inside_of (by omega) (by omega)]
    rw [hread]
    rfl
  refine ⟨_, hpad, hloaded.media, ?_, hwrstart, congrArg (· + padblocks) hwrcount, hloaded.fits,
    hloaded.agrees_view h.agrees hapart⟩
  unfold Rwb.view Rwb.wr
  rw [hwrstart, hwrcount, hloaded.media]
  refine (@view_put _ rwb _ (rwb.wrblockstart + rwb.wrnblocks).toNat padblocks rwb.wrnblocks _ (by omega)
    le_rfl (by omega)).trans ?_
  funext b
  unfold blit drop
  split_ifs with hb
  · refine Eq.trans ?_ (cover_of_not_mem (mt mem_wr.mp (by omega))).symm
    congr 1
    omega
  · rfl

theorem not_mem_wr_of_empty (hempty : rwb.wrnblocks = 0) (b : Nat) : ¬ rwb.wr.Mem b := by
  rw [mem_wr, hempty]
  omega

theorem Inv.view_of_empty (hempty : rwb.wrnblocks = 0) : rwb.view = rwb.media :=
  cover_of_empty (not_mem_wr_of_empty hempty)

theorem aligned_le {count align size : Nat} (hcount : count ≤ size) (hdvd : align ∣ size)
    (hrest : count % align ≠ 0) : count + (align - count % align) ≤ size := by
  obtain ⟨k, rfl⟩ := hdvd
  have hdiv := Nat.div_add_mod count align
  have hlt : count / align < k := Nat.lt_of_mul_lt_mul_left (a := align) (by omega)
  have hmul := Nat.mul_le_mul_left align hlt
  rw [Nat.mul_succ] at hmul
  omega

structure Ready (cfg : Config) (rwb ready : Rwb Block) : Prop where
  media : ready.media = rwb.media
  view : ready.view = rwb.view
  start : ready.wrblockstart = rwb.wrblockstart
  fits : ready.wrnblocks ≤ cfg.wrmaxblocks
  within : ready.wrblockstart + ready.wrnblocks ≤ cfg.nblocks
  rh_fits : ready.rhnblocks ≤ cfg.rhmaxblocks
  agrees : ∀ b, ready.rh.Mem b → ready.rh.value b = rwb.view b

theorem pad_spec (hworks : cfg.Works) (h : Inv cfg rwb) (hsome : 0 < rwb.wrnblocks)
    (hapart : ∀ b, rwb.rh.Mem b → ¬ rwb.wr.Mem b) (hpadded : Padded cfg rwb) :
    ∃ ready, pad cfg rwb = some ready ∧ Ready cfg rwb ready := by
  unfold pad
  by_cases hwhole : rwb.wrnblocks % cfg.wralignblocks = 0
  · rw [if_neg (not_not.mpr hwhole)]
    refine ⟨rwb, rfl, rfl, rfl, rfl, h.wr_fits, h.wr_end hsome, h.rh_fits, fun b hmem => ?_⟩
    rw [Rwb.view, cover_of_not_mem (hapart b hmem)]
    exact h.agrees b hmem (hapart b hmem)
  have hlt : rwb.wrnblocks % cfg.wralignblocks < cfg.wralignblocks :=
    Nat.mod_lt _ (Nat.pos_of_dvd_of_pos cfg.wralignblocks_dvd cfg.wrmaxblocks_pos)
  have hroom := aligned_le h.wr_fits cfg.wralignblocks_dvd hwhole
  unfold Padded at hpadded
  rw [Nat.mod_eq_of_lt (show cfg.wralignblocks - rwb.wrnblocks % cfg.wralignblocks <
    cfg.wralignblocks by omega)] at hpadded
  obtain ⟨ready, hready, hmedia, hview, hstart, hcount, hfits, hagrees⟩ :=
    readBehind_spec hworks h hsome hapart hroom hpadded
  rw [if_pos hwhole]
  exact ⟨ready, hready, hmedia, hview, hstart, by omega, by omega, hfits, hagrees⟩

theorem wrflush_spec (hworks : cfg.Works) (h : Inv cfg rwb)
    (hapart : ∀ b, rwb.rh.Mem b → ¬ rwb.wr.Mem b) (hpadded : 0 < rwb.wrnblocks → Padded cfg rwb) :
    ∃ rwb', wrflush cfg rwb = some rwb' ∧ Flushed cfg rwb rwb' := by
  unfold wrflush
  by_cases hsome : 0 < rwb.wrnblocks
  · have hstart := h.wr_start hsome
    obtain ⟨ready, hpad, hready⟩ := pad_spec hworks h hsome hapart (hpadded hsome)
    have hfits := hready.fits
    have hwithin := hready.within
    have hbegin := hready.start
    rw [if_pos hsome, hpad]
    dsimp only [bind_eq_bind, bind_some]
    rw [inside_of (by omega) (by omega), deviceWrite,
      (hworks ready.wrblockstart.toNat ready.wrnblocks (by omega)).2]
    refine ⟨_, rfl, ?_, rfl, hready.rh_fits, hready.agrees⟩
    rw [← hready.view]
    exact blit_eq_cover (e := ready.wr) (show 0 ≤ ready.wrblockstart by omega) ready.media
  · have hempty : rwb.wrnblocks = 0 := by omega
    rw [if_neg hsome]
    refine ⟨rwb, rfl, (Inv.view_of_empty hempty).symm, hempty, h.rh_fits, fun b hmem => ?_⟩
    rw [Inv.view_of_empty hempty]
    exact h.agrees b hmem (hapart b hmem)

variable {w : Rest Block}

def Rest.Mem (w : Rest Block) (b : Nat) : Prop := w.startblock ≤ b ∧ b < w.startblock + w.nblocks

theorem copyIn_of {offset : Int} {src : Nat → Block} (hfirst : 0 ≤ offset)
    (hlast : offset + count ≤ cfg.wrmaxblocks) : copyIn cfg rwb offset count src =
      some { rwb with wrbuffer := blit rwb.wrbuffer offset.toNat count src } := by
  rw [copyIn, inside_of hfirst hlast]
  rfl

/-- What is known of a write when it comes to the write buffer: the read-ahead buffer has none of its
blocks. -/
structure Meets (cfg : Config) (rwb : Rwb Block) (w : Rest Block) : Prop where
  within : w.startblock + w.nblocks ≤ cfg.nblocks
  clear : ∀ b, rwb.rh.Mem b → ¬ w.Mem b
  end_ne : rwb.wrblockstart > w.startblock →
    rwb.wrblockstart + rwb.wrnblocks ≠ w.startblock + w.nblocks
  moves : rwb.wrblockstart > w.startblock → rwb.wrblockstart ≤ w.startblock + w.nblocks →
    w.startblock + w.nblocks < rwb.wrblockstart + rwb.wrnblocks →
    room cfg rwb w.startblock = 0 ∨
      rwb.wrnblocks ≤ room cfg rwb w.startblock ∧ 2 * room cfg rwb w.startblock ≤ cfg.wrmaxblocks
  fresh : Displaces cfg rwb w.startblock w.nblocks → ∀ b, rwb.rh.Mem b → ¬ rwb.wr.Mem b
  padded : Away rwb w.startblock w.nblocks → Displaces cfg rwb w.startblock w.nblocks → Padded cfg rwb

/-- **What the write buffer takes of a write**: the rest of it lies beside the buffer, and together
they are the whole write. -/
structure Updated (cfg : Config) (rwb : Rwb Block) (w : Rest Block) (rwb' : Rwb Block) (w' : Rest Block) :
    Prop where
  inv : Inv cfg rwb'
  rh : rwb'.rh = rwb.rh
  view : blit rwb'.view w'.startblock w'.nblocks w'.data = blit rwb.view w.startblock w.nblocks w.data
  part : ∀ b, w'.Mem b → w.Mem b
  beside : ∀ b, rwb'.wr.Mem b → ¬ w'.Mem b
  flushable : 0 < rwb'.wrnblocks → 0 < w'.nblocks → w'.nblocks ≤ cfg.wrmaxblocks →
    (∀ b, rwb'.rh.Mem b → ¬ rwb'.wr.Mem b) ∧ Padded cfg rwb'

theorem updated_of_away (h : Inv cfg rwb) (hmeets : Meets cfg rwb w)
    (haway : Away rwb w.startblock w.nblocks) : Updated cfg rwb w rwb w := by
  refine ⟨h, rfl, rfl, fun _ hb => hb, fun b hmem hnew => ?_, fun _ hpos hle => ?_⟩
  · rw [mem_wr] at hmem
    unfold Rest.Mem at hnew
    unfold Away at haway
    omega
  · have hdisplaces : Displaces cfg rwb w.startblock w.nblocks := .inl ⟨haway, hpos, hle⟩
    exact ⟨hmeets.fresh hdisplaces, hmeets.padded haway hdisplaces⟩

theorem updated_of_around (h : Inv cfg rwb) (hmeets : Meets cfg rwb w)
    (haround : Around rwb w.startblock w.nblocks) : Updated cfg rwb w { rwb with wrnblocks := 0 } w := by
  have hnew : ∀ b, rwb.wr.Mem b → w.Mem b := by
    intro b hmem
    rw [mem_wr] at hmem
    unfold Around at haround
    unfold Rest.Mem
    omega
  refine ⟨⟨Nat.zero_le _, fun h => absurd h (lt_irrefl _), fun h => absurd h (lt_irrefl _),
    h.rh_fits, fun b hmem _ => h.agrees b hmem fun hwr => hmeets.clear b hmem (hnew b hwr)⟩, rfl, ?_,
    fun _ hb => hb, fun b hmem => ?_, fun h => absurd h (lt_irrefl _)⟩
  · rw [Inv.view_of_empty rfl]
    funext b
    unfold blit
    split_ifs with hb
    · rfl
    · exact (cover_of_not_mem fun hwr => hb (hnew b hwr)).symm
  · exact absurd hmem (not_mem_wr_of_empty rfl b)

theorem Inv.grow {start : Int} {wrbuffer : Nat → Block} (h : Inv cfg rwb)
    (hfits : count ≤ cfg.wrmaxblocks) (hstart : 0 ≤ start) (hend : start + count ≤ cfg.nblocks)
    (hkept : ∀ b, rwb.wr.Mem b → start ≤ b ∧ (b : Int) < start + count) :
    Inv cfg { rwb with wrblockstart := start, wrnblocks := count, wrbuffer := wrbuffer } :=
  ⟨hfits, fun _ => hstart, fun _ => hend, h.rh_fits,
    fun b hmem hnot => h.agrees b hmem fun hwr => hnot (hkept b hwr)⟩

theorem updated_of_inside (h : Inv cfg rwb) (hsome : 0 < rwb.wrnblocks)
    (hfirst : rwb.wrblockstart ≤ w.startblock)
    (hlast : (w.startblock + w.nblocks : Int) ≤ rwb.wrblockstart + rwb.wrnblocks) :
    Updated cfg rwb w { rwb with
      wrbuffer := blit rwb.wrbuffer (w.startblock - rwb.wrblockstart).toNat w.nblocks w.data }
      ⟨w.startblock, 0, w.data⟩ := by
  have hstart := h.wr_start hsome
  have hnone : ∀ b, ¬ (Rest.mk w.startblock 0 w.data).Mem b := by
    rintro b ⟨hfirst, hlast⟩
    exact Nat.not_lt.mpr hfirst hlast
  refine ⟨h.grow h.wr_fits hstart (h.wr_end hsome) fun b hmem => hmem, rfl, ?_,
    fun b hb => absurd hb (hnone b), fun b _ => hnone b, fun _ hpos => absurd hpos (lt_irrefl _)⟩
  rw [blit_zero]
  exact view_put w.data (by omega) (by omega) (by omega)

/-- The buffer grows by what it takes of the write; a rest is left only if it is full. -/
theorem Meets.grown {start : Int} {wrbuffer : Nat → Block} {w' : Rest Block} (hmeets : Meets cfg rwb w)
    (h : Inv cfg rwb) (hstart : 0 ≤ start) (hend : start + count ≤ cfg.nblocks) (hfits : count ≤ cfg.wrmaxblocks)
    (hunion : ∀ b : Nat, (start ≤ b ∧ (b : Int) < start + count ↔ rwb.wr.Mem b ∨ w.Mem b ∧ ¬ w'.Mem b) ∧
      (w'.Mem b → w.Mem b ∧ ¬ rwb.wr.Mem b))
    (hfull : 0 < w'.nblocks → w'.nblocks ≤ cfg.wrmaxblocks →
      Displaces cfg rwb w.startblock w.nblocks ∧ count = cfg.wrmaxblocks)
    (hview : blit (Rwb.view { rwb with wrblockstart := start, wrnblocks := count, wrbuffer := wrbuffer })
      w'.startblock w'.nblocks w'.data = blit rwb.view w.startblock w.nblocks w.data) :
    Updated cfg rwb w { rwb with wrblockstart := start, wrnblocks := count, wrbuffer := wrbuffer } w' := by
  refine ⟨h.grow hfits hstart hend fun b hmem => (hunion b).1.mpr (.inl hmem), rfl, hview,
    fun b hb => ((hunion b).2 hb).1, fun b hmem hb => ?_, fun _ hpos hleft => ?_⟩
  · rcases (hunion b).1.mp hmem with hold | hnew
    · exact ((hunion b).2 hb).2 hold
    · exact hnew.2 hb
  obtain ⟨hdisplaces, rfl⟩ := hfull hpos hleft
  refine ⟨fun b hrh hmem => ?_, ?_⟩
  · rcases (hunion b).1.mp hmem with hold | hnew
    · exact hmeets.fresh hdisplaces b hrh hold
    · exact hmeets.clear b hrh hnew.1
  · unfold Padded
    dsimp only
    rw [Nat.mod_eq_zero_of_dvd cfg.wralignblocks_dvd, Nat.sub_zero, Nat.mod_self]
    omega

theorem updateEnd_spec (h : Inv cfg rwb) (hsome : 0 < rwb.wrnblocks) (hmeets : Meets cfg rwb w)
    (hfirst : rwb.wrblockstart ≤ w.startblock)
    (hmeet : w.startblock ≤ rwb.wrblockstart + rwb.wrnblocks)
    (hlast : rwb.wrblockstart + rwb.wrnblocks < w.startblock + w.nblocks) :
    ∃ rwb' w', updateEnd cfg rwb w = some (rwb', w') ∧ Updated cfg rwb w rwb' w' := by
  have hstart := h.wr_start hsome
  have hmax := h.wr_fits
  have hwithin := hmeets.within
  obtain ⟨ncopy, hcopy, hle, hroom, hgrows, hfull⟩ : ∃ ncopy : Nat,
      (if (cfg.wrmaxblocks - (w.startblock - rwb.wrblockstart) : Int) > w.nblocks then w.nblocks
        else (cfg.wrmaxblocks - (w.startblock - rwb.wrblockstart) : Int).toNat) = ncopy ∧
      ncopy ≤ w.nblocks ∧ w.startblock - rwb.wrblockstart + ncopy ≤ cfg.wrmaxblocks ∧
      rwb.wrblockstart + rwb.wrnblocks ≤ w.startblock + ncopy ∧
      (ncopy < w.nblocks → w.startblock - rwb.wrblockstart + ncopy = cfg.wrmaxblocks) := by
    refine ⟨_, rfl, ?_⟩
    split <;> omega
  have hresult : updateEnd cfg rwb w = some ({ rwb with
      wrnblocks := (w.startblock - rwb.wrblockstart + ncopy).toNat
      wrbuffer := blit rwb.wrbuffer (w.startblock - rwb.wrblockstart).toNat ncopy w.data },
      ⟨w.startblock + ncopy, w.nblocks - ncopy, drop w.data ncopy⟩) := by
    unfold updateEnd
    dsimp only
    rw [show (rwb.wrnblocks - (rwb.wrblockstart + rwb.wrnblocks - w.startblock) : Int) =
      w.startblock - rwb.wrblockstart by omega, hcopy, copyIn_of (by omega) hroom]
    rfl
  refine ⟨_, _, hresult, hmeets.grown h hstart (by omega) (by omega) (fun b => ?_)
    (fun hpos hleft => ⟨.inr ⟨?_, ?_, ?_⟩, ?_⟩) ?_⟩
  · rw [mem_wr]
    unfold Rest.Mem
    dsimp only
    omega
  · unfold Away
    omega
  · unfold Around
    omega
  · unfold excess
    dsimp only at hpos hleft
    omega
  · dsimp only at hpos
    omega
  · rw [view_put, blit_blit_append, Nat.add_sub_cancel' hle]
    all_goals omega

theorem updateStart_spec (h : Inv cfg rwb) (hsome : 0 < rwb.wrnblocks) (hmeets : Meets cfg rwb w)
    (hfirst : rwb.wrblockstart > w.startblock) (hmeet : rwb.wrblockstart ≤ w.startblock + w.nblocks)
    (hlast : w.startblock + w.nblocks < rwb.wrblockstart + rwb.wrnblocks) :
    ∃ rwb' w', updateStart cfg rwb w = some (rwb', w') ∧ Updated cfg rwb w rwb' w' := by
  have hmax := h.wr_fits
  have hend := h.wr_end hsome
  have hmoves := hmeets.moves hfirst hmeet hlast
  obtain ⟨size, hsize, hle, hroom, hfull⟩ : ∃ size, room cfg rwb w.startblock = size ∧
      size ≤ rwb.wrblockstart - w.startblock ∧ size + rwb.wrnblocks ≤ cfg.wrmaxblocks ∧
      (size < rwb.wrblockstart - w.startblock → size + rwb.wrnblocks = cfg.wrmaxblocks) := by
    refine ⟨_, rfl, ?_⟩
    unfold room
    omega
  obtain ⟨ncopy, hcopy⟩ : ∃ ncopy : Nat, (w.startblock + w.nblocks : Int) - (rwb.wrblockstart - size) = ncopy :=
    Int.eq_ofNat_of_zero_le (by omega)
  rw [hsize] at hmoves
  have hresult : updateStart cfg rwb w = some ({ rwb with
      wrblockstart := rwb.wrblockstart - size
      wrnblocks := rwb.wrnblocks + size
      wrbuffer := blit (blit rwb.wrbuffer size size rwb.wrbuffer) 0 ncopy
        (drop w.data (w.nblocks - ncopy)) }, ⟨w.startblock, w.nblocks - ncopy, w.data⟩) := by
    unfold updateStart
    dsimp only
    rw [hsize, copyIn_of (by omega) (by omega)]
    dsimp only [bind_eq_bind, bind_some]
    rw [hcopy, copyIn_of (by omega) (by rw [Int.toNat_natCast]; omega)]
    rfl
  refine ⟨_, _, hresult, hmeets.grown h (by omega) (by omega) (by omega) (fun b => ?_)
    (fun hpos hleft => ⟨.inr ⟨?_, ?_, ?_⟩, ?_⟩) ?_⟩
  · rw [mem_wr]
    unfold Rest.Mem
    dsimp only
    omega
  · unfold Away
    omega
  · unfold Around
    omega
  · unfold excess
    dsimp only at hpos hleft
    omega
  · dsimp only at hpos
    omega
  · have hmoved : ∀ i, i < rwb.wrnblocks →
        blit rwb.wrbuffer size size rwb.wrbuffer (size + i) = rwb.wrbuffer i := by
      intro i hi
      rcases hmoves with rfl | ⟨hall, -⟩
      · rw [blit_zero, Nat.zero_add]
      · rw [blit_of_mem (by omega) (by omega), Nat.add_sub_cancel_left]
    have hput := @cover_put _ rwb.wr 0 ncopy _ size _ (w.startblock + (w.nblocks - ncopy)) _
      (Int.sub_add_cancel rwb.wrblockstart size) hmoved (.inr ⟨rfl, by omega⟩) (Nat.zero_le _)
      (show rwb.wrnblocks + size = max (size + rwb.wrnblocks) (0 + ncopy) by omega) (by omega)
      (drop w.data (w.nblocks - ncopy)) rwb.media
    refine (congrArg (fun view => blit view w.startblock (w.nblocks - ncopy) w.data) hput).trans ?_
    rw [blit_blit_prepend, Nat.sub_add_cancel (show ncopy ≤ w.nblocks by omega)]
    rfl

theorem update_spec (h : Inv cfg rwb) (hmeets : 0 < rwb.wrnblocks → Meets cfg rwb w) :
    ∃ rwb' w', update cfg rwb w = some (rwb', w') ∧ Updated cfg rwb w rwb' w' := by
  unfold update
  by_cases hsome : 0 < rwb.wrnblocks
  · have hfit := hmeets hsome
    have hend_ne := hfit.end_ne
    rw [if_pos hsome, updateCases]
    split_ifs with haway haround hinside hend
    · exact ⟨_, _, rfl, updated_of_away h hfit haway⟩
    · exact ⟨_, _, rfl, updated_of_around h hfit haround⟩
    · have hmax := h.wr_fits
      rw [copyIn_of (by omega) (by omega)]
      exact ⟨_, _, rfl, updated_of_inside h hsome hinside.1 hinside.2⟩
    · exact updateEnd_spec h hsome hfit (by omega) (by omega) (by omega)
    · exact updateStart_spec h hsome hfit (by omega) (by omega) (by omega)
  · rw [if_neg hsome]
    exact ⟨_, _, rfl, h, rfl, rfl, fun _ hb => hb, fun b hmem => absurd hmem (not_mem_wr_of_empty (by omega) b),
      fun h => absurd h hsome⟩

theorem writebuffer_spec (hworks : cfg.Works) (h : Inv cfg rwb) {data : Nat → Block}
    (hwithin : startblock + nblocks ≤ cfg.nblocks)
    (hclear : ∀ b, rwb.rh.Mem b → ¬ (startblock ≤ b ∧ b < startblock + nblocks))
    (hmeets : 0 < rwb.wrnblocks → Meets cfg rwb ⟨startblock, nblocks, data⟩) :
    ∃ rwb', writebuffer cfg rwb startblock nblocks data = some ((nblocks : Int), rwb') ∧ Inv cfg rwb' ∧
      rwb'.view = blit rwb.view startblock nblocks data := by
  obtain ⟨next, rest, hupdate, hupdated⟩ := update_spec h hmeets
  have hview := hupdated.view
  rw [writebuffer, hupdate]
  dsimp only [bind_eq_bind, bind_some]
  have hin : 0 < rest.nblocks → rest.startblock + rest.nblocks ≤ cfg.nblocks := by
    intro hpos
    have hlast := hupdated.part (rest.startblock + rest.nblocks - 1) (by unfold Rest.Mem; omega)
    unfold Rest.Mem at hlast
    dsimp only at hlast
    omega
  by_cases hdirect : cfg.wrmaxblocks < rest.nblocks
  · rw [if_pos hdirect, deviceWrite, (hworks _ _ (hin (by omega))).2]
    dsimp only
    rw [if_neg (by omega)]
    refine ⟨_, rfl, ⟨hupdated.inv.wr_fits, hupdated.inv.wr_start, hupdated.inv.wr_end, hupdated.inv.rh_fits,
      fun b hmem hnot => ?_⟩, ?_⟩
    · have hbeside : ¬ rest.Mem b := fun hb => hclear b (hupdated.rh ▸ hmem) (hupdated.part b hb)
      exact (hupdated.inv.agrees b hmem hnot).trans (if_neg hbeside).symm
    · rw [← hview]
      exact cover_blit hupdated.beside
  rw [if_neg hdirect]
  by_cases hnone : rest.nblocks = 0
  · rw [if_neg (not_not.mpr hnone)]
    refine ⟨next, rfl, hupdated.inv, ?_⟩
    rw [← hview, hnone, blit_zero]
  rw [if_pos hnone]
  have hpos : 0 < rest.nblocks := by omega
  obtain ⟨flushed, hflush, hflushed⟩ : ∃ flushed, wrflush cfg next = some flushed ∧
      Flushed cfg next flushed := by
    refine wrflush_spec hworks hupdated.inv (fun b hrh hwr => ?_) fun hsome => ?_
    · by_cases hsome : 0 < next.wrnblocks
      · exact (hupdated.flushable hsome hpos (by omega)).1 b hrh hwr
      · exact not_mem_wr_of_empty (by omega) b hwr
    · exact (hupdated.flushable hsome hpos (by omega)).2
  rw [hflush]
  dsimp only [bind_some]
  rw [copyIn_of (Int.le_refl 0) (by omega)]
  refine ⟨_, rfl, ⟨not_lt.mp hdirect, fun _ => Int.natCast_nonneg _, fun _ => ?_, hflushed.rh_fits, fun b hmem _ => ?_⟩, ?_⟩
  · have := hin hpos
    dsimp only
    omega
  · refine (hflushed.agrees b hmem).trans ?_
    rw [← hflushed.media]
  · have hbuffered := blit_eq_cover (e := ⟨rest.startblock, rest.nblocks,
      blit flushed.wrbuffer 0 rest.nblocks rest.data⟩) (Int.natCast_nonneg _) flushed.media
    rw [← hview, ← hflushed.media]
    exact hbuffered.symm.trans (blit_of_blit flushed.media flushed.wrbuffer _ _ _)

theorem rwbWrite_spec (hworks : cfg.Works) (h : Inv cfg rwb) {data : Nat → Block}
    (hfit : Fit cfg rwb (.write startblock nblocks data)) :
    ∃ rwb', rwbWrite cfg rwb startblock nblocks data = some ((nblocks : Int), rwb') ∧ Inv cfg rwb' ∧
      rwb'.view = blit rwb.view startblock nblocks data := by
  obtain ⟨hwithin, hwrite⟩ := hfit
  unfold rwbWrite
  cases hoverlap : overlap rwb.rhblockstart rwb.rhnblocks startblock nblocks with
  | true =>
    have hempty : ∀ b, ¬ rwb.resetrhbuffer.rh.Mem b := by
      intro b hmem
      rw [mem_rh] at hmem
      unfold Rwb.resetrhbuffer at hmem
      dsimp only at hmem
      omega
    have hreset : Inv cfg rwb.resetrhbuffer :=
      ⟨h.wr_fits, h.wr_start, h.wr_end, Nat.zero_le _, fun b hmem => absurd hmem (hempty b)⟩
    have hmeets : 0 < rwb.wrnblocks → Meets cfg rwb.resetrhbuffer ⟨startblock, nblocks, data⟩ := by
      intro hsome
      have hfit := hwrite hsome
      exact ⟨hwithin, fun b hmem => absurd hmem (hempty b), hfit.end_ne, hfit.moves,
        fun _ b hmem => absurd hmem (hempty b), hfit.padded⟩
    rw [if_pos rfl]
    exact writebuffer_spec hworks hreset hwithin (fun b hmem => absurd hmem (hempty b)) hmeets
  | false =>
    have hclear : ∀ b, rwb.rh.Mem b → ¬ (startblock ≤ b ∧ b < startblock + nblocks) := by
      intro b hmem hnew
      have hnot := not_mem_of_overlap (e := rwb.rh) (f := ⟨startblock, nblocks, data⟩) hoverlap hmem
      rw [mem_mk] at hnot
      omega
    rw [if_neg Bool.false_ne_true]
    refine writebuffer_spec hworks h hwithin hclear fun hsome => ?_
    have hmeets := hwrite hsome
    refine ⟨hwithin, hclear, hmeets.end_ne, hmeets.moves, fun hdisplaces b hmem => ?_, hmeets.padded⟩
    rcases hmeets.fresh hdisplaces with htrue | hapart
    · rw [hoverlap] at htrue
      cases htrue
    · exact not_mem_of_overlap (e := rwb.rh) (f := rwb.wr) hapart hmem

theorem Reloaded.inv (hr : Reloaded cfg startblock rwb rwb')
    (h : Inv cfg rwb) : Inv cfg rwb' := by
  have hstart : rwb'.wrblockstart = rwb.wrblockstart := congrArg start hr.wr
  have hcount : rwb'.wrnblocks = rwb.wrnblocks := congrArg count hr.wr
  refine ⟨hcount ▸ h.wr_fits, ?_, ?_, hr.fits, fun b hmem hnot => ?_⟩
  · rw [hstart, hcount]
    exact h.wr_start
  · rw [hstart, hcount]
    exact h.wr_end
  rw [hr.media]
  rcases hr.rh with hsame | hloaded
  · rw [hsame] at hmem ⊢
    exact h.agrees b hmem (hr.wr ▸ hnot)
  · exact (hloaded b hmem).2

theorem Reloaded.view (hr : Reloaded cfg startblock rwb rwb') : rwb'.view = rwb.view := by
  rw [Rwb.view, hr.wr, hr.media, Rwb.view]

theorem readBefore_spec (hworks : cfg.Works) (h : Inv cfg rwb) (startblock : Nat)
    (hin : rwb.wrblockstart ≤ cfg.nblocks) (rdbuffer : Nat → Block) :
    ∃ rwb', readBefore cfg rwb startblock rdbuffer =
        some ((((rwb.wrblockstart - startblock).toNat : Int),
          blit rdbuffer 0 (rwb.wrblockstart - startblock).toNat (drop rwb.media startblock)), rwb') ∧
      Reloaded cfg startblock rwb rwb' := by
  unfold readBefore
  by_cases hbefore : rwb.wrblockstart > startblock
  · rw [if_pos hbefore]
    refine rwbRead_device hworks (by omega) h.rh_fits (fun b _ hlt hmem => h.agrees b hmem ?_) rdbuffer 0
    rw [mem_wr]
    omega
  · rw [if_neg hbefore, Int.toNat_of_nonpos (by omega), blit_zero]
    exact ⟨rwb, rfl, .refl h.rh_fits startblock⟩

theorem readRest_spec (hworks : cfg.Works) (h : Inv cfg rwb) {readblocks : Nat}
    (hin : startblock + nblocks ≤ cfg.nblocks) (hread : readblocks ≤ nblocks)
    (hbeside : ∀ b, startblock + readblocks ≤ b → b < startblock + nblocks → ¬ rwb.wr.Mem b)
    (rdbuffer : Nat → Block) :
    ∃ rwb', readRest cfg rwb startblock nblocks rdbuffer readblocks =
        some (((nblocks : Int), blit rdbuffer readblocks (nblocks - readblocks)
          (drop rwb.media (startblock + readblocks))), rwb') ∧
      Reloaded cfg (startblock + readblocks) rwb rwb' := by
  obtain ⟨rwb', hdevice, hreloaded⟩ := rwbRead_device hworks
    (show startblock + readblocks + (nblocks - readblocks) ≤ cfg.nblocks by omega) h.rh_fits
    (fun b hge hlt hmem => h.agrees b hmem (hbeside b hge (by omega))) rdbuffer readblocks
  refine ⟨rwb', ?_, hreloaded⟩
  rw [readRest, hdevice]
  dsimp only [bind_eq_bind, bind_some]
  rw [if_neg (by omega), show (readblocks + (nblocks - readblocks : Nat) : Int) = nblocks by omega]

theorem rwbRead_spec (hworks : cfg.Works) (h : Inv cfg rwb)
    (hin : startblock + nblocks ≤ cfg.nblocks) (rdbuffer : Nat → Block) :
    ∃ rdbuffer' rwb', rwbRead cfg rwb startblock nblocks rdbuffer =
        some (((nblocks : Int), rdbuffer'), rwb') ∧ Inv cfg rwb' ∧ rwb'.view = rwb.view ∧
      slice rdbuffer' 0 nblocks = slice rwb.view startblock nblocks := by
  unfold rwbRead
  cases hoverlap : overlap rwb.wrblockstart rwb.wrnblocks startblock nblocks with
  | false =>
    have hbeside : ∀ b, startblock + 0 ≤ b → b < startblock + nblocks → ¬ rwb.wr.Mem b := by
      intro b hge hlt hmem
      refine not_mem_of_overlap (e := rwb.wr) (f := ⟨startblock, nblocks, rwb.wrbuffer⟩) hoverlap hmem ?_
      rw [mem_mk]
      omega
    obtain ⟨rwb', hrest, hreloaded⟩ := readRest_spec hworks h hin (Nat.zero_le _) hbeside rdbuffer
    rw [if_neg Bool.false_ne_true]
    refine ⟨_, rwb', hrest, hreloaded.inv h, hreloaded.view, slice_congr fun i hi => ?_⟩
    rw [blit_drop_of_mem (by omega) (by omega), Rwb.view,
      cover_of_not_mem (hbeside _ (by omega) (by omega))]
    congr 1
    omega
  | true =>
    have hmeet : startblock ≤ rwb.wrblockstart + rwb.wrnblocks - 1 ∧
        rwb.wrblockstart ≤ startblock + nblocks - 1 := by
      unfold overlap at hoverlap
      simp only [Bool.not_eq_true', Bool.or_eq_false_iff, decide_eq_false_iff_not] at hoverlap
      omega
    have hmax := h.wr_fits
    obtain ⟨next, hbefore, hnext⟩ := readBefore_spec hworks h startblock (by omega) rdbuffer
    have hstart : next.wrblockstart = rwb.wrblockstart := congrArg start hnext.wr
    have hcount : next.wrnblocks = rwb.wrnblocks := congrArg count hnext.wr
    have hdata : next.wrbuffer = rwb.wrbuffer := congrArg data hnext.wr
    -- `before` blocks lie before the write buffer, then `rdblocks` are in it from `wrnpass` on
    obtain ⟨before, hbeforeEq⟩ : ∃ before, (rwb.wrblockstart - startblock).toNat = before := ⟨_, rfl⟩
    obtain ⟨wrnpass, hwrnpass⟩ : ∃ wrnpass, (startblock + before - rwb.wrblockstart : Int).toNat = wrnpass :=
      ⟨_, rfl⟩
    obtain ⟨rdblocks, hrdblocks⟩ : ∃ rdblocks, min (nblocks - before) (rwb.wrnblocks - wrnpass) = rdblocks :=
      ⟨_, rfl⟩
    have hbehind : ∀ b, startblock + (before + rdblocks) ≤ b → b < startblock + nblocks →
        ¬ next.wr.Mem b := by
      intro b hge hlt
      rw [mem_wr, hstart, hcount]
      omega
    obtain ⟨rwb', hrest, hreloaded⟩ := readRest_spec hworks (hnext.inv h) hin
      (show before + rdblocks ≤ nblocks by omega) hbehind
      (blit (blit rdbuffer 0 before (drop rwb.media startblock)) before rdblocks (drop rwb.wrbuffer wrnpass))
    rw [hbeforeEq] at hbefore
    rw [if_pos rfl, hbefore]
    dsimp only [bind_eq_bind, bind_some]
    rw [if_neg (by omega), Int.toNat_natCast, hstart, hcount, hdata, hwrnpass, hrdblocks,
      inside_of (by omega) (by omega)]
    refine ⟨_, rwb', hrest, hreloaded.inv (hnext.inv h), hreloaded.view.trans hnext.view,
      slice_congr fun i hi => ?_⟩
    rw [Nat.zero_add, hnext.media]
    rcases Nat.lt_or_ge i (before + rdblocks) with hread | hrestful
    · rw [blit_of_lt hread]
      rcases Nat.lt_or_ge i before with hfirst | hmiddle
      · rw [blit_of_lt hfirst, blit_drop_of_mem (by omega) (by omega), Rwb.view,
          cover_of_not_mem (mt mem_wr.mp (by omega)), Nat.sub_zero]
      rw [blit_drop_of_mem hmiddle hread, Rwb.view, cover_of_mem (mem_wr.mpr (by omega))]
      congr 1
      show wrnpass + (i - before) = ((startblock + i : Nat) - rwb.wrblockstart : Int).toNat
      omega
    · rw [blit_drop_of_mem hrestful (by omega), Rwb.view,
        cover_of_not_mem (mt mem_wr.mp (by omega))]
      congr 1
      omega

def Stands (cfg : Config) (state : Option (Rwb Block)) (content : Nat → Block) : Prop :=
  ∃ rwb, state = some rwb ∧ Inv cfg rwb ∧ rwb.view = content

def Sound (cfg : Config) (state : Option (Rwb Block)) (c : Call Block) : Prop :=
  ∀ rwb ∈ state, Fit cfg rwb c

theorem wrflush_fit (hworks : cfg.Works) (h : Inv cfg rwb)
    (hfit : 0 < rwb.wrnblocks → Apart rwb ∧ Padded cfg rwb) :
    ∃ rwb', wrflush cfg rwb = some rwb' ∧ Inv cfg rwb' ∧ rwb'.view = rwb.view ∧ rwb'.media = rwb.view := by
  obtain ⟨rwb', hflush, hflushed⟩ := wrflush_spec hworks h (fun b hrh hwr => by
    by_cases hsome : 0 < rwb.wrnblocks
    · exact not_mem_of_overlap (e := rwb.rh) (f := rwb.wr) (hfit hsome).1 hrh hwr
    · exact not_mem_wr_of_empty (by omega) b hwr) fun hsome => (hfit hsome).2
  have hempty := hflushed.empty
  refine ⟨rwb', hflush, ⟨by omega, fun h => by omega, fun h => by omega, hflushed.rh_fits,
    fun b hmem _ => ?_⟩, ?_, hflushed.media⟩
  · rw [hflushed.media]
    exact hflushed.agrees b hmem
  · rw [Inv.view_of_empty hempty]
    exact hflushed.media

theorem step_spec (hworks : cfg.Works) (state : Option (Rwb Block)) (content : Nat → Block) (c : Call Block)
    (h : Stands cfg state content) (hfit : Sound cfg state c) :
    (step cfg state c).1 = (arrayCall content c).1 ∧
      Stands cfg (step cfg state c).2 (arrayCall content c).2 := by
  obtain ⟨rwb, rfl, hinv, rfl⟩ := h
  have hfits := hfit rwb rfl
  unfold step
  rw [bind_some]
  cases c with
  | read startblock nblocks rdbuffer =>
    obtain ⟨rdbuffer', rwb', hread, hinv', hview, hslice⟩ := rwbRead_spec hworks hinv hfits rdbuffer
    dsimp only [call]
    rw [hread]
    refine ⟨?_, rwb', rfl, hinv', hview⟩
    show some ((nblocks : Int), slice rdbuffer' 0 nblocks) = some ((nblocks : Int), slice rwb.view startblock nblocks)
    rw [hslice]
  | write startblock nblocks data =>
    obtain ⟨rwb', hwrite, hinv', hview⟩ := rwbWrite_spec hworks hinv hfits
    dsimp only [call]
    rw [hwrite]
    exact ⟨rfl, rwb', rfl, hinv', hview⟩
  | flush =>
    obtain ⟨rwb', hflush, hinv', hview, -⟩ := wrflush_fit hworks hinv hfits
    dsimp only [call, rwbFlush]
    rw [hflush]
    exact ⟨rfl, rwb', rfl, hinv', hview⟩
  | wrtimeout =>
    obtain ⟨rwb', hflush, hinv', hview, -⟩ := wrflush_fit hworks hinv hfits
    dsimp only [call]
    rw [hflush]
    exact ⟨rfl, rwb', rfl, hinv', hview⟩

theorem Stands.rwbInitialize (cfg : Config) (media wrbuffer rhbuffer : Nat → Block) :
    Stands cfg (some (rwbInitialize media wrbuffer rhbuffer)) media := by
  refine ⟨_, rfl, ⟨Nat.zero_le _, fun h => absurd h (lt_irrefl _), fun h => absurd h (lt_irrefl _),
    Nat.zero_le _, fun b hmem => ?_⟩, Inv.view_of_empty rfl⟩
  rw [mem_rh] at hmem
  unfold Rwbuffer.rwbInitialize at hmem
  dsimp only at hmem
  omega

/-- **The buffers are transparent** for every run of calls that are sound in the states they are made
in: no copy leaves its buffer, every read returns the blocks last written, and a flush leaves the
contents of the array on the device. -/
theorem buffers_are_transparent (cfg : Config) (media wrbuffer rhbuffer : Nat → Block)
    (calls : List (Call Block)) (hworks : cfg.Works)
    (hsound : Refines.Along (step cfg) (Sound cfg) (some (rwbInitialize media wrbuffer rhbuffer)) calls) :
    (Refines.run (step cfg) (some (rwbInitialize media wrbuffer rhbuffer)) calls).1 =
        (Refines.run arrayCall media calls).1 ∧
      ∃ rwb, (Refines.run (step cfg) (some (rwbInitialize media wrbuffer rhbuffer)) calls).2 = some rwb ∧
        (Fit cfg rwb .flush → ∃ rwb', wrflush cfg rwb = some rwb' ∧
          rwb'.media = (Refines.run arrayCall media calls).2) := by
  obtain ⟨hanswers, rwb, hrwb, hinv, hview⟩ :=
    Refines.run_eq (step_spec hworks) (Stands.rwbInitialize cfg media wrbuffer rhbuffer) hsound
  refine ⟨hanswers, rwb, hrwb, fun hfit => ?_⟩
  obtain ⟨rwb', hflush, -, -, hmedia⟩ := wrflush_fit hworks hinv hfit
  exact ⟨rwb', hflush, hmedia.trans hview⟩

def eightBlocks : Config := ⟨8, 2, 2, 2, Nat.two_pos, Nat.dvd_refl 2, Nat.two_pos, fun _ => none⟩

def twoWrites : List (Call Nat) := [.write 2 1 fun _ => 7, .read 2 1 fun _ => 0, .write 6 2 fun _ => 8]

theorem buffers_are_transparent_twoWrites :
    (Refines.run (step eightBlocks) (some (rwbInitialize (fun _ => 0) (fun _ => 0) fun _ => 0)) twoWrites).1 =
        (Refines.run arrayCall (fun _ => 0) twoWrites).1 ∧
      ∃ rwb, (Refines.run (step eightBlocks) (some (rwbInitialize (fun _ => 0) (fun _ => 0) fun _ => 0))
          twoWrites).2 = some rwb ∧
        (Fit eightBlocks rwb .flush → ∃ rwb', wrflush eightBlocks rwb = some rwb' ∧
          rwb'.media = (Refines.run arrayCall (fun _ => 0) twoWrites).2) := by
  apply buffers_are_transparent
  · intro startblock nblocks _
    exact ⟨rfl, rfl⟩
  refine ⟨?_, ?_, ?_, trivial⟩
  · rintro rwb ⟨⟩
    exact ⟨by decide, fun h => absurd h (by decide)⟩
  · rintro rwb ⟨⟩
    exact Nat.le_of_ble_eq_true rfl
  rintro rwb ⟨⟩
  refine ⟨by decide, fun _ => ⟨by decide, by decide, fun _ => .inr rfl, fun _ _ => ?_⟩⟩
  unfold Padded
  decide

def twoBlocks : Config := ⟨2, 1, 1, 2, Nat.one_pos, Nat.dvd_refl 1, Nat.two_pos, fun _ => none⟩

/-- **Blocks read ahead go stale**: a block is written, the one before it is read, which reads the old
contents of the first one ahead, and after a flush these are what is read. -/
theorem read_ahead_goes_stale :
    (Refines.run (step twoBlocks) (some (rwbInitialize (fun _ => 0) (fun _ => 0) fun _ => 0))
        [.write 1 1 fun _ => 7, .read 0 1 fun _ => 0, .flush, .read 1 1 fun _ => 0]).1 =
        [some (1, []), some (1, [0]), some (0, []), some (1, [0])] ∧
      (Refines.run arrayCall (fun _ => 0)
        [.write 1 1 fun _ => 7, .read 0 1 fun _ => 0, .flush, .read 1 1 fun _ => 0]).1 =
        [some (1, []), some (1, [0]), some (0, []), some (1, [7])] := by
  decide

/-- A write that ends where the blocks of the write buffer end and starts before them is copied to an
address before the buffer. -/
example : (Refines.run (step eightBlocks) (some (rwbInitialize (fun _ => 0) (fun _ => 0) fun _ => 0))
    [.write 1 1 fun _ => 7, .write 0 2 fun _ => 7]).1 = [some (1, []), none] := by
  decide

end Nuttx.Rwbuffer

import Nuttx.Drivers.Mtd.Sector512
import Mathlib.Tactic.Ring

/-!
# The 512-byte sector layer is an array of bytes

The array that the layer stands for is the device with the copy in memory laid over it (`view`).
-/

namespace Nuttx.Mtd.S512

open Stretch Flash

variable {geo : Geometry} {env : Env} {priv : Priv}

namespace Geometry

theorem sectperblock_mul (geo : Geometry) : geo.sectperblock * geo.blocksize = geo.erasesize :=
  Nat.div_mul_cancel geo.blocksize_dvd

def Fits (geo : Geometry) : Prop := geo.erasesize / 512 < 2 ^ 16

theorem Fits.mul_stdperblock (h : geo.Fits) : 512 * geo.stdperblock = geo.erasesize := by
  unfold stdperblock
  rw [Nat.mod_eq_of_lt h, Nat.mul_div_cancel' geo.sector_dvd]

theorem Fits.stdperblock_pos (h : geo.Fits) : 0 < geo.stdperblock := by
  have hmul := h.mul_stdperblock
  have hlt := geo.sector_lt
  omega

theorem Fits.sector (h : geo.Fits) (sector512 : Nat) : 512 * sector512 =
    sector512 / geo.stdperblock * geo.erasesize + 512 * (sector512 % geo.stdperblock) := by
  rw [← h.mul_stdperblock]
  conv_lhs => rw [← Nat.div_add_mod sector512 geo.stdperblock]
  ring

end Geometry

def view (geo : Geometry) (priv : Priv) : Nat → UInt8 :=
  if priv.valid then blit priv.chip.cells (priv.eblockno * geo.erasesize) geo.erasesize priv.eblock
  else priv.chip.cells

theorem view_of_valid (hvalid : priv.valid = true) :
    view geo priv = blit priv.chip.cells (priv.eblockno * geo.erasesize) geo.erasesize priv.eblock :=
  if_pos hvalid

structure Inv (geo : Geometry) (env : Env) (priv : Priv) : Prop where
  valid : priv.dirty = true → priv.valid = true
  clean : priv.valid = true → priv.dirty = false → ∀ i, i < geo.erasesize →
    priv.eblock i = priv.chip.cells (priv.eblockno * geo.erasesize + i)
  erased : priv.dirty = true → ∀ i, i < geo.erasesize →
    priv.chip.cells (priv.eblockno * geo.erasesize + i) = env.cell.erased
  since : priv.dirty = true → ErasedSince geo.sectperblock priv.chip.log priv.eblockno
  disciplined : Disciplined geo.sectperblock priv.chip.log

theorem Inv.initial (cells eblock : Nat → UInt8) : Inv geo env (initial cells eblock) where
  valid := fun h => absurd h Bool.false_ne_true
  clean := fun h => absurd h Bool.false_ne_true
  erased := fun h => absurd h Bool.false_ne_true
  since := fun h => absurd h Bool.false_ne_true
  disciplined := trivial

def Env.Works (env : Env) : Prop := ∀ request, env.fault request = none

theorem Inv.view_clean (h : Inv geo env priv) (hclean : priv.dirty = false) :
    view geo priv = priv.chip.cells := by
  unfold view
  split_ifs with hvalid
  · funext i
    by_cases hin : priv.eblockno * geo.erasesize ≤ i ∧ i < priv.eblockno * geo.erasesize + geo.erasesize
    · rw [blit_of_mem hin.1 hin.2, h.clean hvalid hclean _ (by omega), Nat.add_sub_cancel' hin.1]
    · exact if_neg hin
  · rfl

theorem cacheflush_of_clean (hclean : priv.dirty = false) : cacheflush geo env priv = priv := by
  unfold cacheflush Priv.isErased
  rw [hclean]
  rfl

theorem Inv.cells_program (h : Inv geo env priv) (hdirty : priv.dirty = true) :
    (priv.chip.program env.cell geo.blocksize (priv.eblockno * geo.sectperblock)
      geo.sectperblock priv.eblock).cells =
        blit priv.chip.cells (priv.eblockno * geo.erasesize) geo.erasesize priv.eblock := by
  rw [cells_program_of_erased, Nat.mul_assoc, geo.sectperblock_mul]
  intro i hi hi'
  rw [Nat.add_mul] at hi'
  rw [Nat.mul_assoc, geo.sectperblock_mul] at hi hi'
  have herased := h.erased hdirty (i - priv.eblockno * geo.erasesize) (by omega)
  rwa [Nat.add_sub_cancel' hi] at herased

theorem cacheflush_spec (hworks : env.Works) (h : Inv geo env priv) :
    Inv geo env (cacheflush geo env priv) ∧ view geo (cacheflush geo env priv) = view geo priv ∧
      (cacheflush geo env priv).dirty = false := by
  cases hdirty : priv.dirty with
  | false =>
    rw [cacheflush_of_clean hdirty]
    exact ⟨h, rfl, hdirty⟩
  | true =>
    have hvalid := h.valid hdirty
    have hcells := h.cells_program hdirty
    rw [cacheflush, Priv.isErased, hdirty, Bool.true_or, if_pos rfl]
    dsimp only
    rw [hworks]
    dsimp only [Priv.clrErased]
    refine ⟨⟨fun hd => absurd hd Bool.false_ne_true, ?_, fun hd => absurd hd Bool.false_ne_true,
      fun hd => absurd hd Bool.false_ne_true, ?_⟩, ?_, rfl⟩
    · intro _ _ i hi
      dsimp only
      rw [hcells, blit_of_mem (by omega) (by omega), Nat.add_sub_cancel_left]
    · refine ⟨fun b hb hb' => ?_, h.disciplined⟩
      have hb'' : b < (priv.eblockno + 1) * geo.sectperblock := by rwa [Nat.add_mul, Nat.one_mul]
      rw [Nat.div_eq_of_lt_le hb hb'']
      exact h.since hdirty
    · rw [view_of_valid hvalid]
      refine (view_of_valid (by exact hvalid)).trans ?_
      rw [hcells, blit_blit_self]

structure Cached (geo : Geometry) (env : Env) (priv priv' : Priv) (eblockno : Nat) : Prop where
  inv : Inv geo env priv'
  view : view geo priv' = view geo priv
  valid : priv'.valid = true
  number : priv'.eblockno = eblockno

theorem cacheread_spec (hworks : env.Works) (h : Inv geo env priv) (sector512 : Nat) :
    ∃ priv', cacheread geo env priv sector512 = (some (512 * (sector512 % geo.stdperblock)), priv') ∧
      Cached geo env priv priv' (sector512 / geo.stdperblock) := by
  have haddress : (sector512 % geo.stdperblock) <<< 9 = 512 * (sector512 % geo.stdperblock) := by
    rw [Nat.shiftLeft_eq, Nat.mul_comm]
  unfold cacheread
  dsimp only
  rw [haddress]
  split_ifs with hmiss
  · obtain ⟨hinv, hview, hclean⟩ := cacheflush_spec hworks h
    rw [hworks]
    have hloaded : Inv geo env ({ cacheflush geo env priv with
        eblock := blit (cacheflush geo env priv).eblock 0 (geo.sectperblock * geo.blocksize)
          (drop (cacheflush geo env priv).chip.cells
            (sector512 / geo.stdperblock * geo.sectperblock * geo.blocksize))
        eblockno := sector512 / geo.stdperblock
        valid := true
        dirty := false } : Priv).clrErased := by
      refine ⟨fun hd => absurd hd Bool.false_ne_true, fun _ _ i hi => ?_,
        fun hd => absurd hd Bool.false_ne_true, fun hd => absurd hd Bool.false_ne_true,
        hinv.disciplined⟩
      dsimp only [Priv.clrErased]
      rw [Nat.mul_assoc, geo.sectperblock_mul, blit_drop_of_mem (Nat.zero_le i) (by omega), Nat.sub_zero]
    refine ⟨_, rfl, hloaded, ?_, rfl, rfl⟩
    rw [hloaded.view_clean rfl, ← hview, hinv.view_clean hclean]
    rfl
  · rw [Bool.or_eq_true, not_or, Bool.not_eq_true', bne_iff_ne, not_not, Bool.not_eq_false] at hmiss
    exact ⟨priv, rfl, h, rfl, hmiss.1, hmiss.2.symm⟩

theorem prepare_spec (hworks : env.Works) (h : Inv geo env priv) (sector512 : Nat) :
    ∃ priv', prepare geo env priv sector512 = (.ok (512 * (sector512 % geo.stdperblock)), priv') ∧
      Cached geo env priv priv' (sector512 / geo.stdperblock) ∧ priv'.dirty = true := by
  obtain ⟨priv', hread, hcached⟩ := cacheread_spec hworks h sector512
  unfold prepare
  rw [hread]
  dsimp only
  by_cases hdirty : priv'.isErased = true
  · rw [if_pos hdirty]
    exact ⟨priv', rfl, hcached, hdirty⟩
  rw [if_neg hdirty, hworks]
  refine ⟨_, rfl, ⟨⟨fun _ => hcached.valid, fun _ hd => absurd hd.symm Bool.false_ne_true, ?_, ?_,
    hcached.inv.disciplined⟩, ?_, hcached.valid, hcached.number⟩, rfl⟩
  · intro _ i hi
    dsimp only [Priv.setErased]
    rw [hcached.number, cells_erase, fill, blit_of_mem (by omega) (by omega)]
  · intro _
    exact .inl hcached.number.symm
  · rw [← hcached.view, view_of_valid hcached.valid]
    refine (view_of_valid (by exact hcached.valid)).trans ?_
    dsimp only [Priv.setErased]
    rw [hcached.number, cells_erase, fill, blit_blit_self]

theorem sector_add_le (hfits : geo.Fits) (sector512 : Nat) :
    512 * (sector512 % geo.stdperblock) + 512 ≤ geo.erasesize := by
  have hlt := Nat.mod_lt sector512 hfits.stdperblock_pos
  have hmul := hfits.mul_stdperblock
  omega

theorem store_spec (hfits : geo.Fits) {sector512 : Nat} (h : Inv geo env priv) (hvalid : priv.valid = true)
    (hnumber : priv.eblockno = sector512 / geo.stdperblock) (hdirty : priv.dirty = true)
    (data : Nat → UInt8) :
    Inv geo env (store priv (512 * (sector512 % geo.stdperblock)) data) ∧
      view geo (store priv (512 * (sector512 % geo.stdperblock)) data) =
        blit (view geo priv) (512 * sector512) 512 data := by
  refine ⟨⟨fun _ => hvalid, fun _ hd => absurd hd.symm Bool.false_ne_true, fun _ => h.erased hdirty,
    fun _ => h.since hdirty, h.disciplined⟩, ?_⟩
  have hle := sector_add_le hfits sector512
  have hwhere := hfits.sector sector512
  rw [view_of_valid hvalid]
  refine (view_of_valid (by exact hvalid)).trans ?_
  unfold store
  dsimp only
  rw [hnumber]
  funext i
  by_cases hblock : sector512 / geo.stdperblock * geo.erasesize ≤ i ∧
      i < sector512 / geo.stdperblock * geo.erasesize + geo.erasesize
  · rw [blit_of_mem hblock.1 hblock.2]
    by_cases hsector : 512 * sector512 ≤ i ∧ i < 512 * sector512 + 512
    · rw [blit_of_mem (by omega) (by omega), blit_of_mem hsector.1 hsector.2, hwhere, Nat.sub_sub]
    · unfold blit
      rw [if_neg (by omega), if_neg hsector, if_pos hblock]
  · unfold blit
    rw [if_neg hblock, if_neg (by omega), if_neg hblock]

theorem slice_eblock (hfits : geo.Fits) {sector512 : Nat} (hvalid : priv.valid = true)
    (hnumber : priv.eblockno = sector512 / geo.stdperblock) {sectoffset count : Nat}
    (hcount : sectoffset + count ≤ 512) :
    slice priv.eblock (512 * (sector512 % geo.stdperblock) + sectoffset) count =
      slice (view geo priv) (512 * sector512 + sectoffset) count := by
  have hle := sector_add_le hfits sector512
  have hwhere := hfits.sector sector512
  refine slice_congr fun i hi => ?_
  rw [view_of_valid hvalid, hnumber, blit_of_mem (by omega) (by omega)]
  congr 1
  omega

/-- An erase is a write of the erased state, but for the error it returns. -/
theorem eraseLoop_ok {priv' : Priv} {sector512 done nsectors : Nat}
    (h : bwriteLoop geo env priv sector512 done (fun _ => env.erasedState) nsectors = (.ok (), priv')) :
    eraseLoop geo env priv sector512 nsectors = (.ok (), priv') := by
  induction nsectors generalizing priv sector512 done with
  | zero => exact h
  | succ nsectors ih =>
    rw [bwriteLoop] at h
    rw [eraseLoop]
    cases hprepare : prepare geo env priv sector512 with
    | mk ret priv1 =>
      rw [hprepare] at h
      cases ret with
      | error => cases h
      | ok => exact ih h

section

variable (hworks : env.Works) (hfits : geo.Fits) (h : Inv geo env priv)
include hworks hfits h

theorem bwriteLoop_spec (sector512 done nsectors : Nat) (buffer : Nat → UInt8) :
    ∃ priv', bwriteLoop geo env priv sector512 done buffer nsectors = (.ok (), priv') ∧
      Inv geo env priv' ∧
      view geo priv' = blit (view geo priv) (512 * sector512) (512 * nsectors) buffer := by
  induction nsectors generalizing priv sector512 done buffer with
  | zero => exact ⟨priv, rfl, h, (blit_zero _ _ _).symm⟩
  | succ nsectors ih =>
    obtain ⟨priv1, hprepare, hcached, hdirty⟩ := prepare_spec hworks h sector512
    obtain ⟨hinv, hview⟩ := store_spec hfits hcached.inv hcached.valid hcached.number hdirty buffer
    obtain ⟨priv2, hloop, hinv2, hview2⟩ := ih hinv (sector512 + 1) (done + 1) (drop buffer 512)
    refine ⟨priv2, ?_, hinv2, ?_⟩
    · rw [bwriteLoop, hprepare]
      exact hloop
    · rw [hview2, hview, hcached.view, Nat.mul_succ, Nat.mul_succ, Nat.add_comm (512 * nsectors)]
      exact blit_blit_append _ _ _ _ _

theorem breadLoop_spec (sector512 nsectors : Nat) :
    ∃ priv', breadLoop geo env priv sector512 nsectors =
        (nsectors, slice (view geo priv) (512 * sector512) (512 * nsectors), priv') ∧
      Inv geo env priv' ∧ view geo priv' = view geo priv := by
  induction nsectors generalizing priv sector512 with
  | zero => exact ⟨priv, rfl, h, rfl⟩
  | succ nsectors ih =>
    obtain ⟨priv1, hread, hcached⟩ := cacheread_spec hworks h sector512
    obtain ⟨priv2, hloop, hinv2, hview2⟩ := ih hcached.inv (sector512 + 1)
    have hslice := slice_eblock hfits hcached.valid hcached.number (Nat.le_refl (0 + 512))
    rw [Nat.add_zero, Nat.add_zero] at hslice
    refine ⟨priv2, ?_, hinv2, hview2.trans hcached.view⟩
    rw [breadLoop, hread]
    dsimp only
    rw [hloop, hslice, hcached.view, Nat.mul_succ, Nat.mul_succ, Nat.add_comm (512 * nsectors), slice_add]

theorem readLoop_spec (sector sectoffset nbytes : Nat) (hone : sectoffset + nbytes ≤ 512) :
    ∃ priv', readLoop geo env priv sector sectoffset nbytes nbytes =
        (nbytes, slice (view geo priv) (512 * sector + sectoffset) nbytes, priv') ∧
      Inv geo env priv' ∧ view geo priv' = view geo priv := by
  cases nbytes with
  | zero => exact ⟨priv, rfl, h, rfl⟩
  | succ count =>
    obtain ⟨priv1, hread, hcached⟩ := cacheread_spec hworks h sector
    have hslice := slice_eblock hfits hcached.valid hcached.number hone
    have hend : ∀ fuel, readLoop geo env priv1 sector sectoffset fuel 0 = (0, [], priv1) := by
      intro fuel
      cases fuel with
      | zero => rfl
      | succ fuel => rw [readLoop, if_pos rfl]
    refine ⟨priv1, ?_, hcached.inv, hcached.view⟩
    rw [readLoop, if_neg (Nat.succ_ne_zero count), hread]
    dsimp only
    rw [if_neg hone.not_gt, Nat.sub_self, hend, hslice, hcached.view]
    dsimp only
    rw [List.append_nil]

end

structure Stands (geo : Geometry) (env : Env) (priv : Priv) (content : Nat → UInt8) : Prop where
  inv : Inv geo env priv
  view : view geo priv = content

theorem call_spec (hworks : env.Works) (hfits : geo.Fits) (priv : Priv) (content : Nat → UInt8) (c : Call)
    (h : Stands geo env priv content) (hone : c.OneSector) :
    (call geo env priv c).1 = (arrayCall env content c).1 ∧
      Stands geo env (call geo env priv c).2 (arrayCall env content c).2 := by
  obtain ⟨hinv, rfl⟩ := h
  cases c with
  | erase sector512 nsectors =>
    obtain ⟨priv', hloop, hinv', hview⟩ := bwriteLoop_spec hworks hfits hinv sector512 0 nsectors
      fun _ => env.erasedState
    obtain ⟨hflush, hflushed, -⟩ := cacheflush_spec hworks hinv'
    rw [call, s512Erase, eraseLoop_ok hloop]
    exact ⟨rfl, hflush, hflushed.trans hview⟩
  | bread sector512 nsectors =>
    obtain ⟨priv', hloop, hinv', hview⟩ := breadLoop_spec hworks hfits hinv sector512 nsectors
    rw [call, s512Bread, hloop]
    dsimp only
    rw [if_neg fun hfail => hfail.2 hfail.1]
    exact ⟨rfl, hinv', hview⟩
  | bwrite sector512 nsectors buffer =>
    obtain ⟨priv', hloop, hinv', hview⟩ := bwriteLoop_spec hworks hfits hinv sector512 0 nsectors buffer
    obtain ⟨hflush, hflushed, -⟩ := cacheflush_spec hworks hinv'
    rw [call, s512Bwrite, hloop]
    exact ⟨rfl, hflush, hflushed.trans hview⟩
  | read offset nbytes =>
    obtain ⟨priv', hloop, hinv', hview⟩ :=
      readLoop_spec hworks hfits hinv (offset / 512) (offset % 512) nbytes hone
    rw [Nat.div_add_mod] at hloop
    rw [call, s512Read, hloop]
    dsimp only
    rw [if_neg fun hfail => hfail.2 hfail.1]
    exact ⟨rfl, hinv', hview⟩

theorem along_oneSector {calls : List Call} (hone : ∀ c ∈ calls, c.OneSector) (priv : Priv) :
    Refines.Along (call geo env) (fun _ c => c.OneSector) priv calls := by
  induction calls generalizing priv with
  | nil => trivial
  | cons c calls ih =>
    exact ⟨hone c List.mem_cons_self, ih (fun c' hc' => hone c' (List.mem_cons_of_mem c hc')) _⟩

/-- **The layer is an array of bytes** for every run of calls whose byte reads stay inside a sector, on
a device whose erase blocks have fewer than 65536 sectors: every call returns what the array returns,
and only erase blocks that were erased since they were last programmed are programmed. -/
theorem sector_layer_is_array (geo : Geometry) (env : Env) (cells eblock : Nat → UInt8) (calls : List Call)
    (hworks : env.Works) (hfits : geo.Fits) (hone : ∀ c ∈ calls, c.OneSector) :
    (Refines.run (call geo env) (initial cells eblock) calls).1 =
        (Refines.run (arrayCall env) cells calls).1 ∧
      Disciplined geo.sectperblock (Refines.run (call geo env) (initial cells eblock) calls).2.chip.log := by
  have hinitial : Stands geo env (initial cells eblock) cells := ⟨Inv.initial cells eblock, rfl⟩
  obtain ⟨hanswers, hlast⟩ := Refines.run_eq (call_spec hworks hfits) hinitial (along_oneSector hone _)
  exact ⟨hanswers, hlast.inv.disciplined⟩

def twoSectors : Geometry := ⟨512, 1024, by decide, by decide, by decide⟩

def flawless : Env := ⟨⟨0xff, fun _ new => new, fun _ => rfl⟩, fun _ => none, 0xff⟩

theorem sector_layer_is_array_short :
    (Refines.run (call twoSectors flawless) (initial (fun _ => 0) fun _ => 0)
        [.bwrite 1 1 fun _ => 7, .read 600 1, .erase 1 1, .bread 0 2]).1 =
      (Refines.run (arrayCall flawless) (fun _ => 0)
        [.bwrite 1 1 fun _ => 7, .read 600 1, .erase 1 1, .bread 0 2]).1 ∧
    Disciplined twoSectors.sectperblock
      (Refines.run (call twoSectors flawless) (initial (fun _ => 0) fun _ => 0)
        [.bwrite 1 1 fun _ => 7, .read 600 1, .erase 1 1, .bread 0 2]).2.chip.log := by
  apply sector_layer_is_array
  · intro request
    rfl
  · unfold Geometry.Fits
    decide
  · simp [Call.OneSector]

/-- **A byte read does not leave its sector**: of two bytes read at the end of the first sector, the
second is the first one again and not the one at the start of the second sector. -/
theorem byte_read_repeats_sector :
    (call twoSectors flawless (initial (fun i => if i < 512 then 0 else 1) fun _ => 0) (.read 511 2)).1 =
        (2, [0, 0]) ∧
      (arrayCall flawless (fun i => if i < 512 then 0 else 1) (.read 511 2)).1 = (2, [0, 1]) := by
  decide

end Nuttx.Mtd.S512

import Nuttx.Drivers.Bch.Model
import Mathlib.Tactic.Ring

/-!
# A block device as an array of bytes

The array is what the device means with the sector in the buffer laid over it (`view`).
-/

namespace Nuttx.Bch

open Stretch

variable {cfg : Config} {bch : Bchlib} {sector : Nat}

section Permute

variable {n : Nat} (perm : Equiv.Perm (Fin n → UInt8)) {buffer buffer' : Nat → UInt8}

theorem permute_congr (h : ∀ k, k < n → buffer k = buffer' k) {i : Nat} (hi : i < n) :
    permute perm buffer i = permute perm buffer' i := by
  have hsame : (fun k : Fin n => buffer k) = fun k : Fin n => buffer' k := funext fun k => h k k.isLt
  rw [permute, permute, dif_pos hi, dif_pos hi, hsame]

theorem permute_symm_permute (buffer : Nat → UInt8) : permute perm.symm (permute perm buffer) = buffer := by
  have hinner : (fun k : Fin n => permute perm buffer k) = perm fun k => buffer k :=
    funext fun k => dif_pos k.isLt
  funext i
  by_cases hi : i < n
  · rw [permute, dif_pos hi, hinner, perm.symm_apply_apply]
  · rw [permute, dif_neg hi, permute, dif_neg hi]

theorem permute_refl (buffer : Nat → UInt8) : permute (Equiv.refl (Fin n → UInt8)) buffer = buffer := by
  funext i
  by_cases hi : i < n
  · exact dif_pos hi
  · exact dif_neg hi

end Permute

def shown (cfg : Config) (bch : Bchlib) (sector : Nat) : Nat → UInt8 :=
  if sector = bch.sector ∧ sector < cfg.nsectors then bch.buffer
  else permute (cfg.perm sector).symm (drop bch.media (sector * cfg.sectsize))

def view (cfg : Config) (bch : Bchlib) : Nat → UInt8 := fun i =>
  shown cfg bch (i / cfg.sectsize) (i % cfg.sectsize)

structure Inv (cfg : Config) (bch : Bchlib) : Prop where
  dirty : bch.dirty = true → bch.sector < cfg.nsectors
  clean : bch.dirty = false → bch.sector < cfg.nsectors → ∀ k, k < cfg.sectsize →
    bch.buffer k = permute (cfg.perm bch.sector).symm (drop bch.media (bch.sector * cfg.sectsize)) k

def Config.Works (cfg : Config) : Prop := ∀ request, cfg.fault request = none

theorem not_noSector_lt (cfg : Config) : ¬ noSector < cfg.nsectors := by
  have hlt := cfg.nsectors_lt
  unfold noSector
  omega

theorem Inv.setup (media buffer : Nat → UInt8) : Inv cfg (setup media buffer) :=
  ⟨fun h => absurd h Bool.false_ne_true, fun _ h => absurd h (not_noSector_lt cfg)⟩

theorem Inv.view_clean (h : Inv cfg bch) (hclean : bch.dirty = false) : view cfg bch = plain cfg bch.media := by
  funext i
  have hmod := Nat.mod_lt i cfg.sectsize_pos
  unfold view shown plain
  split_ifs with hin
  · obtain ⟨heq, hlt⟩ := hin
    rw [heq] at hlt ⊢
    exact h.clean hclean hlt _ hmod
  · rfl

theorem blit_sector_ne {media data : Nat → UInt8} {sector sector' k n : Nat} (hne : sector ≠ sector')
    (hk : k < n) : blit media (sector * n) n data (sector' * n + k) = media (sector' * n + k) := by
  rcases Nat.lt_or_gt_of_ne hne with hlt | hgt
  · have hle := Nat.mul_le_mul_right n hlt
    rw [Nat.succ_mul] at hle
    exact blit_of_ge (by omega)
  · have hle := Nat.mul_le_mul_right n hgt
    rw [Nat.succ_mul] at hle
    exact blit_of_lt (by omega)

theorem flushsector_of_dirty (hworks : cfg.Works) (hdirty : bch.dirty = true) :
    flushsector cfg bch = (1, { bch with
      media := blit bch.media (bch.sector * cfg.sectsize) cfg.sectsize
        (permute (cfg.perm bch.sector) bch.buffer)
      dirty := false }) := by
  unfold flushsector
  rw [if_pos hdirty]
  dsimp only [mediaWrite, encrypt, decrypt]
  rw [hworks, Nat.one_mul]
  rw [permute_symm_permute]
  rfl

theorem flushsector_of_clean (hclean : bch.dirty = false) : flushsector cfg bch = (0, bch) := by
  unfold flushsector
  rw [hclean]
  rfl

theorem flushsector_spec (hworks : cfg.Works) (h : Inv cfg bch) :
    0 ≤ (flushsector cfg bch).1 ∧ Inv cfg (flushsector cfg bch).2 ∧
      view cfg (flushsector cfg bch).2 = view cfg bch ∧ (flushsector cfg bch).2.dirty = false ∧
      (flushsector cfg bch).2.sector = bch.sector := by
  cases hdirty : bch.dirty with
  | false =>
    rw [flushsector_of_clean hdirty]
    exact ⟨Int.le_refl 0, h, rfl, hdirty, rfl⟩
  | true =>
    have hsector := h.dirty hdirty
    have hmedia : ∀ k, k < cfg.sectsize → drop (blit bch.media (bch.sector * cfg.sectsize) cfg.sectsize
        (permute (cfg.perm bch.sector) bch.buffer)) (bch.sector * cfg.sectsize) k =
          permute (cfg.perm bch.sector) bch.buffer k := by
      intro k hk
      unfold drop
      rw [blit_of_mem (by omega) (by omega), Nat.add_sub_cancel_left]
    rw [flushsector_of_dirty hworks hdirty]
    refine ⟨Int.one_nonneg, ⟨fun hd => absurd hd Bool.false_ne_true, fun _ _ k hk => ?_⟩, ?_, rfl, rfl⟩
    · dsimp only
      rw [permute_congr _ hmedia hk, permute_symm_permute]
    funext i
    have hmod := Nat.mod_lt i cfg.sectsize_pos
    unfold view shown
    split_ifs with hin
    · rfl
    refine permute_congr _ (fun k hk => ?_) hmod
    by_cases heq : i / cfg.sectsize = bch.sector
    · exact absurd ⟨heq, heq ▸ hsector⟩ hin
    · exact blit_sector_ne (Ne.symm heq) hk

theorem readsector_of_clean (hworks : cfg.Works) (hclean : bch.dirty = false)
    (hne : bch.sector ≠ sector) : readsector cfg bch sector = { bch with
      sector := sector
      buffer := permute (cfg.perm sector).symm
        (blit bch.buffer 0 cfg.sectsize (drop bch.media (sector * cfg.sectsize))) } := by
  unfold readsector
  rw [if_pos hne, flushsector_of_clean hclean]
  rw [hworks]
  rfl

structure Loaded (cfg : Config) (bch bch' : Bchlib) (sector : Nat) : Prop where
  inv : Inv cfg bch'
  view : view cfg bch' = view cfg bch
  sector : bch'.sector = sector

theorem Loaded.lt {bch' : Bchlib} (h : Loaded cfg bch bch' sector)
    (hsector : sector < cfg.nsectors) : bch'.sector < cfg.nsectors := by
  rw [h.sector]
  exact hsector

theorem readsector_spec (hworks : cfg.Works) (h : Inv cfg bch) (sector : Nat) :
    Loaded cfg bch (readsector cfg bch sector) sector := by
  by_cases hhit : bch.sector = sector
  · have hsame : readsector cfg bch sector = bch := if_neg fun hne => hne hhit
    rw [hsame]
    exact ⟨h, rfl, hhit⟩
  obtain ⟨-, hinv, hview, hclean, hsector⟩ := flushsector_spec hworks h
  have hflushed : readsector cfg bch sector = readsector cfg (flushsector cfg bch).2 sector := by
    rw [readsector, readsector, if_pos hhit, if_pos (by rw [hsector]; exact hhit),
      flushsector_of_clean hclean]
  rw [hflushed, readsector_of_clean hworks hclean (by rw [hsector]; exact hhit)]
  have hloaded : Inv cfg { (flushsector cfg bch).2 with
      sector := sector
      buffer := permute (cfg.perm sector).symm (blit (flushsector cfg bch).2.buffer 0 cfg.sectsize
        (drop (flushsector cfg bch).2.media (sector * cfg.sectsize))) } := by
    refine ⟨fun hd => absurd hd (by rw [hclean]; exact Bool.false_ne_true), fun _ _ k hk => ?_⟩
    refine permute_congr _ (fun k hk => ?_) hk
    rw [blit_of_mem (Nat.zero_le k) (by omega), Nat.sub_zero]
  refine ⟨hloaded, ?_, rfl⟩
  rw [hloaded.view_clean hclean, ← hview, hinv.view_clean hclean]

variable {len offset : Nat}

theorem store_spec (hsector : bch.sector < cfg.nsectors) {off : Nat}
    (hin : off + len ≤ cfg.sectsize) (data : Nat → UInt8) :
    Inv cfg (store bch off len data) ∧
      view cfg (store bch off len data) = blit (view cfg bch) (bch.sector * cfg.sectsize + off) len data := by
  refine ⟨⟨fun _ => hsector, fun hd => absurd hd.symm Bool.false_ne_true⟩, ?_⟩
  funext i
  have hdiv := Nat.div_add_mod' i cfg.sectsize
  by_cases heq : i / cfg.sectsize = bch.sector
  · have hshown : i / cfg.sectsize = bch.sector ∧ i / cfg.sectsize < cfg.nsectors := ⟨heq, heq ▸ hsector⟩
    have hnew : view cfg (store bch off len data) i = blit bch.buffer off len data (i % cfg.sectsize) :=
      congrFun (if_pos hshown) _
    have hold : view cfg bch i = bch.buffer (i % cfg.sectsize) := congrFun (if_pos hshown) _
    rw [heq] at hdiv
    rw [hnew]
    by_cases hpart : off ≤ i % cfg.sectsize ∧ i % cfg.sectsize < off + len
    · rw [blit_of_mem hpart.1 hpart.2, blit_of_mem (by omega) (by omega)]
      congr 1
      omega
    · unfold blit
      rw [if_neg hpart, if_neg (by omega), hold]
  · have hsame : view cfg (store bch off len data) i = view cfg bch i := by
      unfold view shown
      rw [if_neg fun hin => heq hin.1, if_neg fun hin => heq hin.1]
      rfl
    have hout : ¬ (bch.sector * cfg.sectsize + off ≤ i ∧ i < bch.sector * cfg.sectsize + off + len) := by
      rintro ⟨hle, hlt⟩
      have hlow : bch.sector * cfg.sectsize ≤ i := by omega
      have hhigh : i < (bch.sector + 1) * cfg.sectsize := by
        rw [Nat.succ_mul]
        omega
      exact heq (Nat.div_eq_of_lt_le hlow hhigh)
    rw [hsame]
    exact (if_neg hout).symm

theorem slice_buffer (hsector : bch.sector < cfg.nsectors) {off : Nat} (hin : off + len ≤ cfg.sectsize) :
    slice bch.buffer off len = slice (view cfg bch) (bch.sector * cfg.sectsize + off) len := by
  refine slice_congr fun i hi => ?_
  have hlt : off + i < cfg.sectsize := by omega
  rw [view, Nat.add_assoc, Nat.mul_comm, Nat.mul_add_div cfg.sectsize_pos, Nat.div_eq_of_lt hlt, Nat.add_zero,
    Nat.mul_add_mod, Nat.mod_eq_of_lt hlt, shown, if_pos ⟨rfl, hsector⟩]

theorem plain_of_none (hnone : cfg.cypher = none) (media : Nat → UInt8) : plain cfg media = media := by
  funext i
  have hperm : cfg.perm (i / cfg.sectsize) = Equiv.refl _ := by
    unfold Config.perm
    rw [hnone]
  unfold plain
  rw [hperm, Equiv.refl_symm, permute_refl, drop, Nat.div_add_mod']

theorem slice_media (hnone : cfg.cypher = none) (h : Inv cfg bch) {sector count : Nat}
    (hout : bch.dirty = true → bch.sector < sector ∨ sector + count ≤ bch.sector) :
    slice bch.media (sector * cfg.sectsize) (count * cfg.sectsize) =
      slice (view cfg bch) (sector * cfg.sectsize) (count * cfg.sectsize) := by
  cases hdirty : bch.dirty with
  | false => rw [h.view_clean hdirty, plain_of_none hnone]
  | true =>
    refine slice_congr fun i hi => ?_
    have hplain := congrFun (plain_of_none hnone bch.media) (sector * cfg.sectsize + i)
    rw [← hplain]
    unfold view shown plain
    rw [if_neg]
    rintro ⟨heq, -⟩
    have hlow : sector ≤ (sector * cfg.sectsize + i) / cfg.sectsize :=
      (Nat.le_div_iff_mul_le cfg.sectsize_pos).mpr (Nat.le_add_right _ _)
    have hhigh : (sector * cfg.sectsize + i) / cfg.sectsize < sector + count := by
      rw [Nat.div_lt_iff_lt_mul cfg.sectsize_pos, Nat.add_mul]
      omega
    have hor := hout hdirty
    omega

/-- **Sectors written to the device** behind a clean buffer. The buffer may be left with a sector that
was written; it is as good as an empty one. -/
theorem media_blit (hnone : cfg.cypher = none) (h : Inv cfg bch) (hclean : bch.dirty = false)
    (sector count : Nat) (data : Nat → UInt8) {sector' : Nat}
    (hout : sector' < cfg.nsectors →
      sector' = bch.sector ∧ (bch.sector < sector ∨ sector + count ≤ bch.sector)) :
    Inv cfg { bch with media := blit bch.media (sector * cfg.sectsize) (count * cfg.sectsize) data,
                       sector := sector' } ∧
      view cfg { bch with media := blit bch.media (sector * cfg.sectsize) (count * cfg.sectsize) data,
                          sector := sector' } =
        blit (view cfg bch) (sector * cfg.sectsize) (count * cfg.sectsize) data := by
  have hinv : Inv cfg { bch with media := blit bch.media (sector * cfg.sectsize) (count * cfg.sectsize) data,
                                 sector := sector' } := by
    refine ⟨fun hd => absurd hd (by rw [hclean]; exact Bool.false_ne_true), fun _ hlt k hk => ?_⟩
    dsimp only at hlt ⊢
    obtain ⟨rfl, hor⟩ := hout hlt
    rw [h.clean hclean hlt k hk]
    refine permute_congr _ (fun k hk => ?_) hk
    unfold drop
    rcases hor with hlow | hhigh
    · have hle := Nat.mul_le_mul_right cfg.sectsize hlow
      rw [Nat.succ_mul] at hle
      rw [blit_of_lt (by omega)]
    · have hle := Nat.mul_le_mul_right cfg.sectsize hhigh
      rw [Nat.add_mul] at hle
      rw [blit_of_ge (by omega)]
  refine ⟨hinv, ?_⟩
  rw [hinv.view_clean hclean, h.view_clean hclean, plain_of_none hnone, plain_of_none hnone]

def Fits (cfg : Config) (sector len : Nat) : Prop :=
  sector * cfg.sectsize + len ≤ cfg.nsectors * cfg.sectsize

theorem Fits.lt (h : Fits cfg sector len) (hlen : 0 < len) : sector < cfg.nsectors := by
  unfold Fits at h
  exact Nat.lt_of_mul_lt_mul_right (a := cfg.sectsize) (by omega)

theorem Fits.wholeSectors_eq (h : Fits cfg sector len) :
    wholeSectors cfg sector len = len / cfg.sectsize := by
  have hmul := Nat.div_mul_le_self len cfg.sectsize
  unfold Fits at h
  refine if_neg (Nat.not_lt.mpr (Nat.le_of_mul_le_mul_right ?_ cfg.sectsize_pos))
  rw [Nat.add_mul]
  omega

theorem Fits.rest (h : Fits cfg sector len) :
    Fits cfg (sector + len / cfg.sectsize) (len - len / cfg.sectsize * cfg.sectsize) := by
  have hmul := Nat.div_mul_le_self len cfg.sectsize
  unfold Fits at *
  rw [Nat.add_mul]
  omega

theorem Fits.ite_eq {α : Type} (h : Fits cfg sector len) {a b : α} (hnil : len = 0 → b = a) :
    (if cfg.nsectors ≤ sector then a else b) = b := by
  split_ifs with hend
  · refine (hnil (Nat.eq_zero_of_not_pos fun hpos => ?_)).symm
    exact absurd (h.lt hpos) hend.not_gt
  · rfl

theorem rest_le (cfg : Config) (len : Nat) : len - len / cfg.sectsize * cfg.sectsize ≤ cfg.sectsize := by
  have hmod := Nat.mod_lt len cfg.sectsize_pos
  have hdiv := Nat.div_add_mod' len cfg.sectsize
  omega

structure Returns (cfg : Config) (result : (Int × List UInt8) × Bchlib) (count : Nat) (bytes : List UInt8)
    (content : Nat → UInt8) : Prop where
  answer : result.1 = (↑count, bytes)
  inv : Inv cfg result.2
  view : view cfg result.2 = content

section Parts

variable (hworks : cfg.Works) (h : Inv cfg bch) {sector : Nat} (hfits : Fits cfg sector len)

include hworks h hfits

theorem readTail_spec (hlen : len ≤ cfg.sectsize) (bytesread : Nat) (bytes : List UInt8) :
    Returns cfg (readTail cfg bch sector len bytesread bytes) (bytesread + len)
      (bytes ++ slice (view cfg bch) (sector * cfg.sectsize) len) (view cfg bch) := by
  unfold readTail
  by_cases hpos : 0 < len
  · have hloaded := readsector_spec hworks h sector
    have hslice := slice_buffer (hloaded.lt (hfits.lt hpos)) (Nat.le_trans (Nat.zero_add len).le hlen)
    rw [hloaded.sector, hloaded.view, Nat.add_zero] at hslice
    rw [if_pos hpos]
    refine ⟨?_, hloaded.inv, hloaded.view⟩
    dsimp only
    rw [hslice]
  · have hzero : len = 0 := Nat.eq_zero_of_not_pos hpos
    rw [if_neg hpos, hzero]
    exact ⟨by rw [slice, List.range_zero, List.map_nil, List.append_nil, Nat.add_zero], h, rfl⟩

theorem writeTail_spec (hlen : len ≤ cfg.sectsize) (byteswritten : Nat) (data : Nat → UInt8) :
    Returns cfg (writeTail cfg bch sector len byteswritten data) (byteswritten + len) []
      (blit (view cfg bch) (sector * cfg.sectsize) len data) := by
  unfold writeTail
  by_cases hpos : 0 < len
  · have hloaded := readsector_spec hworks h sector
    obtain ⟨hinv, hview⟩ :=
      store_spec (hloaded.lt (hfits.lt hpos)) (Nat.le_trans (Nat.zero_add len).le hlen) data
    rw [hloaded.sector, hloaded.view, Nat.add_zero] at hview
    rw [if_pos hpos]
    exact ⟨rfl, hinv, hview⟩
  · have hzero : len = 0 := Nat.eq_zero_of_not_pos hpos
    rw [if_neg hpos, hzero]
    exact ⟨rfl, h, (blit_zero _ _ _).symm⟩

omit h in
theorem writeTail_forget (hclean : bch.dirty = false) (hpos : 0 < len) (hne : bch.sector ≠ sector)
    (byteswritten : Nat) (data : Nat → UInt8) : writeTail cfg bch sector len byteswritten data =
      writeTail cfg { bch with sector := noSector } sector len byteswritten data := by
  have hne' : noSector ≠ sector := fun heq => not_noSector_lt cfg (heq ▸ hfits.lt hpos)
  have hempty : ({ bch with sector := noSector } : Bchlib).dirty = false := hclean
  unfold writeTail
  rw [if_pos hpos, if_pos hpos, readsector_of_clean hworks hclean hne, readsector_of_clean hworks hempty hne']

variable (hnone : cfg.sectsize ≤ len → cfg.cypher = none)

include hnone

theorem readWhole_spec
    (hout : bch.dirty = true → bch.sector < sector ∨ sector + len / cfg.sectsize ≤ bch.sector)
    (bytesread : Nat) (bytes : List UInt8) :
    Returns cfg (readWhole cfg bch sector len bytesread bytes) (bytesread + len)
      (bytes ++ slice (view cfg bch) (sector * cfg.sectsize) len) (view cfg bch) := by
  unfold readWhole
  by_cases hwhole : cfg.sectsize ≤ len
  · have hmul := Nat.div_mul_le_self len cfg.sectsize
    have hslice : slice (view cfg bch) (sector * cfg.sectsize) len =
        slice bch.media (sector * cfg.sectsize) (len / cfg.sectsize * cfg.sectsize) ++
          slice (view cfg bch) ((sector + len / cfg.sectsize) * cfg.sectsize)
            (len - len / cfg.sectsize * cfg.sectsize) := by
      rw [slice_media (hnone hwhole) h hout, Nat.add_mul, ← slice_add, Nat.add_sub_cancel' hmul]
    rw [if_pos hwhole, hfits.wholeSectors_eq]
    dsimp only
    rw [hworks]
    rw [hfits.rest.ite_eq fun hzero => by rw [readTail, hzero, if_neg (Nat.lt_irrefl 0)]]
    have htail := readTail_spec hworks h hfits.rest (rest_le cfg len)
      (bytesread + len / cfg.sectsize * cfg.sectsize)
      (bytes ++ slice bch.media (sector * cfg.sectsize) (len / cfg.sectsize * cfg.sectsize))
    rw [Nat.add_assoc, Nat.add_sub_cancel' hmul, List.append_assoc, ← hslice] at htail
    exact htail
  · rw [if_neg hwhole]
    exact readTail_spec hworks h hfits (Nat.le_of_not_le hwhole) bytesread bytes

theorem writeWhole_spec
    (hout : bch.sector < sector ∨ sector + len / cfg.sectsize ≤ bch.sector ∨ len % cfg.sectsize ≠ 0)
    (byteswritten : Nat) (data : Nat → UInt8) :
    Returns cfg (writeWhole cfg bch sector len byteswritten data) (byteswritten + len) []
      (blit (view cfg bch) (sector * cfg.sectsize) len data) := by
  unfold writeWhole
  by_cases hwhole : cfg.sectsize ≤ len
  · have hmul := Nat.div_mul_le_self len cfg.sectsize
    have hdiv := Nat.div_add_mod' len cfg.sectsize
    have hrest := hfits.rest
    obtain ⟨hret, hinv, hview, hclean, hsector⟩ := flushsector_spec hworks h
    have hwrite : mediaWrite cfg (flushsector cfg bch).2 sector (len / cfg.sectsize) data =
        (↑(len / cfg.sectsize), { (flushsector cfg bch).2 with
          media := blit (flushsector cfg bch).2.media (sector * cfg.sectsize)
            (len / cfg.sectsize * cfg.sectsize) data }) := by
      unfold mediaWrite
      rw [hworks]
    rw [if_pos hwhole, hfits.wholeSectors_eq]
    dsimp only
    rw [if_neg (by omega), hwrite]
    rw [if_neg (Int.not_lt.mpr (Int.natCast_nonneg _)),
      hrest.ite_eq fun hzero => by rw [writeTail, hzero, if_neg (Nat.lt_irrefl 0)]]
    -- the rest of the transfer, from the state behind the whole sectors
    have hfinish : ∀ bch', Inv cfg bch' →
        view cfg bch' = blit (view cfg (flushsector cfg bch).2) (sector * cfg.sectsize)
          (len / cfg.sectsize * cfg.sectsize) data →
        Returns cfg (writeTail cfg bch' (sector + len / cfg.sectsize) (len - len / cfg.sectsize * cfg.sectsize)
          (byteswritten + len / cfg.sectsize * cfg.sectsize) (drop data (len / cfg.sectsize * cfg.sectsize)))
          (byteswritten + len) [] (blit (view cfg bch) (sector * cfg.sectsize) len data) := by
      intro bch' hinv' hview'
      have htail := writeTail_spec hworks hinv' hrest (rest_le cfg len)
        (byteswritten + len / cfg.sectsize * cfg.sectsize) (drop data (len / cfg.sectsize * cfg.sectsize))
      rw [hview', hview, Nat.add_mul, blit_blit_append, Nat.add_assoc, Nat.add_sub_cancel' hmul] at htail
      exact htail
    by_cases hin : sector ≤ bch.sector ∧ bch.sector < sector + len / cfg.sectsize
    · -- the buffer is left with a sector that was written, and reads another one
      rw [writeTail_forget hworks hrest (by exact hclean) (by omega) (by rw [hsector]; omega)]
      obtain ⟨hinv', hview'⟩ := media_blit (hnone hwhole) hinv hclean sector (len / cfg.sectsize) data
        fun hlt => absurd hlt (not_noSector_lt cfg)
      exact hfinish _ hinv' hview'
    · obtain ⟨hinv', hview'⟩ := media_blit (hnone hwhole) hinv hclean sector (len / cfg.sectsize) data
        fun _ => ⟨rfl, by rw [hsector]; omega⟩
      exact hfinish _ hinv' hview'
  · rw [if_neg hwhole]
    exact writeTail_spec hworks h hfits (Nat.le_of_not_le hwhole) byteswritten data

end Parts

theorem sectoffset_eq (hexact : offset % cfg.sectsize < 2 ^ 16) :
    sectoffset cfg offset = offset % cfg.sectsize := by
  have hdiv := Nat.div_add_mod' offset cfg.sectsize
  have hsub : offset - offset / cfg.sectsize * cfg.sectsize = offset % cfg.sectsize := by omega
  rw [sectoffset, hsub, Nat.mod_eq_of_lt hexact]

structure Head (cfg : Config) (offset len head : Nat) : Prop where
  le : head ≤ len
  inside : offset % cfg.sectsize + head ≤ cfg.sectsize
  ends : head = len ∨ offset % cfg.sectsize + head = cfg.sectsize

namespace Head

variable {head : Nat} (h : Head cfg offset len head)

include h

theorem rest_start (hrest : head ≠ len) : (offset / cfg.sectsize + 1) * cfg.sectsize = offset + head := by
  have hdiv := Nat.div_add_mod' offset cfg.sectsize
  have hends := h.ends.resolve_left hrest
  rw [Nat.succ_mul]
  omega

theorem slice_eq (content : Nat → UInt8) : slice content offset len =
    slice content offset head ++ slice content ((offset / cfg.sectsize + 1) * cfg.sectsize) (len - head) := by
  have hlen : len = head + (len - head) := (Nat.add_sub_cancel' h.le).symm
  by_cases hrest : head = len
  · rw [hrest, Nat.sub_self, slice.eq_def content _ 0, List.range_zero, List.map_nil, List.append_nil]
  · rw [h.rest_start hrest, ← slice_add, ← hlen]

theorem blit_eq (content data : Nat → UInt8) :
    blit (blit content offset head data) ((offset / cfg.sectsize + 1) * cfg.sectsize) (len - head)
      (drop data head) = blit content offset len data := by
  by_cases hrest : head = len
  · rw [hrest, Nat.sub_self, blit_zero]
  · rw [h.rest_start hrest, blit_blit_append, Nat.add_sub_cancel' h.le]

end Head

structure Transfer (cfg : Config) (offset len : Nat) : Prop where
  within : offset + len ≤ cfg.nsectors * cfg.sectsize
  offset_lt : offset % cfg.sectsize < 2 ^ 16
  sum_lt : offset % cfg.sectsize + len < 2 ^ 32
  plain : cfg.cypher ≠ none → ¬ Call.Whole cfg (.read offset len)

namespace Transfer

variable (h : Transfer cfg offset len)

include h

theorem sector_lt (hlen : ¬ len < 1) : offset / cfg.sectsize < cfg.nsectors := by
  have hwithin := h.within
  exact (Nat.div_lt_iff_lt_mul cfg.sectsize_pos).mpr (by omega)

theorem head : Head cfg offset len (headBytes cfg offset len) := by
  have hmod := Nat.mod_lt offset cfg.sectsize_pos
  unfold headBytes
  rw [sectoffset_eq h.offset_lt, Nat.mod_eq_of_lt h.sum_lt]
  split_ifs with hlong
  · exact ⟨by omega, by omega, .inr (by omega)⟩
  · exact ⟨Nat.le_refl len, by omega, .inl rfl⟩

theorem rest_fits (hlen : ¬ len < 1) :
    Fits cfg (offset / cfg.sectsize + 1) (len - headBytes cfg offset len) := by
  have hle := h.head.le
  have hwithin := h.within
  unfold Fits
  by_cases hrest : headBytes cfg offset len = len
  · have hnext : offset / cfg.sectsize + 1 ≤ cfg.nsectors := h.sector_lt hlen
    have hmul := Nat.mul_le_mul_right cfg.sectsize hnext
    omega
  · rw [h.head.rest_start hrest]
    omega

theorem rest_plain (hpart : 0 < offset % cfg.sectsize)
    (hrest : cfg.sectsize ≤ len - headBytes cfg offset len) : cfg.cypher = none := by
  by_contra hsome
  refine h.plain hsome ?_
  have hpos := cfg.sectsize_pos
  have hends := h.head.ends.resolve_left (by omega)
  rw [Call.Whole, if_neg (by omega)]
  omega

theorem fits (hzero : offset % cfg.sectsize = 0) : Fits cfg (offset / cfg.sectsize) len := by
  have hdiv := Nat.div_add_mod' offset cfg.sectsize
  have hwithin := h.within
  unfold Fits
  omega

theorem plain_of_zero (hzero : offset % cfg.sectsize = 0) (hwhole : cfg.sectsize ≤ len) :
    cfg.cypher = none := by
  by_contra hsome
  refine h.plain hsome ?_
  rw [Call.Whole, if_pos hzero]
  exact hwhole

end Transfer

theorem bchlibRead_spec (hworks : cfg.Works) (h : Inv cfg bch)
    (hfit : Fit cfg bch (.read offset len)) :
    Returns cfg (bchlibRead cfg bch offset len) len (slice (view cfg bch) offset len) (view cfg bch) := by
  have htransfer : Transfer cfg offset len := ⟨hfit.within, hfit.exact.1, hfit.exact.2, hfit.plain⟩
  have hdiv := Nat.div_add_mod' offset cfg.sectsize
  unfold bchlibRead
  dsimp only
  by_cases hempty : len < 1
  · have hzero : len = 0 := by omega
    rw [if_pos hempty, hzero]
    exact ⟨rfl, h, rfl⟩
  have hsector := htransfer.sector_lt hempty
  rw [if_neg hempty, if_neg hsector.not_ge, sectoffset_eq htransfer.offset_lt]
  by_cases hpart : 0 < offset % cfg.sectsize
  · have hhead := htransfer.head
    have hloaded := readsector_spec hworks h (offset / cfg.sectsize)
    have hslice : slice (readsector cfg bch (offset / cfg.sectsize)).buffer (offset % cfg.sectsize)
        (headBytes cfg offset len) = slice (view cfg bch) offset (headBytes cfg offset len) := by
      rw [slice_buffer (hloaded.lt hsector) hhead.inside, hloaded.sector, hloaded.view, hdiv]
    rw [if_pos hpart, hslice, (htransfer.rest_fits hempty).ite_eq fun hzero => by
      rw [hzero, readWhole, if_neg cfg.sectsize_pos.not_ge, readTail, if_neg (Nat.lt_irrefl 0)]]
    have hrest := readWhole_spec hworks hloaded.inv (htransfer.rest_fits hempty)
      (htransfer.rest_plain hpart) (fun _ => .inl (by rw [hloaded.sector]; omega))
      (headBytes cfg offset len) (slice (view cfg bch) offset (headBytes cfg offset len))
    rw [hloaded.view, ← hhead.slice_eq, Nat.add_sub_cancel' hhead.le] at hrest
    exact hrest
  · have hzero : offset % cfg.sectsize = 0 := by omega
    have hstart : offset / cfg.sectsize * cfg.sectsize = offset := by omega
    have hout : bch.dirty = true → bch.sector < offset / cfg.sectsize ∨
        offset / cfg.sectsize + len / cfg.sectsize ≤ bch.sector := by
      intro hdirty
      by_contra hin
      exact hfit.coherent ⟨hdirty, hzero, by omega, by omega⟩
    have hread := readWhole_spec hworks h (htransfer.fits hzero) (htransfer.plain_of_zero hzero) hout 0 []
    rw [hstart, Nat.zero_add, List.nil_append] at hread
    rw [if_neg hpart]
    exact hread

theorem bchlibWrite_spec (hworks : cfg.Works) (h : Inv cfg bch) {data : Nat → UInt8}
    (hfit : Fit cfg bch (.write offset len data)) :
    Returns cfg (bchlibWrite cfg bch offset len data) len [] (blit (view cfg bch) offset len data) := by
  have htransfer : Transfer cfg offset len := ⟨hfit.within, hfit.exact.1, hfit.exact.2, hfit.plain⟩
  have hdiv := Nat.div_add_mod' offset cfg.sectsize
  unfold bchlibWrite
  by_cases hempty : len < 1
  · have hzero : len = 0 := by omega
    rw [if_pos hempty, hzero]
    exact ⟨rfl, h, (blit_zero _ _ _).symm⟩
  have hsector := htransfer.sector_lt hempty
  rw [if_neg hempty, if_neg hsector.not_ge, sectoffset_eq htransfer.offset_lt]
  by_cases hpart : 0 < offset % cfg.sectsize
  · have hhead := htransfer.head
    have hloaded := readsector_spec hworks h (offset / cfg.sectsize)
    obtain ⟨hinv, hview⟩ := store_spec (hloaded.lt hsector) hhead.inside data
    rw [hloaded.sector, hloaded.view, hdiv] at hview
    rw [if_pos hpart, (htransfer.rest_fits hempty).ite_eq fun hzero => by
      rw [hzero, writeWhole, if_neg cfg.sectsize_pos.not_ge, writeTail, if_neg (Nat.lt_irrefl 0)]]
    have hbefore : (store (readsector cfg bch (offset / cfg.sectsize)) (offset % cfg.sectsize)
        (headBytes cfg offset len) data).sector < offset / cfg.sectsize + 1 := by
      rw [store, hloaded.sector]
      omega
    have hrest := writeWhole_spec hworks hinv (htransfer.rest_fits hempty) (htransfer.rest_plain hpart)
      (.inl hbefore) (headBytes cfg offset len) (drop data (headBytes cfg offset len))
    rw [hview, hhead.blit_eq, Nat.add_sub_cancel' hhead.le] at hrest
    exact hrest
  · have hzero : offset % cfg.sectsize = 0 := by omega
    have hstart : offset / cfg.sectsize * cfg.sectsize = offset := by omega
    have hout : bch.sector < offset / cfg.sectsize ∨
        offset / cfg.sectsize + len / cfg.sectsize ≤ bch.sector ∨ len % cfg.sectsize ≠ 0 := by
      by_contra hin
      push Not at hin
      exact hfit.coherent ⟨⟨hzero, by omega, by omega⟩, hin.2.2⟩
    have hwrite := writeWhole_spec hworks h (htransfer.fits hzero) (htransfer.plain_of_zero hzero) hout 0 data
    rw [hstart, Nat.zero_add] at hwrite
    rw [if_neg hpart]
    exact hwrite

structure Stands (cfg : Config) (bch : Bchlib) (content : Nat → UInt8) : Prop where
  inv : Inv cfg bch
  view : view cfg bch = content

theorem call_spec (hworks : cfg.Works) (bch : Bchlib) (content : Nat → UInt8) (c : Call)
    (h : Stands cfg bch content) (hfit : Fit cfg bch c) :
    (call cfg bch c).1 = (arrayCall content c).1 ∧ Stands cfg (call cfg bch c).2 (arrayCall content c).2 := by
  obtain ⟨hinv, rfl⟩ := h
  cases c with
  | read offset len =>
    have hread := bchlibRead_spec hworks hinv hfit
    exact ⟨hread.answer, hread.inv, hread.view⟩
  | write offset len data =>
    have hwrite := bchlibWrite_spec hworks hinv hfit
    exact ⟨hwrite.answer, hwrite.inv, hwrite.view⟩

theorem Stands.setup (cfg : Config) (media buffer : Nat → UInt8) :
    Stands cfg (setup media buffer) (plain cfg media) :=
  ⟨Inv.setup media buffer, (Inv.setup media buffer).view_clean rfl⟩

theorem media_flushsector (hworks : cfg.Works) (h : Inv cfg bch) (sector : Nat) {i : Nat}
    (hi : i < cfg.sectsize) : (flushsector cfg bch).2.media (sector * cfg.sectsize + i) =
      cfg.perm sector (fun k => view cfg bch (sector * cfg.sectsize + k)) ⟨i, hi⟩ := by
  obtain ⟨-, hinv, hview, hclean, -⟩ := flushsector_spec hworks h
  have hplain : (fun k : Fin cfg.sectsize => view cfg bch (sector * cfg.sectsize + k)) =
      (cfg.perm sector).symm fun k => (flushsector cfg bch).2.media (sector * cfg.sectsize + k) := by
    funext k
    have hk := k.isLt
    rw [← hview, hinv.view_clean hclean]
    unfold plain
    rw [Nat.mul_comm sector, Nat.mul_add_div cfg.sectsize_pos, Nat.div_eq_of_lt hk, Nat.add_zero,
      Nat.mul_add_mod, Nat.mod_eq_of_lt hk, permute, dif_pos hk, Nat.mul_comm sector]
    rfl
  rw [hplain, Equiv.apply_symm_apply]

/-- **The layer is an array of bytes** for every run of reads and writes inside the device whose two
routes do not meet, which transfer no whole sectors if the device is encrypted, and whose offsets in a
sector are computed exactly: every read returns the bytes last written, and after a flush every sector
of the device holds the encryption of its contents. -/
theorem character_device_is_array (cfg : Config) (media buffer : Nat → UInt8) (calls : List Call)
    (hworks : cfg.Works) (hfit : Refines.Along (call cfg) (Fit cfg) (setup media buffer) calls) :
    (Refines.run (call cfg) (setup media buffer) calls).1 =
        (Refines.run arrayCall (plain cfg media) calls).1 ∧
      ∀ sector i, ∀ hi : i < cfg.sectsize,
        (flushsector cfg (Refines.run (call cfg) (setup media buffer) calls).2).2.media
            (sector * cfg.sectsize + i) =
          cfg.perm sector (fun k => (Refines.run arrayCall (plain cfg media) calls).2
            (sector * cfg.sectsize + k)) ⟨i, hi⟩ := by
  obtain ⟨hanswers, hlast⟩ :=
    Refines.run_eq (call_spec hworks) (Stands.setup cfg media buffer) hfit
  refine ⟨hanswers, fun sector i hi => ?_⟩
  rw [media_flushsector hworks hlast.inv, hlast.view]

def twoSectors : Config := ⟨2, 2, Nat.two_pos, by decide, fun _ => none, none⟩

theorem character_device_is_array_short :
    (Refines.run (call twoSectors) (setup (fun _ => 0) fun _ => 0) [.write 1 1 fun _ => 7, .read 2 2]).1 =
        (Refines.run arrayCall (plain twoSectors fun _ => 0) [.write 1 1 fun _ => 7, .read 2 2]).1 ∧
      ∀ sector i, ∀ hi : i < twoSectors.sectsize,
        (flushsector twoSectors (Refines.run (call twoSectors) (setup (fun _ => 0) fun _ => 0)
            [.write 1 1 fun _ => 7, .read 2 2]).2).2.media (sector * twoSectors.sectsize + i) =
          twoSectors.perm sector (fun k => (Refines.run arrayCall (plain twoSectors fun _ => 0)
            [.write 1 1 fun _ => 7, .read 2 2]).2 (sector * twoSectors.sectsize + k)) ⟨i, hi⟩ := by
  apply character_device_is_array
  · intro request
    rfl
  refine ⟨⟨by unfold Call.Within; decide, by unfold Call.Exact; decide, fun h => absurd rfl h, ?_⟩,
    ⟨by unfold Call.Within; decide, by unfold Call.Exact; decide, fun h => absurd rfl h, ?_⟩, trivial⟩
  all_goals
    unfold Call.Coherent Covers
    decide

/-- **A read of whole sectors passes over the buffer**: a byte is written into the first sector, and
the sector read without it. -/
theorem whole_read_misses_buffer :
    (Refines.run (call twoSectors) (setup (fun _ => 0) fun _ => 0) [.write 1 1 fun _ => 7, .read 0 2]).1 =
        [(1, []), (2, [0, 0])] ∧
      (Refines.run arrayCall (plain twoSectors fun _ => 0) [.write 1 1 fun _ => 7, .read 0 2]).1 =
        [(1, []), (2, [0, 7])] := by
  decide

end Nuttx.Bch

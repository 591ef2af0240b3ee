import Nuttx.Drivers.Rwbuffer.Proof

/-!
# Invalidation

`rwb_invalidate_writebuffer` and `rwb_invalidate_readahead`: what is left of a run of blocks when a
region is taken out of it.
-/

namespace Nuttx.Rwbuffer

open Stretch Extent

variable {Block : Type} (cfg : Config) (rwb : Rwb Block) (e : Extent Block) (startblock blockcount : Nat)

/-- What both functions do to the blocks in their buffer, in five cases. -/
def invalidated : Extent Block :=
  let bend := e.start + e.count
  let invend := startblock + blockcount
  if e.count = 0 ∨ bend ≤ startblock ∨ e.start ≥ invend then e
  else if e.start ≥ startblock ∧ bend ≤ invend then { e with count := 0 }
  else if e.start < startblock ∧ bend > invend then { e with count := (startblock - e.start).toNat }
  else if bend > startblock ∧ bend ≤ invend then { e with count := e.count - (bend - startblock).toNat }
  else
    let ninval := (invend - e.start).toNat
    let nkeep := e.count - ninval
    ⟨invend, nkeep, blit e.data 0 nkeep (drop e.data ninval)⟩

def Rwb.setWr : Rwb Block := { rwb with wrblockstart := e.start, wrnblocks := e.count, wrbuffer := e.data }

/-- In the middle of the buffer, the blocks behind the region are written to the device first. -/
def invalidateWritebuffer : Int × Rwb Block :=
  let wrbend := rwb.wrblockstart + rwb.wrnblocks
  let invend := startblock + blockcount
  let kept := invalidated rwb.wr startblock blockcount
  if rwb.wrblockstart < startblock ∧ wrbend > invend then
    let flushed := deviceWrite cfg rwb (drop rwb.wrbuffer (invend - rwb.wrblockstart).toNat) invend
      (wrbend - invend).toNat
    if flushed.1 < 0 then flushed else (0, flushed.2.setWr kept)
  else (0, rwb.setWr kept)

def invalidateReadahead : Rwb Block :=
  let kept := invalidated rwb.rh startblock blockcount
  { rwb with rhblockstart := kept.start, rhnblocks := kept.count, rhbuffer := kept.data }

/-- The region [`startblock`, `startblock + blockcount`). -/
def Region (b : Nat) : Prop := startblock ≤ b ∧ b < startblock + blockcount

variable {cfg rwb e startblock blockcount} {b : Nat}

theorem mem_invalidated : (invalidated e startblock blockcount).Mem b ↔ e.Mem b ∧
    ¬ Region startblock blockcount b ∧ ¬ (e.start < startblock ∧ startblock + blockcount ≤ b) := by
  unfold invalidated Region
  dsimp only
  split_ifs <;> simp only [Mem] <;> omega

theorem value_invalidated (h : (invalidated e startblock blockcount).Mem b) :
    (invalidated e startblock blockcount).value b = e.value b := by
  unfold invalidated at h ⊢
  dsimp only at h ⊢
  split_ifs at h ⊢ with h1 h2 h3 h4
  iterate 4 rfl
  rw [mem_mk] at h
  rw [value_mk, blit_drop_of_mem (Nat.zero_le _) (by omega), value]
  congr 1
  omega

theorem invalidateWritebuffer_spec (hworks : ∀ request, cfg.fault request = none) :
    (invalidateWritebuffer cfg rwb startblock blockcount).2.wr = invalidated rwb.wr startblock blockcount ∧
    (invalidateWritebuffer cfg rwb startblock blockcount).2.media b =
      if rwb.wr.Mem b ∧ rwb.wrblockstart < startblock ∧ startblock + blockcount ≤ b then rwb.wr.value b
      else rwb.media b := by
  unfold invalidateWritebuffer deviceWrite
  simp only [hworks]
  split_ifs with hmiddle hneg hbehind hbehind hbehind
  · omega
  · omega
  · refine ⟨rfl, ?_⟩
    obtain ⟨hmem, -, hle⟩ := hbehind
    rw [mem_wr] at hmem
    refine (blit_drop_of_mem hle (by omega)).trans (congrArg rwb.wrbuffer ?_)
    dsimp only [Rwb.wr]
    omega
  · refine ⟨rfl, if_neg fun hin => hbehind ⟨mem_wr.mpr ?_, hmiddle.1, hin.1⟩⟩
    omega
  · rw [mem_wr] at hbehind
    omega
  · exact ⟨rfl, rfl⟩

/-- **Invalidation is exact**: no block of the region is buffered any more or written to the device, and
every other block of the write buffer keeps its value, there or on the device. The read-ahead buffer
keeps those before the region or, if there are none, those behind it. -/
theorem invalidate_exact (hworks : ∀ request, cfg.fault request = none) (rwb : Rwb Block)
    (startblock blockcount : Nat) :
    let rwb' := (invalidateWritebuffer cfg rwb startblock blockcount).2
    let rh := (invalidateReadahead rwb startblock blockcount).rh
    (∀ b, Region startblock blockcount b → ¬ rwb'.wr.Mem b ∧ ¬ rh.Mem b ∧ rwb'.media b = rwb.media b) ∧
    ∀ b, ¬ Region startblock blockcount b →
      (rwb.wr.Mem b → rwb'.wr.Mem b ∧ rwb'.wr.value b = rwb.wr.value b ∨ rwb'.media b = rwb.wr.value b) ∧
      (rwb.rh.Mem b → (rh.Mem b ∧ rh.value b = rwb.rh.value b ↔
        ¬ (rwb.rhblockstart < startblock ∧ startblock + blockcount ≤ b))) := by
  intro rwb' rh
  have hspec : ∀ b, _ := fun b => @invalidateWritebuffer_spec _ cfg rwb startblock blockcount b hworks
  have hkept : ∀ {e : Extent Block} {b : Nat}, e.Mem b → ¬ Region startblock blockcount b →
      ¬ (e.start < startblock ∧ startblock + blockcount ≤ b) →
      (invalidated e startblock blockcount).Mem b ∧
        (invalidated e startblock blockcount).value b = e.value b := fun hmem hb hnot =>
    have hin := mem_invalidated.mpr ⟨hmem, hb, hnot⟩
    ⟨hin, value_invalidated hin⟩
  have hgone : ∀ {e : Extent Block} {b : Nat}, Region startblock blockcount b →
      ¬ (invalidated e startblock blockcount).Mem b := fun hb hmem => (mem_invalidated.mp hmem).2.1 hb
  refine ⟨fun b hb => ⟨(hspec b).1 ▸ hgone hb, hgone hb, ?_⟩, fun b hb => ⟨fun hmem => ?_, fun hmem => ?_⟩⟩
  · exact (hspec b).2.trans (if_neg fun h => Nat.not_lt.mpr h.2.2 hb.2)
  · by_cases hbehind : rwb.wrblockstart < startblock ∧ startblock + blockcount ≤ b
    · exact .inr ((hspec b).2.trans (if_pos ⟨hmem, hbehind⟩))
    · exact .inl ((hspec b).1 ▸ hkept hmem hb hbehind)
  · exact ⟨fun h => (mem_invalidated.mp h.1).2.2, hkept hmem hb⟩

/-- The blocks 0 to 2 are in both buffers, each with a value that tells where it is from. -/
def filled : Rwb Nat := ⟨fun b => b, 0, 3, fun b => 10 + b, 0, 3, fun b => 20 + b⟩

/-- **Blocks read ahead behind the region** are dropped with it. -/
theorem readahead_dropped :
    filled.rh.Mem 2 ∧ ¬ Region 1 1 2 ∧ ¬ (invalidateReadahead filled 1 1).rh.Mem 2 :=
  ⟨by decide, fun h => absurd h.2 (by decide), by decide⟩

theorem invalidate_exact_middle :
    let rwb' := (invalidateWritebuffer ⟨8, 4, 1, 4, by decide, by decide, by decide, fun _ => none⟩ filled 1 1).2
    ¬ rwb'.wr.Mem 1 ∧ rwb'.media 1 = 1 ∧ (rwb'.wr.Mem 0 ∧ rwb'.wr.value 0 = 10) ∧ rwb'.media 2 = 12 := by
  obtain ⟨hregion, hother⟩ := invalidate_exact
    (show ∀ request, (⟨8, 4, 1, 4, by decide, by decide, by decide, fun _ => none⟩ : Config).fault request = none
      from fun _ => rfl) filled 1 1
  obtain ⟨hgone, -, hmedia⟩ := hregion 1 ⟨by decide, by decide⟩
  have hbefore := (hother 0 fun h => absurd h.1 (by decide)).1 (by decide)
  have hbehind := (hother 2 fun h => absurd h.2 (by decide)).1 (by decide)
  exact ⟨hgone, hmedia, hbefore.resolve_right (by decide), hbehind.resolve_left (by decide)⟩

end Nuttx.Rwbuffer

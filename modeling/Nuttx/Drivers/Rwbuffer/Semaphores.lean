import Nuttx.Drivers.Rwbuffer.Model

/-!
# The semaphores of the buffers

With `CONFIG_DRVR_INVALIDATE`, for one task. A function is the list of the operations on `wrsem` and
`rhsem` that it makes in the state it is called in.
-/

namespace Nuttx.Rwbuffer

structure Sems where
  wrsem : Nat
  rhsem : Nat
  deriving DecidableEq

inductive SemOp
  | waitWr
  | postWr
  | waitRh
  | postRh

/-- A wait at zero has no result: the task itself has the semaphore. -/
def SemOp.run (sems : Sems) : SemOp → Option Sems
  | waitWr => if sems.wrsem = 0 then none else some { sems with wrsem := sems.wrsem - 1 }
  | postWr => some { sems with wrsem := sems.wrsem + 1 }
  | waitRh => if sems.rhsem = 0 then none else some { sems with rhsem := sems.rhsem - 1 }
  | postRh => some { sems with rhsem := sems.rhsem + 1 }

variable {Block : Type} (cfg : Config) (rwb : Rwb Block)

/-- On every path of `rwb_read_`. -/
def semsRead_ : List SemOp := [.waitRh, .postRh]

def semsWrflush : List SemOp :=
  if 0 < rwb.wrnblocks ∧ rwb.wrnblocks % cfg.wralignblocks ≠ 0 then semsRead_ else []

def semsWritebuffer (startblock nblocks : Nat) (data : Nat → Block) : List SemOp :=
  match update cfg rwb ⟨startblock, nblocks, data⟩ with
  | some (rwb, w) => if w.nblocks ≤ cfg.wrmaxblocks ∧ w.nblocks ≠ 0 then semsWrflush cfg rwb else []
  | none => []

def semsInvalidateWritebuffer : List SemOp := if 0 < rwb.wrnblocks then [.waitWr, .postWr] else []

def semsInvalidateReadahead : List SemOp := if 0 < rwb.rhnblocks then [.waitRh, .postRh] else []

inductive Entry (Block : Type)
  | read (startblock nblocks : Nat) (rdbuffer : Nat → Block)
  | write (startblock nblocks : Nat) (data : Nat → Block)
  | invalidate (startblock blockcount : Nat)
  | flush

def sems : Entry Block → List SemOp
  | .read startblock nblocks rdbuffer =>
    if overlap rwb.wrblockstart rwb.wrnblocks startblock nblocks ∧ rwb.wrblockstart > startblock then
      [.waitWr] ++ semsRead_ ++ [.postWr] ++
        -- an error returns at once
        if (readBefore cfg rwb startblock rdbuffer).any fun r => r.1.1 < 0 then [] else semsRead_
    else [.waitWr, .postWr] ++ semsRead_
  | .write startblock nblocks data =>
    [.waitRh] ++
      (if overlap rwb.rhblockstart rwb.rhnblocks startblock nblocks then semsInvalidateReadahead rwb else []) ++
      [.postRh, .waitWr] ++ semsWritebuffer cfg rwb startblock nblocks data ++ [.postWr]
  | .invalidate startblock blockcount =>
    let invend := startblock + blockcount
    let nblocks := (rwb.wrblockstart + rwb.wrnblocks - invend).toNat
    semsInvalidateWritebuffer rwb ++
      if 0 < rwb.wrnblocks ∧ rwb.wrblockstart < startblock ∧ 0 < nblocks ∧
          (deviceWrite cfg rwb (Stretch.drop rwb.wrbuffer (invend - rwb.wrblockstart).toNat) invend nblocks).1 < 0
      then [] else semsInvalidateReadahead rwb
  | .flush => [.waitWr] ++ semsWrflush cfg rwb ++ [.postWr]

def Entry.meetsReadahead : Entry Block → Bool
  | .write startblock nblocks _ => overlap rwb.rhblockstart rwb.rhnblocks startblock nblocks && 0 < rwb.rhnblocks
  | _ => false

theorem semsWrflush_or : semsWrflush cfg rwb = [] ∨ semsWrflush cfg rwb = semsRead_ := by
  rw [semsWrflush]
  split_ifs
  exacts [.inr rfl, .inl rfl]

theorem semsWritebuffer_or (startblock nblocks : Nat) (data : Nat → Block) :
    semsWritebuffer cfg rwb startblock nblocks data = [] ∨
      semsWritebuffer cfg rwb startblock nblocks data = semsRead_ := by
  rw [semsWritebuffer]
  split
  · split_ifs
    exacts [semsWrflush_or cfg _, .inl rfl]
  · exact .inl rfl

/-- **No wait for itself.** Exactly when: no write of a block that was read ahead. -/
theorem sems_restored_iff (e : Entry Block) :
    (sems cfg rwb e).foldlM SemOp.run ⟨1, 1⟩ = some ⟨1, 1⟩ ↔ e.meetsReadahead rwb = false := by
  cases e with
  | read startblock nblocks rdbuffer =>
    rw [sems]
    split_ifs <;> exact iff_of_true rfl rfl
  | write startblock nblocks data =>
    rcases semsWritebuffer_or cfg rwb startblock nblocks data with h | h
    all_goals
      rw [sems, h, semsInvalidateReadahead, Entry.meetsReadahead]
      split_ifs with hoverlap hsome
      · exact iff_of_false (by decide) (by simp [hoverlap, hsome])
      · exact iff_of_true rfl (by simp [hsome])
      · exact iff_of_true rfl (by simp [hoverlap])
  | invalidate startblock blockcount =>
    simp only [sems, semsInvalidateWritebuffer, semsInvalidateReadahead]
    split_ifs <;> exact iff_of_true rfl rfl
  | flush =>
    rcases semsWrflush_or cfg rwb with h | h
    all_goals
      rw [sems, h]
      exact iff_of_true rfl rfl

theorem sems_write_stuck :
    (sems ⟨8, 1, 1, 1, by decide, by decide, by decide, fun _ => none⟩
      (⟨fun _ => (), -1, 0, fun _ => (), 0, 1, fun _ => ()⟩ : Rwb Unit)
      (.write 0 1 fun _ => ())).foldlM SemOp.run ⟨1, 1⟩ = none := by
  decide

end Nuttx.Rwbuffer

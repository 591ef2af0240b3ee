import Nuttx.Library.Stretch

/-!
# Flash memory

A chip is an array of cells that is read anywhere, erased in erase blocks and programmed in blocks,
`per` of them in an erase block. Only in an erased cell does programming leave the value that was
programmed.
-/

namespace Flash

open Stretch

variable {α : Type}

/-- A cell of a chip: its value once it is erased, and what programming a value into a cell leaves. -/
structure Cell (α : Type) where
  erased : α
  program : α → α → α
  program_erased : ∀ a, program erased a = a

/-- What has been done to a chip. -/
inductive Op
  | erase (eraseblock : Nat)
  | program (start count : Nat)
  deriving DecidableEq, Repr

structure Chip (α : Type) where
  cells : Nat → α
  log : List Op

namespace Chip

/-- An erase block of `size` cells is erased. -/
def erase (cell : Cell α) (size : Nat) (chip : Chip α) (eraseblock : Nat) : Chip α where
  cells := fill chip.cells (eraseblock * size) size cell.erased
  log := .erase eraseblock :: chip.log

/-- `count` blocks of `size` cells are programmed. -/
def program (cell : Cell α) (size : Nat) (chip : Chip α) (start count : Nat) (data : Nat → α) :
    Chip α where
  cells := fun i => if start * size ≤ i ∧ i < (start + count) * size then
    cell.program (chip.cells i) (data (i - start * size)) else chip.cells i
  log := .program start count :: chip.log

end Chip

/-- Blocks `start ≤ b < start + count` have one in the erase block. -/
def Touches (per start count eraseblock : Nat) : Prop :=
  0 < count ∧ start < (eraseblock + 1) * per ∧ eraseblock * per < start + count

instance (per start count eraseblock : Nat) : Decidable (Touches per start count eraseblock) :=
  inferInstanceAs (Decidable (_ ∧ _))

/-- Since the erase block was erased, nothing in it has been programmed. -/
def ErasedSince (per : Nat) : List Op → Nat → Prop
  | [], _ => False
  | .erase e :: log, eraseblock => e = eraseblock ∨ ErasedSince per log eraseblock
  | .program start count :: log, eraseblock =>
    ¬ Touches per start count eraseblock ∧ ErasedSince per log eraseblock

/-- **Every block was programmed in an erase block erased since it was last programmed.** -/
def Disciplined (per : Nat) : List Op → Prop
  | [] => True
  | .erase _ :: log => Disciplined per log
  | .program start count :: log =>
    (∀ b, start ≤ b → b < start + count → ErasedSince per log (b / per)) ∧ Disciplined per log

variable {cell : Cell α} {chip : Chip α} {data : Nat → α} {size per eraseblock : Nat}

theorem cells_program_of_erased
    (herased : ∀ i, eraseblock * per * size ≤ i → i < (eraseblock * per + per) * size →
      chip.cells i = cell.erased) :
    (chip.program cell size (eraseblock * per) per data).cells =
      blit chip.cells (eraseblock * per * size) (per * size) data := by
  funext i
  unfold blit Chip.program
  rw [← Nat.add_mul]
  dsimp only
  split_ifs with h
  · rw [herased i h.1 h.2, cell.program_erased]
  · rfl

theorem cells_erase : (chip.erase cell size eraseblock).cells =
    fill chip.cells (eraseblock * size) size cell.erased := rfl

theorem cells_rewrite :
    ((chip.erase cell (per * size) eraseblock).program cell size (eraseblock * per) per data).cells =
      blit chip.cells (eraseblock * (per * size)) (per * size) data := by
  rw [cells_program_of_erased, cells_erase, Nat.mul_assoc, fill, blit_blit_self]
  intro i h h'
  rw [Nat.add_mul] at h'
  rw [Nat.mul_assoc] at h h'
  rw [cells_erase, fill, blit_of_mem h h']

variable {log : List Op}

theorem Disciplined.rewrite (h : Disciplined per log) (eraseblock : Nat) :
    Disciplined per (.program (eraseblock * per) per :: .erase eraseblock :: log) := by
  refine ⟨fun b hb hb' => .inl ?_, h⟩
  have hlt : b < (eraseblock + 1) * per := by rwa [Nat.add_mul, Nat.one_mul]
  exact (Nat.div_eq_of_lt_le hb hlt).symm

theorem ErasedSince.append {log' : List Op} (h : ErasedSince per log' eraseblock) :
    ErasedSince per (log' ++ log) eraseblock := by
  induction log' with
  | nil => exact h.elim
  | cons op log' ih =>
    cases op with
    | erase e => exact h.imp_right ih
    | program start count => exact ⟨h.1, ih h.2⟩

theorem Disciplined.append {log' : List Op} (h : Disciplined per log) (h' : Disciplined per log') :
    Disciplined per (log' ++ log) := by
  induction log' with
  | nil => exact h
  | cons op log' ih =>
    cases op with
    | erase e => exact ih h'
    | program start count => exact ⟨fun b hb hb' => (h'.1 b hb hb').append, ih h'.2⟩

/-- **A stretch of the chip was written**: nothing else has changed, and what was programmed for it was
erased for it before. -/
structure Rewritten (per : Nat) (chip chip' : Chip α) (off len : Nat) (src : Nat → α) : Prop where
  cells : chip'.cells = blit chip.cells off len src
  log : ∃ ops, chip'.log = ops ++ chip.log ∧ Disciplined per ops

namespace Rewritten

variable {chip' chip'' : Chip α} {off len len' : Nat} {src : Nat → α}

theorem refl (per : Nat) (chip : Chip α) (off : Nat) (src : Nat → α) : Rewritten per chip chip off 0 src :=
  ⟨(blit_zero _ _ _).symm, [], rfl, trivial⟩

theorem move (h : Rewritten per chip chip' off 0 src) (off' : Nat) (src' : Nat → α) :
    Rewritten per chip chip' off' 0 src' := by
  refine ⟨?_, h.log⟩
  rw [h.cells, blit_zero, blit_zero]

theorem trans (h : Rewritten per chip chip' off len src)
    (h' : Rewritten per chip' chip'' (off + len) len' (drop src len)) :
    Rewritten per chip chip'' off (len + len') src := by
  obtain ⟨ops, hops, hdisc⟩ := h.log
  obtain ⟨ops', hops', hdisc'⟩ := h'.log
  refine ⟨?_, ops' ++ ops, ?_, hdisc.append hdisc'⟩
  · rw [h'.cells, h.cells, blit_blit_append]
  · rw [hops', hops, List.append_assoc]

theorem whole : Rewritten per chip
    ((chip.erase cell (per * size) eraseblock).program cell size (eraseblock * per) per data)
      (eraseblock * (per * size)) (per * size) data := by
  have hnil : Disciplined per [] := trivial
  exact ⟨cells_rewrite, [.program (eraseblock * per) per, .erase eraseblock], rfl, hnil.rewrite eraseblock⟩

/-- **Through a copy of the erase block**: the erase block is read into `scratch`, the new values are
put into the copy, and the erase block is erased and programmed with it. -/
theorem through {scratch : Nat → α} {part : Nat} (hin : part + len ≤ per * size) :
    Rewritten per chip ((chip.erase cell (per * size) eraseblock).program cell size (eraseblock * per) per
      (blit (blit scratch 0 (per * size) (drop chip.cells (eraseblock * (per * size)))) part len src))
      (eraseblock * (per * size) + part) len src := by
  refine ⟨?_, whole.log⟩
  rw [cells_rewrite, blit_through hin]

end Rewritten

end Flash

import Nuttx.Library.Stretch

/-!
# A run of blocks over an array

A buffer holds a run of consecutive blocks; what a reader sees is the buffer where it holds a block and
the array below it elsewhere.
-/

open Stretch

/-- The blocks `start ≤ b < start + count`. -/
structure Extent (α : Type) where
  start : Int
  count : Nat
  data : Nat → α

namespace Extent

variable {α : Type} {e : Extent α} {below : Nat → α} {off len b : Nat} {src : Nat → α}

/-- The block is in the run. -/
def Mem (e : Extent α) (b : Nat) : Prop := e.start ≤ b ∧ (b : Int) < e.start + e.count

instance (e : Extent α) (b : Nat) : Decidable (e.Mem b) := inferInstanceAs (Decidable (_ ∧ _))

def value (e : Extent α) (b : Nat) : α := e.data ((b : Int) - e.start).toNat

def cover (e : Extent α) (below : Nat → α) : Nat → α := fun b => if e.Mem b then e.value b else below b

theorem cover_of_mem (h : e.Mem b) : e.cover below b = e.value b := if_pos h

theorem cover_of_not_mem (h : ¬ e.Mem b) : e.cover below b = below b := if_neg h

theorem cover_of_empty (h : ∀ b, ¬ e.Mem b) : e.cover below = below := funext fun b => cover_of_not_mem (h b)

theorem blit_eq_cover (hstart : 0 ≤ e.start) (below : Nat → α) :
    blit below e.start.toNat e.count e.data = e.cover below := by
  funext b
  by_cases h : e.Mem b
  · have hmem := h
    unfold Mem at hmem
    rw [cover_of_mem h, blit_of_mem (by omega) (by omega)]
    congr 1
    omega
  · rw [cover_of_not_mem h]
    unfold Mem at h
    rcases Nat.lt_or_ge b e.start.toNat with hlt | hge
    · exact blit_of_lt hlt
    · exact blit_of_ge (by omega)

theorem cover_blit (h : ∀ b, e.Mem b → ¬ (off ≤ b ∧ b < off + len)) :
    e.cover (blit below off len src) = blit (e.cover below) off len src := by
  funext b
  by_cases hmem : e.Mem b
  · rw [cover_of_mem hmem]
    unfold blit
    rw [if_neg (h b hmem), cover_of_mem hmem]
  · rw [cover_of_not_mem hmem]
    unfold blit
    split_ifs
    · rfl
    · exact (cover_of_not_mem hmem).symm

theorem mem_mk {start : Int} {count : Nat} {data : Nat → α} :
    (Extent.mk start count data).Mem b ↔ start ≤ b ∧ (b : Int) < start + count := Iff.rfl

theorem value_mk {start : Int} {count : Nat} {data : Nat → α} :
    (Extent.mk start count data).value b = data ((b : Int) - start).toNat := rfl

/-- Blocks put into the run, which may grow at both ends: what it held is `shift` places behind. -/
theorem cover_put {start : Int} {shift count pos : Nat} {moved : Nat → α} (hstart : start + shift = e.start)
    (hmoved : ∀ i, i < e.count → moved (shift + i) = e.data i) (hfill : shift = 0 ∨ off = 0 ∧ shift ≤ len)
    (hoff : off ≤ shift + e.count) (hcount : count = max (shift + e.count) (off + len))
    (hpos : pos = start + off) (src below : Nat → α) :
    cover ⟨start, count, blit moved off len src⟩ below = blit (e.cover below) pos len src := by
  funext b
  by_cases hnew : pos ≤ b ∧ b < pos + len
  · rw [blit_of_mem hnew.1 hnew.2, cover_of_mem (mem_mk.mpr (by omega)), value_mk,
      blit_of_mem (by omega) (by omega)]
    congr 1
    omega
  refine Eq.trans ?_ (if_neg hnew).symm
  by_cases hmem : e.Mem b
  · rw [cover_of_mem hmem]
    unfold Mem at hmem
    rw [cover_of_mem (mem_mk.mpr (by omega)), value_mk, value, ← hmoved _ (by omega)]
    refine (if_neg (by omega)).trans (congrArg moved ?_)
    omega
  · rw [cover_of_not_mem hmem]
    unfold Mem at hmem
    exact cover_of_not_mem (mt mem_mk.mp (by omega))

end Extent

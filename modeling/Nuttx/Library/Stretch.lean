import Mathlib.Logic.Function.Basic
import Mathlib.Tactic.SplitIfs

/-!
# Copying stretches of an array

An array is a function from its indices. `blit` is what `memcpy` and `memmove` do, and what a transfer
to or from a device does.
-/

open List

namespace Stretch

variable {α : Type}

/-- The values of `src` from its start on, put into `dst` at `off ≤ i < off + len`. -/
def blit (dst : Nat → α) (off len : Nat) (src : Nat → α) : Nat → α := fun i =>
  if off ≤ i ∧ i < off + len then src (i - off) else dst i

/-- One value, put into `dst` at `off ≤ i < off + len`. -/
def fill (dst : Nat → α) (off len : Nat) (a : α) : Nat → α := blit dst off len fun _ => a

/-- The array from the index `off` on. -/
def drop (src : Nat → α) (off : Nat) : Nat → α := fun i => src (off + i)

/-- The values at `off ≤ i < off + len`, in a row. -/
def slice (src : Nat → α) (off len : Nat) : List α := (List.range len).map fun i => src (off + i)

variable {dst src : Nat → α} {off len i : Nat}

theorem slice_add (src : Nat → α) (off len len' : Nat) :
    slice src off (len + len') = slice src off len ++ slice src (off + len) len' := by
  unfold slice
  rw [range_add, map_append, map_map]
  congr 1
  exact map_congr_left fun i _ => congrArg src (Nat.add_assoc off len i).symm

theorem slice_congr {src' : Nat → α} {off' : Nat} (h : ∀ i, i < len → src (off + i) = src' (off' + i)) :
    slice src off len = slice src' off' len :=
  map_congr_left fun i hi => h i (mem_range.mp hi)

theorem drop_drop (src : Nat → α) (off off' : Nat) : drop (drop src off) off' = drop src (off + off') :=
  funext fun i => congrArg src (Nat.add_assoc off off' i).symm

theorem blit_of_mem (h : off ≤ i) (h' : i < off + len) : blit dst off len src i = src (i - off) :=
  if_pos ⟨h, h'⟩

theorem blit_of_lt (h : i < off) : blit dst off len src i = dst i := if_neg fun hin => by omega

theorem blit_of_ge (h : off + len ≤ i) : blit dst off len src i = dst i := if_neg fun hin => by omega

theorem blit_drop_of_mem {k : Nat} (h : off ≤ i) (h' : i < off + len) :
    blit dst off len (drop src k) i = src (k + (i - off)) := blit_of_mem h h'

theorem blit_zero (dst : Nat → α) (off : Nat) (src : Nat → α) : blit dst off 0 src = dst := by
  funext i
  rcases Nat.lt_or_ge i off with h | h
  · exact blit_of_lt h
  · exact blit_of_ge h

theorem blit_blit_self (dst : Nat → α) (off len : Nat) (src src' : Nat → α) :
    blit (blit dst off len src) off len src' = blit dst off len src' := by
  funext i
  unfold blit
  split_ifs <;> rfl

theorem blit_of_blit (dst scratch : Nat → α) (off len : Nat) (src : Nat → α) :
    blit dst off len (blit scratch 0 len src) = blit dst off len src := by
  funext i
  by_cases h : off ≤ i ∧ i < off + len
  · rw [blit_of_mem h.1 h.2, blit_of_mem h.1 h.2, blit_of_mem (Nat.zero_le _) (by omega), Nat.sub_zero]
  · exact (if_neg h).trans (if_neg h).symm

theorem blit_blit_append (dst : Nat → α) (off len len' : Nat) (src : Nat → α) :
    blit (blit dst off len src) (off + len) len' (drop src len) = blit dst off (len + len') src := by
  funext i
  by_cases hfirst : off ≤ i ∧ i < off + len
  · rw [blit_of_lt hfirst.2, blit_of_mem hfirst.1 hfirst.2, blit_of_mem hfirst.1 (by omega)]
  by_cases hsecond : off + len ≤ i ∧ i < off + len + len'
  · rw [blit_drop_of_mem hsecond.1 hsecond.2, blit_of_mem (by omega) (by omega)]
    congr 1
    omega
  · rcases Nat.lt_or_ge i off with h | h
    · rw [blit_of_lt (by omega), blit_of_lt h, blit_of_lt h]
    · rw [blit_of_ge (by omega), blit_of_ge (by omega), blit_of_ge (by omega)]

theorem blit_blit_prepend (dst : Nat → α) (off len len' : Nat) (src : Nat → α) :
    blit (blit dst (off + len) len' (drop src len)) off len src = blit dst off (len + len') src := by
  rw [← blit_blit_append dst off len len' src]
  funext i
  unfold blit
  split_ifs
  · omega
  · rfl
  · rfl
  · rfl

/-- **A part of a stretch is written through a copy of the whole**: the stretch is read, a part of it
is changed, and it is written back. -/
theorem blit_through {scratch : Nat → α} {base size part : Nat} (hin : part + len ≤ size) :
    blit dst base size (blit (blit scratch 0 size (drop dst base)) part len src) =
      blit dst (base + part) len src := by
  funext i
  by_cases hblock : base ≤ i ∧ i < base + size
  · have hcopy : blit scratch 0 size (drop dst base) (i - base) = dst i := by
      rw [blit_drop_of_mem (Nat.zero_le _) (by omega), Nat.sub_zero, Nat.add_sub_cancel' hblock.1]
    rw [blit_of_mem hblock.1 hblock.2]
    by_cases hpart : base + part ≤ i ∧ i < base + part + len
    · rw [blit_of_mem (by omega) (by omega), blit_of_mem hpart.1 hpart.2, Nat.sub_sub]
    · rcases Nat.lt_or_ge i (base + part) with h | h
      · rw [blit_of_lt (show i - base < part by omega), blit_of_lt h, hcopy]
      · rw [blit_of_ge (show part + len ≤ i - base by omega), hcopy, blit_of_ge (by omega)]
  · rcases Nat.lt_or_ge i base with h | h
    · rw [blit_of_lt h, blit_of_lt (by omega)]
    · rw [blit_of_ge (by omega), blit_of_ge (by omega)]

end Stretch

import Mathlib.Data.List.Basic

/-!
# Rings with one empty slot

A ring of `n` slots with an index `rd` of the next element to take and an index `wr` of the next slot
to fill. Equal indices mean that it is empty, so that at most `n - 1` elements are in it.
-/

open List

namespace SlotRing

variable {α : Type}

def next (n i : Nat) : Nat := if i + 1 ≥ n then 0 else i + 1

def used (n rd wr : Nat) : Nat := if wr < rd then n - rd + wr else wr - rd

def contents (buffer : Nat → α) (n rd wr : Nat) : List α :=
  (List.range (used n rd wr)).map fun i => buffer ((rd + i) % n)

variable {buffer : Nat → α} {n rd wr : Nat}

theorem next_lt (hn : 0 < n) (i : Nat) : next n i < n := by
  unfold next
  split_ifs <;> omega

theorem length_contents (buffer : Nat → α) (n rd wr : Nat) :
    (contents buffer n rd wr).length = used n rd wr := by
  rw [contents, length_map, length_range]

variable (hrd : rd < n)
include hrd

theorem used_lt (hwr : wr < n) : used n rd wr < n := by
  unfold used
  split_ifs <;> omega

theorem used_eq_zero_iff : used n rd wr = 0 ↔ wr = rd := by
  unfold used
  split_ifs <;> omega

theorem contents_eq_nil_iff : contents buffer n rd wr = [] ↔ wr = rd := by
  rw [← length_eq_zero_iff, length_contents, used_eq_zero_iff hrd]

theorem next_eq_iff (hwr : wr < n) : next n wr = rd ↔ used n rd wr = n - 1 := by
  unfold next used
  split_ifs <;> omega

theorem used_push (hwr : wr < n) (hroom : next n wr ≠ rd) :
    used n rd (next n wr) = used n rd wr + 1 := by
  unfold next used at *
  split_ifs at * <;> omega

theorem used_pop (hwr : wr < n) (hsome : wr ≠ rd) : used n rd wr = used n (next n rd) wr + 1 := by
  unfold next used
  split_ifs <;> omega

theorem next_eq_mod : next n rd = (rd + 1) % n := by
  unfold next
  split_ifs with h
  · have heq : rd + 1 = n := by omega
    rw [heq, Nat.mod_self]
  · rw [Nat.mod_eq_of_lt (by omega)]

theorem slot_used (hwr : wr < n) : (rd + used n rd wr) % n = wr := by
  unfold used
  split_ifs
  · have hsum : rd + (n - rd + wr) = wr + n := by omega
    rw [hsum, Nat.add_mod_right, Nat.mod_eq_of_lt hwr]
  · have hsum : rd + (wr - rd) = wr := by omega
    rw [hsum, Nat.mod_eq_of_lt hwr]

theorem slot_ne (hwr : wr < n) {i : Nat} (hi : i < used n rd wr) : (rd + i) % n ≠ wr := by
  have hlt := used_lt hrd hwr
  rw [← slot_used hrd hwr]
  intro heq
  have hcases : ∀ k, k < n → (rd + k) % n = if rd + k < n then rd + k else rd + k - n := by
    intro k hk
    split_ifs with h
    · exact Nat.mod_eq_of_lt h
    · rw [Nat.mod_eq_sub_mod (by omega), Nat.mod_eq_of_lt (by omega)]
  rw [hcases i (by omega), hcases _ hlt] at heq
  split_ifs at heq <;> omega

theorem contents_push (hwr : wr < n) (hroom : next n wr ≠ rd) (b : α) :
    contents (Function.update buffer wr b) n rd (next n wr) = contents buffer n rd wr ++ [b] := by
  unfold contents
  rw [used_push hrd hwr hroom, range_succ, map_append, map_singleton, slot_used hrd hwr,
    Function.update_self]
  congr 1
  refine map_congr_left fun i hi => ?_
  exact Function.update_of_ne (slot_ne hrd hwr (mem_range.mp hi)) _ _

theorem contents_pop (hwr : wr < n) (hsome : wr ≠ rd) :
    contents buffer n rd wr = buffer rd :: contents buffer n (next n rd) wr := by
  have hslot : ∀ i, (next n rd + i) % n = (rd + (i + 1)) % n := by
    intro i
    rw [next_eq_mod hrd, Nat.mod_add_mod, Nat.add_assoc, Nat.add_comm 1 i]
  unfold contents
  rw [used_pop hrd hwr hsome, range_succ_eq_map, map_cons, map_map, Nat.add_zero,
    Nat.mod_eq_of_lt hrd]
  congr 1
  refine map_congr_left fun i _ => ?_
  rw [hslot]
  rfl

end SlotRing

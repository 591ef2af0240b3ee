import Mathlib.Data.BitVec
import Mathlib.Data.List.GetD

/-!
# Buffers of a fixed size

A buffer is filled by copying stretches of values into it, from left to right.
-/

open List

namespace Buffer

variable {α : Type} {n : Nat}

/-- `len` values from `src` on are copied into the buffer, from `off` on. -/
def copy (dst : Fin n → α) (off len : Nat) (src : Nat → α) : Fin n → α := fun i =>
  if off ≤ i.val ∧ i.val < off + len then src (i.val - off) else dst i

def start [Inhabited α] (values : Fin n → α) (k : Nat) : α := if h : k < n then values ⟨k, h⟩ else default

theorem start_of_fin [Inhabited α] (values : Fin n → α) (i : Fin n) : start values i.val = values i :=
  dif_pos i.isLt

/-- The values are in memory from `p` on. -/
def Lies (mem : Nat → α) : Nat → List α → Prop
  | _, [] => True
  | p, value :: values => mem p = value ∧ Lies mem (p + 1) values

theorem lies_append (mem : Nat → α) (p : Nat) (values values' : List α) :
    Lies mem p (values ++ values') ↔ Lies mem p values ∧ Lies mem (p + values.length) values' := by
  induction values generalizing p with
  | nil => exact (iff_of_eq (true_and _)).symm
  | cons value values ih =>
    have hlen : p + 1 + values.length = p + (value :: values).length := by
      rw [length_cons, Nat.add_assoc, Nat.add_comm 1]
    rw [cons_append, Lies, Lies, ih, hlen, and_assoc]

theorem lies_getD (values : List α) (d : α) : Lies (fun i => values.getD i d) 0 values := by
  have hfrom : ∀ front values : List α, Lies (fun i => (front ++ values).getD i d) front.length values := by
    intro front values
    induction values generalizing front with
    | nil => trivial
    | cons value values ih =>
      refine ⟨?_, ?_⟩
      · dsimp only
        rw [getD_append_right _ _ _ _ le_rfl, Nat.sub_self]
        rfl
      · have hrest := ih (front ++ [value])
        rwa [append_assoc, length_append] at hrest
  exact hfrom [] values

theorem lies_map_range {mem : Nat → α} {f : Nat → α} {p len : Nat}
    (h : Lies mem p ((List.range len).map f)) {k : Nat} (hk : k < len) : mem (p + k) = f k := by
  induction len with
  | zero => exact absurd hk (Nat.not_lt_zero k)
  | succ len ih =>
    rw [range_succ, map_append, lies_append, length_map, length_range] at h
    by_cases heq : k = len
    · rw [heq]
      exact h.2.1
    · exact ih h.1 (by omega)

/-- The first `m` values of the two buffers are the same. -/
def AgreeBelow (m : Nat) (a b : Fin n → α) : Prop := ∀ i : Fin n, i.val < m → a i = b i

namespace AgreeBelow

variable {a b : Fin n → α} {m : Nat}

theorem zero (a b : Fin n → α) : AgreeBelow 0 a b := fun i hi => absurd hi (Nat.not_lt_zero i)

theorem eq (h : AgreeBelow n a b) : a = b := funext fun i => h i i.isLt

theorem copy {off len : Nat} {src : Nat → α} (h : AgreeBelow off a b) (hm : m ≤ off + len)
    (hsrc : ∀ i : Fin n, off ≤ i.val → i.val < m → src (i.val - off) = b i) :
    AgreeBelow m (copy a off len src) b := by
  intro i hi
  unfold Buffer.copy
  by_cases hoff : off ≤ i.val
  · rw [if_pos ⟨hoff, hi.trans_le hm⟩]
    exact hsrc i hoff hi
  · rw [if_neg fun hin => hoff hin.1]
    exact h i (Nat.lt_of_not_le hoff)

end AgreeBelow

end Buffer

import Mathlib.Data.List.Basic

/-!
# The writes to a buffer

The writes made to a buffer, in order, each at an offset. What the buffer holds at an offset is the
value of the last write there.
-/

open List Option

namespace WriteLog

variable {α : Type}

/-- The last value written at `i`. -/
def last? (log : List (Nat × α)) (i : Nat) : Option α :=
  (log.reverse.find? fun w => w.1 = i).map Prod.snd

/-- No write is at or behind the end of a buffer of `size` elements. -/
def Within (size : Nat) (log : List (Nat × α)) : Prop := ∀ w ∈ log, w.1 < size

/-- The elements of a list written one behind the other from `i` on. -/
def row (i : Nat) : List α → List (Nat × α)
  | [] => []
  | a :: as => (i, a) :: row (i + 1) as

theorem last?_append (log log' : List (Nat × α)) (i : Nat) :
    last? (log ++ log') i = (last? log' i).or (last? log i) := by
  unfold last?
  rw [reverse_append, find?_append]
  cases log'.reverse.find? fun w => decide (w.1 = i) <;> rfl

theorem last?_cons (w : Nat × α) (log : List (Nat × α)) (i : Nat) :
    last? (w :: log) i = (last? log i).or (if w.1 = i then some w.2 else none) := by
  have happend := last?_append [w] log i
  rw [singleton_append] at happend
  rw [happend]
  by_cases hi : w.1 = i <;> simp [last?, hi]

theorem last?_row (start : Nat) (as : List α) (i : Nat) :
    last? (row start as) i = if start ≤ i then as[i - start]? else none := by
  induction as generalizing start with
  | nil => simp [row, last?]
  | cons a as ih =>
    rw [row, last?_cons, ih]
    rcases Nat.lt_trichotomy start i with hlt | heq | hgt
    · have hsucc : i - start = (i - (start + 1)) + 1 := by omega
      rw [if_pos (by omega), if_neg (by omega), if_pos (by omega), hsucc, getElem?_cons_succ,
        or_none]
    · subst heq
      rw [if_neg (by omega), if_pos rfl, if_pos (Nat.le_refl _), Nat.sub_self]
      rfl
    · rw [if_neg (by omega), if_neg (by omega), if_neg (by omega)]
      rfl

variable {log : List (Nat × α)} {as : List α}

theorem within_append {size : Nat} {log' : List (Nat × α)} :
    Within size (log ++ log') ↔ Within size log ∧ Within size log' := by
  unfold Within
  simp only [mem_append, or_imp, forall_and]

theorem within_row {size start : Nat} :
    Within size (row start as) ↔ as = [] ∨ start + as.length ≤ size := by
  induction as generalizing start with
  | nil => simp [row, Within]
  | cons a as ih =>
    have hcons : Within size (row start (a :: as)) ↔
        start < size ∧ Within size (row (start + 1) as) := forall_mem_cons
    rw [hcons, ih, length_cons]
    constructor
    · rintro ⟨hstart, rfl | hlen⟩
      · exact .inr (by rw [length_nil]; omega)
      · exact .inr (by omega)
    · rintro (hnil | hlen)
      · exact absurd hnil (cons_ne_nil a as)
      · exact ⟨by omega, .inr (by omega)⟩

theorem row_append (i : Nat) (as bs : List α) :
    row i (as ++ bs) = row i as ++ row (i + as.length) bs := by
  induction as generalizing i with
  | nil => rfl
  | cons a as ih =>
    rw [cons_append, row, row, ih, length_cons, cons_append]
    congr 3
    omega

/-- The buffer holds `as` from its start on, and nothing was written behind it. -/
def Holds (log : List (Nat × α)) (as : List α) : Prop := ∀ i, last? log i = as[i]?

theorem holds_nil : Holds ([] : List (Nat × α)) [] := fun _ => rfl

theorem Holds.append_row (h : Holds log as) (bs : List α) :
    Holds (log ++ row as.length bs) (as ++ bs) := by
  intro i
  rw [last?_append, last?_row, h i, getElem?_append]
  split_ifs with hle hlt hlt
  · omega
  · have hnone : as[i]? = none := getElem?_eq_none hle
    rw [hnone, or_none]
  · rw [none_or]
  · omega

theorem Holds.rewrite {a : α} (h : Holds log (as ++ [a])) (b : α) :
    Holds (log ++ [(as.length, b)]) (as ++ [b]) := by
  intro i
  have hnew : last? [(as.length, b)] i = if as.length = i then some b else none := last?_cons _ _ _
  rw [last?_append, hnew, h i]
  split_ifs with heq
  · subst heq
    simp
  · rw [none_or, getElem?_append, getElem?_append]
    split_ifs with hlt
    · rfl
    · rw [getElem?_eq_none (by rw [length_singleton]; omega),
        getElem?_eq_none (by rw [length_singleton]; omega)]

theorem Holds.within (h : Holds log as) : Within as.length log := by
  intro w hw
  have hfound : (log.reverse.find? fun v => v.1 = w.1).isSome = true :=
    find?_isSome.mpr ⟨w, mem_reverse.mpr hw, decide_eq_true rfl⟩
  have hsome : (last? log w.1).isSome = true := (isSome_map ..).trans hfound
  rw [h, isSome_iff_exists] at hsome
  obtain ⟨a, ha⟩ := hsome
  exact (List.getElem?_eq_some_iff.mp ha).1

theorem Within.mono {size size' : Nat} (h : Within size log)
    (hle : size ≤ size') : Within size' log := fun w hw => Nat.lt_of_lt_of_le (h w hw) hle

end WriteLog

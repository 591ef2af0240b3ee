import Mathlib.Data.List.Nodup
import Mathlib.Order.Basic

/-!
# Semaphores with a list of waiting threads

A semaphore has a count and the threads that wait for it. A negative count is the number of waiting
threads. Which of them gets a count that is posted is open: the caller of `post` says which one it is.
-/

/-- A counting semaphore. -/
structure WaitSem (T : Type) where
  count : Int
  waiters : List T
  deriving DecidableEq, Repr

open List

namespace WaitSem

variable {T : Type} {s : WaitSem T} {t u w : T} {inside inside' : T → Prop}

def wait (t : T) (s : WaitSem T) : WaitSem T :=
  ⟨s.count - 1, if s.count > 0 then s.waiters else s.waiters ++ [t]⟩

/-- As many threads wait as the count says. -/
structure Valid (s : WaitSem T) : Prop where
  length : s.waiters.length = (-s.count).toNat
  nodup : s.waiters.Nodup

theorem Valid.waiters_eq_nil (h : s.Valid) (hcount : 0 ≤ s.count) : s.waiters = [] := by
  apply eq_nil_of_length_eq_zero
  rw [h.length]
  omega

theorem waiters_wait_of_pos (t : T) (h : 0 < s.count) : (s.wait t).waiters = s.waiters := if_pos h

theorem waiters_wait_of_le (t : T) (h : s.count ≤ 0) : (s.wait t).waiters = s.waiters ++ [t] :=
  if_neg (by omega)

theorem mem_of_mem_wait (h : u ∈ (s.wait t).waiters) : u ∈ s.waiters ∨ u = t := by
  by_cases hcount : 0 < s.count
  · rw [waiters_wait_of_pos t hcount] at h
    exact .inl h
  · rw [waiters_wait_of_le t (by omega)] at h
    exact (mem_append.mp h).imp_right mem_singleton.mp

theorem Valid.wait (h : s.Valid) (ht : t ∉ s.waiters) : (s.wait t).Valid := by
  have hlen := h.length
  have hafter : (s.wait t).count = s.count - 1 := rfl
  by_cases hcount : 0 < s.count
  · refine ⟨?_, ?_⟩
    · rw [waiters_wait_of_pos t hcount]
      omega
    · rw [waiters_wait_of_pos t hcount]
      exact h.nodup
  · refine ⟨?_, ?_⟩
    · rw [waiters_wait_of_le t (by omega), length_append, length_singleton]
      omega
    · rw [waiters_wait_of_le t (by omega)]
      exact h.nodup.append (nodup_singleton t) (disjoint_singleton.mpr ht)

/-- The thread is inside and does not wait. -/
def Holds (s : WaitSem T) (inside : T → Prop) (t : T) : Prop := inside t ∧ t ∉ s.waiters

/-- **The semaphore is a mutex** for the threads `inside`, which have called `wait` and not yet
`post`: the waiting ones are among them, and of the others there is one exactly when no count is
left. -/
structure Mutex (s : WaitSem T) (inside : T → Prop) : Prop where
  valid : s.Valid
  le_one : s.count ≤ 1
  waiting : ∀ t ∈ s.waiters, inside t
  unique : ∀ t u, s.Holds inside t → s.Holds inside u → t = u
  taken : s.count ≤ 0 → ∃ t, s.Holds inside t
  free : 0 < s.count → ∀ t, ¬ inside t

theorem Mutex.init : (⟨1, []⟩ : WaitSem T).Mutex fun _ => False where
  valid := ⟨rfl, nodup_nil⟩
  le_one := Int.le_refl 1
  waiting := fun _ h => absurd h not_mem_nil
  unique := fun _ _ h => h.1.elim
  taken := fun h => absurd h (Int.not_le.mpr Int.one_pos)
  free := fun _ _ h => h

theorem Mutex.congr (h : s.Mutex inside)
    (heq : ∀ u, inside' u ↔ inside u) : s.Mutex inside' := by
  have hsame : inside' = inside := funext fun u => propext (heq u)
  rw [hsame]
  exact h

theorem Mutex.wait (h : s.Mutex inside) (ht : ¬ inside t)
    (hinside : ∀ u, inside' u ↔ u = t ∨ inside u) : (s.wait t).Mutex inside' := by
  have hnot : t ∉ s.waiters := fun hmem => ht (h.waiting t hmem)
  have hafter : (s.wait t).count = s.count - 1 := rfl
  have hone := h.le_one
  by_cases hcount : 0 < s.count
  · -- there was a count, so nobody was inside
    have hwaiters : (s.wait t).waiters = [] := by
      rw [waiters_wait_of_pos t hcount, h.valid.waiters_eq_nil (by omega)]
    have honly : ∀ u, inside' u → u = t := fun u hu =>
      ((hinside u).mp hu).resolve_right (h.free hcount u)
    refine ⟨h.valid.wait hnot, by omega, ?_, ?_, ?_, fun hpos => by omega⟩
    · intro u hu
      rw [hwaiters] at hu
      exact absurd hu not_mem_nil
    · intro u v hu hv
      rw [honly u hu.1, honly v hv.1]
    · intro _
      refine ⟨t, (hinside t).mpr (.inl rfl), ?_⟩
      rw [hwaiters]
      exact not_mem_nil
  · have hwaiters := waiters_wait_of_le t (show s.count ≤ 0 by omega)
    have hkeep : ∀ u, (s.wait t).Holds inside' u ↔ s.Holds inside u := by
      intro u
      unfold Holds
      rw [hinside, hwaiters, mem_append, mem_singleton, not_or]
      constructor
      · rintro ⟨hin, hout, hne⟩
        exact ⟨hin.resolve_left hne, hout⟩
      · rintro ⟨hin, hout⟩
        exact ⟨.inr hin, hout, fun heq => ht (heq ▸ hin)⟩
    refine ⟨h.valid.wait hnot, by omega, ?_, ?_, ?_, fun hpos => by omega⟩
    · intro u hu
      exact (hinside u).mpr ((mem_of_mem_wait hu).symm.imp_right (h.waiting u))
    · intro u v hu hv
      exact h.unique u v ((hkeep u).mp hu) ((hkeep v).mp hv)
    · intro _
      obtain ⟨u, hu⟩ := h.taken (by omega)
      exact ⟨u, (hkeep u).mpr hu⟩

section

variable [DecidableEq T]

/-- The list without `w`, or without its first thread if `w` is not in it. -/
def wake (w : T) (waiters : List T) : List T := if w ∈ waiters then waiters.erase w else waiters.tail

def post (w : T) (s : WaitSem T) : WaitSem T :=
  ⟨s.count + 1, if s.count + 1 ≤ 0 then wake w s.waiters else s.waiters⟩

def cancel (t : T) (s : WaitSem T) : WaitSem T := ⟨s.count + 1, s.waiters.erase t⟩

theorem wake_eq_erase (w : T) {l : List T} (h : l ≠ []) : ∃ x ∈ l, wake w l = l.erase x := by
  unfold wake
  split_ifs with hw
  · exact ⟨w, hw, rfl⟩
  · obtain ⟨x, l, rfl⟩ := exists_cons_of_ne_nil h
    exact ⟨x, mem_cons_self, (erase_cons_head x l).symm⟩

theorem Valid.waiters_post (h : s.Valid) (w : T) :
    (0 ≤ s.count ∧ (s.post w).waiters = [] ∧ s.waiters = []) ∨
      s.count < 0 ∧ ∃ x ∈ s.waiters, (s.post w).waiters = s.waiters.erase x := by
  have hlen := h.length
  unfold post
  split_ifs with hcount
  · have hne : s.waiters ≠ [] := by
      intro hnil
      rw [hnil, length_nil] at hlen
      omega
    exact .inr ⟨by omega, wake_eq_erase w hne⟩
  · have hnil := h.waiters_eq_nil (by omega)
    exact .inl ⟨by omega, hnil, hnil⟩

theorem Valid.mem_of_mem_post (h : s.Valid) (hu : u ∈ (s.post w).waiters) : u ∈ s.waiters := by
  rcases h.waiters_post w with ⟨_, hnil, _⟩ | ⟨_, x, _, herase⟩
  · rw [hnil] at hu
    exact absurd hu not_mem_nil
  · rw [herase] at hu
    exact mem_of_mem_erase hu

theorem Valid.post (h : s.Valid) (w : T) : (s.post w).Valid := by
  have hlen := h.length
  have hafter : (s.post w).count = s.count + 1 := rfl
  rcases h.waiters_post w with ⟨hcount, hnil, _⟩ | ⟨hcount, x, hx, herase⟩
  · refine ⟨?_, ?_⟩
    · rw [hnil, length_nil]
      omega
    · rw [hnil]
      exact nodup_nil
  · refine ⟨?_, ?_⟩
    · rw [herase, length_erase_of_mem hx]
      omega
    · rw [herase]
      exact h.nodup.erase x

theorem Valid.cancel (h : s.Valid) (ht : t ∈ s.waiters) : (s.cancel t).Valid := by
  have hlen := h.length
  have hafter : (s.cancel t).count = s.count + 1 := rfl
  have hwaiters : (s.cancel t).waiters = s.waiters.erase t := rfl
  refine ⟨?_, h.nodup.erase t⟩
  rw [hwaiters, length_erase_of_mem ht]
  omega

theorem Mutex.post (h : s.Mutex inside) (ht : s.Holds inside t)
    (hinside : ∀ u, inside' u ↔ u ≠ t ∧ inside u) (w : T) : (s.post w).Mutex inside' := by
  have hafter : (s.post w).count = s.count + 1 := rfl
  have hcount : s.count ≤ 0 := by
    by_contra hpos
    exact h.free (by omega) t ht.1
  -- a thread that is inside after the post waited before it
  have hwaited : ∀ u, inside' u → u ∈ s.waiters := by
    intro u hu
    obtain ⟨hne, hin⟩ := (hinside u).mp hu
    by_contra hout
    exact hne (h.unique u t ⟨hin, hout⟩ ht)
  have hwaiting : ∀ u ∈ (s.post w).waiters, inside' u := by
    intro u hu
    have hmem := h.valid.mem_of_mem_post hu
    exact (hinside u).mpr ⟨fun heq => ht.2 (heq ▸ hmem), h.waiting u hmem⟩
  rcases h.valid.waiters_post w with ⟨hzero, hnil, hnil'⟩ | ⟨hneg, x, hx, herase⟩
  · have hnone : ∀ u, ¬ inside' u := by
      intro u hu
      have hmem := hwaited u hu
      rw [hnil'] at hmem
      exact not_mem_nil hmem
    exact ⟨h.valid.post w, by omega, hwaiting, fun u _ hu => absurd hu.1 (hnone u),
      fun hle => by omega, fun _ => hnone⟩
  · have hwoken : ∀ u, (s.post w).Holds inside' u → u = x := by
      intro u hu
      by_contra hne
      refine hu.2 ?_
      rw [herase]
      exact (mem_erase_of_ne hne).mpr (hwaited u hu.1)
    refine ⟨h.valid.post w, by omega, hwaiting, ?_, ?_, fun hpos => by omega⟩
    · intro u v hu hv
      rw [hwoken u hu, hwoken v hv]
    intro _
    refine ⟨x, (hinside x).mpr ⟨fun heq => ht.2 (heq ▸ hx), h.waiting x hx⟩, ?_⟩
    rw [herase]
    exact h.valid.nodup.not_mem_erase

theorem Mutex.cancel (h : s.Mutex inside) (ht : t ∈ s.waiters)
    (hinside : ∀ u, inside' u ↔ u ≠ t ∧ inside u) : (s.cancel t).Mutex inside' := by
  have hlen := h.valid.length
  have hpos := length_pos_of_mem ht
  have hafter : (s.cancel t).count = s.count + 1 := rfl
  have hwaiters : (s.cancel t).waiters = s.waiters.erase t := rfl
  have hkeep : ∀ u, (s.cancel t).Holds inside' u ↔ s.Holds inside u := by
    intro u
    unfold Holds
    rw [hinside, hwaiters]
    constructor
    · rintro ⟨⟨hne, hin⟩, hout⟩
      exact ⟨hin, fun hmem => hout ((mem_erase_of_ne hne).mpr hmem)⟩
    rintro ⟨hin, hout⟩
    have hne : u ≠ t := by
      rintro rfl
      exact hout ht
    exact ⟨⟨hne, hin⟩, fun hmem => hout (mem_of_mem_erase hmem)⟩
  refine ⟨h.valid.cancel ht, by omega, ?_, ?_, ?_, fun hpos => by omega⟩
  · intro u hu
    rw [hwaiters] at hu
    refine (hinside u).mpr ⟨?_, h.waiting u (mem_of_mem_erase hu)⟩
    rintro rfl
    exact h.valid.nodup.not_mem_erase hu
  · intro u v hu hv
    exact h.unique u v ((hkeep u).mp hu) ((hkeep v).mp hv)
  · intro _
    obtain ⟨u, hu⟩ := h.taken (by omega)
    exact ⟨u, (hkeep u).mpr hu⟩

end

end WaitSem

import Mathlib.Data.List.Pairwise
import Mathlib.Data.List.Perm.Basic

/-!
# Lists in order of priority

Elements of higher priority stand first, and elements of one priority in the order in which they were
put in.
-/

open List

namespace PriorityList

variable {α : Type} {prio : α → Nat}

/-- `a` put behind all elements that stand at the front and are not of lower priority. -/
def insert (prio : α → Nat) (a : α) : List α → List α
  | [] => [a]
  | b :: l => if prio a ≤ prio b then b :: insert prio a l else a :: b :: l

theorem insert_perm (prio : α → Nat) (a : α) (l : List α) : (insert prio a l).Perm (a :: l) := by
  induction l with
  | nil => exact List.Perm.refl _
  | cons b l ih =>
    rw [insert]
    split_ifs
    · exact (ih.cons b).trans (List.Perm.swap a b l)
    · exact List.Perm.refl _

variable {l : List α}

theorem mem_insert {a c : α} : c ∈ insert prio a l ↔ c = a ∨ c ∈ l := by
  rw [(insert_perm prio a l).mem_iff, mem_cons]

/-- The order of a queue with first come, first served within a priority: `seq` tells when an element
came. -/
def Stable (prio seq : α → Nat) (l : List α) : Prop :=
  l.Pairwise (fun a b => prio b < prio a ∨ prio a = prio b ∧ seq a < seq b)

theorem map_insert {β : Type} (prio : α → Nat) (f : β → α) (b : β) (l : List β) :
    (insert (fun b => prio (f b)) b l).map f = insert prio (f b) (l.map f) := by
  induction l with
  | nil => rfl
  | cons c l ih =>
    rw [insert, map_cons, insert]
    split_ifs
    · rw [map_cons, ih]
    · rfl

theorem Stable.insert {seq : α → Nat} (h : Stable prio seq l) {a : α}
    (hnew : ∀ b ∈ l, seq b < seq a) : Stable prio seq (insert prio a l) := by
  induction l with
  | nil => exact pairwise_singleton _ _
  | cons b l ih =>
    obtain ⟨hhead, htail⟩ := pairwise_cons.mp h
    rw [PriorityList.insert]
    split_ifs with hle
    · refine pairwise_cons.mpr
        ⟨fun c hc => ?_, ih htail fun c hc => hnew c (mem_cons_of_mem _ hc)⟩
      rcases mem_insert.mp hc with rfl | hc
      · have hb := hnew b mem_cons_self
        omega
      · exact hhead c hc
    · refine pairwise_cons.mpr ⟨fun c hc => ?_, h⟩
      rcases mem_cons.mp hc with rfl | hc
      · omega
      · have hbc := hhead c hc
        omega

end PriorityList

import Mathlib.Logic.Basic

/-!
# Things with at most one owner

`H o a` says that `o` owns `a`. What a transfer, an acquisition or a loss does to the fact that
nothing has two owners.
-/

namespace Ownership

variable {ι α : Type} {H H' : ι → α → Prop} {i j : ι} {a : α}

def Exclusive (H : ι → α → Prop) : Prop := ∀ o o' a, H o a → H o' a → o = o'

theorem Exclusive.ne_of_owned (h : Exclusive H) (ha : H i a) {o : ι} {b : α} (hne : o ≠ i)
    (hb : H o b) : b ≠ a := by
  rintro rfl
  exact hne (h _ _ _ hb ha)

theorem Exclusive.mono (h : Exclusive H) (hsub : ∀ o b, H' o b → H o b) : Exclusive H' :=
  fun o o' b hb hb' => h o o' b (hsub o b hb) (hsub o' b hb')

theorem Exclusive.gain (h : Exclusive H)
    (hstep : ∀ o b, H' o b → H o b ∧ b ≠ a ∨ o = j ∧ b = a) : Exclusive H' := by
  intro o o' b hb hb'
  rcases hstep o b hb with ⟨hold, hne⟩ | ⟨rfl, rfl⟩
  · rcases hstep o' b hb' with ⟨hold', -⟩ | ⟨-, rfl⟩
    · exact h o o' b hold hold'
    · exact absurd rfl hne
  · rcases hstep o' b hb' with ⟨-, hne⟩ | ⟨rfl, -⟩
    · exact absurd rfl hne
    · rfl

theorem Exclusive.given (h : Exclusive H) (ha : H i a)
    (hgiver : ∀ b, H' i b → H i b ∧ b ≠ a ∨ i = j ∧ b = a)
    (hothers : ∀ o b, o ≠ i → H' o b → H o b ∨ o = j ∧ b = a) :
    ∀ o b, H' o b → H o b ∧ b ≠ a ∨ o = j ∧ b = a := by
  intro o b hb
  by_cases ho : o = i
  · subst ho
    exact hgiver b hb
  · rcases hothers o b ho hb with hold | hnew
    · exact .inl ⟨hold, h.ne_of_owned ha ho hold⟩
    · exact .inr hnew

end Ownership

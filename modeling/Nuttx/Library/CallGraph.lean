import Mathlib.Data.Set.Card

/-!
# Depth of recursion

`calls p q` says that the call with argument `p` makes a call with argument `q`. If only finitely
many arguments are ever passed on, a call returns if and only if no call is reached from it that is
made again for its own sake.
-/

namespace CallGraph

open Relation

variable {P : Type} (calls : P → P → Prop)

/-- Some call reached from that with `p` is made again on the way to its own result. -/
def Loops (p : P) : Prop := ∃ q, ReflTransGen calls p q ∧ TransGen calls q q

variable {calls}

theorem Loops.of_call {p q : P} (hcall : calls p q) (hloops : Loops calls q) : Loops calls p := by
  obtain ⟨r, hreach, hloop⟩ := hloops
  exact ⟨r, hreach.head hcall, hloop⟩

theorem returns_of_not_loops {args : Set P} (hfinite : args.Finite)
    (hargs : ∀ p q, calls p q → q ∈ args) {returns : Nat → P → Prop}
    (hstep : ∀ d p, (∀ q, calls p q → returns d q) → returns (d + 1) p) {d : Nat} {p : P}
    (hloops : ¬Loops calls p) (hd : args.ncard < d) : returns d p := by
  let reached := fun p => {q | TransGen calls p q}
  have hsub : ∀ p, reached p ⊆ args := by
    intro p q hq
    obtain ⟨r, -, hr⟩ := TransGen.tail'_iff.mp hq
    exact hargs r q hr
  -- the arguments reached from `p` decrease along every call
  have hrank : ∀ n p, ¬Loops calls p → (reached p).ncard = n → ∀ d, n < d → returns d p := by
    intro n
    induction n using Nat.strong_induction_on with
    | _ n ih =>
      intro p hp hn d hd
      obtain ⟨d, rfl⟩ := Nat.exists_eq_add_one_of_ne_zero (Nat.ne_zero_of_lt hd)
      refine hstep d p fun q hq => ?_
      have hlt : (reached q).ncard < (reached p).ncard := by
        refine Set.ncard_lt_ncard ⟨fun r hr => TransGen.head hq hr, fun hle => ?_⟩
          (hfinite.subset (hsub p))
        exact hp ⟨q, ReflTransGen.single hq, hle (TransGen.single hq)⟩
      exact ih _ (hn ▸ hlt) q (fun h => hp (h.of_call hq)) rfl d (by omega)
  exact hrank _ p hloops rfl d ((Set.ncard_le_ncard (hsub p) hfinite).trans_lt hd)

theorem not_loops_of_returns {returns : Nat → P → Prop}
    (hcalled : ∀ d p q, returns d p → calls p q → ∃ d' < d, returns d' q) {d : Nat} {p : P}
    (hreturns : returns d p) : ¬Loops calls p := by
  have hreach : ∀ {p q}, TransGen calls p q → ∀ d, returns d p → ∃ d' < d, returns d' q := by
    intro p q hpq
    induction hpq with
    | single hcall => exact fun d hd => hcalled d _ _ hd hcall
    | tail _ hcall ih =>
      intro d hd
      obtain ⟨d', hlt, hd'⟩ := ih d hd
      obtain ⟨d'', hlt', hd''⟩ := hcalled d' _ _ hd' hcall
      exact ⟨d'', hlt'.trans hlt, hd''⟩
  rintro ⟨q, hpq, hloop⟩
  have hnever : ∀ d, ¬returns d q := by
    intro d
    induction d using Nat.strong_induction_on with
    | _ d ih =>
      intro hd
      obtain ⟨d', hlt, hd'⟩ := hreach hloop d hd
      exact ih d' hlt hd'
  rcases reflTransGen_iff_eq_or_transGen.mp hpq with rfl | hpq
  · exact hnever d hreturns
  · obtain ⟨d', -, hd'⟩ := hreach hpq d hreturns
    exact hnever d' hd'

end CallGraph

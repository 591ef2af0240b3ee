import Mathlib.Data.List.Basic

/-!
# Decoding a stream event by event

A decoder takes one event off a stream of symbols and may keep symbols of a failed match back in its
state. Decoding goes on until the decoder reports the end of the stream.
-/

namespace StreamCodec

/-- The symbols kept back after a failed match: `nch` of them, the next one at `ndx`. -/
structure Pushback (β : Type) (cap : Nat) where
  nch : Nat
  ndx : Nat
  buf : Vector β cap
  inBuf : ndx + nch ≤ cap

def Pushback.reget {β : Type} {cap : Nat} (p : Pushback β cap) (h : 0 < p.nch) :
    β × Pushback β cap :=
  have := p.inBuf
  (p.buf[p.ndx], ⟨p.nch - 1, p.ndx + 1, p.buf, by omega⟩)

section

variable {σ β δ ε : Type}

/-- All events up to the end of the stream; `none` if there is no fuel for that many calls. -/
def run (dec : σ → List β → Option (δ × σ × List β)) : Nat → σ → List β → Option (List δ)
  | 0, _, _ => none
  | fuel + 1, st, s =>
    match dec st s with
    | none => some []
    | some (e, st', s') => (run dec fuel st' s').map (e :: ·)

/-- A call that does not report the end uses up a symbol, of the stream or of those kept back. -/
def Progress (kept : σ → Nat) (dec : σ → List β → Option (δ × σ × List β)) : Prop :=
  ∀ st s e st' s', dec st s = some (e, st', s') → kept st' + s'.length < kept st + s.length

variable {dec : σ → List β → Option (δ × σ × List β)} {kept : σ → Nat}

variable {st : σ} {s : List β}

theorem run_of_none (h : dec st s = none) (fuel : Nat) : run dec (fuel + 1) st s = some [] := by
  rw [run, h]

theorem run_of_some {st' : σ} {s' : List β} {e : δ} (h : dec st s = some (e, st', s'))
    (fuel : Nat) : run dec (fuel + 1) st s = (run dec fuel st' s').map (e :: ·) := by
  rw [run, h]

theorem not_mem_of_run {d : δ} (hnever : ∀ st s st' s', dec st s ≠ some (d, st', s')) {fuel : Nat}
    {es : List δ} (hrun : run dec fuel st s = some es) : d ∉ es := by
  induction fuel generalizing st s es with
  | zero => cases hrun
  | succ fuel ih =>
    cases hdec : dec st s with
    | none =>
      rw [run_of_none hdec, Option.some.injEq] at hrun
      rw [← hrun]
      exact List.not_mem_nil
    | some out =>
      obtain ⟨e, st', s'⟩ := out
      rw [run_of_some hdec, Option.map_eq_some_iff] at hrun
      obtain ⟨es', hes', rfl⟩ := hrun
      intro hmem
      rcases List.mem_cons.mp hmem with rfl | hmem
      · exact hnever st s st' s' hdec
      · exact ih hes' hmem

variable {enc : ε → List β} {view : ε → δ} {clean : σ → Prop}

/-- From a clean state the event comes off whole, and leaves a clean state. -/
def TakenWhole (dec : σ → List β → Option (δ × σ × List β)) (enc : ε → List β) (view : ε → δ)
    (clean : σ → Prop) (e : ε) : Prop :=
  ∀ st rest, clean st → ∃ st', clean st' ∧ dec st (enc e ++ rest) = some (view e, st', rest)

/-- From a clean state some other event comes off, or the event never does. -/
def Mistaken (dec : σ → List β → Option (δ × σ × List β)) (enc : ε → List β) (view : ε → δ)
    (clean : σ → Prop) (e : ε) : Prop :=
  (∀ st rest, clean st → ∃ d st' s', d ≠ view e ∧ dec st (enc e ++ rest) = some (d, st', s')) ∨
  ∀ st s st' s', dec st s ≠ some (view e, st', s')

/-- **Round trip, event by event.** If every event with `good` is taken whole and every other one is
mistaken, exactly the sequences of good events are decoded to themselves. -/
theorem run_encode_iff {good : ε → Prop} (hprogress : Progress kept dec)
    (hend : ∀ st, clean st → dec st [] = none) (hkept : ∀ st, clean st → kept st = 0)
    (hgood : ∀ e, good e → TakenWhole dec enc view clean e)
    (hbad : ∀ e, ¬ good e → Mistaken dec enc view clean e) (es : List ε) {fuel : Nat}
    (hclean : clean st) (hfuel : (es.flatMap enc).length < fuel) :
    run dec fuel st (es.flatMap enc) = some (es.map view) ↔ ∀ e ∈ es, good e := by
  induction es generalizing fuel st with
  | nil =>
    obtain ⟨fuel, rfl⟩ : ∃ n, fuel = n + 1 := ⟨fuel - 1, by omega⟩
    simp [run_of_none (hend st hclean) fuel]
  | cons e es ih =>
    obtain ⟨fuel, rfl⟩ : ∃ n, fuel = n + 1 := ⟨fuel - 1, by omega⟩
    rw [List.flatMap_cons] at hfuel ⊢
    rw [List.map_cons, List.forall_mem_cons]
    by_cases hge : good e
    · obtain ⟨st', hclean', hdec⟩ := hgood e hge st (es.flatMap enc) hclean
      have hless := hprogress _ _ _ _ _ hdec
      rw [hkept st hclean, hkept st' hclean'] at hless
      have hleft : (es.flatMap enc).length < fuel := by omega
      rw [run_of_some hdec, ← ih hclean' hleft]
      simp [hge]
    · refine iff_of_false (fun hrun => ?_) (fun h => hge h.1)
      rcases hbad e hge with hother | hnever
      · obtain ⟨d, st', s', hne, hdec⟩ := hother st (es.flatMap enc) hclean
        rw [run_of_some hdec, Option.map_eq_some_iff] at hrun
        obtain ⟨ds, -, hds⟩ := hrun
        exact hne (List.cons.inj hds).1
      · exact not_mem_of_run hnever hrun List.mem_cons_self

end

end StreamCodec

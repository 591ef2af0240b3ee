import Mathlib.Logic.Basic

/-!
# Runs of steps that may fail

How a step that returns goes on, and how a computation that returned got there.

If a property of states is kept by a step exactly under a condition on the state and the event before
it, then it holds in all states of a run exactly if every step meets the condition.

A component takes a request to an answer and a next state. One component refines another if a relation
between their states is kept by every request and makes the answers the same; the requests may be
limited by a condition on the state before them.
-/

namespace Result

variable {ε α β : Type}

@[simp]
theorem ok_bind (a : α) (f : α → Except ε β) : (Except.ok a >>= f) = f a := rfl

@[simp]
theorem error_bind (e : ε) (f : α → Except ε β) : (Except.error e >>= f) = .error e := rfl

@[simp]
theorem pure_eq_ok (a : α) : (pure a : Except ε α) = .ok a := rfl

theorem bind_eq_ok {x : Except ε α} {f : α → Except ε β} {b : β} (h : (x >>= f) = .ok b) :
    ∃ a, x = .ok a ∧ f a = .ok b := by
  cases x with
  | error e => cases h
  | ok a => exact ⟨a, rfl, h⟩

instance decidableForallOk (x : Except ε α) (p : α → Prop) [DecidablePred p] : Decidable (∀ a, x = .ok a → p a) :=
  match x with
  | .ok a => decidable_of_iff (p a) (by simp)
  | .error _ => isTrue (by simp)

instance decidableExistsOk (x : Except ε α) (p : α → Prop) [DecidablePred p] : Decidable (∃ a, x = .ok a ∧ p a) :=
  match x with
  | .ok a => decidable_of_iff (p a) (by simp)
  | .error _ => isFalse (by simp)

theorem bind_of_ok {σ : Type} {x : EStateM ε σ α} {f : α → EStateM ε σ β} {s s' : σ} {a : α}
    (h : x s = .ok a s') : (x >>= f) s = f a s' := by
  show EStateM.bind x f s = f a s'
  unfold EStateM.bind
  rw [h]

end Result

namespace Runs

variable {S E : Type} (step : S → E → S)

/-- `p` holds in every state of the run. -/
def Always (p : S → Prop) (s : S) : List E → Prop
  | [] => p s
  | e :: es => p s ∧ Always p (step s e) es

/-- `q` holds before every step of the run. -/
def Along (q : S → E → Prop) (s : S) : List E → Prop
  | [] => True
  | e :: es => q s e ∧ Along q (step s e) es

variable {step} {p : S → Prop} {q : S → E → Prop}

instance Along.decidable [∀ s e, Decidable (q s e)] (s : S) : (es : List E) → Decidable (Along step q s es)
  | [] => isTrue trivial
  | e :: es =>
    have : Decidable (Along step q (step s e) es) := Along.decidable (step s e) es
    inferInstanceAs (Decidable (q s e ∧ Along step q (step s e) es))

theorem along_congr {q' : S → E → Prop} (hq : ∀ s e, q s e ↔ q' s e) (s : S) (es : List E) :
    Along step q s es ↔ Along step q' s es := by
  rw [show q = q' from funext fun s => funext fun e => propext (hq s e)]

theorem Always.start {s : S} {es : List E} (h : Always step p s es) : p s := by
  cases es with
  | nil => exact h
  | cons e es => exact h.1

theorem always_iff_along (hstep : ∀ s e, p s → (p (step s e) ↔ q s e)) {s : S} (hs : p s) (es : List E) :
    Always step p s es ↔ Along step q s es := by
  induction es generalizing s with
  | nil => exact iff_of_true hs trivial
  | cons e es ih =>
    constructor
    · intro h
      have hnext : p (step s e) := h.2.start
      exact ⟨(hstep s e hs).mp hnext, (ih hnext).mp h.2⟩
    · intro h
      exact ⟨hs, (ih ((hstep s e hs).mpr h.1)).mpr h.2⟩

section Fallible

variable {ε : Type}

/-- `q` holds before every step of the run that is reached, where a step can fail. -/
def OkAlong (step : S → E → Except ε S) (q : S → E → Prop) (s : S) : List E → Prop
  | [] => True
  | e :: es => q s e ∧ ∀ s', step s e = .ok s' → OkAlong step q s' es

instance OkAlong.decidable {step : S → E → Except ε S} [∀ s e, Decidable (q s e)] (s : S) :
    (es : List E) → Decidable (OkAlong step q s es)
  | [] => isTrue trivial
  | e :: es =>
    have (s' : S) : Decidable (OkAlong step q s' es) := OkAlong.decidable s' es
    inferInstanceAs (Decidable (q s e ∧ ∀ s', step s e = .ok s' → OkAlong step q s' es))

/-- `q` holds before every step of a run that ends where a step has no next state. -/
def SomeAlong (step : S → E → Option S) (q : S → E → Prop) (s : S) : List E → Prop
  | [] => True
  | e :: es => q s e ∧ ∀ s', step s e = some s' → SomeAlong step q s' es

theorem SomeAlong.congr {step : S → E → Option S} {q' : S → E → Prop} (inv : S → Prop)
    (hinv : ∀ {s e s'}, inv s → step s e = some s' → inv s') (hq : ∀ s e, inv s → (q s e ↔ q' s e))
    {s : S} (hs : inv s) (es : List E) : SomeAlong step q s es ↔ SomeAlong step q' s es := by
  induction es generalizing s with
  | nil => exact Iff.rfl
  | cons e es ih =>
    refine and_congr (hq s e hs) ?_
    exact forall_congr' fun s' => forall_congr' fun hstep => ih (hinv hs hstep)

end Fallible

end Runs

namespace Refines

variable {S A E O : Type}

def run (step : S → E → O × S) (s : S) : List E → List O × S
  | [] => ([], s)
  | e :: es => ((step s e).1 :: (run step (step s e).2 es).1, (run step (step s e).2 es).2)

/-- Every request of a run meets the condition in the state in which it is made. -/
abbrev Along (step : S → E → O × S) : (S → E → Prop) → S → List E → Prop :=
  Runs.Along fun s e => (step s e).2

variable {step : S → E → O × S} {spec : A → E → O × A} {ok : S → E → Prop} {R : S → A → Prop}

theorem run_eq (hstep : ∀ s a e, R s a → ok s e → (step s e).1 = (spec a e).1 ∧ R (step s e).2 (spec a e).2)
    {s : S} {a : A} (h : R s a) {es : List E} (hok : Along step ok s es) :
    (run step s es).1 = (run spec a es).1 ∧ R (run step s es).2 (run spec a es).2 := by
  induction es generalizing s a with
  | nil => exact ⟨rfl, h⟩
  | cons e es ih =>
    obtain ⟨hanswer, hnext⟩ := hstep s a e h hok.1
    obtain ⟨hanswers, hlast⟩ := ih hnext hok.2
    refine ⟨?_, hlast⟩
    rw [run, run, hanswer, hanswers]

end Refines

import Nuttx.Mm.Iob.Proof.Copy

/-!
# Cloning a chain

`iob_clone` copies the data and the length of the packet. It sets the length of no buffer.
-/

open List

namespace Nuttx.Mm.Iob

variable {bufsize : Nat} {iob1 iob2 : Iob} {chain rest : List Iob} {pool : List (Nat × List UInt8)}

theorem sum_dropWhile_empty (chain : List Iob) :
    ((chain.dropWhile (·.ioLen ≤ 0)).map ioLen).sum = (chain.map ioLen).sum := by
  induction chain with
  | nil => rfl
  | cons iob rest ih =>
    by_cases hempty : iob.ioLen ≤ 0
    · rw [dropWhile_cons_of_pos (by simpa using hempty), ih, map_cons, sum_cons]
      omega
    · rw [dropWhile_cons_of_neg (by simpa using hempty)]

theorem pos_of_dropWhile_empty (hhead : (chain.dropWhile (·.ioLen ≤ 0)).head? = some iob1) :
    0 < iob1.ioLen := by
  have hnot := head?_dropWhile_not (·.ioLen ≤ 0) chain
  rw [hhead] at hnot
  simpa [Nat.pos_iff_ne_zero] using hnot

/-- `n` bytes of the chain are left to copy from the offset on. -/
def Left (chain : List Iob) (offset n : Nat) : Prop :=
  (chain.map ioLen).sum = offset + n ∧ ∀ iob ∈ chain.head?, offset < iob.ioLen

theorem Left.eq_zero_iff {offset n : Nat} (hleft : Left chain offset n) : n = 0 ↔ chain = [] := by
  obtain ⟨hsum, hhead⟩ := hleft
  cases chain with
  | nil =>
    rw [map_nil, sum_nil] at hsum
    exact iff_of_true (by omega) rfl
  | cons iob rest =>
    have hpos := hhead iob rfl
    rw [map_cons, sum_cons] at hsum
    exact iff_of_false (by omega) (cons_ne_nil _ _)

theorem cloneLoop_spec (hbuf : 0 < bufsize) {fuel offset1 offset2 n : Nat}
    (hleft : Left chain offset1 n) (hempty : iob2.ioLen = 0) (hoff : n = 0 ∨ offset2 < bufsize)
    (hfuel : n < fuel) (hpool : n ≤ bufsize - offset2 + bufsize * pool.length) :
    ∃ chain2, cloneLoop bufsize fuel chain offset1 iob2 offset2 pool = some (0, chain2) ∧
      ∀ b ∈ chain2, b.ioLen = 0 := by
  induction fuel generalizing chain offset1 iob2 offset2 pool n with
  | zero => omega
  | succ fuel ih =>
    cases chain with
    | nil => exact ⟨[iob2], rfl, by simpa using hempty⟩
    | cons iob1 rest =>
      have hoff := hoff.resolve_left (mt hleft.eq_zero_iff.mp (cons_ne_nil _ _))
      obtain ⟨hsum, hhead⟩ := hleft
      have hpos := hhead iob1 rfl
      rw [map_cons, sum_cons] at hsum
      obtain ⟨ncopy, hncopy⟩ : ∃ k, k = min (iob1.ioLen - offset1) (bufsize - offset2) := ⟨_, rfl⟩
      obtain ⟨chain', offset', hnext, hleft'⟩ : ∃ chain' offset',
          (if offset1 + ncopy ≥ iob1.ioLen then (rest.dropWhile (·.ioLen ≤ 0), 0)
            else (iob1 :: rest, offset1 + ncopy)) = (chain', offset') ∧
          Left chain' offset' (n - ncopy) := by
        split_ifs with hdone
        · refine ⟨_, _, rfl, by rw [sum_dropWhile_empty]; omega, ?_⟩
          exact fun iob hiob => pos_of_dropWhile_empty hiob
        · exact ⟨_, _, rfl, by rw [map_cons, sum_cons]; omega, by simp; omega⟩
      rw [cloneLoop, ← hncopy]
      simp only [hnext]
      split_ifs with halloc
      · simp only [Bool.and_eq_true, decide_eq_true_eq, Bool.not_eq_true', isEmpty_eq_false_iff] at halloc
        have hmore := mt hleft'.eq_zero_iff.mp halloc.2
        cases pool with
        | nil => simp at hpool; omega
        | cons next pool =>
          rw [length_cons, Nat.mul_succ] at hpool
          obtain ⟨chain2, hrun, hzero⟩ : ∃ chain2, cloneLoop bufsize fuel chain' offset'
              (allocated next) 0 pool = some (0, chain2) ∧ ∀ b ∈ chain2, b.ioLen = 0 :=
            ih hleft' rfl (.inr hbuf) (by omega) (by omega)
          refine ⟨_, by simp only [hrun]; rfl, ?_⟩
          exact forall_mem_cons.mpr ⟨hempty, hzero⟩
      · refine ih hleft' hempty ?_ (by omega) (by omega)
        rw [hleft'.eq_zero_iff]
        grind

theorem iobClone_spec (hbuf : 0 < bufsize) (hempty : iob2.ioLen = 0)
    (hpool : ((iob1 :: rest).map ioLen).sum ≤ bufsize * (pool.length + 1)) :
    if ((iob1 :: rest).map ioLen).sum = 0 then iobClone bufsize iob1 rest iob2 pool = none
    else ∃ chain2, iobClone bufsize iob1 rest iob2 pool = some (0, chain2) ∧ payload chain2 = [] := by
  rw [← sum_dropWhile_empty] at hpool ⊢
  unfold iobClone
  cases hchain : (iob1 :: rest).dropWhile (·.ioLen ≤ 0) with
  | nil => rfl
  | cons head tail =>
    have hpos : 0 < head.ioLen := pos_of_dropWhile_empty (by rw [hchain, head?_cons])
    have hleft : Left (head :: tail) 0 ((head :: tail).map ioLen).sum :=
      ⟨(Nat.zero_add _).symm, by simpa using hpos⟩
    rw [hchain, Nat.mul_succ] at hpool
    obtain ⟨chain2, hrun, hzero⟩ := @cloneLoop_spec bufsize { iob2 with ioPktlen := iob1.ioPktlen } _
      pool hbuf _ 0 0 _ hleft hempty (.inr hbuf) (Nat.lt_succ_self _) (by omega)
    rw [if_neg (mt hleft.eq_zero_iff.mp (cons_ne_nil _ _))]
    exact ⟨chain2, hrun, flatMap_eq_nil_iff.mpr fun b hb => by rw [bytes, hzero b hb, take_zero]⟩

/-- **Cloning.** No chain is duplicated. Where there is no data `iob_clone` reads a `NULL` pointer, and
where there is data it returns a chain of buffers of length zero. -/
theorem clone_never_duplicates (hbuf : 0 < bufsize) {iob1 iob2 : Iob} {rest : List Iob}
    {pool : List (Nat × List UInt8)} (h : WellFormed bufsize (iob1 :: rest)) (hempty : iob2.ioLen = 0)
    (hpool : (payload (iob1 :: rest)).length ≤ bufsize * (pool.length + 1)) :
    (payload (iob1 :: rest) = [] → iobClone bufsize iob1 rest iob2 pool = none) ∧
    (payload (iob1 :: rest) ≠ [] → ∃ chain2,
      iobClone bufsize iob1 rest iob2 pool = some (0, chain2) ∧ payload chain2 = []) ∧
    ¬ ∃ ret chain2, iobClone bufsize iob1 rest iob2 pool = some (ret, chain2) ∧
      payload chain2 = payload (iob1 :: rest) := by
  have hlen := length_payload h.2.2
  have hspec := iobClone_spec hbuf hempty (hlen ▸ hpool)
  simp only [← hlen, length_eq_zero_iff] at hspec
  split_ifs at hspec with hnil
  · simp [hnil, hspec]
  obtain ⟨chain2, hrun, hpay⟩ := hspec
  refine ⟨fun h => absurd h hnil, fun _ => ⟨chain2, hrun, hpay⟩, ?_⟩
  rintro ⟨ret, chain2', hrun', hpay'⟩
  cases hrun.symm.trans hrun'
  exact hnil (hpay'.symm.trans hpay)

theorem clone_never_duplicates_two : ∃ chain2,
    iobClone 2 ⟨0, 2, 0, 3, [1, 2]⟩ [⟨1, 1, 0, 0, [3, 0]⟩] ⟨2, 0, 0, 0, [0, 0]⟩ [(3, [0, 0])]
      = some (0, chain2) ∧ payload chain2 = [] :=
  (@clone_never_duplicates 2 (by decide) ⟨0, 2, 0, 3, [1, 2]⟩ ⟨2, 0, 0, 0, [0, 0]⟩
    [⟨1, 1, 0, 0, [3, 0]⟩] [(3, [0, 0])] (by decide) rfl (by decide)).2.1 (by decide)

/-- The bytes and the length of the packet are in the copy, and the length of the buffer is not. -/
theorem clone_without_length : WellFormed 2 [⟨0, 1, 0, 1, [7, 0]⟩] ∧
    iobClone 2 ⟨0, 1, 0, 1, [7, 0]⟩ [] ⟨1, 0, 0, 0, [0, 0]⟩ []
      = some (0, [⟨1, 0, 0, 1, [7, 0]⟩]) ∧
    ¬ WellFormed 2 [⟨1, 0, 0, 1, [7, 0]⟩] ∧ payload [⟨1, 0, 0, 1, [7, 0]⟩] ≠ [7] := by
  decide

end Nuttx.Mm.Iob

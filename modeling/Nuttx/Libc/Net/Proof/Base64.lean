import Nuttx.Libc.Net.Base64

/-!
# Base64 round trip

What `b64_ntop` stores and where, and that `b64_pton` reads it back with white space anywhere in
between.
-/

open List

namespace Nuttx.Libc.Base64

open WriteLog

theorem digit_table : ∀ k : Fin 64, strchr (digit k) = some k.val ∧
    digit k ≠ 0 ∧ isspace (digit k) = false ∧ digit k ≠ gPad64 := by
  decide +kernel

variable {n : Nat} {bytes : List UInt8} {state : State} {done : Nat} {n : Nat}

theorem split_digit {high low k : Nat} (hlow : low < 2 ^ k) :
    ((high <<< k) + low) >>> k = high ∧ ((high <<< k) + low) &&& (2 ^ k - 1) = low := by
  rw [Nat.shiftLeft_eq, Nat.shiftRight_eq_div_pow, Nat.and_two_pow_sub_one_eq_mod, Nat.mul_comm]
  constructor
  · rw [Nat.mul_add_div (Nat.two_pow_pos k), Nat.div_eq_of_lt hlow, Nat.add_zero]
  · rw [Nat.mul_add_mod, Nat.mod_eq_of_lt hlow]

theorem shiftRight_lt (a : UInt8) {k m : Nat} (h : 2 ^ 8 ≤ m * 2 ^ k) : a.toNat >>> k < m := by
  rw [Nat.shiftRight_eq_div_pow, Nat.div_lt_iff_lt_mul (Nat.two_pow_pos k)]
  exact Nat.lt_of_lt_of_le a.toNat_lt h

theorem byte_joined : ∀ a : UInt8,
    UInt8.ofNat ((a.toNat >>> 2) <<< 2) ||| UInt8.ofNat (a.toNat &&& 0x03) = a ∧
      UInt8.ofNat ((a.toNat >>> 4) <<< 4) ||| UInt8.ofNat (a.toNat &&& 0x0f) = a ∧
      UInt8.ofNat ((a.toNat >>> 6) <<< 6) ||| UInt8.ofNat (a.toNat &&& 0x3f) = a := by
  decide +kernel

theorem and_lt (a : UInt8) {m : Nat} (h : m < n) : a.toNat &&& m < n :=
  Nat.lt_of_le_of_lt Nat.and_le_right h

variable (x : List UInt8)

variable (target : Option (Nat → UInt8))

variable (src : List UInt8)

section Decoder

variable {w targsize : Nat} {memory : Nat → UInt8}

structure Pton.Has (st : Pton) (state : State) (bytes ahead : List UInt8) : Prop where
  state : st.state = state
  target : st.target = bytes.length
  datalen : st.datalen = bytes.length
  holds : Holds st.log (bytes ++ ahead)

theorem ptonLoop_cons (w : Nat) (target : Option (Nat → UInt8)) (targsize : Nat) (ch : UInt8)
    (src : List UInt8) (st : Pton) :
    ptonLoop w target targsize (ch :: src) st =
      if ch = 0 then st.unpadded
      else if isspace ch then ptonLoop w target targsize src st
      else if ch = gPad64 then st.pad target src
      else (((strchr ch).bind fun pos => st.next? w target targsize pos).map fun st =>
        ptonLoop w target targsize src st).getD ⟨-1, st.log⟩ := by
  rw [ptonLoop]
  cases (strchr ch).bind fun pos => st.next? w target targsize pos with
  | none => rfl
  | some st => rfl

variable {st : Pton} {l : UInt8}

theorem ptonLoop_digit_cons {target : Option (Nat → UInt8)} (hn : n < 64) (src : List UInt8) :
    ptonLoop w target targsize (digit n :: src) st =
      ((st.next? w target targsize n).map fun st => ptonLoop w target targsize src st).getD
        ⟨-1, st.log⟩ := by
  obtain ⟨hstrchr, h0, hspace, hpad⟩ := digit_table ⟨n, hn⟩
  rw [ptonLoop_cons, if_neg h0, hspace, if_neg Bool.false_ne_true, if_neg hpad, hstrchr,
    Option.bind_some]

theorem ptonLoop_digit {target : Option (Nat → UInt8)} (hn : n < 64) (src : List UInt8) {st' : Pton}
    (hnext : st.next? w target targsize n = some st') :
    ptonLoop w target targsize (digit n :: src) st = ptonLoop w target targsize src st' := by
  rw [ptonLoop_digit_cons hn, hnext]
  rfl

theorem ptonLoop_pad {target : Option (Nat → UInt8)} (src : List UInt8) :
    ptonLoop w target targsize (gPad64 :: src) st = st.pad target src := by
  rw [ptonLoop_cons, if_neg (by decide), if_neg (by decide), if_pos rfl]

theorem deref_ahead
    (h : st.Has state bytes [l]) (memory : Nat → UInt8) : st.deref memory = l := by
  unfold Pton.deref
  rw [h.target, h.holds, List.getElem?_append_right le_rfl, Nat.sub_self]
  rfl

theorem Pton.Has.datalen_succ {bytes ahead : List UInt8}
    (h : st.Has state bytes ahead) (hsize : bytes.length + 1 < 2 ^ w) :
    (st.datalen + 1) % 2 ^ w = bytes.length + 1 := by
  rw [h.datalen]
  exact Nat.mod_eq_of_lt hsize

theorem Pton.Has.carry
    (h : st.Has state bytes [l]) (hsize : bytes.length + 1 < 2 ^ w) (state' : State)
    (b ahead : UInt8) :
    (⟨state', st.target + 1, (st.datalen + 1) % 2 ^ w,
      st.log ++ [(st.target, b), (st.target + 1, ahead)]⟩ : Pton).Has state' (bytes ++ [b]) [ahead] := by
  have hlen : (bytes ++ [b]).length = bytes.length + 1 := length_append
  have hmore := (h.holds.rewrite b).append_row [ahead]
  rw [hlen, append_assoc] at hmore
  refine ⟨rfl, ?_, ?_, ?_⟩
  · rw [hlen, h.target]
  · rw [hlen, h.datalen_succ hsize]
  · rw [h.target]
    exact hmore

variable (memory) in
theorem next?_zero (h : st.Has .zero bytes []) (hroom : bytes.length < targsize) (pos : Nat) :
    ∃ st', st.next? w (some memory) targsize pos = some st' ∧
      st'.Has .one bytes [UInt8.ofNat (pos <<< 2)] := by
  have hmore := h.holds.append_row [UInt8.ofNat (pos <<< 2)]
  rw [append_nil, ← h.target] at hmore
  refine ⟨{ st with
    state := .one
    log := st.log ++ [(st.target, UInt8.ofNat (pos <<< 2))] }, ?_, rfl, h.target, h.datalen, hmore⟩
  unfold Pton.next?
  rw [h.state]
  exact if_neg (by rw [h.datalen]; omega)

variable (memory) in
theorem next?_one (h : st.Has .one bytes [l])
    (hroom : bytes.length + 1 < targsize) (hsize : targsize < 2 ^ w) (pos : Nat) :
    ∃ st', st.next? w (some memory) targsize pos = some st' ∧
      st'.Has .two (bytes ++ [l ||| UInt8.ofNat (pos >>> 4)])
        [UInt8.ofNat ((pos &&& 0x0f) <<< 4)] := by
  have hsmall : bytes.length + 1 < 2 ^ w := by omega
  refine ⟨_, ?_, h.carry hsmall .two _ _⟩
  unfold Pton.next?
  rw [h.state, ← deref_ahead h memory]
  exact if_neg (by rw [h.datalen_succ hsmall]; omega)

variable (memory) in
theorem next?_two (h : st.Has .two bytes [l])
    (hroom : bytes.length + 1 < targsize) (hsize : targsize < 2 ^ w) (pos : Nat) :
    ∃ st', st.next? w (some memory) targsize pos = some st' ∧
      st'.Has .three (bytes ++ [l ||| UInt8.ofNat (pos >>> 2)])
        [UInt8.ofNat ((pos &&& 0x03) <<< 6)] := by
  have hsmall : bytes.length + 1 < 2 ^ w := by omega
  refine ⟨_, ?_, h.carry hsmall .three _ _⟩
  unfold Pton.next?
  rw [h.state, ← deref_ahead h memory]
  exact if_neg (by rw [h.datalen_succ hsmall]; omega)

variable (memory) in
/-- The room for a byte is asked for with the bits of the byte before, padding or not. -/
theorem ptonLoop_full (hn : n < 64) (h : st.Has state bytes [l]) (hstate : state = .one ∨ state = .two)
    (hfull : bytes.length + 1 = targsize) (hsize : targsize < 2 ^ w) :
    (ptonLoop w (some memory) targsize (digit n :: src) st).ret = -1 := by
  have hlen := h.datalen_succ (hfull.trans_lt hsize)
  have hnone : st.next? w (some memory) targsize n = none := by
    unfold Pton.next?
    rw [h.state]
    rcases hstate with rfl | rfl
    all_goals exact if_pos (hlen.trans hfull).ge
  rw [ptonLoop_digit_cons hn, hnone]
  rfl

variable (memory targsize) in
theorem next?_three (h : st.Has .three bytes [l]) (hsize : bytes.length + 1 < 2 ^ w) (pos : Nat) :
    ∃ st', st.next? w (some memory) targsize pos = some st' ∧
      st'.Has .zero (bytes ++ [l ||| UInt8.ofNat pos]) [] := by
  have hlen : (bytes ++ [l ||| UInt8.ofNat pos]).length = bytes.length + 1 := length_append
  refine ⟨⟨.zero, st.target + 1, (st.datalen + 1) % 2 ^ w,
    st.log ++ [(st.target, l ||| UInt8.ofNat pos)]⟩, ?_, rfl, ?_, ?_, ?_⟩
  · unfold Pton.next?
    rw [h.state, ← deref_ahead h memory]
  · rw [hlen, h.target]
  · rw [hlen, h.datalen_succ hsize]
  · rw [append_nil, h.target]
    exact h.holds.rewrite _

theorem ptonLoop_first {a : UInt8} (hn : n < 64) (hhigh : n >>> 4 = a.toNat &&& 0x03)
    (src : List UInt8) (h : st.Has .zero bytes [])
    (hroom : bytes.length + 1 < targsize) (hsize : targsize < 2 ^ w) :
    ∃ st', st'.Has .two (bytes ++ [a]) [UInt8.ofNat ((n &&& 0x0f) <<< 4)] ∧
      ptonLoop w (some memory) targsize (digit (a.toNat >>> 2) :: digit n :: src) st =
        ptonLoop w (some memory) targsize src st' := by
  have hone : bytes.length < targsize := by omega
  obtain ⟨st1, hnext1, h1⟩ := next?_zero (w := w) memory h hone (a.toNat >>> 2)
  obtain ⟨st2, hnext2, h2⟩ := next?_one memory h1 hroom hsize n
  rw [hhigh, (byte_joined _).1] at h2
  refine ⟨st2, h2, ?_⟩
  rw [ptonLoop_digit (shiftRight_lt a (by decide)) _ hnext1, ptonLoop_digit hn _ hnext2]

theorem ptonLoop_third {b : UInt8} (hn : n < 64) (hhigh : n >>> 2 = b.toNat &&& 0x0f)
    (src : List UInt8) (h : st.Has .two bytes [UInt8.ofNat ((b.toNat >>> 4) <<< 4)])
    (hroom : bytes.length + 1 < targsize) (hsize : targsize < 2 ^ w) :
    ∃ st', st'.Has .three (bytes ++ [b]) [UInt8.ofNat ((n &&& 0x03) <<< 6)] ∧
      ptonLoop w (some memory) targsize (digit n :: src) st =
        ptonLoop w (some memory) targsize src st' := by
  obtain ⟨st1, hnext, h1⟩ := next?_two memory h hroom hsize n
  rw [hhigh, (byte_joined _).2.1] at h1
  exact ⟨st1, h1, ptonLoop_digit hn src hnext⟩

theorem shared_42 (a b : UInt8) :
    let n := ((a.toNat &&& 0x03) <<< 4) + (b.toNat >>> 4)
    n < 64 ∧ n >>> 4 = a.toNat &&& 0x03 ∧ n &&& 0x0f = b.toNat >>> 4 := by
  intro n
  have hlow : b.toNat >>> 4 < 2 ^ 4 := shiftRight_lt b (by decide)
  have hhigh : a.toNat &&& 0x03 < 4 := and_lt a (by decide)
  obtain ⟨hdiv, hmod⟩ := @split_digit (a.toNat &&& 0x03) _ _ hlow
  refine ⟨?_, hdiv, hmod⟩
  omega

theorem shared_24 (b c : UInt8) :
    let n := ((b.toNat &&& 0x0f) <<< 2) + (c.toNat >>> 6)
    n < 64 ∧ n >>> 2 = b.toNat &&& 0x0f ∧ n &&& 0x03 = c.toNat >>> 6 := by
  intro n
  have hlow : c.toNat >>> 6 < 2 ^ 2 := shiftRight_lt c (by decide)
  have hhigh : b.toNat &&& 0x0f < 16 := and_lt b (by decide)
  obtain ⟨hdiv, hmod⟩ := @split_digit (b.toNat &&& 0x0f) _ _ hlow
  refine ⟨?_, hdiv, hmod⟩
  omega

theorem ptonLoop_block (a b c : UInt8) (src : List UInt8)
    (h : st.Has .zero bytes []) (hroom : bytes.length + 3 ≤ targsize) (hsize : targsize < 2 ^ w) :
    ∃ st', st'.Has .zero (bytes ++ [a, b, c]) [] ∧
      ptonLoop w (some memory) targsize (block a b c ++ src) st =
        ptonLoop w (some memory) targsize src st' := by
  obtain ⟨hn1, hhigh1, hlow1⟩ := shared_42 a b
  obtain ⟨hn2, hhigh2, hlow2⟩ := shared_24 b c
  obtain ⟨st1, h1, hrun1⟩ := ptonLoop_first hn1 hhigh1 _ h (by omega) hsize
  rw [hlow1] at h1
  obtain ⟨st2, h2, hrun2⟩ := ptonLoop_third hn2 hhigh2 _ h1
    (by rw [length_append, length_singleton]; omega) hsize
  rw [hlow2] at h2
  obtain ⟨st3, hnext3, h3⟩ := next?_three (w := w) targsize memory h2
    (by simp only [length_append, length_singleton]; omega) (c.toNat &&& 0x3f)
  rw [(byte_joined _).2.2, append_assoc, append_assoc] at h3
  exact ⟨st3, h3, (hrun1.trans hrun2).trans (ptonLoop_digit (and_lt c (by decide)) src hnext3)⟩

def Decoded (out : PtonOut) (bytes : List UInt8) : Prop :=
  out.ret = toInt bytes.length ∧ ∃ ahead : List UInt8, ahead.length ≤ 1 ∧ Holds out.target (bytes ++ ahead)

theorem decoded_unpadded (h : st.Has .zero bytes []) : Decoded st.unpadded bytes := by
  unfold Pton.unpadded
  rw [if_neg (not_not.mpr h.state)]
  refine ⟨?_, [], Nat.zero_le 1, h.holds⟩
  rw [h.datalen]

theorem decoded_padded (h : st.Has state bytes [0]) :
    Decoded (st.padded (some memory) []) bytes := by
  unfold Pton.padded
  have hend : Libc.deref (skipSpace []) = 0 := rfl
  have hbits : ((some memory).map fun memory => st.deref memory).getD 0 = 0 := deref_ahead h memory
  rw [if_neg (not_not.mpr hend), if_neg (not_not.mpr hbits)]
  refine ⟨?_, [0], Nat.le_refl 1, h.holds⟩
  rw [h.datalen]

theorem digit_alone {high k m : Nat} (hhigh : high < m) (hm : m * 2 ^ k = 64) :
    high <<< k < 64 ∧ (high <<< k) >>> k = high ∧ (high <<< k) &&& (2 ^ k - 1) = 0 := by
  obtain ⟨hdiv, hmod⟩ := @split_digit high 0 k (Nat.two_pow_pos k)
  refine ⟨?_, hdiv, hmod⟩
  rw [Nat.shiftLeft_eq, ← hm]
  exact Nat.mul_lt_mul_of_pos_right hhigh (Nat.two_pow_pos k)

theorem alone_4 (a : UInt8) :
    let n := (a.toNat &&& 0x03) <<< 4
    n < 64 ∧ n >>> 4 = a.toNat &&& 0x03 ∧ n &&& 0x0f = 0 :=
  digit_alone (and_lt a (by decide)) (by decide : 4 * 2 ^ 4 = 64)

theorem alone_2 (b : UInt8) :
    let n := (b.toNat &&& 0x0f) <<< 2
    n < 64 ∧ n >>> 2 = b.toNat &&& 0x0f ∧ n &&& 0x03 = 0 :=
  digit_alone (and_lt b (by decide)) (by decide : 16 * 2 ^ 2 = 64)

theorem ptonLoop_block1 (a : UInt8) (h : st.Has .zero bytes [])
    (hroom : bytes.length + 1 < targsize) (hsize : targsize < 2 ^ w) :
    Decoded (ptonLoop w (some memory) targsize (block1 a) st) (bytes ++ [a]) := by
  obtain ⟨hn, hdiv, hzero⟩ := alone_4 a
  obtain ⟨st1, h1, hrun⟩ := ptonLoop_first hn hdiv [gPad64, gPad64] h hroom hsize
  rw [hzero] at h1
  have hpad : ptonLoop w (some memory) targsize [gPad64, gPad64] st1 =
      st1.padded (some memory) [] := by
    rw [ptonLoop_pad, Pton.pad]
    rw [h1.state]
    exact if_neg (not_not.mpr rfl)
  unfold block1
  rw [hrun, hpad]
  exact decoded_padded h1

theorem ptonLoop_block2 (a b : UInt8) (h : st.Has .zero bytes [])
    (hroom : bytes.length + 2 < targsize) (hsize : targsize < 2 ^ w) :
    Decoded (ptonLoop w (some memory) targsize (block2 a b) st) (bytes ++ [a, b]) := by
  obtain ⟨hn1, hhigh1, hlow1⟩ := shared_42 a b
  obtain ⟨hn2, hdiv, hzero⟩ := alone_2 b
  obtain ⟨st1, h1, hrun1⟩ := ptonLoop_first hn1 hhigh1 _ h (by omega) hsize
  rw [hlow1] at h1
  obtain ⟨st2, h2, hrun2⟩ := ptonLoop_third hn2 hdiv [gPad64] h1
    (by rw [length_append, length_singleton]; omega) hsize
  rw [hzero, append_assoc] at h2
  have hpad : ptonLoop w (some memory) targsize [gPad64] st2 = st2.padded (some memory) [] := by
    rw [ptonLoop_pad, Pton.pad]
    rw [h2.state]
  unfold block2
  rw [hrun1, hrun2, hpad]
  exact decoded_padded h2

def encode : List UInt8 → List UInt8
  | a :: b :: c :: x => block a b c ++ encode x
  | [a, b] => block2 a b
  | [a] => block1 a
  | [] => []

theorem threes_induction {motive : List UInt8 → Prop}
    (three : ∀ a b c x, motive x → motive (a :: b :: c :: x)) (two : ∀ a b, motive [a, b])
    (one : ∀ a, motive [a]) (nil : motive []) (x : List UInt8) : motive x := by
  fun_induction encode x with
  | case1 a b c x ih => exact three a b c x ih
  | case2 a b => exact two a b
  | case3 a => exact one a
  | case4 => exact nil

theorem encode_three (a b c : UInt8) (x : List UInt8) :
    encode (a :: b :: c :: x) = block a b c ++ encode x := rfl

variable (memory) in
theorem ptonLoop_encode (h : st.Has .zero bytes []) (hroom : bytes.length + x.length ≤ targsize)
    (hsize : targsize < 2 ^ w) :
    (3 ∣ x.length ∨ bytes.length + x.length < targsize →
      Decoded (ptonLoop w (some memory) targsize (encode x) st) (bytes ++ x)) ∧
    (¬ 3 ∣ x.length → bytes.length + x.length = targsize →
      (ptonLoop w (some memory) targsize (encode x) st).ret = -1) := by
  induction x using threes_induction generalizing st bytes with
  | three a b c x ih =>
    simp only [length_cons] at hroom ⊢
    obtain ⟨st', h', hrun⟩ := ptonLoop_block a b c (encode x) h (by omega) hsize
    have hlen : (bytes ++ [a, b, c]).length = bytes.length + 3 := length_append
    obtain ⟨hok, hfull⟩ := ih h' (by omega)
    rw [append_assoc] at hok
    rw [encode_three, hrun]
    exact ⟨fun hlast => hok (by omega), fun hlast hall => hfull (by omega) (by omega)⟩
  | two a b =>
    refine ⟨fun hlast => ptonLoop_block2 a b h (hlast.resolve_left (by decide : ¬ 3 ∣ 2)) hsize,
      fun _ hfull => ?_⟩
    obtain ⟨hn, hhigh, -⟩ := shared_42 a b
    obtain ⟨st1, h1, hrun⟩ := ptonLoop_first hn hhigh _ h (hfull ▸ Nat.lt_succ_self _) hsize
    rw [encode, block2, hrun]
    exact ptonLoop_full _ memory (alone_2 b).1 h1 (.inr rfl) (by rw [length_append]; exact hfull) hsize
  | one a =>
    refine ⟨fun hlast => ptonLoop_block1 a h (hlast.resolve_left (by decide : ¬ 3 ∣ 1)) hsize,
      fun _ hfull => ?_⟩
    obtain ⟨st1, hnext, h1⟩ := next?_zero (w := w) memory h hroom (a.toNat >>> 2)
    rw [encode, block1, ptonLoop_digit (shiftRight_lt a (by decide)) _ hnext]
    exact ptonLoop_full _ memory (alone_4 a).1 h1 (.inl rfl) hfull hsize
  | nil =>
    rw [append_nil]
    exact ⟨fun _ => decoded_unpadded h, fun hlast => absurd (Nat.dvd_zero 3) hlast⟩

/-- Without a target only the last byte of a group of three is counted. -/
theorem ptonLoop_query {d p : Nat} {log : List (Nat × UInt8)} :
    ∃ k ≤ d + x.length / 3,
      (ptonLoop w none targsize (encode x) ⟨.zero, p, d, log⟩).ret = toInt k := by
  induction x using threes_induction generalizing d with
  | three a b c x ih =>
    obtain ⟨k, hk, hret⟩ := @ih ((d + 1) % 2 ^ w)
    have hmod := Nat.mod_le (d + 1) (2 ^ w)
    refine ⟨k, by simp only [length_cons]; omega, ?_⟩
    rw [encode_three, block, cons_append, cons_append, cons_append, cons_append, nil_append,
      ptonLoop_digit (shiftRight_lt a (by decide)) _ rfl, ptonLoop_digit (shared_42 a b).1 _ rfl,
      ptonLoop_digit (shared_24 b c).1 _ rfl, ptonLoop_digit (and_lt c (by decide)) _ rfl]
    exact hret
  | two a b =>
    refine ⟨d, Nat.le_add_right _ _, ?_⟩
    rw [encode, block2, ptonLoop_digit (shiftRight_lt a (by decide)) _ rfl,
      ptonLoop_digit (shared_42 a b).1 _ rfl, ptonLoop_digit (alone_2 b).1 _ rfl, ptonLoop_pad]
    rfl
  | one a =>
    refine ⟨d, Nat.le_add_right _ _, ?_⟩
    rw [encode, block1, ptonLoop_digit (shiftRight_lt a (by decide)) _ rfl,
      ptonLoop_digit (alone_4 a).1 _ rfl, ptonLoop_pad]
    rfl
  | nil => exact ⟨d, Nat.le_add_right _ _, rfl⟩

def squeeze (text : List UInt8) : List UInt8 := text.filter fun c => ! isspace c

theorem skipSpace_cases :
    (skipSpace src = [] ∧ squeeze src = []) ∨
      ∃ c rest, skipSpace src = c :: rest ∧ squeeze src = c :: squeeze rest ∧ isspace c = false := by
  unfold skipSpace squeeze
  induction src with
  | nil => exact .inl ⟨rfl, rfl⟩
  | cons c src ih =>
    cases hc : isspace c with
    | true =>
      rw [dropWhile_cons_of_pos hc, filter_cons_of_neg (by simp [hc])]
      exact ih
    | false =>
      rw [dropWhile_cons_of_neg (by simp [hc]), filter_cons_of_pos (by simp [hc])]
      exact .inr ⟨c, src, rfl, rfl, hc⟩

theorem skipSpace_squeeze : skipSpace (squeeze src) = squeeze src := by
  rcases skipSpace_cases src with ⟨_, hnil⟩ | ⟨c, rest, _, hcons, hc⟩
  · rw [hnil]
    rfl
  · rw [hcons]
    exact dropWhile_cons_of_neg (by simp [hc])

theorem padded_squeeze (st : Pton) : st.padded target (squeeze src) = st.padded target src := by
  have hfirst : Libc.deref (squeeze src) = Libc.deref (skipSpace src) := by
    rcases skipSpace_cases src with ⟨hskip, hnil⟩ | ⟨c, rest, hskip, hcons, _⟩
    · rw [hskip, hnil]
    · rw [hskip, hcons]
      rfl
  unfold Pton.padded
  rw [skipSpace_squeeze, hfirst]

theorem pad_squeeze (st : Pton) : st.pad target (squeeze src) = st.pad target src := by
  unfold Pton.pad
  cases st.state with
  | zero => rfl
  | one => rfl
  | two =>
    rw [skipSpace_squeeze]
    rcases skipSpace_cases src with ⟨hskip, hnil⟩ | ⟨c, rest, hskip, hcons, _⟩
    · rw [hskip, hnil]
    · rw [hskip, hcons, tail_cons, tail_cons, padded_squeeze]
      rfl
  | three => exact padded_squeeze target src st

theorem ptonLoop_squeeze (text : List UInt8) (st : Pton) :
    ptonLoop w target targsize (squeeze text) st = ptonLoop w target targsize text st := by
  induction text generalizing st with
  | nil => rfl
  | cons c text ih =>
    have h0 : isspace 0 = false := by decide
    cases hc : isspace c with
    | true =>
      have hskip : squeeze (c :: text) = squeeze text := filter_cons_of_neg (by simp [hc])
      have hne : c ≠ 0 := fun heq => by rw [heq, h0] at hc; cases hc
      rw [hskip, ih, ptonLoop_cons, if_neg hne, hc, if_pos rfl]
    | false =>
      have hkeep : squeeze (c :: text) = c :: squeeze text :=
        filter_cons_of_pos (by simp [hc])
      have hrest : (fun st => ptonLoop w target targsize (squeeze text) st) =
          fun st => ptonLoop w target targsize text st := funext ih
      rw [hkeep, ptonLoop_cons, ptonLoop_cons, hc, pad_squeeze, ih, hrest]

end Decoder

section Encoder

variable {w targsize : Nat}

theorem length_encode : (encode x).length = 4 * ((x.length + 2) / 3) := by
  induction x using threes_induction with
  | three a b c x ih =>
    rw [encode_three, length_append, ih]
    have hblock : (block a b c).length = 4 := rfl
    simp only [length_cons]
    omega
  | two a b => exact (by decide : 4 = 4 * ((2 + 2) / 3))
  | one a => exact (by decide : 4 = 4 * ((1 + 2) / 3))
  | nil => rfl

theorem zero_notMem_encode : 0 ∉ encode x := by
  have hdigit : ∀ {n : Nat}, n < 64 → ¬ 0 = digit n := fun hn heq => (digit_table ⟨_, hn⟩).2.1 heq.symm
  have hpad : ¬ 0 = gPad64 := by decide
  have hfirst : ∀ a : UInt8, a.toNat >>> 2 < 64 := fun a => shiftRight_lt a (by decide)
  induction x using threes_induction with
  | three a b c x ih =>
    simp only [encode_three, block, cons_append, nil_append, mem_cons, not_or]
    exact ⟨hdigit (hfirst a), hdigit (shared_42 a b).1, hdigit (shared_24 b c).1,
      hdigit (and_lt c (by decide)), ih⟩
  | two a b =>
    have hlast := (digit_alone (k := 2) (and_lt b (by decide) : b.toNat &&& 0x0f < 16) (by decide)).1
    simp only [encode, block2, mem_cons, not_or]
    exact ⟨hdigit (hfirst a), hdigit (shared_42 a b).1, hdigit hlast, hpad, not_mem_nil⟩
  | one a =>
    have hlast := (digit_alone (k := 4) (and_lt a (by decide) : a.toNat &&& 0x03 < 4) (by decide)).1
    simp only [encode, block1, mem_cons, not_or]
    exact ⟨hdigit (hfirst a), hdigit hlast, hpad, hpad, not_mem_nil⟩
  | nil => exact not_mem_nil

variable {log : List (Nat × UInt8)}

theorem ntopLast_ok {chars done : List UInt8} (hchars : chars.length = 4)
    (h : Holds log done) (hroom : done.length + 4 < targsize) (hsize : targsize < 2 ^ w) :
    let out := ntopLast w targsize chars done.length done.length log
    out.ret = toInt (done ++ chars).length ∧ Holds out.target (done ++ chars ++ [0]) := by
  have hmod : (done.length + 4) % 2 ^ w = done.length + 4 := Nat.mod_eq_of_lt (by omega)
  have hlen : (done ++ chars).length = done.length + 4 := by rw [length_append, hchars]
  have hholds := (h.append_row chars).append_row [0]
  unfold ntopLast
  rw [hmod, if_neg (by omega), hlen]
  rw [hlen] at hholds
  exact ⟨rfl, hholds⟩

theorem ntopLoop_three (w targsize : Nat) (a b c : UInt8) (src : List UInt8) (target datalen : Nat)
    (log : List (Nat × UInt8)) :
    ntopLoop w targsize (a :: b :: c :: src) target datalen log =
      if (datalen + 4) % 2 ^ w ≥ targsize then ⟨-1, log⟩
      else ntopLoop w targsize src (target + 4) ((datalen + 4) % 2 ^ w) (log ++ row target (block a b c)) := rfl

theorem ntopLoop_ok {done : List UInt8}
    (h : Holds log done) (hroom : done.length + (encode x).length < targsize)
    (hsize : targsize < 2 ^ w) :
    let out := ntopLoop w targsize x done.length done.length log
    out.ret = toInt (done ++ encode x).length ∧ Holds out.target (done ++ encode x ++ [0]) := by
  induction x using threes_induction generalizing done log with
  | three a b c x ih =>
    rw [encode_three] at hroom ⊢
    rw [length_append] at hroom
    have hblock : (block a b c).length = 4 := rfl
    have hmod : (done.length + 4) % 2 ^ w = done.length + 4 := Nat.mod_eq_of_lt (by omega)
    have hlen : (done ++ block a b c).length = done.length + 4 := length_append
    have hrest := ih (h.append_row (block a b c)) (by rw [hlen]; omega)
    rw [hlen, append_assoc] at hrest
    rw [ntopLoop_three]
    rw [hmod, if_neg (by omega)]
    exact hrest
  | two a b | one a => exact ntopLast_ok rfl h hroom hsize
  | nil =>
    rw [encode, append_nil]
    exact ⟨rfl, h.append_row [0]⟩

theorem ntopLast_refused (chars : List UInt8)
    (hfull : targsize ≤ done + 4) (hwrap : done + 4 < 2 ^ w) :
    ntopLast w targsize chars done done log = ⟨-1, log⟩ := by
  unfold ntopLast
  rw [Nat.mod_eq_of_lt hwrap]
  exact if_pos hfull

theorem ntopLoop_refused (hw : 3 ≤ w) (x : List UInt8) {done : List UInt8}
    (h : Holds log done) (hx : x ≠ []) (hdone : done.length = 0 ∨ done.length < targsize)
    (hfull : targsize ≤ done.length + (encode x).length)
    (hwrap : done.length + (encode x).length < 2 ^ w ∨ targsize + 4 ≤ 2 ^ w) :
    let out := ntopLoop w targsize x done.length done.length log
    out.ret = -1 ∧ Within targsize out.target := by
  have hpow : 2 ^ 3 ≤ 2 ^ w := Nat.pow_le_pow_right (by decide) hw
  induction x using threes_induction generalizing done log with
  | three a b c x ih =>
    have hblock : (block a b c).length = 4 := rfl
    rw [encode_three, length_append] at hfull hwrap
    have hmod : (done.length + 4) % 2 ^ w = done.length + 4 := Nat.mod_eq_of_lt (by omega)
    rw [ntopLoop_three]
    rw [hmod]
    by_cases hstop : done.length + 4 ≥ targsize
    · rw [if_pos hstop]
      exact ⟨rfl, h.within.mono (by omega)⟩
    rw [if_neg hstop]
    have hlen : (done ++ block a b c).length = done.length + 4 := length_append
    have hmore : x ≠ [] := by
      rintro rfl
      have hnil : (encode []).length = 0 := rfl
      omega
    have hrest := ih (h.append_row (block a b c)) hmore (by omega) (by omega) (by omega)
    rw [hlen] at hrest
    exact hrest
  | two a b =>
    have hlast : ntopLoop w targsize [a, b] done.length done.length log =
      ntopLast w targsize (block2 a b) done.length done.length log := rfl
    have hblock : (encode [a, b]).length = 4 := rfl
    rw [hlast, ntopLast_refused _ (by omega) (by omega)]
    exact ⟨rfl, h.within.mono (by omega)⟩
  | one a =>
    have hlast : ntopLoop w targsize [a] done.length done.length log =
      ntopLast w targsize (block1 a) done.length done.length log := rfl
    have hblock : (encode [a]).length = 4 := rfl
    rw [hlast, ntopLast_refused _ (by omega) (by omega)]
    exact ⟨rfl, h.within.mono (by omega)⟩
  | nil => exact absurd rfl hx

theorem mem_ntopLoop {v : Nat × UInt8} (target datalen : Nat) (h : v ∈ log) :
    v ∈ (ntopLoop w targsize x target datalen log).target := by
  fun_induction ntopLoop w targsize x target datalen log with
  | case1 => exact h
  | case2 a b c x target datalen log datalen' hstop ih => exact ih (mem_append_left _ h)
  | case3 | case4 =>
    rw [ntopLast]
    split_ifs
    exacts [h, mem_append_left _ (mem_append_left _ h)]
  | case5 => exact mem_append_left _ h

theorem not_within_block (hsize : targsize < 2 ^ w) {chars : List UInt8} (hchars : chars.length = 4)
    (hend : done + 4 = 2 ^ w)
    (hmem : ∀ v ∈ row done chars, v ∈ log) : ¬ Within targsize log := by
  intro hwithin
  obtain ⟨c0, c1, c2, c3, rfl⟩ := length_eq_four.mp hchars
  have hlast : done + 3 < targsize := hwithin (done + 3, c3) (hmem _ (by simp [row]))
  omega

theorem ntopLast_wraps (hsize : targsize < 2 ^ w) (hpos : 0 < targsize) {chars : List UInt8}
    (hchars : chars.length = 4) (hend : done + 4 = 2 ^ w) (log : List (Nat × UInt8)) :
    ¬ Within targsize (ntopLast w targsize chars done done log).target := by
  refine not_within_block hsize hchars hend fun v hv => ?_
  unfold ntopLast
  rw [hend, Nat.mod_self, if_neg (by omega)]
  exact mem_append_left _ (mem_append_right _ hv)

theorem ntopLoop_wraps (hw : 3 ≤ w) (hsize : targsize < 2 ^ w) (hlarge : 2 ^ w < targsize + 4)
    (x : List UInt8) (log : List (Nat × UInt8)) (hblocks : 4 ∣ done) (hdone : done < 2 ^ w)
    (htext : 2 ^ w ≤ done + (encode x).length) :
    ¬ Within targsize (ntopLoop w targsize x done done log).target := by
  obtain ⟨k, hk⟩ : ∃ k, 2 ^ w = 8 * k :=
    ⟨2 ^ (w - 3), by rw [show 8 = 2 ^ 3 by decide, ← Nat.pow_add, Nat.add_sub_cancel' hw]⟩
  induction x using threes_induction generalizing done log with
  | three a b c x ih =>
    have hblock : (block a b c).length = 4 := rfl
    rw [encode_three, length_append] at htext
    rw [ntopLoop_three]
    by_cases hend : done + 4 = 2 ^ w
    · rw [hend, Nat.mod_self, if_neg (by omega)]
      exact not_within_block hsize hblock hend
        fun v hv => mem_ntopLoop x _ _ (mem_append_right _ hv)
    · rw [Nat.mod_eq_of_lt (by omega), if_neg (by omega)]
      exact ih _ (by omega) (by omega) (by omega)
  | two a b =>
    have hblock : (encode [a, b]).length = 4 := rfl
    exact ntopLast_wraps hsize (by omega) hblock (by omega) log
  | one a =>
    have hblock : (encode [a]).length = 4 := rfl
    exact ntopLast_wraps hsize (by omega) hblock (by omega) log
  | nil => exact absurd (hdone.trans_le htext) (lt_irrefl _)

end Encoder

inductive Spaced : List UInt8 → List UInt8 → Prop where
  | nil : Spaced [] []
  | keep {s text : List UInt8} (c : UInt8) : Spaced s text → Spaced (c :: s) (c :: text)
  | space {s text : List UInt8} {c : UInt8} : isspace c = true → Spaced s text → Spaced s (c :: text)

theorem Spaced.squeeze_eq {s text : List UInt8} (h : Spaced s text) : squeeze text = squeeze s := by
  induction h with
  | nil => rfl
  | keep c _ ih =>
    unfold squeeze at ih ⊢
    rw [filter_cons, filter_cons, ih]
  | space hc _ ih =>
    rw [← ih]
    exact filter_cons_of_neg (by simp [hc])

theorem toInt_eq_iff : toInt n = n ↔ n < 2 ^ 31 := by
  unfold toInt
  rw [Int.bmod_eq_iff (by decide)]
  omega

theorem toInt_eq_third_iff {m : Nat} (hm : m ≤ n / 3) : toInt m = n ↔ n = 0 := by
  unfold toInt
  rw [Int.bmod_eq_iff (by decide)]
  omega

def ReadBack (w : Nat) (x text : List UInt8) : Prop :=
  ∀ (memory : Nat → UInt8) (targsize : Nat), x.length < targsize → targsize < 2 ^ w →
    let out := b64Pton w text (some memory) targsize
    out.ret = x.length ∧ (∀ i < x.length, last? out.target i = x[i]?) ∧ Within targsize out.target

/-- What the two functions are for: with room for the text of `x` and its terminator, the encoder
stores them, and the decoder reads `x` from the text, whatever white space is put into it; without,
the encoder returns -1. -/
def RoundTrip (w : Nat) (x : List UInt8) (targsize : Nat) : Prop :=
  let out := b64Ntop w x targsize
  let size := 4 * ((x.length + 2) / 3)
  (size < targsize → out.ret = size ∧ ∃ s : CString, s.bytes.length = size ∧
    (∀ i ≤ size, last? out.target i = (s.bytes ++ [0])[i]?) ∧
      ∀ text, Spaced s.bytes text → ReadBack w x text) ∧
  (targsize ≤ size → out.ret = -1) ∧ Within targsize out.target

theorem readBack_encode {w : Nat} {x text : List UInt8} (h : Spaced (encode x) text)
    (hx : x.length < 2 ^ 31) : ReadBack w x text := by
  intro memory targsize hroom hsize
  have hstart : (⟨.zero, 0, 0, []⟩ : Pton).Has .zero [] [] := ⟨rfl, rfl, rfl, holds_nil⟩
  obtain ⟨hret, ahead, hahead, hholds⟩ : Decoded
      (ptonLoop w (some memory) targsize (encode x) ⟨.zero, 0, 0, []⟩) ([] ++ x) :=
    (ptonLoop_encode x memory hstart (by rw [length_nil]; omega) hsize).1
      (.inr (by rw [length_nil]; omega))
  have htext : b64Pton w text (some memory) targsize =
      ptonLoop w (some memory) targsize (encode x) ⟨.zero, 0, 0, []⟩ := by
    unfold b64Pton
    rw [← ptonLoop_squeeze, h.squeeze_eq, ptonLoop_squeeze]
  rw [nil_append] at hret hholds
  rw [htext]
  refine ⟨hret.trans (toInt_eq_iff.mpr hx), fun i hi => ?_, hholds.within.mono ?_⟩
  · rw [hholds, List.getElem?_append_left hi]
  · rw [length_append]
    omega

/-- **Round trip.** Exactly when: there is at least room for the terminator, the size of a text that
is stored is an `int`, and it does not wrap before the target is full. -/
theorem roundTrip_iff {w : Nat} (hw : 3 ≤ w) (x : List UInt8) {targsize : Nat}
    (hsize : targsize < 2 ^ w) :
    RoundTrip w x targsize ↔
      (x ≠ [] ∨ targsize ≠ 0) ∧
      (4 * ((x.length + 2) / 3) < targsize → 4 * ((x.length + 2) / 3) < 2 ^ 31) ∧
      (4 * ((x.length + 2) / 3) < 2 ^ w ∨ targsize + 4 ≤ 2 ^ w) := by
  have hlen := length_encode x
  unfold RoundTrip
  rw [← hlen]
  constructor
  · rintro ⟨hok, hrefuse, hwithin⟩
    refine ⟨?_, fun hroom => ?_, ?_⟩
    · by_contra hnot
      rw [not_or, not_not, not_not] at hnot
      obtain ⟨rfl, rfl⟩ := hnot
      exact absurd (hwithin (0, 0) mem_cons_self) (Nat.lt_irrefl 0)
    · have hret := (ntopLoop_ok x holds_nil (by rw [length_nil, Nat.zero_add]; exact hroom) hsize).1
      exact toInt_eq_iff.mp (hret.symm.trans (hok hroom).1)
    · by_contra hnot
      exact ntopLoop_wraps hw hsize (by omega) x [] ⟨0, rfl⟩ (Nat.two_pow_pos w) (by omega) hwithin
  rintro ⟨hempty, hint, hwrap⟩
  by_cases hroom : (encode x).length < targsize
  · obtain ⟨hret, hholds⟩ :=
      ntopLoop_ok x holds_nil (by rw [length_nil, Nat.zero_add]; exact hroom) hsize
    rw [nil_append] at hret hholds
    have hx : x.length < 2 ^ 31 := by
      omega
    refine ⟨fun _ => ⟨hret.trans (toInt_eq_iff.mpr (hint hroom)), ⟨encode x, zero_notMem_encode x⟩, rfl,
      fun i _ => hholds i, fun text htext => readBack_encode htext hx⟩,
      fun hfull => absurd hroom hfull.not_gt, hholds.within.mono ?_⟩
    rw [length_append]
    exact hroom
  · have hfull : targsize ≤ (encode x).length := not_lt.mp hroom
    have hx : x ≠ [] := by
      rintro rfl
      have hnil : (encode []).length = 0 := rfl
      rcases hempty with hne | hne
      · exact hne rfl
      · omega
    have hfull' : targsize ≤ ([] : List UInt8).length + (encode x).length :=
      hfull.trans (Nat.zero_add _).ge
    obtain ⟨hret, hwithin⟩ := ntopLoop_refused hw x holds_nil hx (.inl rfl) hfull'
      (by rw [length_nil, Nat.zero_add]; exact hwrap)
    exact ⟨fun hlt => absurd hlt hroom, fun _ => hret, hwithin⟩

theorem roundTrip_iff_eight :
    RoundTrip 32 [1, 2, 3, 4, 5, 6, 7, 8] 13 ↔
      (([1, 2, 3, 4, 5, 6, 7, 8] : List UInt8) ≠ [] ∨ 13 ≠ 0) ∧
      (4 * ((8 + 2) / 3) < 13 → 4 * ((8 + 2) / 3) < 2 ^ 31) ∧
      (4 * ((8 + 2) / 3) < 2 ^ 32 ∨ 13 + 4 ≤ 2 ^ 32) :=
  roundTrip_iff (by decide) _ (by decide)

theorem roundTrip_empty : ¬ RoundTrip 32 [] 0 := by
  rintro ⟨_, _, hwithin⟩
  exact absurd (hwithin (0, 0) mem_cons_self) (Nat.lt_irrefl 0)

/-- **The length of what is decoded.** A target of exactly the size holds whole groups of three
only, and the size query is right about nothing but the empty text. -/
theorem decoded_length_iff {w : Nat} (x : List UInt8) (memory : Nat → UInt8) {targsize : Nat}
    (hroom : x.length ≤ targsize) (hsize : targsize < 2 ^ w) :
    ((b64Pton w (encode x) (some memory) targsize).ret = x.length ↔
      x.length < 2 ^ 31 ∧ (3 ∣ x.length ∨ x.length < targsize)) ∧
    ((b64Pton w (encode x) none 0).ret = x.length ↔ x = []) := by
  have hstart : (⟨.zero, 0, 0, []⟩ : Pton).Has .zero [] [] := ⟨rfl, rfl, rfl, holds_nil⟩
  have hrun := ptonLoop_encode x memory hstart (by rw [length_nil]; omega) hsize
  rw [length_nil, Nat.zero_add, nil_append] at hrun
  constructor
  · by_cases hlast : 3 ∣ x.length ∨ x.length < targsize
    · rw [b64Pton, (hrun.1 hlast).1, toInt_eq_iff]
      exact (and_iff_left hlast).symm
    · have hret := hrun.2 (fun h => hlast (.inl h)) (by omega)
      rw [b64Pton, hret]
      exact iff_of_false (by omega) fun h => hlast h.2
  · obtain ⟨k, hk, hret⟩ := ptonLoop_query x
    rw [Nat.zero_add] at hk
    rw [b64Pton, hret, toInt_eq_third_iff hk, length_eq_zero_iff]

theorem decoded_length_iff_three :
    ((b64Pton 32 (encode [1, 2, 3]) (some fun _ => 0) 3).ret = 3 ↔ 3 < 2 ^ 31 ∧ (3 ∣ 3 ∨ 3 < 3)) ∧
      ((b64Pton 32 (encode [1, 2, 3]) none 0).ret = 3 ↔ ([1, 2, 3] : List UInt8) = []) :=
  decoded_length_iff [1, 2, 3] _ (by decide) (by decide)

theorem decoded_length_one : (b64Pton 32 (encode [1]) (some fun _ => 0) 1).ret = -1 := by
  decide

end Nuttx.Libc.Base64

import Mathlib.Tactic.Linarith
import Nuttx.Libc.Stdlib.Numeral
import Nuttx.Libc.Stdlib.Strtol

/-!
# What `strtoul` reads behind the sign

The digits that the grammar asks for, except in three cases.
-/

open List Option

namespace Nuttx.Libc

variable {base accum : Nat} {r : List UInt8} {c : UInt8}

theorem libIsbasedigit_eq (hbase : base ≤ 36) (c : UInt8) :
    libIsbasedigit c base = if isDigitIn base c then digitValue c else none := by
  have h0 : '0'.toUInt8.toNat = 48 ∧ '9'.toUInt8.toNat = 57 := by decide
  have ha : 'a'.toUInt8.toNat = 97 ∧ 'z'.toUInt8.toNat = 122 := by decide
  have hA : 'A'.toUInt8.toNat = 65 ∧ 'Z'.toUInt8.toNat = 90 := by decide
  have hchar : '0'.toNat = 48 ∧ '9'.toNat = 57 ∧ 'a'.toNat = 97 ∧ 'A'.toNat = 65 := by decide
  simp only [libIsbasedigit, isDigitIn, digitValue, UInt8.le_iff_toNat_le, h0, ha, hA, hchar]
  generalize c.toNat = n
  clear h0 ha hA hchar
  grind

theorem isDigitIn_iff : isDigitIn base c = true ↔ ∃ v, digitValue c = some v ∧ v < base := by
  unfold isDigitIn
  cases digitValue c with
  | none => simp
  | some v => simp

theorem overflow_iff {value : Nat} (hbase : 0 < base) (hvalue : value < base) :
    (accum > ULONG_MAX / base ∨ (accum = ULONG_MAX / base ∧ value > ULONG_MAX % base)) ↔
      ULONG_MAX < accum * base + value := by
  have hdiv : base * (ULONG_MAX / base) + ULONG_MAX % base = ULONG_MAX := Nat.div_add_mod _ _
  have hmod : ULONG_MAX % base < base := Nat.mod_lt _ hbase
  generalize ULONG_MAX / base = q at *
  rcases Nat.lt_trichotomy accum q with hlt | heq | hgt
  · have hle : (accum + 1) * base ≤ q * base := Nat.mul_le_mul_right base hlt
    refine iff_of_false (by omega) ?_
    rw [Nat.add_mul, Nat.one_mul] at hle
    rw [Nat.mul_comm q base] at hle
    omega
  · subst heq
    rw [Nat.mul_comm accum base]
    omega
  · have hle : (q + 1) * base ≤ accum * base := Nat.mul_le_mul_right base hgt
    refine iff_of_true (.inl hgt) ?_
    rw [Nat.add_mul, Nat.one_mul, Nat.mul_comm q base] at hle
    omega

theorem valueFrom_cons (base acc : Nat) (c : UInt8) (ds : List UInt8) :
    valueFrom base acc (c :: ds) = valueFrom base (acc * base + (digitValue c).getD 0) ds := rfl

theorem le_valueFrom (hbase : 0 < base) (acc : Nat) (ds : List UInt8) :
    acc ≤ valueFrom base acc ds := by
  induction ds generalizing acc with
  | nil => exact le_rfl
  | cons c ds ih =>
    rw [valueFrom_cons]
    calc acc ≤ acc * base := Nat.le_mul_of_pos_right acc hbase
      _ ≤ acc * base + (digitValue c).getD 0 := Nat.le_add_right _ _
      _ ≤ _ := ih _

theorem accumulate_spec (hpos : 0 < base) (hbase : base ≤ 36) (r : List UInt8)
    (haccum : accum ≤ ULONG_MAX) :
    (valueFrom base accum (r.takeWhile (isDigitIn base)) ≤ ULONG_MAX →
      accumulate base accum r = ⟨valueFrom base accum (r.takeWhile (isDigitIn base)),
        r.dropWhile (isDigitIn base), none⟩) ∧
    (ULONG_MAX < valueFrom base accum (r.takeWhile (isDigitIn base)) →
      ∃ q, accumulate base accum r = ⟨ULONG_MAX, q, some .ERANGE⟩ ∧ q <:+ r ∧
        (r.dropWhile (isDigitIn base)).length < q.length) := by
  induction r generalizing accum with
  | nil =>
    refine ⟨fun _ => rfl, fun hover => ?_⟩
    simp only [takeWhile_nil, valueFrom, foldl_nil] at hover
    omega
  | cons c r ih =>
    rw [accumulate, libIsbasedigit_eq hbase]
    cases hdigit : isDigitIn base c with
    | false =>
      have htake : (c :: r).takeWhile (isDigitIn base) = [] :=
        takeWhile_cons_of_neg (by simp [hdigit])
      have hdrop : (c :: r).dropWhile (isDigitIn base) = c :: r :=
        dropWhile_cons_of_neg (by simp [hdigit])
      rw [htake, hdrop]
      refine ⟨fun _ => rfl, fun hover => ?_⟩
      simp only [valueFrom, foldl_nil] at hover
      omega
    | true =>
      obtain ⟨v, hv, hlt⟩ := isDigitIn_iff.mp hdigit
      rw [takeWhile_cons_of_pos hdigit, dropWhile_cons_of_pos hdigit, valueFrom_cons, hv,
        getD_some, if_pos rfl]
      dsimp only
      by_cases hover : ULONG_MAX < accum * base + v
      · rw [if_pos ((overflow_iff hpos hlt).mpr hover)]
        have hle := le_valueFrom hpos (accum * base + v) (r.takeWhile (isDigitIn base))
        refine ⟨fun h => absurd h (by omega), fun _ => ⟨_, rfl, suffix_refl _, ?_⟩⟩
        exact Nat.lt_succ_of_le (dropWhile_sublist _).length_le
      rw [if_neg (fun h => hover ((overflow_iff hpos hlt).mp h))]
      have hsmall : (accum * base + v) % 2 ^ 32 = accum * base + v :=
        Nat.mod_eq_of_lt (by unfold ULONG_MAX at hover; omega)
      rw [hsmall]
      obtain ⟨hfits, hmore⟩ := ih (Nat.le_of_not_lt hover)
      refine ⟨hfits, fun h => ?_⟩
      obtain ⟨q, hq, hsuffix, hlen⟩ := hmore h
      exact ⟨q, hq, hsuffix.trans (suffix_cons c r), hlen⟩

def scan (base : Int) (r : List UInt8) : Conversion Nat :=
  match libCheckbase base r with
  | none => ⟨0, r, some .EINVAL⟩
  | some (b, r') => accumulate b 0 r'

theorem accumulate_suffix (base accum : Nat) (r : List UInt8) :
    (accumulate base accum r).endptr <:+ r := by
  induction r generalizing accum with
  | nil => exact suffix_refl _
  | cons c r ih =>
    rw [accumulate]
    cases libIsbasedigit c base with
    | none => exact suffix_refl _
    | some value =>
      dsimp only
      split_ifs
      · exact suffix_refl _
      · exact (ih _).trans (suffix_cons c r)

theorem libCheckbase_suffix {base : Int} {r' : List UInt8} {b : Nat}
    (h : libCheckbase base r = some (b, r')) : r' <:+ r := by
  unfold libCheckbase at h
  dsimp only at h
  split_ifs at h
  all_goals
    cases h
    first
    | exact suffix_refl _
    | exact tail_suffix _
    | exact (tail_suffix _).trans (tail_suffix _)

theorem scan_suffix (base : Int) (r : List UInt8) : (scan base r).endptr <:+ r := by
  unfold scan
  cases hcheck : libCheckbase base r with
  | none => exact suffix_refl r
  | some out => exact (accumulate_suffix out.1 0 out.2).trans (libCheckbase_suffix hcheck)

theorem accumulate_le (base : Nat) (r : List UInt8) (h : accum ≤ ULONG_MAX) :
    (accumulate base accum r).value ≤ ULONG_MAX := by
  induction r generalizing accum with
  | nil => exact h
  | cons c r ih =>
    rw [accumulate]
    cases libIsbasedigit c base with
    | none => exact h
    | some value =>
      dsimp only
      split_ifs
      · exact le_rfl
      · exact ih (Nat.le_of_lt_succ (Nat.mod_lt _ (by decide)))

theorem scan_value_le (base : Int) (r : List UInt8) : (scan base r).value ≤ ULONG_MAX := by
  unfold scan
  cases libCheckbase base r with
  | none => exact Nat.zero_le _
  | some out => exact accumulate_le out.1 out.2 (Nat.zero_le _)

def BaseOk (base : Nat) : Prop := base = 0 ∨ (2 ≤ base ∧ base ≤ 36)

def BareHex (base : Nat) (r : List UInt8) : Prop :=
  base = 16 ∧ ∃ x r', IsX x ∧ r = zero :: x :: r' ∧ isDigitIn 16 (deref r') = false

theorem digits?_spec (base : Nat) (r : List UInt8) :
    (digits? base r = none → r.takeWhile (isDigitIn base) = []) ∧
    ∀ m rest, digits? base r = some (m, rest) →
      m = valueOf base (r.takeWhile (isDigitIn base)) ∧ rest = r.dropWhile (isDigitIn base) := by
  by_cases hnil : r.takeWhile (isDigitIn base) = []
  · have hnone : digits? base r = none := if_pos hnil
    exact ⟨fun _ => hnil, fun m rest h => by rw [hnone] at h; cases h⟩
  have hsome : digits? base r = some _ := if_neg hnil
  rw [hsome]
  refine ⟨nofun, fun m rest h => ?_⟩
  cases h
  exact ⟨rfl, rfl⟩

theorem takeWhile_eq_nil_iff :
    r.takeWhile (isDigitIn base) = [] ↔ isDigitIn base (deref r) = false := by
  cases r with
  | nil =>
    have hnul : digitValue 0 = none := by decide
    simp [isDigitIn, hnul]
  | cons c r => cases hc : isDigitIn base c <;> simp [hc]

theorem isX_iff : isX c = true ↔ IsX c := by
  simp [isX, IsX, or_comm]

theorem isSome_libIsbasedigit : (libIsbasedigit c 16).isSome = isDigitIn 16 c := by
  rw [libIsbasedigit_eq (by decide)]
  cases hdigit : isDigitIn 16 c with
  | false => rfl
  | true => exact digitValue_of_isDigitIn hdigit

theorem hexTail?_eq (r : List UInt8) :
    hexTail? r = if deref r = zero ∧ isX (deref r.tail) then some r.tail.tail else none := by
  have hnil : ¬ (isX 0 = true) := by decide
  have hzero : ¬ ((0 : UInt8) = zero) := by decide
  cases r with
  | nil => simp [hexTail?, hzero]
  | cons z r =>
    cases r with
    | nil => simp [hexTail?, hnil]
    | cons x r =>
      rw [hexTail?]
      refine if_congr ?_ rfl rfl
      rw [deref_cons, tail_cons, deref_cons, isX_iff]
      rfl

theorem libCheckbase_sixteen (r : List UInt8) :
    libCheckbase 16 r =
      if deref r = zero ∧ isX (deref r.tail) = true then some (16, r.tail.tail) else some (16, r) := by
  rw [libCheckbase, if_neg (by decide), if_pos rfl]
  rfl

theorem libCheckbase_refuses (h : 26 < base) (r : List UInt8) : libCheckbase base r = none := by
  rw [libCheckbase, if_neg (by omega), if_neg (by omega), if_pos (by omega)]

/-- The digits of base `b` in front of `r'`, a place further on in `r`, are the number that the
grammar sees in front of `r`. -/
structure Settles (base : Nat) (r : List UInt8) (b : Nat) (r' : List UInt8) : Prop where
  pos : 0 < b
  le : b ≤ 36
  suffix : r' <:+ r
  none : unsigned? base r = none → r' = r ∧ r'.takeWhile (isDigitIn b) = []
  some : ∀ m rest, unsigned? base r = some (m, rest) →
    m = valueOf b (r'.takeWhile (isDigitIn b)) ∧ rest = r'.dropWhile (isDigitIn b)

theorem Settles.of_digits {b : Nat} (hpos : 0 < b) (hle : b ≤ 36)
    (h : unsigned? base r = digits? b r) : Settles base r b r := by
  obtain ⟨hnone, hsome⟩ := digits?_spec b r
  rw [← h] at hnone hsome
  exact ⟨hpos, hle, suffix_refl r, fun h => ⟨rfl, hnone h⟩, hsome⟩

theorem Settles.of_hex (hbase : base = 0 ∨ base = 16)
    (hx : deref r = zero ∧ isX (deref r.tail) = true)
    (hdigit : isDigitIn 16 (deref r.tail.tail) = true) : Settles base r 16 r.tail.tail := by
  have hne : ¬ r.tail.tail.takeWhile (isDigitIn 16) = [] := by
    rw [takeWhile_eq_nil_iff, hdigit]
    decide
  have htail : hexTail? r = Option.some r.tail.tail := by rw [hexTail?_eq, if_pos hx]
  have hdigits : digits? 16 r.tail.tail = Option.some _ := if_neg hne
  have hunsigned : unsigned? base r = digits? 16 r.tail.tail := by
    rw [unsigned?, if_pos hbase, htail, bind_some, hdigits]
  obtain ⟨-, hsome⟩ := digits?_spec 16 r.tail.tail
  refine ⟨by decide, by decide, (tail_suffix _).trans (tail_suffix _), fun h => ?_, ?_⟩
  · rw [hunsigned, hdigits] at h
    cases h
  · rw [hunsigned]
    exact hsome

theorem Settles.of_octal (hzero : deref r = zero)
    (hx : ¬ (isX (deref r.tail) = true ∧ isDigitIn 16 (deref r.tail.tail) = true)) :
    Settles 0 r 8 r.tail := by
  have hnoHex : (hexTail? r).bind (digits? 16) = Option.none := by
    rw [hexTail?_eq]
    by_cases hX : isX (deref r.tail) = true
    · rw [if_pos ⟨hzero, hX⟩, bind_some]
      exact if_pos (takeWhile_eq_nil_iff.mpr (by simpa using fun h => hx ⟨hX, h⟩))
    · rw [if_neg (fun h => hX h.2), bind_none]
  have hunsigned : unsigned? 0 r = digits? 8 r := by
    rw [unsigned?, if_pos (.inl rfl), hnoHex]
    rw [if_neg (by decide), if_pos hzero]
  cases r with
  | nil => cases hzero
  | cons z r =>
    have hz : z = zero := hzero
    subst hz
    have hdigit : isDigitIn 8 zero = true := isDigitIn_zero (by decide)
    obtain ⟨hnone, hsome⟩ := digits?_spec 8 (zero :: r)
    rw [takeWhile_cons_of_pos hdigit] at hnone hsome
    rw [dropWhile_cons_of_pos hdigit, valueOf_zero_cons] at hsome
    rw [← hunsigned] at hnone hsome
    exact ⟨by decide, by decide, suffix_cons zero r, fun h => absurd (hnone h) (by simp), hsome⟩

theorem libCheckbase_settles (hbase : base = 0 ∨ (2 ≤ base ∧ base ≤ 26))
    (hbare : ¬ BareHex base r) :
    ∃ b r', libCheckbase base r = some (b, r') ∧ Settles base r b r' := by
  by_cases h0 : base = 0
  · subst h0
    rw [libCheckbase, if_pos (show ((0 : Nat) : Int) = 0 from rfl)]
    simp only [isSome_libIsbasedigit]
    by_cases hzero : deref r = zero
    · rw [if_pos (show deref r = '0'.toUInt8 from hzero)]
      by_cases hx : isX (deref r.tail) = true ∧ isDigitIn 16 (deref r.tail.tail) = true
      · rw [if_pos hx]
        exact ⟨16, _, rfl, .of_hex (.inl rfl) ⟨hzero, hx.1⟩ hx.2⟩
      · rw [if_neg hx]
        exact ⟨8, _, rfl, .of_octal hzero hx⟩
    · rw [if_neg (show ¬ deref r = '0'.toUInt8 from hzero)]
      refine ⟨10, r, rfl, .of_digits (by decide) (by decide) ?_⟩
      have htail : hexTail? r = none := by rw [hexTail?_eq, if_neg (fun h => hzero h.1)]
      rw [unsigned?, if_pos (.inl rfl), htail, bind_none]
      rw [if_neg (by decide), if_neg hzero]
  by_cases h16 : base = 16
  · subst h16
    have hcheck : libCheckbase ((16 : Nat) : Int) r = _ := libCheckbase_sixteen r
    rw [hcheck]
    by_cases hx : deref r = zero ∧ isX (deref r.tail) = true
    · rw [if_pos hx]
      refine ⟨16, _, rfl, .of_hex (.inr rfl) hx ?_⟩
      by_contra hdigit
      obtain ⟨x, hX, hr⟩ := hexTail?_some ((hexTail?_eq r).trans (if_pos hx))
      exact hbare ⟨rfl, x, r.tail.tail, hX, hr, by simpa using hdigit⟩
    · rw [if_neg hx]
      refine ⟨16, r, rfl, .of_digits (by decide) (by decide) ?_⟩
      have htail : hexTail? r = none := by rw [hexTail?_eq, if_neg hx]
      rw [unsigned?, if_pos (.inr rfl), htail, bind_none]
      rw [if_pos rfl]
  · refine ⟨base, r, by rw [libCheckbase, if_neg (by omega), if_neg (by omega), if_neg (by omega),
      Int.toNat_natCast], .of_digits (by omega) (by omega) ?_⟩
    rw [unsigned?, if_neg (by omega)]

def ReadRight (base : Nat) (r : List UInt8) (m : Nat) : Prop :=
  base ≤ 26 ∧ m ≤ ULONG_MAX ∧ ¬ BareHex base r

theorem unsigned?_bareHex {x : UInt8} (hbase : base = 16) (hx : IsX x)
    (hdigit : isDigitIn 16 (deref r) = false) :
    unsigned? base (zero :: x :: r) = some (0, x :: r) := by
  subst hbase
  have hnoHex : (hexTail? (zero :: x :: r)).bind (digits? 16) = none := by
    rw [hexTail?_cons hx, bind_some]
    exact if_pos (takeWhile_eq_nil_iff.mpr hdigit)
  have hzero : isDigitIn 16 zero = true := isDigitIn_zero (by decide)
  have hX : ¬ isDigitIn 16 x = true := by
    rw [not_isDigitIn_x hx le_rfl]
    decide
  rw [unsigned?, if_pos (.inr rfl), hnoHex]
  rw [if_pos rfl, digits?]
  rw [takeWhile_cons_of_pos hzero, takeWhile_cons_of_neg hX,
    dropWhile_cons_of_pos hzero, dropWhile_cons_of_neg hX]
  rfl

theorem scan_none (hbase : BaseOk base) (h : unsigned? base r = none) :
    (scan base r).value = 0 ∧ (scan base r).endptr = r ∧ (scan base r).errno ≠ some .ERANGE := by
  by_cases h26 : base ≤ 26
  · have hbare : ¬ BareHex base r := by
      rintro ⟨h16, x, r', hx, rfl, hdigit⟩
      rw [unsigned?_bareHex h16 hx hdigit] at h
      cases h
    obtain ⟨b, r', hcheck, hsettles⟩ :=
      libCheckbase_settles (hbase.imp_right fun h => ⟨h.1, h26⟩) hbare
    obtain ⟨rfl, htake⟩ := hsettles.none h
    have hdrop : r'.dropWhile (isDigitIn b) = r' := by
      have happend : r'.takeWhile (isDigitIn b) ++ r'.dropWhile (isDigitIn b) = r' :=
        takeWhile_append_dropWhile
      rwa [htake, nil_append] at happend
    obtain ⟨hfits, -⟩ := accumulate_spec hsettles.pos hsettles.le r' (Nat.zero_le ULONG_MAX)
    rw [htake, hdrop] at hfits
    rw [scan, hcheck]
    dsimp only
    rw [hfits (Nat.zero_le _)]
    exact ⟨rfl, rfl, by simp⟩
  · rw [scan, libCheckbase_refuses (by omega)]
    exact ⟨rfl, rfl, by simp⟩

theorem scan_of_readRight (hbase : BaseOk base) {rest : List UInt8} {m : Nat}
    (h : unsigned? base r = some (m, rest)) (hright : ReadRight base r m) :
    scan base r = ⟨m, rest, none⟩ := by
  obtain ⟨h26, hmax, hbare⟩ := hright
  obtain ⟨b, r', hcheck, hsettles⟩ :=
    libCheckbase_settles (hbase.imp_right fun h => ⟨h.1, h26⟩) hbare
  obtain ⟨rfl, rfl⟩ := hsettles.some m rest h
  obtain ⟨hfits, -⟩ := accumulate_spec hsettles.pos hsettles.le r' (Nat.zero_le ULONG_MAX)
  rw [scan, hcheck]
  exact hfits hmax

inductive Misread (base : Nat) (r rest : List UInt8) : Prop where
  | refused : 26 < base → scan base r = ⟨0, r, some .EINVAL⟩ → Misread base r rest
  | overflow (q : List UInt8) : scan base r = ⟨ULONG_MAX, q, some .ERANGE⟩ → q <:+ r →
      rest.length < q.length → Misread base r rest
  | bareHex (x : UInt8) (q : List UInt8) : base = 16 → IsX x → r = zero :: x :: q → rest = x :: q →
      scan base r = ⟨0, q, none⟩ → Misread base r rest

theorem misread_of_not_readRight (hbase : BaseOk base) {rest : List UInt8} {m : Nat}
    (h : unsigned? base r = some (m, rest)) (hnot : ¬ ReadRight base r m) : Misread base r rest := by
  by_cases h26 : base ≤ 26
  · by_cases hbare : BareHex base r
    · obtain ⟨rfl, x, q, hx, rfl, hdigit⟩ := hbare
      rw [unsigned?_bareHex rfl hx hdigit] at h
      cases h
      refine .bareHex x q rfl hx rfl rfl ?_
      have hcheck : libCheckbase ((16 : Nat) : Int) (zero :: x :: q) = some (16, q) :=
        (libCheckbase_sixteen _).trans (if_pos ⟨rfl, isX_iff.mpr hx⟩)
      have htake : q.takeWhile (isDigitIn 16) = [] := takeWhile_eq_nil_iff.mpr hdigit
      have hdrop : q.dropWhile (isDigitIn 16) = q := by
        have happend : q.takeWhile (isDigitIn 16) ++ q.dropWhile (isDigitIn 16) = q :=
          takeWhile_append_dropWhile
        rwa [htake, nil_append] at happend
      obtain ⟨hfits, -⟩ :=
        accumulate_spec (by decide : 0 < 16) (by decide) q (Nat.zero_le ULONG_MAX)
      rw [htake, hdrop] at hfits
      rw [scan, hcheck]
      exact hfits (Nat.zero_le _)
    · obtain ⟨b, r', hcheck, hsettles⟩ :=
        libCheckbase_settles (hbase.imp_right fun h => ⟨h.1, h26⟩) hbare
      obtain ⟨rfl, rfl⟩ := hsettles.some m rest h
      have hover : ULONG_MAX < valueOf b (r'.takeWhile (isDigitIn b)) := by
        by_contra hle
        exact hnot ⟨h26, by omega, hbare⟩
      obtain ⟨-, hmore⟩ := accumulate_spec hsettles.pos hsettles.le r' (Nat.zero_le ULONG_MAX)
      obtain ⟨q, hq, hsuffix, hlen⟩ := hmore hover
      refine .overflow q ?_ (hsuffix.trans hsettles.suffix) hlen
      rw [scan, hcheck]
      exact hq
  · exact .refused (by omega) (by rw [scan, libCheckbase_refuses (by omega)])

end Nuttx.Libc

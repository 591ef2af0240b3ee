import Mathlib.Tactic.Ring
import Nuttx.Libc.Stdlib.Proof.Scan

/-!
# What `strtoul` and `strtol` take for a number

`strtol` accepts white space and a sign a second time.
-/

open List

namespace Nuttx.Libc

theorem takeSign_cases (r : List UInt8) :
    ((takeSign r).1 = 0 ∧ (takeSign r).2 = r ∧ isSign (deref r) = false) ∨
    (isSign (takeSign r).1 = true ∧ (takeSign r).1 ≠ 0 ∧ r = (takeSign r).1 :: (takeSign r).2) := by
  unfold takeSign
  cases hsign : isSign (deref r) with
  | false => exact .inl ⟨rfl, rfl, rfl⟩
  | true =>
    right
    cases r with
    | nil => cases hsign
    | cons c r =>
      refine ⟨hsign, ?_, rfl⟩
      rintro (rfl : c = 0)
      cases hsign

theorem takeSign_eq_splitSign (r : List UInt8) :
    (takeSign r).2 = (splitSign r).2 ∧
      ((takeSign r).1 = '-'.toUInt8 ↔ (splitSign r).1 = true) := by
  unfold takeSign splitSign isSign
  by_cases hminus : deref r = '-'.toUInt8
  · simp [hminus]
  by_cases hplus : deref r = '+'.toUInt8
  · have hne : ¬ '+'.toUInt8 = '-'.toUInt8 := by decide
    simp [hplus, hne]
  · have hne : ¬ (0 : UInt8) = '-'.toUInt8 := by decide
    simp [hminus, hplus, hne]

theorem ungetSign_zero (s p : List UInt8) : ungetSign s 0 p = p := by
  simp [ungetSign]

variable {sign : UInt8} {s p r f : List UInt8} {base m : Nat} {negative : Bool} {rest : List UInt8}

theorem ungetSign_other {d : UInt8} (hne : d ≠ sign) (a p : List UInt8) :
    ungetSign (a ++ d :: p) sign p = p := by
  have hback := back_append a d p
  rw [ungetSign, hback, if_neg (fun h => hne h.2)]

theorem ungetSign_length (sign : UInt8) (h : p.length ≤ s.length) :
    p.length ≤ (ungetSign s sign p).length ∧ (ungetSign s sign p).length ≤ p.length + 1 := by
  unfold ungetSign
  split_ifs
  · rw [back, length_drop]
    omega
  · omega

theorem strtoul_eq_scan (s : List UInt8) (base : Int) :
    strtoul s base =
      let sign := (takeSign (libSkipspace s)).1
      let read := scan base (takeSign (libSkipspace s)).2
      ⟨if sign = '-'.toUInt8 then (2 ^ 32 - read.value) % 2 ^ 32 else read.value,
        ungetSign s sign read.endptr, read.errno⟩ := by
  unfold strtoul scan
  dsimp only
  cases hcheck : libCheckbase base (takeSign (libSkipspace s)).2 with
  | none => simp
  | some out => rfl

theorem skip_suffix (s : List UInt8) :
    (takeSign (libSkipspace s)).2 <:+ libSkipspace s ∧ libSkipspace s <:+ s := by
  refine ⟨?_, dropWhile_suffix _⟩
  rcases takeSign_cases (libSkipspace s) with ⟨-, hrest, -⟩ | ⟨-, -, hrest⟩
  · rw [hrest]
  · exact ⟨[(takeSign (libSkipspace s)).1], hrest.symm⟩

theorem ungetSign_le (hp : p.length ≤ (takeSign (libSkipspace s)).2.length) :
    (ungetSign s (takeSign (libSkipspace s)).1 p).length ≤ (libSkipspace s).length := by
  have hle := (skip_suffix s).1.length_le
  have hle' := (skip_suffix s).2.length_le
  rcases takeSign_cases (libSkipspace s) with ⟨hsign, -, -⟩ | ⟨-, -, hrest⟩
  · rw [hsign, ungetSign_zero]
    omega
  have hlen := congrArg List.length hrest
  rw [length_cons] at hlen
  have hback := (ungetSign_length (s := s) (takeSign (libSkipspace s)).1 (by omega : p.length ≤ s.length)).2
  omega

theorem ungetSign_start (s : List UInt8) :
    ungetSign s (takeSign (libSkipspace s)).1 (takeSign (libSkipspace s)).2 = libSkipspace s := by
  rcases takeSign_cases (libSkipspace s) with ⟨hsign, hrest, -⟩ | ⟨-, hsign, hrest⟩
  · rw [hsign, ungetSign_zero, hrest]
  obtain ⟨a, ha⟩ := (skip_suffix s).2
  have hs : s = a ++ (takeSign (libSkipspace s)).1 :: (takeSign (libSkipspace s)).2 := by
    rw [← hrest, ha]
  have hback := back_append a (takeSign (libSkipspace s)).1 (takeSign (libSkipspace s)).2
  rw [← hs] at hback
  rw [ungetSign, hback, if_pos ⟨hsign, rfl⟩]
  exact hrest.symm

theorem Body.last {body : List UInt8} (h : Body base body m) :
    ∃ front d, body = front ++ [d] ∧ (digitValue d).isSome = true := by
  have hends : ∀ (front ds : List UInt8) (b : Nat), ds ≠ [] → (∀ c ∈ ds, isDigitIn b c = true) →
      ∃ front' d, front ++ ds = front' ++ [d] ∧ (digitValue d).isSome = true := by
    intro front ds b hne hds
    refine ⟨front ++ ds.dropLast, ds.getLast hne, ?_, ?_⟩
    · rw [append_assoc, dropLast_append_getLast hne]
    · exact digitValue_of_isDigitIn (hds _ (getLast_mem hne))
  cases h with
  | plain h0 hne hds => exact hends [] _ _ hne hds
  | @hex _ x ds hbase hx hne hds => exact hends [zero, x] ds 16 hne hds
  | @octal ds hds =>
    refine hends [] (zero :: ds) 8 (cons_ne_nil _ _) ?_
    rw [forall_mem_cons]
    exact ⟨isDigitIn_zero (by decide), hds⟩
  | decimal hd hds => exact hends [] _ 10 (cons_ne_nil _ _) hds

theorem not_sign : ∀ c : UInt8, (digitValue c).isSome = true ∨ isX c = true →
    ¬ (c = 0 ∨ isSign c = true) := by
  decide +kernel

theorem not_sign_of_digit (c : UInt8) (h : (digitValue c).isSome = true) :
    ¬ (c = 0 ∨ isSign c = true) := not_sign c (.inl h)

theorem takeSign_sign (r : List UInt8) : (takeSign r).1 = 0 ∨ isSign (takeSign r).1 = true := by
  rcases takeSign_cases r with ⟨h, -, -⟩ | ⟨h, -, -⟩
  · exact .inl h
  · exact .inr h

theorem ungetSign_rest
    (hs : r <:+ s) (h : unsigned? base r = some (m, rest)) (hsign : sign = 0 ∨ isSign sign = true) :
    ungetSign s sign rest = rest := by
  obtain ⟨a, rfl⟩ := hs
  obtain ⟨body, rfl, hbody⟩ := unsigned?_sound h
  obtain ⟨front, d, rfl, hd⟩ := hbody.last
  have hne : d ≠ sign := by
    rintro rfl
    exact not_sign_of_digit d hd hsign
  have hother := ungetSign_other hne (a ++ front) rest
  simpa only [append_assoc, cons_append, nil_append] using hother

theorem ungetSign_misread
    (hs : r <:+ s) (h : unsigned? base r = some (m, rest)) (hmis : Misread base r rest)
    (hsign : sign = 0 ∨ isSign sign = true) : ungetSign s sign (scan base r).endptr ≠ rest := by
  have hlenS := hs.length_le
  have hshort : rest.length < r.length := by
    obtain ⟨body, rfl, hbody⟩ := unsigned?_sound h
    obtain ⟨c, cs, rfl, -⟩ := hbody.head
    rw [length_append, length_cons]
    omega
  have hle := (ungetSign_length sign ((scan_suffix base r).length_le.trans hlenS)).1
  cases hmis with
  | refused h26 hscan | overflow q hscan hq hlen =>
    rw [hscan] at hle ⊢
    intro heq
    rw [heq] at hle
    dsimp only at hle
    omega
  | bareHex x q h16 hx hr hrest hscan =>
    have hX : x ≠ sign := by
      rintro rfl
      exact not_sign x (.inr (isX_iff.mpr hx)) hsign
    obtain ⟨a, rfl⟩ := hs
    have hother := ungetSign_other hX (a ++ [zero]) q
    rw [append_assoc, singleton_append, ← hr] at hother
    rw [hscan, hrest]
    rw [hother]
    exact (cons_ne_self x q).symm

def GaveBack {α : Type} [OfNat α 0] (out : Conversion α) (s : List UInt8) : Prop :=
  out.endptr = s ∧ out.value = 0 ∧ out.errno ≠ some .ERANGE

def StrtoulRight (base : Nat) (s : List UInt8) (out : Conversion Nat) : Prop :=
  (∀ negative m rest, Longest base s negative m rest → out.endptr = rest ∧
    (m ≤ ULONG_MAX → out.value = (if negative then (2 ^ 32 - m) % 2 ^ 32 else m) ∧
      out.errno ≠ some .ERANGE) ∧
    (ULONG_MAX < m → out.value = ULONG_MAX ∧ out.errno = some .ERANGE)) ∧
  (NoNumeral base s → GaveBack out s)

def signed (negative : Bool) (m : Nat) : Int := if negative then -m else m

def StrtolRight (base : Nat) (s : List UInt8) (out : Conversion Int) : Prop :=
  (∀ negative m rest, Longest base s negative m rest → out.endptr = rest ∧
    (LONG_MIN ≤ signed negative m ∧ signed negative m ≤ LONG_MAX →
      out.value = signed negative m ∧ out.errno ≠ some .ERANGE) ∧
    (LONG_MAX < signed negative m → out.value = LONG_MAX ∧ out.errno = some .ERANGE) ∧
    (signed negative m < LONG_MIN → out.value = LONG_MIN ∧ out.errno = some .ERANGE)) ∧
  (NoNumeral base s → GaveBack out s)

def behindSign (s : List UInt8) : List UInt8 := (splitSign (s.dropWhile isspace)).2

/-- The strings on which both functions do what the standard asks. A number: the base is at most 26,
the magnitude at most `ULONG_MAX`, and in base 16 a `0x` stands in front of a digit. No number: no
white space in front and none behind a sign, and no number behind a second sign. -/
def Handled (base : Nat) (s : List UInt8) : Prop :=
  match number? base s with
  | some (_, m, _) => ReadRight base (behindSign s) m
  | none =>
    isspace (deref s) = false ∧ isspace (deref (behindSign s)) = false ∧
      (26 < base ∨ unsigned? base (behindSign (behindSign s)) = none)

theorem behindSign_eq (s : List UInt8) : (takeSign (libSkipspace s)).2 = behindSign s :=
  (takeSign_eq_splitSign _).1

theorem strtol_eq (s : List UInt8) (base : Int) :
    strtol s base =
      let sign := (takeSign (libSkipspace s)).1
      let unsigned := strtoul (behindSign s) base
      let endptr := ungetSign s sign unsigned.endptr
      if sign = '-'.toUInt8 then
        if unsigned.value > limit then ⟨LONG_MIN, endptr, some .ERANGE⟩
        else ⟨if unsigned.value = limit then LONG_MIN else -unsigned.value, endptr, unsigned.errno⟩
      else if (unsigned.value : Int) > LONG_MAX then ⟨LONG_MAX, endptr, some .ERANGE⟩
      else ⟨unsigned.value, endptr, unsigned.errno⟩ := by
  rw [← behindSign_eq]
  rfl

theorem strtol_endptr (s : List UInt8) (base : Int) :
    (strtol s base).endptr =
      ungetSign s (takeSign (libSkipspace s)).1 (strtoul (behindSign s) base).endptr := by
  rw [strtol_eq]
  dsimp only
  split_ifs <;> rfl

theorem behindSign_suffix (s : List UInt8) : behindSign s <:+ s := by
  rw [← behindSign_eq]
  exact (skip_suffix s).1.trans (skip_suffix s).2

theorem byGrammar_some {n : Bool} {k : Nat}
    (h : number? base s = some (n, k, r)) {found : Bool → Nat → List UInt8 → Prop} {missing : Prop} :
    ((∀ negative m rest, Longest base s negative m rest → found negative m rest) ∧
      (NoNumeral base s → missing)) ↔ found n k r := by
  constructor
  · rintro ⟨hfound, -⟩
    exact hfound n k r (number?_eq_some_iff.mp h)
  intro hfound
  refine ⟨fun negative m rest hlongest => ?_, fun hno => ?_⟩
  · have heq := (number?_eq_some_iff.mpr hlongest).symm.trans h
    cases heq
    exact hfound
  · rw [number?_eq_none_iff.mpr hno] at h
    cases h

theorem byGrammar_none (h : number? base s = none)
    {found : Bool → Nat → List UInt8 → Prop} {missing : Prop} :
    ((∀ negative m rest, Longest base s negative m rest → found negative m rest) ∧
      (NoNumeral base s → missing)) ↔ missing := by
  constructor
  · rintro ⟨-, hmissing⟩
    exact hmissing (number?_eq_none_iff.mp h)
  intro hmissing
  refine ⟨fun negative m rest hlongest => ?_, fun _ => hmissing⟩
  rw [number?_eq_some_iff.mpr hlongest] at h
  cases h

theorem number?_some (h : number? base s = some (negative, m, rest)) :
    unsigned? base (behindSign s) = some (m, rest) ∧
      ((takeSign (libSkipspace s)).1 = '-'.toUInt8 ↔ negative = true) := by
  obtain ⟨out, hout, heq⟩ := Option.map_eq_some_iff.mp h
  have hneg : (splitSign (s.dropWhile isspace)).1 = negative := congrArg Prod.fst heq
  have hm : out = (m, rest) := congrArg Prod.snd heq
  rw [hm] at hout
  refine ⟨hout, ?_⟩
  rw [← hneg]
  exact (takeSign_eq_splitSign _).2

theorem strtoul_some_iff (hbase : BaseOk base) (h : number? base s = some (negative, m, rest)) :
    StrtoulRight base s (strtoul s base) ↔ ReadRight base (behindSign s) m := by
  obtain ⟨hunsigned, hneg⟩ := number?_some h
  unfold StrtoulRight
  rw [byGrammar_some h, strtoul_eq_scan, behindSign_eq]
  constructor
  · rintro ⟨hend, -⟩
    by_contra hnot
    exact ungetSign_misread (behindSign_suffix s) hunsigned
      (misread_of_not_readRight hbase hunsigned hnot) (takeSign_sign _) hend
  · intro hright
    rw [scan_of_readRight hbase hunsigned hright]
    refine ⟨ungetSign_rest (behindSign_suffix s) hunsigned (takeSign_sign _), fun _ => ⟨?_, nofun⟩,
      fun hover => absurd hright.2.1 (by omega)⟩
    exact if_congr hneg rfl rfl

theorem strtoul_of_plain {base : Int} (hspace : isspace (deref r) = false)
    (hsign : isSign (deref r) = false) : strtoul r base = scan base r := by
  have hskip : libSkipspace r = r := by
    cases r with
    | nil => rfl
    | cons c r => exact dropWhile_cons_of_neg (by simpa using hspace)
  have htake : takeSign r = (0, r) := by rw [takeSign, hsign]; rfl
  have hminus : ¬ (0 : UInt8) = '-'.toUInt8 := by decide
  rw [strtoul_eq_scan, hskip, htake]
  dsimp only
  rw [if_neg hminus, ungetSign_zero]

theorem plain_of_unsigned (h : unsigned? base r = some (m, rest)) :
    isspace (deref r) = false ∧ isSign (deref r) = false := by
  obtain ⟨body, rfl, hbody⟩ := unsigned?_sound h
  obtain ⟨c, cs, rfl, hc⟩ := hbody.head
  refine ⟨(plain_of_digit c hc).1, ?_⟩
  have hnot := not_sign_of_digit c hc
  rw [cons_append, deref_cons]
  simpa using fun hsign => hnot (.inr hsign)

theorem strtol_some_iff (hbase : BaseOk base) (h : number? base s = some (negative, m, rest)) :
    StrtolRight base s (strtol s base) ↔ ReadRight base (behindSign s) m := by
  obtain ⟨hunsigned, hneg⟩ := number?_some h
  obtain ⟨hspace, hsign⟩ := plain_of_unsigned hunsigned
  have hscan : strtoul (behindSign s) base = scan base (behindSign s) :=
    strtoul_of_plain hspace hsign
  unfold StrtolRight
  rw [byGrammar_some h]
  constructor
  · rintro ⟨hend, -⟩
    by_contra hnot
    rw [strtol_endptr, hscan] at hend
    exact ungetSign_misread (behindSign_suffix s) hunsigned
      (misread_of_not_readRight hbase hunsigned hnot) (takeSign_sign _) hend
  intro hright
  rw [scan_of_readRight hbase hunsigned hright] at hscan
  have hend : (strtol s base).endptr = rest := by
    rw [strtol_endptr, hscan]
    exact ungetSign_rest (behindSign_suffix s) hunsigned (takeSign_sign _)
  refine ⟨hend, ?_⟩
  have hlimit : (limit : Int) = 2147483648 := rfl
  have hmin : LONG_MIN = -2147483648 := rfl
  have hmax : LONG_MAX = 2147483647 := rfl
  rw [strtol_eq, hscan]
  cases negative with
  | true =>
    have hsigned : signed true m = -m := rfl
    rw [if_pos (hneg.mpr rfl), hsigned]
    by_cases hlarge : m > limit
    · rw [if_pos hlarge]
      exact ⟨fun hrange => by omega, fun hrange => by omega, fun _ => ⟨rfl, rfl⟩⟩
    rw [if_neg hlarge]
    refine ⟨fun _ => ⟨?_, nofun⟩, fun hrange => by omega, fun hrange => by omega⟩
    dsimp only
    split_ifs with heq
    · omega
    · rfl
  | false =>
    have hsigned : signed false m = m := rfl
    have hplus : ¬ (takeSign (libSkipspace s)).1 = '-'.toUInt8 := fun h => nomatch hneg.mp h
    rw [if_neg hplus, hsigned]
    by_cases hlarge : (m : Int) > LONG_MAX
    · rw [if_pos hlarge]
      exact ⟨fun hrange => by omega, fun _ => ⟨rfl, rfl⟩, fun hrange => by omega⟩
    · rw [if_neg hlarge]
      exact ⟨fun _ => ⟨rfl, nofun⟩, fun hrange => by omega, fun hrange => by omega⟩

theorem libSkipspace_eq_self_iff (s : List UInt8) :
    libSkipspace s = s ↔ isspace (deref s) = false := by
  cases s with
  | nil => exact iff_of_true rfl rfl
  | cons c s =>
    unfold libSkipspace
    cases hc : isspace c with
    | false => exact iff_of_true (dropWhile_cons_of_neg (by simp [hc])) hc
    | true =>
      refine iff_of_false (fun heq => ?_) (by rw [deref_cons, hc]; decide)
      rw [dropWhile_cons_of_pos hc] at heq
      have hlen := (dropWhile_suffix (l := s) isspace).length_le
      rw [heq, length_cons] at hlen
      omega

theorem ungetSign_eq_self_iff (hp : p <:+ behindSign s) :
    ungetSign s (takeSign (libSkipspace s)).1 p = s ↔
      isspace (deref s) = false ∧ p = behindSign s := by
  rw [← libSkipspace_eq_self_iff]
  constructor
  · intro hself
    rw [← behindSign_eq] at hp ⊢
    have hle := ungetSign_le hp.length_le
    rw [hself] at hle
    have hskip : libSkipspace s = s := (dropWhile_suffix _).eq_of_length_le hle
    refine ⟨hskip, ?_⟩
    rw [hskip] at hp hself ⊢
    rcases takeSign_cases s with ⟨hsign, hrest, -⟩ | ⟨-, -, hrest⟩
    · rw [hsign, ungetSign_zero] at hself
      rw [hself, hrest]
    have hlen := congrArg List.length hrest
    rw [length_cons] at hlen
    have hlt : p.length ≤ s.length := by
      have := hp.length_le
      omega
    have hback := (ungetSign_length (takeSign s).1 hlt).2
    rw [hself] at hback
    exact hp.eq_of_length_le (by omega)
  · rintro ⟨hskip, rfl⟩
    rw [← behindSign_eq, ungetSign_start, hskip]

theorem ungetSign_suffix (sign : UInt8) (hp : p <:+ s) : ungetSign s sign p <:+ s := by
  unfold ungetSign
  split_ifs
  · exact drop_suffix _ _
  · exact hp

theorem strtoul_suffix (s : List UInt8) (base : Int) : (strtoul s base).endptr <:+ s := by
  rw [strtoul_eq_scan, behindSign_eq]
  exact ungetSign_suffix _ ((scan_suffix _ _).trans (behindSign_suffix s))

theorem scan_gaveBack_iff (hbase : BaseOk base) (r : List UInt8) :
    GaveBack (scan base r) r ↔ 26 < base ∨ unsigned? base r = none := by
  constructor
  · rintro ⟨hend, -, herrno⟩
    by_contra hnot
    obtain ⟨h26, hsome⟩ := not_or.mp hnot
    obtain ⟨⟨m, rest⟩, h⟩ := Option.ne_none_iff_exists'.mp hsome
    by_cases hright : ReadRight base r m
    · rw [scan_of_readRight hbase h hright] at hend
      obtain ⟨body, hr, hbody⟩ := unsigned?_sound h
      obtain ⟨c, cs, rfl, -⟩ := hbody.head
      have hlen := congrArg List.length (hend.trans hr)
      rw [length_append, length_cons] at hlen
      dsimp only at hlen
      omega
    · cases misread_of_not_readRight hbase h hright with
      | refused hlarge hscan => exact h26 hlarge
      | overflow q hscan hq hlen => exact herrno (by rw [hscan])
      | bareHex x q h16 hx hr hrest hscan =>
        rw [hscan] at hend
        have hlen := congrArg List.length (hend.trans hr)
        rw [length_cons, length_cons] at hlen
        dsimp only at hlen
        omega
  · rintro (hlarge | hnone)
    · rw [scan, libCheckbase_refuses hlarge]
      exact ⟨rfl, rfl, fun h => by cases h⟩
    · obtain ⟨hvalue, hend, herrno⟩ := scan_none hbase hnone
      exact ⟨hend, hvalue, herrno⟩

theorem strtoul_gaveBack_iff (s : List UInt8) :
    GaveBack (strtoul s base) s ↔
      isspace (deref s) = false ∧ GaveBack (scan base (behindSign s)) (behindSign s) := by
  have hvalue := scan_value_le base (behindSign s)
  unfold GaveBack
  rw [strtoul_eq_scan, behindSign_eq]
  rw [ungetSign_eq_self_iff (scan_suffix _ _)]
  have hzero : (if (takeSign (libSkipspace s)).1 = '-'.toUInt8 then
      (2 ^ 32 - (scan base (behindSign s)).value) % 2 ^ 32 else (scan base (behindSign s)).value) = 0 ↔
      (scan base (behindSign s)).value = 0 := by
    unfold ULONG_MAX at hvalue
    split_ifs
    · omega
    · exact Iff.rfl
  rw [hzero]
  tauto

theorem strtol_gaveBack_iff (s : List UInt8) :
    GaveBack (strtol s base) s ↔
      isspace (deref s) = false ∧ GaveBack (strtoul (behindSign s) base) (behindSign s) := by
  have hvalue : (strtol s base).value = 0 ∧ (strtol s base).errno ≠ some .ERANGE ↔
      (strtoul (behindSign s) base).value = 0 ∧
        (strtoul (behindSign s) base).errno ≠ some .ERANGE := by
    rw [strtol_eq]
    dsimp only
    generalize (strtoul (behindSign s) base).value = v
    have hlimit : limit = 2147483648 := rfl
    have hmin : LONG_MIN = -2147483648 := rfl
    have hmax : LONG_MAX = 2147483647 := rfl
    split_ifs <;> simp <;> omega
  unfold GaveBack
  rw [strtol_endptr, ungetSign_eq_self_iff (strtoul_suffix _ _), hvalue]
  tauto

/-- **`strtoul` and `strtol` against the grammar of the standard.** For every string and every base
0 or 2 to 36 both functions consume the longest numeral, return its value or saturate, and give back
a string without one, if and only if the string is `Handled`. -/
theorem strtoul_strtol_right_iff {base : Nat} (hbase : BaseOk base) (s : List UInt8) :
    StrtoulRight base s (strtoul s base) ∧ StrtolRight base s (strtol s base) ↔ Handled base s := by
  cases h : number? base s with
  | some out =>
    obtain ⟨negative, m, rest⟩ := out
    rw [strtoul_some_iff hbase h, strtol_some_iff hbase h, and_self, Handled, h]
  | none =>
    have hunsigned : unsigned? base (behindSign s) = none := Option.map_eq_none_iff.mp h
    have hscan : GaveBack (scan base (behindSign s)) (behindSign s) :=
      (scan_gaveBack_iff hbase _).mpr (.inr hunsigned)
    have hul : StrtoulRight base s (strtoul s base) ↔ isspace (deref s) = false := by
      unfold StrtoulRight
      rw [byGrammar_none h, strtoul_gaveBack_iff]
      exact and_iff_left hscan
    have hl : StrtolRight base s (strtol s base) ↔ isspace (deref s) = false ∧
        isspace (deref (behindSign s)) = false ∧
          (26 < base ∨ unsigned? base (behindSign (behindSign s)) = none) := by
      unfold StrtolRight
      rw [byGrammar_none h, strtol_gaveBack_iff, strtoul_gaveBack_iff, scan_gaveBack_iff hbase]
    rw [hul, hl, Handled, h]
    exact and_iff_right_of_imp fun hgiven => hgiven.1

/-- White space, a sign, the prefix of base 16, two digits and a letter that is no digit. -/
def minusHex : List UInt8 := " -0x1Fg".toList.map Char.toUInt8

theorem strtoul_strtol_right_iff_minusHex :
    BaseOk 16 ∧ StrtoulRight 16 minusHex (strtoul minusHex 16) ∧ StrtolRight 16 minusHex (strtol minusHex 16) ∧
      (strtol minusHex 16).value = -31 := by
  have hbase : BaseOk 16 := .inr (by decide)
  have hhandled : Handled 16 minusHex := by
    rw [Handled, show number? 16 minusHex = some (true, 31, ['g'.toUInt8]) by decide]
    refine ⟨by decide, by decide, ?_⟩
    rintro ⟨-, x, r, -, heq, hdigit⟩
    have hbehind : behindSign minusHex = zero :: 'x'.toUInt8 :: "1Fg".toList.map Char.toUInt8 := by decide
    rw [hbehind] at heq
    cases heq
    revert hdigit
    decide
  obtain ⟨hunsigned, hsigned⟩ := (strtoul_strtol_right_iff hbase minusHex).mpr hhandled
  exact ⟨hbase, hunsigned, hsigned, by decide⟩

theorem strtoul_base_thirtysix : ¬ StrtoulRight 36 ['z'.toUInt8] (strtoul ['z'.toUInt8] 36) := by
  have hbase : BaseOk 36 := .inr (by decide)
  have hnumber : number? 36 ['z'.toUInt8] = some (false, 35, []) := by decide
  intro hright
  have h26 := ((strtoul_some_iff hbase hnumber).mp hright).1
  omega

theorem valueFrom_lt (hdigits : ∀ c ∈ f, isDigitIn base c = true) (acc : Nat) :
    valueFrom base acc f < (acc + 1) * base ^ f.length := by
  induction f generalizing acc with
  | nil => simp [valueFrom]
  | cons c f ih =>
    obtain ⟨hc, hf⟩ := forall_mem_cons.mp hdigits
    obtain ⟨v, hv, hlt⟩ := isDigitIn_iff.mp hc
    rw [valueFrom_cons, hv, Option.getD_some, length_cons, Nat.pow_succ]
    calc valueFrom base (acc * base + v) f
        < (acc * base + v + 1) * base ^ f.length := ih hf _
      _ ≤ (acc * base + base) * base ^ f.length := Nat.mul_le_mul_right _ (by omega)
      _ = (acc + 1) * (base ^ f.length * base) := by ring

theorem valueOf_lt
    (hdigits : ∀ c ∈ f, isDigitIn base c = true) : valueOf base f < base ^ f.length := by
  have hlt := valueFrom_lt hdigits 0
  rwa [Nat.zero_add, Nat.one_mul] at hlt

theorem strtol_digits (hbase : 2 ≤ base ∧ base ≤ 16) (hne : f ≠ [])
    (hdigits : ∀ c ∈ f, isDigitIn base c = true) (hmax : (valueOf base f : Int) ≤ LONG_MAX) :
    (strtol f base).value = valueOf base f := by
  have hbody : Body base f (valueOf base f) := .plain (by omega) hne hdigits
  have hnumeral : Numeral base f false (valueOf base f) :=
    ⟨[], [], f, rfl, forall_mem_nil _, .none, hbody⟩
  have hnumber : number? base f = some (false, valueOf base f, []) := by
    obtain ⟨out, hout, hlt | rfl⟩ := number?_complete hnumeral []
    · exact absurd hlt (Nat.not_lt_zero _)
    · rwa [append_nil] at hout
  have hbare : ¬ BareHex base (behindSign f) := by
    rintro ⟨-, x, r, hx, hbehind, -⟩
    have hmem : x ∈ f := by
      refine (behindSign_suffix f).subset ?_
      rw [hbehind]
      simp
    have hdigit := hdigits x hmem
    rw [not_isDigitIn_x hx hbase.2] at hdigit
    cases hdigit
  have hread : ReadRight base (behindSign f) (valueOf base f) := by
    unfold LONG_MAX at hmax
    exact ⟨by omega, by unfold ULONG_MAX; omega, hbare⟩
  obtain ⟨hfound, -⟩ := (strtol_some_iff (.inr (by omega)) hnumber).mpr hread
  obtain ⟨-, hvalue, -⟩ := hfound _ _ _ (number?_eq_some_iff.mp hnumber)
  refine (hvalue ⟨?_, hmax⟩).1
  have hsigned : signed false (valueOf base f) = valueOf base f := rfl
  have hmin : LONG_MIN = -2147483648 := rfl
  omega

end Nuttx.Libc

import Mathlib.Data.List.TakeWhile
import Nuttx.Libc.Ctype

/-!
# The grammar of integers

What the C standard takes for an integer in a given base: white space, at most one sign, a base
prefix where the base allows one, and digits.
-/

open List Option

namespace Nuttx.Libc

def digitValue (c : UInt8) : Option Nat :=
  if '0'.toUInt8 ≤ c ∧ c ≤ '9'.toUInt8 then some (c.toNat - '0'.toNat)
  else if 'a'.toUInt8 ≤ c ∧ c ≤ 'z'.toUInt8 then some (c.toNat - 'a'.toNat + 10)
  else if 'A'.toUInt8 ≤ c ∧ c ≤ 'Z'.toUInt8 then some (c.toNat - 'A'.toNat + 10)
  else none

def isDigitIn (base : Nat) (c : UInt8) : Bool := ((digitValue c).getD base) < base

def valueFrom (base acc : Nat) (ds : List UInt8) : Nat :=
  ds.foldl (fun acc c => acc * base + (digitValue c).getD 0) acc

abbrev valueOf (base : Nat) (ds : List UInt8) : Nat := valueFrom base 0 ds

def zero : UInt8 := '0'.toUInt8

def IsX (c : UInt8) : Prop := c = 'x'.toUInt8 ∨ c = 'X'.toUInt8

inductive Body : (base : Nat) → List UInt8 → Nat → Prop where
  | plain {base : Nat} {ds : List UInt8} : base ≠ 0 → ds ≠ [] → (∀ c ∈ ds, isDigitIn base c) →
      Body base ds (valueOf base ds)
  | hex {base : Nat} {x : UInt8} {ds : List UInt8} : base = 0 ∨ base = 16 → IsX x → ds ≠ [] →
      (∀ c ∈ ds, isDigitIn 16 c) → Body base (zero :: x :: ds) (valueOf 16 ds)
  | octal {ds : List UInt8} : (∀ c ∈ ds, isDigitIn 8 c) → Body 0 (zero :: ds) (valueOf 8 ds)
  | decimal {d : UInt8} {ds : List UInt8} : d ≠ zero → (∀ c ∈ d :: ds, isDigitIn 10 c) →
      Body 0 (d :: ds) (valueOf 10 (d :: ds))

inductive Sign : List UInt8 → Bool → Prop where
  | none : Sign [] false
  | plus : Sign ['+'.toUInt8] false
  | minus : Sign ['-'.toUInt8] true

def Numeral (base : Nat) (t : List UInt8) (negative : Bool) (magnitude : Nat) : Prop :=
  ∃ spaces sign body, t = spaces ++ (sign ++ body) ∧ (∀ c ∈ spaces, isspace c) ∧
    Sign sign negative ∧ Body base body magnitude

def Longest (base : Nat) (s : List UInt8) (negative : Bool) (magnitude : Nat) (rest : List UInt8) :
    Prop :=
  ∃ t, s = t ++ rest ∧ Numeral base t negative magnitude ∧
    ∀ t' rest' negative' magnitude', s = t' ++ rest' → Numeral base t' negative' magnitude' →
      t'.length ≤ t.length

def NoNumeral (base : Nat) (s : List UInt8) : Prop :=
  ∀ t rest negative magnitude, s = t ++ rest → ¬ Numeral base t negative magnitude

def digits? (base : Nat) (r : List UInt8) : Option (Nat × List UInt8) :=
  let ds := r.takeWhile (isDigitIn base)
  if ds = [] then none else some (valueOf base ds, r.dropWhile (isDigitIn base))

def hexTail? : List UInt8 → Option (List UInt8)
  | z :: x :: r => if z = zero ∧ (x = 'x'.toUInt8 ∨ x = 'X'.toUInt8) then some r else none
  | _ => none

def unsigned? (base : Nat) (r : List UInt8) : Option (Nat × List UInt8) :=
  if base = 0 ∨ base = 16 then
    match (hexTail? r).bind (digits? 16) with
    | some out => some out
    | none =>
      if base = 16 then digits? 16 r
      else if deref r = zero then digits? 8 r
      else digits? 10 r
  else digits? base r

def splitSign (r : List UInt8) : Bool × List UInt8 :=
  if deref r = '-'.toUInt8 then (true, r.tail)
  else if deref r = '+'.toUInt8 then (false, r.tail)
  else (false, r)

def number? (base : Nat) (s : List UInt8) : Option (Bool × Nat × List UInt8) :=
  let (negative, r) := splitSign (s.dropWhile isspace)
  (unsigned? base r).map fun out => (negative, out.1, out.2)

variable {base m : Nat} {r s : List UInt8} {negative : Bool} {rest : List UInt8} {c : UInt8}

theorem digitValue_of_isDigitIn (h : isDigitIn base c = true) : (digitValue c).isSome = true := by
  unfold isDigitIn at h
  cases hv : digitValue c with
  | none => simp [hv] at h
  | some v => rfl

theorem plain_of_digit : ∀ c : UInt8, (digitValue c).isSome = true →
    isspace c = false ∧ c ≠ '-'.toUInt8 ∧ c ≠ '+'.toUInt8 := by
  decide +kernel

theorem not_isDigitIn_x {x : UInt8} (hx : IsX x) (hbase : base ≤ 16) :
    isDigitIn base x = false := by
  have hvalue : digitValue x = some 33 := by
    rcases hx with rfl | rfl <;> decide
  simp [isDigitIn, hvalue]
  omega

theorem isDigitIn_zero (hbase : 0 < base) : isDigitIn base zero = true := by
  have hvalue : digitValue zero = some 0 := by decide
  simp [isDigitIn, hvalue, hbase]

theorem digits?_some (h : digits? base r = some (m, rest)) :
    ∃ ds, r = ds ++ rest ∧ ds ≠ [] ∧ (∀ c ∈ ds, isDigitIn base c = true) ∧ m = valueOf base ds := by
  unfold digits? at h
  dsimp only at h
  split_ifs at h with hnil
  cases h
  exact ⟨_, takeWhile_append_dropWhile.symm, hnil, fun c hc => mem_takeWhile_imp hc, rfl⟩

theorem digits?_of_digits {ds : List UInt8} (hne : ds ≠ [])
    (hds : ∀ c ∈ ds, isDigitIn base c = true) (rest : List UInt8) :
    ∃ m' rest', digits? base (ds ++ rest) = some (m', rest') ∧
      (rest'.length < rest.length ∨ (m' = valueOf base ds ∧ rest' = rest)) := by
  have htake : (ds ++ rest).takeWhile (isDigitIn base) = ds ++ rest.takeWhile (isDigitIn base) :=
    takeWhile_append_of_pos hds
  have hdigits : (ds ++ rest).takeWhile (isDigitIn base) ≠ [] := by
    rw [htake]
    exact append_ne_nil_of_left_ne_nil hne _
  refine ⟨_, _, if_neg hdigits, ?_⟩
  rw [htake, dropWhile_append_of_pos hds]
  cases hmore : rest.takeWhile (isDigitIn base) with
  | nil =>
    right
    have hrest : rest.takeWhile (isDigitIn base) ++ rest.dropWhile (isDigitIn base) = rest :=
      takeWhile_append_dropWhile
    rw [hmore, nil_append] at hrest
    exact ⟨by rw [append_nil], hrest⟩
  | cons c cs =>
    left
    have hlen : (rest.takeWhile (isDigitIn base) ++ rest.dropWhile (isDigitIn base)).length
        = rest.length := by rw [takeWhile_append_dropWhile]
    rw [hmore, length_append, length_cons] at hlen
    omega

theorem hexTail?_some {r' : List UInt8} (h : hexTail? r = some r') :
    ∃ x, IsX x ∧ r = zero :: x :: r' := by
  cases r with
  | nil => cases h
  | cons z r =>
    cases r with
    | nil => cases h
    | cons x r =>
      simp only [hexTail?] at h
      split_ifs at h with hx
      cases h
      exact ⟨x, hx.2, by rw [hx.1]⟩

theorem hexTail?_cons {x : UInt8} (hx : IsX x) (r : List UInt8) :
    hexTail? (zero :: x :: r) = some r := by
  rw [hexTail?, if_pos ⟨rfl, hx⟩]

theorem hex_some {out : Nat × List UInt8} (h : (hexTail? r).bind (digits? 16) = some out) :
    ∃ x ds, IsX x ∧ r = zero :: x :: (ds ++ out.2) ∧ ds ≠ [] ∧ (∀ c ∈ ds, isDigitIn 16 c = true) ∧
      out.1 = valueOf 16 ds := by
  obtain ⟨r', htail, hdigits⟩ := bind_eq_some_iff.mp h
  obtain ⟨x, hx, rfl⟩ := hexTail?_some htail
  obtain ⟨ds, rfl, hne, hds, hm⟩ := digits?_some hdigits
  exact ⟨x, ds, hx, rfl, hne, hds, hm⟩

theorem valueOf_zero_cons (base : Nat) (ds : List UInt8) :
    valueOf base (zero :: ds) = valueOf base ds := by
  have hvalue : digitValue zero = some 0 := by decide
  simp [valueOf, valueFrom, hvalue]

theorem unsigned?_sound
    (h : unsigned? base r = some (m, rest)) : ∃ body, r = body ++ rest ∧ Body base body m := by
  by_cases hbase : base = 0 ∨ base = 16
  · rw [unsigned?, if_pos hbase] at h
    cases hhex : (hexTail? r).bind (digits? 16) with
    | some out =>
      rw [hhex] at h
      cases h
      obtain ⟨x, ds, hx, hr, hne, hds, rfl⟩ := hex_some hhex
      exact ⟨zero :: x :: ds, hr, .hex hbase hx hne hds⟩
    | none =>
      rw [hhex] at h
      rcases hbase with rfl | rfl
      · rw [if_neg (by decide)] at h
        by_cases hzero : deref r = zero
        · rw [if_pos hzero] at h
          obtain ⟨ds, hr, hne, hds, rfl⟩ := digits?_some h
          obtain ⟨d, ds, rfl⟩ := exists_cons_of_ne_nil hne
          have hd : d = zero := by rw [hr] at hzero; exact hzero
          subst hd
          rw [valueOf_zero_cons]
          exact ⟨zero :: ds, hr, .octal fun c hc => hds c (mem_cons_of_mem _ hc)⟩
        · rw [if_neg hzero] at h
          obtain ⟨ds, hr, hne, hds, rfl⟩ := digits?_some h
          obtain ⟨d, ds, rfl⟩ := exists_cons_of_ne_nil hne
          have hd : d ≠ zero := by rw [hr] at hzero; exact hzero
          exact ⟨d :: ds, hr, .decimal hd hds⟩
      · rw [if_pos rfl] at h
        obtain ⟨ds, hr, hne, hds, rfl⟩ := digits?_some h
        exact ⟨ds, hr, .plain (by decide) hne hds⟩
  · rw [unsigned?, if_neg hbase] at h
    obtain ⟨ds, hr, hne, hds, rfl⟩ := digits?_some h
    exact ⟨ds, hr, .plain (fun h0 => hbase (.inl h0)) hne hds⟩

theorem digits_lt_hex (hbase : base ≤ 16) {ds rest : List UInt8}
    {out : Nat × List UInt8} (hr : r = ds ++ rest) (hds : ∀ c ∈ ds, isDigitIn base c = true)
    (h : (hexTail? r).bind (digits? 16) = some out) : out.2.length < rest.length := by
  obtain ⟨x, hexDigits, hx, hrx, hne, -⟩ := hex_some h
  have hshort : ds.length ≤ 1 := by
    by_contra hlong
    have hx1 : r[1]? = some x := by rw [hrx]; rfl
    rw [hr, List.getElem?_append_left (by omega)] at hx1
    have hdigit := hds x (mem_of_getElem? hx1)
    rw [not_isDigitIn_x hx hbase] at hdigit
    cases hdigit
  have hlen := congrArg List.length (hr.symm.trans hrx)
  simp only [length_append, length_cons] at hlen
  omega

theorem unsigned?_complete {body : List UInt8} (h : Body base body m) (rest : List UInt8) :
    ∃ m' rest', unsigned? base (body ++ rest) = some (m', rest') ∧
      (rest'.length < rest.length ∨ (m' = m ∧ rest' = rest)) := by
  unfold unsigned?
  cases h with
  | plain h0 hne hds =>
    by_cases h16 : base = 16
    · subst h16
      rw [if_pos (.inr rfl)]
      cases hhex : (hexTail? (body ++ rest)).bind (digits? 16) with
      | some out => exact ⟨out.1, out.2, rfl, .inl (digits_lt_hex le_rfl rfl hds hhex)⟩
      | none => exact digits?_of_digits hne hds rest
    · rw [if_neg (by omega)]
      exact digits?_of_digits hne hds rest
  | @hex _ x ds hbase hx hne hds =>
    obtain ⟨m', rest', hdigits, hlen⟩ := digits?_of_digits hne hds rest
    rw [if_pos hbase, cons_append, cons_append, hexTail?_cons hx, bind_some, hdigits]
    exact ⟨m', rest', rfl, hlen⟩
  | @octal ds hds =>
    rw [if_pos (.inl rfl)]
    have hall : ∀ c ∈ zero :: ds, isDigitIn 8 c = true := by
      rw [forall_mem_cons]
      exact ⟨isDigitIn_zero (by decide), hds⟩
    cases hhex : (hexTail? (zero :: ds ++ rest)).bind (digits? 16) with
    | some out => exact ⟨out.1, out.2, rfl, .inl (digits_lt_hex (by decide) rfl hall hhex)⟩
    | none =>
      rw [← valueOf_zero_cons]
      exact digits?_of_digits (cons_ne_nil _ _) hall rest
  | @decimal d ds hd hds =>
    rw [if_pos (.inl rfl)]
    have hhex : hexTail? (d :: ds ++ rest) = none := by
      cases htail : hexTail? (d :: ds ++ rest) with
      | none => rfl
      | some r' =>
        obtain ⟨x, -, hr⟩ := hexTail?_some htail
        exact absurd (List.cons.inj hr).1 hd
    rw [hhex, bind_none]
    have hderef : ¬ deref (d :: ds ++ rest) = zero := hd
    rw [if_neg (by decide), if_neg hderef]
    exact digits?_of_digits (cons_ne_nil _ _) hds rest

theorem Body.head {body : List UInt8} (h : Body base body m) :
    ∃ c cs, body = c :: cs ∧ (digitValue c).isSome = true := by
  cases h with
  | plain h0 hne hds =>
    obtain ⟨c, cs, rfl⟩ := exists_cons_of_ne_nil hne
    exact ⟨c, cs, rfl, digitValue_of_isDigitIn (hds c mem_cons_self)⟩
  | hex hbase hx hne hds | octal hds => exact ⟨_, _, rfl, rfl⟩
  | decimal hd hds => exact ⟨_, _, rfl, digitValue_of_isDigitIn (hds _ mem_cons_self)⟩

theorem splitSign_split (r : List UInt8) :
    ∃ sign, r = sign ++ (splitSign r).2 ∧ Sign sign (splitSign r).1 := by
  unfold splitSign
  by_cases hminus : deref r = '-'.toUInt8
  · rw [if_pos hminus]
    cases r with
    | nil => cases hminus
    | cons c r => exact ⟨[c], rfl, by rw [show c = _ from hminus]; exact .minus⟩
  rw [if_neg hminus]
  by_cases hplus : deref r = '+'.toUInt8
  · rw [if_pos hplus]
    cases r with
    | nil => cases hplus
    | cons c r => exact ⟨[c], rfl, by rw [show c = _ from hplus]; exact .plus⟩
  · rw [if_neg hplus]
    exact ⟨[], rfl, .none⟩

theorem number?_sound (h : number? base s = some (negative, m, rest)) :
    ∃ t, s = t ++ rest ∧ Numeral base t negative m := by
  obtain ⟨sign, hsplit, hsign⟩ := splitSign_split (s.dropWhile isspace)
  rw [number?] at h
  generalize splitSign (s.dropWhile isspace) = split at h hsplit hsign
  obtain ⟨out, hout, heq⟩ := map_eq_some_iff.mp h
  obtain ⟨body, hbody, hm⟩ := unsigned?_sound hout
  cases heq
  refine ⟨s.takeWhile isspace ++ (sign ++ body), ?_, _, sign, body, rfl,
    fun c hc => mem_takeWhile_imp hc, hsign, hm⟩
  calc s = s.takeWhile isspace ++ s.dropWhile isspace := takeWhile_append_dropWhile.symm
    _ = s.takeWhile isspace ++ (sign ++ split.2) := by rw [← hsplit]
    _ = s.takeWhile isspace ++ (sign ++ (body ++ out.2)) := by rw [← hbody]
    _ = s.takeWhile isspace ++ (sign ++ body) ++ out.2 := by simp

theorem number?_complete {t : List UInt8} (h : Numeral base t negative m) (rest : List UInt8) :
    ∃ out, number? base (t ++ rest) = some out ∧
      (out.2.2.length < rest.length ∨ out = (negative, m, rest)) := by
  obtain ⟨spaces, sign, body, rfl, hspaces, hsign, hbody⟩ := h
  obtain ⟨m', rest', hout, hlen⟩ := unsigned?_complete hbody rest
  obtain ⟨c, cs, rfl, hc⟩ := hbody.head
  have hdrop : (spaces ++ (sign ++ c :: cs) ++ rest).dropWhile isspace = sign ++ c :: (cs ++ rest) := by
    rw [append_assoc, dropWhile_append_of_pos hspaces]
    cases hsign with
    | none => exact dropWhile_cons_of_neg (by rw [(plain_of_digit c hc).1]; decide)
    | plus => rfl
    | minus => rfl
  refine ⟨(negative, m', rest'), ?_, hlen.imp_right ?_⟩
  · obtain ⟨-, hminus, hplus⟩ := plain_of_digit c hc
    have hderef : deref (c :: (cs ++ rest)) = c := rfl
    rw [number?, hdrop]
    cases hsign with
    | none =>
      rw [nil_append, splitSign, hderef, if_neg hminus, if_neg hplus]
      exact map_eq_some_iff.mpr ⟨(m', rest'), hout, rfl⟩
    | plus | minus => exact map_eq_some_iff.mpr ⟨(m', rest'), hout, rfl⟩
  · rintro ⟨rfl, rfl⟩
    rfl

theorem number?_eq_some_iff :
    number? base s = some (negative, m, rest) ↔ Longest base s negative m rest := by
  constructor
  · intro h
    obtain ⟨t, rfl, hnumeral⟩ := number?_sound h
    refine ⟨t, rfl, hnumeral, ?_⟩
    intro t' rest' negative' magnitude' hsplit hnumeral'
    obtain ⟨out, hout, hlen⟩ := number?_complete hnumeral' rest'
    rw [← hsplit, h, Option.some.injEq] at hout
    have hle : rest.length ≤ rest'.length := by
      rcases hlen with hlt | heq
      · rw [← hout] at hlt
        exact hlt.le
      · rw [← hout] at heq
        exact Nat.le_of_eq (congrArg (fun out => out.2.2.length) heq)
    have htotal := congrArg List.length hsplit
    simp only [length_append] at htotal
    omega
  · rintro ⟨t, rfl, hnumeral, hmax⟩
    obtain ⟨out, hout, hlt | rfl⟩ := number?_complete hnumeral rest
    · obtain ⟨negative', m', rest'⟩ := out
      obtain ⟨t', hsplit, hnumeral'⟩ := number?_sound hout
      have hle := hmax t' rest' _ _ hsplit hnumeral'
      dsimp only at hlt
      have htotal := congrArg List.length hsplit
      simp only [length_append] at htotal
      omega
    · exact hout

theorem number?_eq_none_iff : number? base s = none ↔ NoNumeral base s := by
  constructor
  · rintro h t rest negative magnitude rfl hnumeral
    obtain ⟨out, hout, -⟩ := number?_complete hnumeral rest
    rw [h] at hout
    cases hout
  · intro h
    cases hout : number? base s with
    | none => rfl
    | some out =>
      obtain ⟨negative, m, rest⟩ := out
      obtain ⟨t, hsplit, hnumeral⟩ := number?_sound hout
      exact absurd hnumeral (h t rest negative m hsplit)

end Nuttx.Libc

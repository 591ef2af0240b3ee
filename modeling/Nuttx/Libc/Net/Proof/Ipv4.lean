import Nuttx.Libc.Net.InetPton
import Nuttx.Libc.Stdlib.Proof.Strtol

/-!
# What `inet_ipv4_pton` accepts and where it writes

The function returns 1 for dotted quads only. The check for too many dots lets a fourth dot pass.
-/

open List

namespace Nuttx.Libc

open WriteLog

abbrev dot : UInt8 := '.'.toUInt8

structure IsOctet (f : List UInt8) : Prop where
  ne_nil : f ≠ []
  short : f.length ≤ 3
  digits : ∀ c ∈ f, isDigitIn 10 c = true
  le : valueOf 10 f ≤ 255

def octet (f : List UInt8) : UInt8 := UInt8.ofNat (valueOf 10 f)

inductive Dotted : Nat → List UInt8 → List UInt8 → Prop where
  | last {f : List UInt8} : IsOctet f → Dotted 1 f [octet f]
  | more {n : Nat} {f text bytes : List UInt8} : IsOctet f → Dotted n text bytes →
      Dotted (n + 1) (f ++ dot :: text) (octet f :: bytes)

theorem digit_spec : ∀ c : UInt8,
    (isDigitIn 10 c = true ↔ '0'.toUInt8 ≤ c ∧ c ≤ '9'.toUInt8) ∧
      (isDigitIn 10 c = true → c ≠ 0 ∧ c ≠ '.'.toUInt8) := by
  decide +kernel

variable {f s : List UInt8} {ndots n : Nat}

/-- A run of digits is collected, unless it is too long. -/
theorem ipv4Loop_digits (hf : ∀ c ∈ f, isDigitIn 10 c = true) (src : List UInt8)
    (numstr : Numstr 4) (ndots : Nat) (dest : List (Nat × UInt8)) :
    ipv4Loop (f ++ src) numstr ndots dest =
      if h : (numstr.chars ++ f).length < 4 then ipv4Loop src ⟨numstr.chars ++ f, h⟩ ndots dest
      else ⟨0, dest⟩ := by
  induction f generalizing numstr with
  | nil => simp [numstr.fits]
  | cons c f ih =>
    obtain ⟨hc, hf⟩ := forall_mem_cons.mp hf
    obtain ⟨h0, hdot⟩ := (digit_spec c).2 hc
    rw [cons_append, ipv4Loop, if_neg h0, if_neg hdot, if_pos ((digit_spec c).1.mp hc), Numstr.push?]
    by_cases hlen : numstr.chars.length + 1 < 4
    · rw [dif_pos hlen]
      dsimp only
      rw [ih hf]
      simp only [append_assoc, singleton_append]
    · rw [dif_neg hlen, dif_neg (by rw [length_append, length_cons]; omega)]

theorem ipv4Number_digits (hdigits : ∀ c ∈ f, isDigitIn 10 c = true) (hne : f ≠ [])
    (hfits : f.length < 4) (ndots : Nat) (dest : List (Nat × UInt8)) : ipv4Number ⟨f, hfits⟩ ndots dest =
      if 255 < valueOf 10 f then none else some (dest ++ [(ndots, octet f)]) := by
  have hlen : ¬ f.length < 1 := by
    have hpos := length_pos_iff.mpr hne
    omega
  have hlt : valueOf 10 f < 10 ^ f.length := valueOf_lt hdigits
  have hpow : 10 ^ f.length ≤ 10 ^ 3 := Nat.pow_le_pow_right (by decide) (by omega)
  have hmax : (valueOf 10 f : Int) ≤ LONG_MAX := by unfold LONG_MAX; omega
  have hvalue : atoi f = valueOf 10 f := strtol_digits (by decide) hne hdigits hmax
  rw [ipv4Number, if_neg hlen, hvalue]
  exact if_congr (by omega) rfl rfl

theorem ipv4Number_octet (hf : IsOctet f) (hfits : f.length < 4) (ndots : Nat)
    (dest : List (Nat × UInt8)) :
    ipv4Number ⟨f, hfits⟩ ndots dest = some (dest ++ [(ndots, octet f)]) := by
  rw [ipv4Number_digits hf.digits hf.ne_nil, if_neg hf.le.not_gt]

theorem ipv4Number_other (hdigits : ∀ c ∈ f, isDigitIn 10 c = true)
    (hf : ¬ IsOctet f) (hfits : f.length < 4) (ndots : Nat) (dest : List (Nat × UInt8)) :
    ipv4Number ⟨f, hfits⟩ ndots dest = none := by
  by_cases hne : f = []
  · subst hne
    rfl
  rw [ipv4Number_digits hdigits hne, if_pos]
  by_contra hle
  exact hf ⟨hne, by omega, hdigits, by omega⟩

theorem numstr4_pos : 0 < 4 := by decide

abbrev noChars : Numstr 4 := .empty numstr4_pos

theorem ipv4Loop_front (hf : ∀ c ∈ f, isDigitIn 10 c = true) (src : List UInt8) (ndots : Nat)
    (dest : List (Nat × UInt8)) : ipv4Loop (f ++ src) noChars ndots dest =
      if h : f.length < 4 then ipv4Loop src ⟨f, h⟩ ndots dest else ⟨0, dest⟩ :=
  ipv4Loop_digits hf src noChars ndots dest

theorem ipv4Loop_last (hf : IsOctet f) (ndots : Nat) (dest : List (Nat × UInt8)) :
    ipv4Loop f noChars ndots dest =
      ⟨if ndots = 3 then 1 else 0, dest ++ [(ndots, octet f)]⟩ := by
  have hfits : f.length < 4 := Nat.lt_succ_of_le hf.short
  have hrun := ipv4Loop_front hf.digits [] ndots dest
  rw [append_nil] at hrun
  rw [hrun, dif_pos hfits, ipv4Loop, ipv4End, ipv4Number_octet hf]
  split_ifs <;> first | rfl | contradiction

theorem ipv4Loop_more (hf : IsOctet f) (src : List UInt8)
    (hndots : ndots < 4) (dest : List (Nat × UInt8)) :
    ipv4Loop (f ++ dot :: src) noChars ndots dest =
      ipv4Loop src noChars (ndots + 1) (dest ++ [(ndots, octet f)]) := by
  have hfits : f.length < 4 := Nat.lt_succ_of_le hf.short
  have hdot : ¬ dot = 0 := by decide
  rw [ipv4Loop_front hf.digits, dif_pos hfits, ipv4Loop, if_neg hdot, if_pos rfl, if_neg (by omega), ipv4Number_octet hf]

theorem digits_front {rest : List UInt8} (hf : ∀ c ∈ f, isDigitIn 10 c = true)
    (hrest : isDigitIn 10 (deref rest) = false) :
    (f ++ rest).takeWhile (isDigitIn 10) = f ∧ (f ++ rest).dropWhile (isDigitIn 10) = rest := by
  rw [takeWhile_append_of_pos hf, dropWhile_append_of_pos hf]
  have htake : rest.takeWhile (isDigitIn 10) = [] := takeWhile_eq_nil_iff.mpr hrest
  refine ⟨by rw [htake, append_nil], ?_⟩
  have happend : rest.takeWhile (isDigitIn 10) ++ rest.dropWhile (isDigitIn 10) = rest :=
    takeWhile_append_dropWhile
  rwa [htake, nil_append] at happend

theorem dot_not_digit (src : List UInt8) : isDigitIn 10 (deref (dot :: src)) = false := by
  rw [deref_cons]
  decide

theorem Dotted.front {rest bytes : List UInt8} (h : Dotted n (f ++ rest) bytes)
    (hf : ∀ c ∈ f, isDigitIn 10 c = true) (hrest : isDigitIn 10 (deref rest) = false) :
    IsOctet f ∧ ((rest = [] ∧ n = 1 ∧ bytes = [octet f]) ∨
      ∃ m src bytes', rest = dot :: src ∧ n = m + 1 ∧ bytes = octet f :: bytes' ∧
        Dotted m src bytes') := by
  obtain ⟨htake, hdrop⟩ := digits_front hf hrest
  generalize f ++ rest = s at h htake hdrop
  cases h with
  | last hs =>
    have hnil : isDigitIn 10 (deref []) = false := by decide
    obtain ⟨htake', hdrop'⟩ := digits_front hs.digits hnil
    rw [append_nil] at htake' hdrop'
    obtain rfl : s = f := htake'.symm.trans htake
    obtain rfl : [] = rest := hdrop'.symm.trans hdrop
    exact ⟨hs, .inl ⟨rfl, rfl, rfl⟩⟩
  | @more m f' src bytes' hf' hsrc =>
    obtain ⟨htake', hdrop'⟩ := digits_front hf'.digits (dot_not_digit src)
    obtain rfl : f' = f := htake'.symm.trans htake
    obtain rfl : dot :: src = rest := hdrop'.symm.trans hdrop
    exact ⟨hf', .inr ⟨m, src, bytes', rfl, rfl, rfl, hsrc⟩⟩

theorem Dotted.of_octet {bytes : List UInt8} (h : Dotted n f bytes) (hf : IsOctet f) :
    n = 1 ∧ bytes = [octet f] := by
  have happend : Dotted n (f ++ []) bytes := by rwa [append_nil]
  obtain ⟨-, ⟨-, h1, hbytes⟩ | ⟨m, src, bytes', hnil, -⟩⟩ := happend.front hf.digits (by decide)
  · exact ⟨h1, hbytes⟩
  · cases hnil

theorem Dotted.of_more {src bytes : List UInt8} (h : Dotted n (f ++ dot :: src) bytes)
    (hf : IsOctet f) : ∃ m bytes', n = m + 1 ∧ bytes = octet f :: bytes' ∧ Dotted m src bytes' := by
  obtain ⟨-, ⟨hnil, -⟩ | ⟨m, src', bytes', hcons, hn, hbytes, hsrc⟩⟩ :=
    h.front hf.digits (dot_not_digit src)
  · cases hnil
  · cases hcons
    exact ⟨m, bytes', hn, hbytes, hsrc⟩

theorem ipv4_cases (hs : 0 ∉ s) :
    IsOctet s ∨ (∃ f src, IsOctet f ∧ s = f ++ dot :: src) ∨
      ((∀ n bytes, ¬ Dotted n s bytes) ∧
        ∀ ndots dest, ipv4Loop s noChars ndots dest = ⟨0, dest⟩) := by
  have hsplit : s.takeWhile (isDigitIn 10) ++ s.dropWhile (isDigitIn 10) = s :=
    takeWhile_append_dropWhile
  have hdigits : ∀ c ∈ s.takeWhile (isDigitIn 10), isDigitIn 10 c = true :=
    fun c hc => mem_takeWhile_imp hc
  have hhead : isDigitIn 10 (deref (s.dropWhile (isDigitIn 10))) = false := by
    have hnot := List.head?_dropWhile_not (isDigitIn 10) s
    cases hrest : s.dropWhile (isDigitIn 10) with
    | nil => decide
    | cons c rest => rwa [hrest] at hnot
  generalize s.takeWhile (isDigitIn 10) = f at hsplit hdigits
  generalize s.dropWhile (isDigitIn 10) = rest at hsplit hhead
  subst hsplit
  by_cases hfront : IsOctet f ∧ (rest = [] ∨ ∃ src, rest = dot :: src)
  · obtain ⟨hf, rfl | ⟨src, rfl⟩⟩ := hfront
    · left
      rwa [append_nil]
    · exact .inr (.inl ⟨f, src, hf, rfl⟩)
  right; right
  refine ⟨fun n bytes hdotted => ?_, fun ndots dest => ?_⟩
  · obtain ⟨hf, ⟨hnil, -⟩ | ⟨m, src, bytes', hcons, -⟩⟩ := hdotted.front hdigits hhead
    · exact hfront ⟨hf, .inl hnil⟩
    · exact hfront ⟨hf, .inr ⟨src, hcons⟩⟩
  rw [ipv4Loop_front hdigits]
  split_ifs with hfits
  swap
  · rfl
  cases rest with
  | nil =>
    have hf : ¬ IsOctet f := fun hf => hfront ⟨hf, .inl rfl⟩
    rw [ipv4Loop, ipv4End, ipv4Number_other hdigits hf]
  | cons c rest =>
    have hc0 : ¬ c = 0 := by
      rintro rfl
      exact hs (by simp)
    by_cases hdot : c = dot
    · subst hdot
      have hf : ¬ IsOctet f := fun hf => hfront ⟨hf, .inr ⟨rest, rfl⟩⟩
      rw [ipv4Loop, if_neg hc0, if_pos rfl, ipv4Number_other hdigits hf]
      split_ifs <;> rfl
    · have hnot : ¬ ('0'.toUInt8 ≤ c ∧ c ≤ '9'.toUInt8) := by
        rw [← (digit_spec _).1]
        rw [deref_cons] at hhead
        simp [hhead]
      rw [ipv4Loop, if_neg hc0, if_neg hdot, if_neg hnot]

theorem ipv4Loop_spec (k : Nat) (hk : ndots + k = 4) (hs : 0 ∉ s) (dest : List (Nat × UInt8)) :
    (∀ bytes, Dotted k s bytes →
      ipv4Loop s noChars ndots dest = ⟨1, dest ++ row ndots bytes⟩) ∧
    (∀ bytes, Dotted (k + 1) s bytes →
      ipv4Loop s noChars ndots dest = ⟨0, dest ++ row ndots bytes⟩) ∧
    ((∀ bytes, ¬ Dotted k s bytes) → (∀ bytes, ¬ Dotted (k + 1) s bytes) →
      ∃ bytes, ndots + bytes.length ≤ 4 ∧
        ipv4Loop s noChars ndots dest = ⟨0, dest ++ row ndots bytes⟩) := by
  induction k generalizing ndots s dest with
  | zero =>
    obtain rfl : ndots = 4 := hk
    refine ⟨nofun, fun bytes h => ?_, fun _ hno => ?_⟩
    · cases h with
      | last hf => exact ipv4Loop_last hf 4 dest
      | more hf hsrc => cases hsrc
    refine ⟨[], le_rfl, ?_⟩
    rw [row, append_nil]
    rcases ipv4_cases hs with hf | ⟨f, src, hf, rfl⟩ | ⟨-, hrefuse⟩
    · exact absurd (.last hf) (hno _)
    · rw [ipv4Loop_front hf.digits, dif_pos (Nat.lt_succ_of_le hf.short), ipv4Loop,
        if_neg (by decide), if_pos rfl, if_pos le_rfl]
    · exact hrefuse 4 dest
  | succ k ih =>
    rcases ipv4_cases hs with hf | ⟨f, src, hf, rfl⟩ | ⟨hno, hrefuse⟩
    · have hlast := ipv4Loop_last hf ndots dest
      refine ⟨fun bytes h => ?_, fun bytes h => ?_, fun hno _ => ⟨[octet s], ?_, ?_⟩⟩
      · obtain ⟨h1, rfl⟩ := h.of_octet hf
        rw [hlast, if_pos (by omega)]
        rfl
      · have h1 := (h.of_octet hf).1
        omega
      · rw [length_singleton]
        omega
      · have hk0 : k ≠ 0 := by
          rintro rfl
          exact hno _ (.last hf)
        rw [hlast, if_neg (by omega)]
        rfl
    · have hsrc : 0 ∉ src := fun hmem => hs (by simp [hmem])
      have hnext : ndots + 1 + k = 4 := by omega
      obtain ⟨haccept, hexcess, hother⟩ := ih hnext hsrc (dest ++ [(ndots, octet f)])
      have hmore := ipv4Loop_more hf src (by omega : ndots < 4) dest
      have hrow : ∀ bytes, dest ++ [(ndots, octet f)] ++ row (ndots + 1) bytes
          = dest ++ row ndots (octet f :: bytes) := by
        intro bytes
        rw [append_assoc]
        rfl
      rw [hmore]
      refine ⟨fun bytes h => ?_, fun bytes h => ?_, fun hno hno' => ?_⟩
      · obtain ⟨m, bytes', hm, rfl, hsrc⟩ := h.of_more hf
        obtain rfl : k = m := by omega
        rw [haccept bytes' hsrc, hrow]
      · obtain ⟨m, bytes', hm, rfl, hsrc⟩ := h.of_more hf
        obtain rfl : k + 1 = m := by omega
        rw [hexcess bytes' hsrc, hrow]
      · obtain ⟨bytes, hlen, heq⟩ := hother (fun bytes h => hno _ (.more hf h))
          (fun bytes h => hno' _ (.more hf h))
        refine ⟨octet f :: bytes, by rw [length_cons]; omega, ?_⟩
        rw [heq, hrow]
    · refine ⟨fun bytes h => absurd h (hno _ _), fun bytes h => absurd h (hno _ _),
        fun _ _ => ⟨[], by rw [length_nil]; omega, ?_⟩⟩
      rw [hrefuse, row, append_nil]

theorem Dotted.length {bytes : List UInt8} (h : Dotted n s bytes) : bytes.length = n := by
  induction h with
  | last hf => rfl
  | more hf hsrc ih => rw [length_cons, ih]

/-- What `inet_ipv4_pton` is for: 1 and the four bytes for a dotted quad, 0 for any other string, and
no write outside the four bytes of the result. -/
def Ipv4Right (s : List UInt8) (out : Ipv4Out) : Prop :=
  (∀ bytes, Dotted 4 s bytes → out.ret = 1 ∧ ∀ i < 4, last? out.dest i = bytes[i]?) ∧
  ((∀ bytes, ¬ Dotted 4 s bytes) → out.ret = 0) ∧
  Within 4 out.dest

/-- `inet_ipv4_pton` converts the dotted addresses and nothing else, within its four bytes, iff the
string is not five numbers with dots between them: the fifth is written behind the buffer. -/
theorem ipv4_right_iff_not_five (s : CString) :
    Ipv4Right s.bytes (inetIpv4Pton s.bytes) ↔ ∀ bytes, ¬ Dotted 5 s.bytes bytes := by
  obtain ⟨haccept, hexcess, hother⟩ :=
    ipv4Loop_spec 4 (Nat.zero_add 4) s.noNul (row 0 [0, 0, 0, 0])
  have hcleared : Within 4 (row 0 ([0, 0, 0, 0] : List UInt8)) := within_row.mpr (.inr (by decide))
  constructor
  · rintro ⟨-, -, hwithin⟩ bytes hfive
    rw [inetIpv4Pton, hexcess bytes hfive] at hwithin
    have hlen := hfive.length
    rcases within_row.mp (within_append.mp hwithin).2 with rfl | hle
    · cases hlen
    · omega
  intro hfive
  refine ⟨fun bytes h => ?_, fun hno => ?_, ?_⟩
  · rw [inetIpv4Pton, haccept bytes h]
    refine ⟨rfl, fun i hi => ?_⟩
    have hlen : i < bytes.length := by rw [h.length]; exact hi
    rw [last?_append, last?_row, if_pos (Nat.zero_le _), Nat.sub_zero,
      List.getElem?_eq_getElem hlen]
    rfl
  · obtain ⟨bytes, -, heq⟩ := hother hno hfive
    rw [inetIpv4Pton, heq]
  · by_cases hfour : ∃ bytes, Dotted 4 s.bytes bytes
    · obtain ⟨bytes, h⟩ := hfour
      rw [inetIpv4Pton, haccept bytes h]
      exact within_append.mpr ⟨hcleared, within_row.mpr (.inr (by rw [h.length]))⟩
    · obtain ⟨bytes, hlen, heq⟩ := hother (fun bytes h => hfour ⟨bytes, h⟩) hfive
      rw [inetIpv4Pton, heq]
      exact within_append.mpr ⟨hcleared, within_row.mpr (.inr hlen)⟩

theorem ipv4_five_numbers :
    inetIpv4Pton (List.map Char.toUInt8 ['1', '.', '2', '.', '3', '.', '4', '.', '5'])
        = ⟨0, row 0 [0, 0, 0, 0] ++ row 0 [1, 2, 3, 4, 5]⟩ ∧
      ¬ Ipv4Right (List.map Char.toUInt8 ['1', '.', '2', '.', '3', '.', '4', '.', '5'])
        (inetIpv4Pton (List.map Char.toUInt8 ['1', '.', '2', '.', '3', '.', '4', '.', '5'])) := by
  have hrun : inetIpv4Pton (List.map Char.toUInt8 ['1', '.', '2', '.', '3', '.', '4', '.', '5'])
      = ⟨0, row 0 [0, 0, 0, 0] ++ row 0 [1, 2, 3, 4, 5]⟩ := by decide
  refine ⟨hrun, fun hright => ?_⟩
  have hwithin := hright.2.2
  rw [hrun, within_append, within_row, within_row] at hwithin
  exact absurd hwithin.2 (by decide)

end Nuttx.Libc

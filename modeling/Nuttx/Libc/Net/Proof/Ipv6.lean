import Nuttx.Libc.Net.InetPton
import Nuttx.Libc.Stdlib.Proof.Strtol

/-!
# What `inet_ipv6_pton` accepts and where it writes

The text is read field by field, a field being what stands between two colons.
-/

open List Option

namespace Nuttx.Libc

open WriteLog

abbrev colon : UInt8 := ':'.toUInt8

structure IsGroup (g : List UInt8) : Prop where
  ne_nil : g ≠ []
  short : g.length ≤ 4
  digits : ∀ c ∈ g, isDigitIn 16 c = true

def joinGroups : List (List UInt8) → List UInt8
  | [] => []
  | [g] => g
  | g :: gs => g ++ colon :: joinGroups gs

def valueBytes (vs : List Nat) : List UInt8 := vs.flatMap groupBytes

def textBytes (gs : List (List UInt8)) : List UInt8 := valueBytes (gs.map (valueOf 16))

inductive Ipv6Text : List UInt8 → List UInt8 → Prop where
  | full {gs : List (List UInt8)} : gs.length = 8 → (∀ g ∈ gs, IsGroup g) →
      Ipv6Text (joinGroups gs) (textBytes gs)
  | short {ls rs : List (List UInt8)} : ls.length + rs.length ≤ 7 → (∀ g ∈ ls, IsGroup g) →
      (∀ g ∈ rs, IsGroup g) →
      Ipv6Text (joinGroups ls ++ colon :: colon :: joinGroups rs)
        (textBytes ls ++ List.replicate (2 * (8 - ls.length - rs.length)) 0 ++ textBytes rs)

def consChar (c : UInt8) (fields : List (List UInt8) × List UInt8) : List (List UInt8) × List UInt8 :=
  match fields.1 with
  | [] => ([], c :: fields.2)
  | f :: fs => ((c :: f) :: fs, fields.2)

def splitFields : List UInt8 → List (List UInt8) × List UInt8
  | [] => ([], [])
  | c :: s =>
    if c = colon then ([] :: (splitFields s).1, (splitFields s).2)
    else consChar c (splitFields s)

def withColons (fs : List (List UInt8)) : List UInt8 := fs.flatMap (· ++ [colon])

def filled (f : List UInt8) : Bool := ! f.isEmpty

structure IsField (f : List UInt8) : Prop where
  short : f.length ≤ 4
  digits : ∀ c ∈ f, isDigitIn 16 c = true

/-- The strings that `inet_ipv6_pton` reads to the end and then accepts or has stored a ninth group
of. With `fs` the fields that a colon ends: there is a colon, all fields are hexadecimal, fewer than
eight groups come before the last colon's field, at most one group lies between the first empty field
and any later one, and there are at most seven groups in `fs`, or eight that all go to one buffer. -/
structure Lenient (s : List UInt8) : Prop where
  colon : (splitFields s).1 ≠ []
  fields : ∀ f ∈ (splitFields s).1, IsField f
  last : IsField (splitFields s).2
  early : (splitFields s).1.dropLast.countP filled < 8
  close : ∀ pre post, (splitFields s).1 = pre ++ [] :: post → (pre.dropWhile filled).countP filled ≤ 1
  room : (splitFields s).1.countP filled ≤ 7 ∨
    ((splitFields s).1.countP filled = 8 ∧
      ((splitFields s).1.head? = some [] ∨ [] ∉ (splitFields s).1))

theorem withColons_cons (f : List UInt8) (fs : List (List UInt8)) :
    withColons (f :: fs) = f ++ colon :: withColons fs := by
  rw [withColons, flatMap_cons, List.append_assoc]
  rfl

theorem splitFields_spec (s : List UInt8) :
    withColons (splitFields s).1 ++ (splitFields s).2 = s ∧
      (∀ f ∈ (splitFields s).1, colon ∉ f) ∧ colon ∉ (splitFields s).2 := by
  induction s with
  | nil => exact ⟨rfl, forall_mem_nil _, not_mem_nil⟩
  | cons c s ih =>
    obtain ⟨hjoin, hfs, hl⟩ := ih
    rw [splitFields]
    by_cases hc : c = colon
    · rw [if_pos hc]
      refine ⟨?_, forall_mem_cons.mpr ⟨not_mem_nil, hfs⟩, hl⟩
      rw [withColons_cons, nil_append, cons_append, hjoin, hc]
    rw [if_neg hc]
    have hne : ∀ {f : List UInt8}, colon ∉ f → colon ∉ c :: f := by
      intro f hf hmem
      rcases mem_cons.mp hmem with heq | hmem
      · exact hc heq.symm
      · exact hf hmem
    unfold consChar
    cases hfirst : (splitFields s).1 with
    | nil =>
      rw [hfirst] at hjoin
      exact ⟨congrArg (c :: ·) hjoin, forall_mem_nil _, hne hl⟩
    | cons f fs =>
      rw [hfirst] at hjoin hfs
      obtain ⟨hf, hfs⟩ := forall_mem_cons.mp hfs
      refine ⟨?_, forall_mem_cons.mpr ⟨hne hf, hfs⟩, hl⟩
      rw [withColons_cons] at hjoin ⊢
      exact congrArg (c :: ·) hjoin

theorem hexDigit_spec : ∀ c : UInt8, isxdigit c = isDigitIn 16 c ∧
    (isDigitIn 16 c = true → c ≠ 0 ∧ c ≠ ':'.toUInt8) := by
  decide +kernel

structure Groups where
  ls : List Nat
  rs : List Nat
  rtime : Bool

def Groups.total (g : Groups) : Nat := g.ls.length + g.rs.length

theorem numstr5_pos : 0 < 5 := by decide

abbrev noHex : Numstr 5 := .empty numstr5_pos

def Groups.state (g : Groups) (numstr : Numstr 5) : Ipv6State :=
  ⟨numstr, row 0 (valueBytes g.ls), row 0 (valueBytes g.rs), g.ls.length, g.rs.length, g.rtime⟩

def Groups.push (g : Groups) (v : Nat) : Groups :=
  if g.rtime then { g with rs := g.rs ++ [v] } else { g with ls := g.ls ++ [v] }

theorem length_valueBytes (vs : List Nat) : (valueBytes vs).length = 2 * vs.length := by
  induction vs with
  | nil => rfl
  | cons v vs ih =>
    have hcons : valueBytes (v :: vs) = groupBytes v ++ valueBytes vs := flatMap_cons
    rw [hcons, length_append, ih, length_cons]
    have hgroup : (groupBytes v).length = 2 := rfl
    omega

variable {f : List UInt8} {g g' : Groups} {fs : List (List UInt8)}

theorem strtol_field (hf : IsField f) :
    (strtol f 16).value = valueOf 16 f ∧ valueOf 16 f ≤ 0xffff := by
  have hlt : valueOf 16 f < 16 ^ f.length := valueOf_lt hf.digits
  have hpow : 16 ^ f.length ≤ 16 ^ 4 := Nat.pow_le_pow_right (by decide) hf.short
  refine ⟨?_, by omega⟩
  by_cases hne : f = []
  · subst hne
    rfl
  · have hmax : (valueOf 16 f : Int) ≤ LONG_MAX := by unfold LONG_MAX; omega
    exact strtol_digits (by decide) hne hf.digits hmax

theorem store?_field (g : Groups) (hf : IsField f) (hfits : f.length < 5) :
    (g.state ⟨f, hfits⟩).store? = some ((g.push (valueOf 16 f)).state noHex) := by
  obtain ⟨hvalue, hle⟩ := strtol_field hf
  have hrange : ¬ ((valueOf 16 f : Int) < 0 ∨ (valueOf 16 f : Int) > 0xffff) := by omega
  have hrow : ∀ vs : List Nat, row 0 (valueBytes vs) ++ row (2 * vs.length) (groupBytes (valueOf 16 f))
      = row 0 (valueBytes (vs ++ [valueOf 16 f])) := by
    intro vs
    have hbytes : valueBytes (vs ++ [valueOf 16 f]) = valueBytes vs ++ groupBytes (valueOf 16 f) := by
      simp [valueBytes]
    rw [hbytes, row_append, length_valueBytes, Nat.zero_add]
  unfold Ipv6State.store?
  have hchars : (g.state ⟨f, hfits⟩).numstr.chars = f := rfl
  rw [hchars, hvalue]
  rw [if_neg hrange, Int.toNat_natCast]
  cases hrtime : g.rtime with
  | false | true =>
    simp [Groups.state, Groups.push, hrtime, hrow]

theorem ipv6Loop_chars (hnul : 0 ∉ f) (hcolon : colon ∉ f) (src : List UInt8) (g : Groups)
    (numstr : Numstr 5) : ipv6Loop (f ++ src) (g.state numstr) =
      if h : (numstr.chars ++ f).length < 5 ∧ ∀ c ∈ f, isDigitIn 16 c = true then
        ipv6Loop src (g.state ⟨numstr.chars ++ f, h.1⟩)
      else (g.state noHex).fail := by
  induction f generalizing numstr with
  | nil => simp [numstr.fits]
  | cons c f ih =>
    rw [mem_cons, not_or] at hnul hcolon
    rw [cons_append, ipv6Loop, if_neg (Ne.symm hnul.1), if_neg (Ne.symm hcolon.1), (hexDigit_spec _).1]
    by_cases hc : isDigitIn 16 c = true
    · rw [if_pos hc]
      by_cases hlen : numstr.chars.length + 1 < 5
      · have hpush : (g.state numstr).numstr.push? c
            = some ⟨numstr.chars ++ [c], by rw [length_append]; exact hlen⟩ := dif_pos hlen
        rw [hpush]
        refine (ih hnul.2 hcolon.2 _).trans ?_
        simp only [List.append_assoc, singleton_append, forall_mem_cons, hc, true_and]
      · have hpush : (g.state numstr).numstr.push? c = none := dif_neg hlen
        rw [hpush, dif_neg fun h => ?_]
        · rfl
        · have hshort := h.1
          rw [length_append, length_cons] at hshort
          omega
    · rw [if_neg hc, dif_neg fun h => hc (h.2 c mem_cons_self)]
      rfl

/-- A field is collected, and the text refused at one that is none. -/
theorem ipv6Loop_front (hnul : 0 ∉ f) (hcolon : colon ∉ f) (src : List UInt8) (g : Groups) :
    ipv6Loop (f ++ src) (g.state noHex) =
      if h : f.length < 5 ∧ ∀ c ∈ f, isDigitIn 16 c = true then ipv6Loop src (g.state ⟨f, h.1⟩)
      else (g.state noHex).fail :=
  ipv6Loop_chars hnul hcolon src g noHex

theorem ipv6Loop_digits (hf : IsField f) (src : List UInt8) (g : Groups) (hfits : f.length < 5) :
    ipv6Loop (f ++ src) (g.state noHex) = ipv6Loop src (g.state ⟨f, hfits⟩) := by
  have hplain := fun c hc => (hexDigit_spec c).2 (hf.digits c hc)
  rw [ipv6Loop_front (fun h => (hplain _ h).1 rfl) (fun h => (hplain _ h).2 rfl), dif_pos ⟨hfits, hf.digits⟩]

theorem ipv6Loop_notField (hnul : 0 ∉ f) (hcolon : colon ∉ f) (hf : ¬ IsField f)
    (src : List UInt8) (g : Groups) :
    ipv6Loop (f ++ src) (g.state noHex) = (g.state noHex).fail := by
  rw [ipv6Loop_front hnul hcolon, dif_neg fun h => hf ⟨Nat.le_of_lt_succ h.1, h.2⟩]

def Groups.field? (g : Groups) (f : List UInt8) : Option Groups :=
  if g.total ≥ 8 then none
  else if f = [] then
    if g.rtime ∧ g.rs.length > 1 then none else some { g with rtime := true }
  else some (g.push (valueOf 16 f))

theorem ipv6Loop_field (hf : IsField f) (src : List UInt8) (g : Groups) :
    ipv6Loop (f ++ colon :: src) (g.state noHex) =
      ((g.field? f).map fun g' => ipv6Loop src (g'.state noHex)).getD (g.state noHex).fail := by
  have hfits : f.length < 5 := Nat.lt_succ_of_le hf.short
  have h0 : ¬ colon = 0 := by decide
  rw [ipv6Loop_digits hf _ g hfits, ipv6Loop, if_neg h0, if_pos rfl]
  unfold Groups.field?
  by_cases htotal : g.total ≥ 8
  · rw [if_pos htotal]
    exact if_pos htotal
  rw [if_neg htotal]
  refine (if_neg htotal).trans ?_
  by_cases hnil : f = []
  · subst hnil
    rw [if_pos rfl]
    refine (if_pos Nat.zero_lt_one).trans ?_
    by_cases hclose : g.rtime = true ∧ g.rs.length > 1
    · rw [if_pos hclose]
      exact if_pos hclose
    · rw [if_neg hclose]
      exact if_neg hclose
  · have hlen : ¬ f.length < 1 := by
      have hpos := length_pos_iff.mpr hnil
      omega
    rw [if_neg hnil]
    refine (if_neg hlen).trans ?_
    rw [store?_field g hf hfits]
    rfl

def Groups.fields? : Groups → List (List UInt8) → Option Groups
  | g, [] => some g
  | g, f :: fs => (g.field? f).bind fun g' => g'.fields? fs

structure Refused (out : Ipv6Out) : Prop where
  ret : out.ret = 0
  dest : Within 16 out.dest
  ip : Within 16 out.ip
  rip : Within 16 out.rip

theorem within_valueBytes {vs : List Nat} : Within 16 (row 0 (valueBytes vs)) ↔ vs.length ≤ 8 := by
  rw [within_row, length_valueBytes, ← length_eq_zero_iff, length_valueBytes]
  omega

theorem within_cleared : Within 16 ipv6Cleared := within_row.mpr (.inr (by decide))

theorem refused_of_total (h : g.total ≤ 8) (numstr : Numstr 5) : Refused (g.state numstr).fail := by
  unfold Groups.total at h
  exact ⟨rfl, within_cleared, within_valueBytes.mpr (by omega), within_valueBytes.mpr (by omega)⟩

def Groups.append (g : Groups) (vs : List Nat) : Groups :=
  if g.rtime then { g with rs := g.rs ++ vs } else { g with ls := g.ls ++ vs }

theorem append_total (g : Groups) (vs : List Nat) : (g.append vs).total = g.total + vs.length := by
  unfold Groups.append Groups.total
  split_ifs
  · dsimp only
    rw [length_append, Nat.add_assoc]
  · dsimp only
    rw [length_append]
    omega

theorem push_eq (g : Groups) (v : Nat) : g.push v = g.append [v] := rfl

theorem push_total (g : Groups) (v : Nat) : (g.push v).total = g.total + 1 := append_total g [v]

theorem field?_total (h : g.field? f = some g') : g'.total ≤ 8 := by
  unfold Groups.field? at h
  split_ifs at h with htotal hnil hclose
  · cases h
    unfold Groups.total at htotal ⊢
    dsimp only
    omega
  · cases h
    rw [push_total]
    omega

theorem ipv6Loop_fields (hfs : ∀ f ∈ fs, colon ∉ f ∧ 0 ∉ f)
    (src : List UInt8) (htotal : g.total ≤ 8) :
    (∃ g', (∀ f ∈ fs, IsField f) ∧ g.fields? fs = some g' ∧ g'.total ≤ 8 ∧
      ipv6Loop (withColons fs ++ src) (g.state noHex) = ipv6Loop src (g'.state noHex)) ∨
    (¬ ((∀ f ∈ fs, IsField f) ∧ (g.fields? fs).isSome = true) ∧
      Refused (ipv6Loop (withColons fs ++ src) (g.state noHex))) := by
  induction fs generalizing g with
  | nil => exact .inl ⟨g, forall_mem_nil _, rfl, htotal, rfl⟩
  | cons f fs ih =>
    obtain ⟨⟨hcolon, hnul⟩, hfs⟩ := forall_mem_cons.mp hfs
    rw [withColons_cons, List.append_assoc, cons_append, forall_mem_cons, Groups.fields?]
    by_cases hf : IsField f
    · rw [ipv6Loop_field hf]
      cases hfield : g.field? f with
      | none =>
        right
        refine ⟨fun h => ?_, refused_of_total htotal noHex⟩
        cases h.2
      | some g1 =>
        rw [map_some, getD_some, bind_some]
        rcases ih hfs (field?_total hfield) with ⟨g', hall, hsome, htotal', hrun⟩ | ⟨hnot, hrefused⟩
        · exact .inl ⟨g', ⟨hf, hall⟩, hsome, htotal', hrun⟩
        · exact .inr ⟨fun h => hnot ⟨h.1.2, h.2⟩, hrefused⟩
    · right
      refine ⟨fun h => hf h.1.1, ?_⟩
      rw [ipv6Loop_notField hnul hcolon hf]
      exact refused_of_total htotal noHex

theorem bufferBytes_row (bytes : List UInt8) : bufferBytes (row 0 bytes) bytes.length = bytes := by
  unfold bufferBytes
  apply ext_getElem
  · rw [length_map, length_range]
  · intro i hi hi'
    rw [getElem_map, getElem_range, last?_row, if_pos (Nat.zero_le _), Nat.sub_zero,
      getElem?_eq_getElem hi', getD_some]

def Groups.dest (g : Groups) : List (Nat × UInt8) :=
  ipv6Cleared ++ row 0 (valueBytes g.ls) ++ row (16 - 2 * g.rs.length) (valueBytes g.rs)

theorem ipv6Loop_last {l : List UInt8} (hl : IsField l) (g : Groups) :
    ipv6Loop l (g.state noHex) =
      let g' := g.push (valueOf 16 l)
      if (g'.ls.length ≤ 1 ∧ g'.rs.length = 0) ∨ g'.total > 8 then (g'.state noHex).fail
      else ⟨1, g'.dest, row 0 (valueBytes g'.ls), row 0 (valueBytes g'.rs)⟩ := by
  have hfits : l.length < 5 := Nat.lt_succ_of_le hl.short
  have hrun := ipv6Loop_digits hl [] g hfits
  rw [List.append_nil] at hrun
  rw [hrun, ipv6Loop, Ipv6State.finish, store?_field g hl hfits]
  have hpos := push_total g (valueOf 16 l)
  generalize g.push (valueOf 16 l) = g' at hpos ⊢
  have hbytes : ∀ vs : List Nat, bufferBytes (row 0 (valueBytes vs)) (2 * vs.length) = valueBytes vs := by
    intro vs
    rw [← length_valueBytes]
    exact bufferBytes_row _
  refine if_congr ?_ rfl ?_
  · unfold Groups.total at hpos ⊢
    show (g'.ls.length ≤ 1 ∧ g'.rs.length = 0) ∨ g'.ls.length + g'.rs.length < 1 ∨
      g'.ls.length + g'.rs.length > 8 ↔ _
    omega
  · show Ipv6Out.mk 1 (ipv6Cleared ++ row 0 (bufferBytes (row 0 (valueBytes g'.ls)) (2 * g'.ls.length)) ++
      row (16 - 2 * g'.rs.length) (bufferBytes (row 0 (valueBytes g'.rs)) (2 * g'.rs.length))) _ _ = _
    rw [hbytes, hbytes]
    rfl

def Groups.behind (g : Groups) (pre : List (List UInt8)) : Nat :=
  if g.rtime then g.rs.length + pre.countP filled else (pre.dropWhile filled).countP filled

theorem filled_iff : filled f = true ↔ f ≠ [] := by
  cases f <;> simp [filled]

theorem early_cons {n : Nat} (hn : n < 8) (f : List UInt8) (fs : List (List UInt8)) :
    n + (f :: fs).dropLast.countP filled < 8 ↔
      fs = [] ∨ n + (if filled f then 1 else 0) + fs.dropLast.countP filled < 8 := by
  by_cases hfs : fs = []
  · subst hfs
    simpa using hn
  · rw [dropLast_cons_of_ne_nil hfs, countP_cons]
    simp only [hfs, false_or]
    omega

theorem forall_split_cons {p : List (List UInt8) → Prop} :
    (∀ pre post, f :: fs = pre ++ [] :: post → p pre) ↔
      (f = [] → p []) ∧ ∀ pre post, fs = pre ++ [] :: post → p (f :: pre) := by
  constructor
  · intro h
    refine ⟨fun hf => h [] fs (by rw [hf]; rfl), fun pre post hsplit => ?_⟩
    exact h (f :: pre) post (by rw [hsplit]; rfl)
  rintro ⟨hfirst, hmore⟩ pre post hsplit
  cases pre with
  | nil => exact hfirst (List.cons.inj hsplit).1
  | cons q pre =>
    obtain ⟨rfl, htail⟩ := List.cons.inj hsplit
    exact hmore pre post htail

theorem behind_nil_field (hg : g.rtime = false → g.rs = []) (pre : List (List UInt8)) :
    g.behind ([] :: pre) = ({ g with rtime := true } : Groups).behind pre := by
  unfold Groups.behind
  cases hrtime : g.rtime with
  | true => simp [filled]
  | false => simp [filled, hg hrtime]

theorem behind_filled_field (g : Groups) (hf : filled f = true)
    (pre : List (List UInt8)) (v : Nat) : g.behind (f :: pre) = (g.push v).behind pre := by
  unfold Groups.behind Groups.push
  cases hrtime : g.rtime with
  | true =>
    rw [if_pos rfl, if_pos rfl, if_pos rfl, countP_cons_of_pos hf, length_append, length_singleton]
    omega
  | false => simp [hf]

theorem fields?_isSome_iff (fs : List (List UInt8)) (hg : g.rtime = false → g.rs = []) :
    (g.fields? fs).isSome = true ↔ (fs = [] ∨ g.total + fs.dropLast.countP filled < 8) ∧
      ∀ pre post, fs = pre ++ [] :: post → g.behind pre ≤ 1 := by
  induction fs generalizing g with
  | nil => simp [Groups.fields?]
  | cons f fs ih =>
    rw [Groups.fields?, Groups.field?, forall_split_cons, or_iff_right (cons_ne_nil f fs)]
    by_cases htotal : g.total ≥ 8
    · rw [if_pos htotal]
      exact iff_of_false (by simp) fun h => by omega
    rw [if_neg htotal, early_cons (by omega)]
    by_cases hf : f = []
    · subst hf
      rw [if_pos rfl]
      have hstart : g.behind [] ≤ 1 ↔ ¬ (g.rtime = true ∧ g.rs.length > 1) := by
        unfold Groups.behind
        cases hrtime : g.rtime <;> simp
      by_cases hclose : g.rtime = true ∧ g.rs.length > 1
      · rw [if_pos hclose]
        exact iff_of_false (by simp) fun h => hstart.mp (h.2.1 rfl) hclose
      · rw [if_neg hclose, bind_some, ih (fun h => by cases h)]
        simp only [behind_nil_field hg, hstart, hclose, not_false_eq_true, imp_true_iff, true_and]
        rfl
    · have hfilled : filled f = true := filled_iff.mpr hf
      have hg' : (g.push (valueOf 16 f)).rtime = false → (g.push (valueOf 16 f)).rs = [] := by
        unfold Groups.push
        cases hrtime : g.rtime with
        | true => exact fun h => by cases h
        | false => exact fun _ => hg hrtime
      rw [if_neg hf, bind_some, ih hg', push_total, if_pos hfilled]
      simp [behind_filled_field g hfilled _ (valueOf 16 f), hf]

theorem fields?_some (h : g.fields? fs = some g') :
    g'.total = g.total + fs.countP filled ∧
      (g'.rtime = true ↔ g.rtime = true ∨ [] ∈ fs) ∧
      g'.ls.length = g.ls.length + if g.rtime then 0 else (fs.takeWhile filled).length := by
  induction fs generalizing g with
  | nil =>
    cases h
    simp
  | cons f fs ih =>
    obtain ⟨g1, hfield, hrest⟩ := bind_eq_some_iff.mp h
    obtain ⟨htotal, hrtime, hls⟩ := ih hrest
    unfold Groups.field? at hfield
    split_ifs at hfield with h8 hnil hclose
    · cases hfield
      subst hnil
      refine ⟨?_, ?_, ?_⟩
      · rw [htotal]
        simp [filled, Groups.total]
      · rw [hrtime]
        simp
      · rw [hls]
        simp [filled]
    · cases hfield
      have hfilled : filled f = true := filled_iff.mpr hnil
      refine ⟨?_, ?_, ?_⟩
      · rw [htotal, push_total, countP_cons_of_pos hfilled]
        omega
      · rw [hrtime, mem_cons]
        have hne : ¬ [] = f := fun heq => hnil heq.symm
        unfold Groups.push
        split_ifs <;> simp [hne]
      · rw [hls, takeWhile_cons_of_pos hfilled]
        unfold Groups.push
        cases hrt : g.rtime with
        | true => simp
        | false =>
          simp [Nat.add_comm, Nat.add_left_comm]

theorem append_nil (g : Groups) : g.append [] = g := by
  unfold Groups.append
  simp

theorem append_append (g : Groups) (vs ws : List Nat) : (g.append vs).append ws = g.append (vs ++ ws) := by
  unfold Groups.append
  cases hrtime : g.rtime <;> simp

theorem IsGroup.isField {g : List UInt8} (h : IsGroup g) : IsField g := ⟨h.short, h.digits⟩

theorem ipv6Loop_groups {gs : List (List UInt8)} (hgs : ∀ f ∈ gs, IsGroup f) (src : List UInt8)
    (g : Groups) (htotal : g.total + gs.length ≤ 8) :
    ipv6Loop (withColons gs ++ src) (g.state noHex) =
      ipv6Loop src ((g.append (gs.map (valueOf 16))).state noHex) := by
  induction gs generalizing g with
  | nil => rw [map_nil, append_nil]; rfl
  | cons f gs ih =>
    obtain ⟨hf, hgs⟩ := forall_mem_cons.mp hgs
    rw [length_cons] at htotal
    have hfield : g.field? f = some (g.push (valueOf 16 f)) := by
      unfold Groups.field?
      rw [if_neg (by omega), if_neg hf.ne_nil]
    rw [withColons_cons, List.append_assoc, cons_append, ipv6Loop_field hf.isField, hfield,
      map_some, getD_some, ih hgs _ (by rw [push_total]; omega), push_eq, append_append,
      map_cons, singleton_append]

theorem joinGroups_concat (gs : List (List UInt8)) (f : List UInt8) :
    joinGroups (gs ++ [f]) = withColons gs ++ f := by
  induction gs with
  | nil => rfl
  | cons g gs ih =>
    have hcons : joinGroups (g :: (gs ++ [f])) = g ++ colon :: joinGroups (gs ++ [f]) := by
      cases gs <;> rfl
    rw [cons_append, hcons, ih, withColons_cons, List.append_assoc, cons_append]

theorem joinGroups_colon {gs : List (List UInt8)} (hne : gs ≠ []) (src : List UInt8) :
    joinGroups gs ++ colon :: src = withColons gs ++ src := by
  obtain ⟨init, f, rfl⟩ := (eq_nil_or_concat' gs).resolve_left hne
  rw [joinGroups_concat]
  simp [withColons]

theorem ipv6Loop_left {ls : List (List UInt8)} (hls : ∀ f ∈ ls, IsGroup f) (hlen : ls.length ≤ 7)
    (src : List UInt8) :
    ipv6Loop (joinGroups ls ++ colon :: colon :: src) ((⟨[], [], false⟩ : Groups).state noHex) =
      ipv6Loop src ((⟨ls.map (valueOf 16), [], true⟩ : Groups).state noHex) := by
  -- an empty field after the groups, or two of them if there are none
  have hempty : ∀ g : Groups, g.total ≤ 7 → g.rs = [] →
      ipv6Loop (colon :: src) (g.state noHex) =
        ipv6Loop src (({ g with rtime := true } : Groups).state noHex) := by
    intro g htotal hrs
    have hfield : g.field? [] = some { g with rtime := true } := by
      unfold Groups.field?
      rw [if_neg (by omega), if_pos rfl, if_neg (by simp [hrs])]
    have hrun := ipv6Loop_field (f := []) ⟨by decide, forall_mem_nil _⟩ src g
    rw [hfield] at hrun
    exact hrun
  by_cases hne : ls = []
  · subst hne
    have hfield := ipv6Loop_field (f := []) ⟨by decide, forall_mem_nil _⟩ (colon :: src)
      ⟨[], [], false⟩
    exact hfield.trans (hempty ⟨[], [], true⟩ (by decide) rfl)
  rw [joinGroups_colon hne]
  have htotal : (⟨[], [], false⟩ : Groups).total + ls.length ≤ 8 := by
    show 0 + ls.length ≤ 8
    omega
  rw [ipv6Loop_groups hls _ _ htotal]
  refine hempty ⟨ls.map (valueOf 16), [], false⟩ ?_ rfl
  unfold Groups.total
  rw [length_map]
  exact hlen

def Groups.accept (g : Groups) : Ipv6Out :=
  ⟨1, g.dest, row 0 (valueBytes g.ls), row 0 (valueBytes g.rs)⟩

theorem ipv6Loop_right {rs : List (List UInt8)} (hrs : ∀ f ∈ rs, IsGroup f)
    (hf : IsField f) (g : Groups) (htotal : g.total + rs.length ≤ 7)
    (hmany : g.rtime = true ∨ 1 ≤ g.total + rs.length) :
    ipv6Loop (joinGroups (rs ++ [f])) (g.state noHex) =
      (g.append ((rs ++ [f]).map (valueOf 16))).accept := by
  have hsum := append_total g ((rs ++ [f]).map (valueOf 16))
  rw [length_map, length_append, length_singleton] at hsum
  rw [joinGroups_concat, ipv6Loop_groups hrs _ _ (by omega), ipv6Loop_last hf, push_eq, append_append,
    ← map_singleton (f := valueOf 16), ← map_append]
  refine if_neg fun hrefuse => ?_
  rcases hrefuse with ⟨hls, hrs⟩ | hmore
  · rcases hmany with hrtime | hmany
    · unfold Groups.append at hrs
      rw [if_pos hrtime, length_append, length_map, length_append, length_singleton] at hrs
      omega
    · unfold Groups.total at hsum hmany
      omega
  · omega

theorem last?_dest (htotal : g.total ≤ 8) {i : Nat} (hi : i < 16) :
    last? g.dest i =
      (valueBytes g.ls ++ replicate (2 * (8 - g.total)) 0 ++ valueBytes g.rs)[i]? := by
  have hls := length_valueBytes g.ls
  have hrs := length_valueBytes g.rs
  unfold Groups.total at htotal ⊢
  unfold Groups.dest ipv6Cleared
  rw [last?_append, last?_append, last?_row, last?_row, last?_row, if_pos (Nat.zero_le _),
    if_pos (Nat.zero_le _), Nat.sub_zero, getElem?_append, getElem?_append,
    getElem?_replicate, getElem?_replicate, length_append, length_replicate,
    if_pos hi]
  have hend : (valueBytes g.ls).length + 2 * (8 - (g.ls.length + g.rs.length)) =
      16 - 2 * g.rs.length := by omega
  rw [hend]
  by_cases hright : 16 - 2 * g.rs.length ≤ i
  · rw [if_pos hright, if_neg (by omega), getElem?_eq_getElem (by omega), some_or]
  rw [if_neg hright, if_pos (by omega), none_or]
  by_cases hleft : i < (valueBytes g.ls).length
  · rw [if_pos hleft, getElem?_eq_getElem hleft, some_or]
  · rw [if_neg hleft, if_pos (by omega), getElem?_eq_none (by omega), none_or]

structure Accepted (out : Ipv6Out) (bytes : List UInt8) : Prop where
  ret : out.ret = 1
  dest : ∀ i < 16, last? out.dest i = bytes[i]?
  within : Within 16 out.dest ∧ Within 16 out.ip ∧ Within 16 out.rip

theorem accept_accepted (htotal : g.total ≤ 8) :
    Accepted g.accept
      (valueBytes g.ls ++ replicate (2 * (8 - g.total)) 0 ++ valueBytes g.rs) := by
  refine ⟨rfl, fun i hi => last?_dest htotal hi, ?_⟩
  unfold Groups.total at htotal
  have hls : Within 16 (row 0 (valueBytes g.ls)) := within_valueBytes.mpr (by omega)
  have hrs : Within 16 (row (16 - 2 * g.rs.length) (valueBytes g.rs)) := by
    rw [within_row, length_valueBytes]
    omega
  exact ⟨within_append.mpr ⟨within_append.mpr ⟨within_cleared, hls⟩, hrs⟩, hls,
    within_valueBytes.mpr (by omega)⟩

theorem ipv6Loop_right_accepted {rs : List (List UInt8)}
    (hrs : ∀ f ∈ rs, IsGroup f) (hf : IsField f) (htotal : g.total + rs.length ≤ 7)
    (hmany : g.rtime = true ∨ 1 ≤ g.total + rs.length)
    (hg' : g.append ((rs ++ [f]).map (valueOf 16)) = g') :
    Accepted (ipv6Loop (joinGroups (rs ++ [f])) (g.state noHex))
      (valueBytes g'.ls ++ replicate (2 * (7 - (g.total + rs.length))) 0 ++ valueBytes g'.rs) := by
  have hsum := append_total g ((rs ++ [f]).map (valueOf 16))
  rw [length_map, length_append, length_singleton, hg'] at hsum
  have hzeros : 7 - (g.total + rs.length) = 8 - g'.total := by omega
  rw [ipv6Loop_right hrs hf g htotal hmany, hg', hzeros]
  exact accept_accepted (by omega)

theorem inetIpv6Pton_text {s bytes : List UInt8} (h : Ipv6Text s bytes) :
    Accepted (inetIpv6Pton s) bytes := by
  unfold inetIpv6Pton
  cases h with
  | @full gs hlen hgs =>
    have hne : gs ≠ [] := fun hnil => by rw [hnil] at hlen; cases hlen
    obtain ⟨init, f, rfl⟩ := (eq_nil_or_concat' gs).resolve_left hne
    rw [length_append, length_singleton] at hlen
    obtain ⟨hinit, hf⟩ := forall_mem_append.mp hgs
    have htotal : (⟨[], [], false⟩ : Groups).total + init.length = 7 := by
      show 0 + init.length = 7
      omega
    have hread := ipv6Loop_right_accepted hinit (hf f (mem_singleton_self f)).isField
      htotal.le (.inr (by omega)) rfl
    rw [htotal, Nat.sub_self, Nat.mul_zero, replicate_zero, List.append_nil] at hread
    rw [← List.append_nil (textBytes (init ++ [f]))]
    exact hread
  | @short ls rs hlen hls hrs =>
    have hleft := ipv6Loop_left hls (by omega) (joinGroups rs)
    refine hleft.symm ▸ ?_
    have htotal : (⟨ls.map (valueOf 16), [], true⟩ : Groups).total = ls.length := length_map _
    by_cases hne : rs = []
    · subst hne
      have hread := ipv6Loop_right_accepted (f := []) (forall_mem_nil _)
        ⟨by decide, forall_mem_nil _⟩ (g := ⟨ls.map (valueOf 16), [], true⟩)
        (by rw [htotal]; exact hlen) (.inl rfl) rfl
      -- the empty last field is a group 0 at the end of the zeros
      have hzeros : replicate (2 * (7 - (ls.length + 0))) (0 : UInt8) ++ [0, 0] =
          replicate (2 * (8 - ls.length - 0)) 0 := by
        rw [length_nil] at hlen
        rw [show ([0, 0] : List UInt8) = replicate 2 0 from rfl, ← replicate_add]
        congr 1
        omega
      have hnone : textBytes [] = [] := rfl
      rw [htotal, length_nil] at hread
      rw [length_nil, ← hzeros, ← List.append_assoc, hnone, List.append_nil]
      exact hread
    · obtain ⟨init, f, rfl⟩ := (eq_nil_or_concat' rs).resolve_left hne
      rw [length_append, length_singleton] at hlen
      obtain ⟨hinit, hf⟩ := forall_mem_append.mp hrs
      have hread := ipv6Loop_right_accepted hinit (hf f (mem_singleton_self f)).isField
        (g := ⟨ls.map (valueOf 16), [], true⟩) (by rw [htotal]; omega) (.inl rfl) rfl
      have hzeros : 7 - (ls.length + init.length) = 8 - ls.length - (init ++ [f]).length := by
        rw [length_append, length_singleton]
        omega
      rw [htotal, hzeros] at hread
      exact hread

theorem takeWhile_filled_eq_nil (hne : fs ≠ []) :
    fs.takeWhile filled = [] ↔ fs.head? = some [] := by
  cases fs with
  | nil => exact absurd rfl hne
  | cons f fs => cases f <;> simp [filled]

theorem countP_filled_eq_length (h : [] ∉ fs) : fs.countP filled = fs.length :=
  countP_eq_length.mpr fun _ hf => filled_iff.mpr (ne_of_mem_of_not_mem hf h)

theorem ipv6_sizes (v : Nat) (hread : (⟨[], [], false⟩ : Groups).fields? fs = some g) :
    let left := (g.push v).ls.length
    let right := (g.push v).rs.length
    left + right = fs.countP filled + 1 ∧ (fs = [] → left = 1) ∧
      ([] ∈ fs → 1 ≤ right ∧ (left = 0 ↔ fs.head? = some [])) ∧ ([] ∉ fs → right = 0) := by
  obtain ⟨htotal, hrtime, hls⟩ := fields?_some hread
  have hzero : (⟨[], [], false⟩ : Groups).total = 0 := rfl
  have hleft : g.ls.length = (fs.takeWhile filled).length := hls.trans (Nat.zero_add _)
  have hpush := push_total g v
  rw [hzero, Nat.zero_add] at htotal
  rw [htotal] at hpush
  unfold Groups.total at htotal
  refine ⟨hpush, ?_, ?_, ?_⟩
  · rintro rfl
    cases hread
    rfl
  · intro hmem
    have hr : g.rtime = true := hrtime.mpr (.inr hmem)
    unfold Groups.push
    rw [if_pos hr]
    refine ⟨by simp, ?_⟩
    rw [← takeWhile_filled_eq_nil (ne_nil_of_mem hmem), ← length_eq_zero_iff, hleft]
  · intro hmem
    have hr : ¬ g.rtime = true := fun h => by simpa [hmem] using hrtime.mp h
    have hall : fs.takeWhile filled = fs :=
      takeWhile_eq_self_iff.mpr fun _ hf => filled_iff.mpr (ne_of_mem_of_not_mem hf hmem)
    rw [countP_filled_eq_length hmem, hleft, hall] at htotal
    unfold Groups.push
    rw [if_neg hr]
    show g.rs.length = 0
    omega

theorem ipv6Loop_end {l : List UInt8} (hl : IsField l)
    (hread : (⟨[], [], false⟩ : Groups).fields? fs = some g) (htotal : g.total ≤ 8) :
    let out := ipv6Loop l (g.state noHex)
    let room := fs.countP filled ≤ 7 ∨
      (fs.countP filled = 8 ∧ (fs.head? = some [] ∨ [] ∉ fs))
    (fs ≠ [] ∧ room → out.ret = 1 ∨ ¬ (Within 16 out.ip ∧ Within 16 out.rip)) ∧
      (¬ (fs ≠ [] ∧ room) → Refused out) := by
  intro out room
  obtain ⟨hsum, hnone, hshort, hfull⟩ := ipv6_sizes (valueOf 16 l) hread
  have hlast : out = _ := ipv6Loop_last hl g
  have hpush := push_total g (valueOf 16 l)
  generalize g.push (valueOf 16 l) = g' at hlast hsum hnone hshort hfull hpush
  unfold Groups.total at hlast hpush htotal
  have hcases : fs = [] ∨ ([] ∈ fs ∧ fs ≠ []) ∨ ([] ∉ fs ∧ 1 ≤ fs.countP filled) := by
    by_cases hmem : [] ∈ fs
    · exact .inr (.inl ⟨hmem, ne_nil_of_mem hmem⟩)
    rw [countP_filled_eq_length hmem]
    cases fs with
    | nil => exact .inl rfl
    | cons f fs => exact .inr (.inr ⟨hmem, Nat.succ_pos _⟩)
  by_cases hrefuse : (g'.ls.length ≤ 1 ∧ g'.rs.length = 0) ∨ g'.ls.length + g'.rs.length > 8
  · rw [if_pos hrefuse] at hlast
    have hwithin : Within 16 out.ip ∧ Within 16 out.rip ↔ g'.ls.length ≤ 8 ∧ g'.rs.length ≤ 8 := by
      rw [hlast]
      exact and_congr within_valueBytes within_valueBytes
    have hroom : (fs ≠ [] ∧ room) ↔ ¬ (g'.ls.length ≤ 8 ∧ g'.rs.length ≤ 8) := by
      rcases hcases with rfl | ⟨hmem, hne⟩ | ⟨hmem, hpos⟩
      · have hone := hnone rfl
        rw [countP_nil] at hsum
        exact iff_of_false (fun h => h.1 rfl) (by omega)
      · obtain ⟨hright, hhead⟩ := hshort hmem
        have height : fs.countP filled = 8 := by omega
        have hiff : room ↔ fs.head? = some [] := by simp [room, height, hmem]
        rw [hiff, and_iff_right hne, ← hhead]
        omega
      · have hright := hfull hmem
        have hne : fs ≠ [] := fun hnil => by rw [hnil, countP_nil] at hpos; omega
        exact iff_of_true ⟨hne, .inr ⟨by omega, .inr hmem⟩⟩ (by omega)
    rw [hroom, hwithin, not_not]
    refine ⟨.inr, fun hin => ?_⟩
    obtain ⟨hip, hrip⟩ := hwithin.mpr hin
    rw [hlast] at hip hrip ⊢
    exact ⟨rfl, within_cleared, hip, hrip⟩
  · rw [if_neg hrefuse] at hlast
    refine ⟨fun _ => .inl (by rw [hlast]), fun h => absurd ⟨fun hnil => ?_, .inl (by omega)⟩ h⟩
    have hone := hnone hnil
    rw [hnil, countP_nil] at hsum
    omega

theorem inetIpv6Pton_lenient (s : CString) :
    let out := inetIpv6Pton s.bytes
    (Lenient s.bytes → out.ret = 1 ∨ ¬ (Within 16 out.ip ∧ Within 16 out.rip)) ∧
      (¬ Lenient s.bytes → Refused out) := by
  intro out
  obtain ⟨hjoin, hcolons, hcolon⟩ := splitFields_spec s.bytes
  have hnul : ∀ f ∈ (splitFields s.bytes).1, colon ∉ f ∧ 0 ∉ f := by
    intro f hf
    refine ⟨hcolons f hf, fun h0 => s.noNul ?_⟩
    rw [← hjoin]
    exact mem_append_left _ (mem_flatMap.mpr ⟨f, hf, mem_append_left _ h0⟩)
  have hnul_last : 0 ∉ (splitFields s.bytes).2 := by
    intro h0
    apply s.noNul
    rw [← hjoin]
    exact mem_append_right _ h0
  have hout : out = ipv6Loop (withColons (splitFields s.bytes).1 ++ (splitFields s.bytes).2)
      ((⟨[], [], false⟩ : Groups).state noHex) := by
    rw [hjoin]
    rfl
  have hsome := fields?_isSome_iff (splitFields s.bytes).1 (g := ⟨[], [], false⟩) fun _ => rfl
  have hzero : (⟨[], [], false⟩ : Groups).total = 0 := rfl
  rw [hzero, Nat.zero_add] at hsome
  have hlenient : ∀ h : Lenient s.bytes,
      ((⟨[], [], false⟩ : Groups).fields? (splitFields s.bytes).1).isSome = true := by
    exact fun h => hsome.mpr ⟨.inr h.early, h.close⟩
  rcases ipv6Loop_fields hnul (splitFields s.bytes).2 (hzero.trans_le (Nat.zero_le 8)) with
    ⟨g, hfields, hread, htotal, hrun⟩ | ⟨hnot, hrefused⟩
  · rw [← hout] at hrun
    by_cases hlast : IsField (splitFields s.bytes).2
    · have hend := ipv6Loop_end hlast hread htotal
      rw [← hrun] at hend
      obtain ⟨hearly, hclose⟩ := hsome.mp (by rw [hread]; rfl)
      refine ⟨fun h => hend.1 ⟨h.colon, h.room⟩, fun h => hend.2 fun hroom => h ?_⟩
      exact ⟨hroom.1, hfields, hlast, hearly.resolve_left hroom.1, hclose, hroom.2⟩
    · refine ⟨fun h => absurd h.last hlast, fun _ => ?_⟩
      have hstop := ipv6Loop_notField hnul_last hcolon hlast [] g
      rw [List.append_nil, ← hrun] at hstop
      rw [hstop]
      exact refused_of_total htotal noHex
  · rw [← hout] at hrefused
    exact ⟨fun h => absurd ⟨h.fields, hlenient h⟩ hnot, fun _ => hrefused⟩

/-- What the function is for: addresses are converted, everything else is refused, and no write is
out of bounds. -/
def Ipv6Right (s : List UInt8) (out : Ipv6Out) : Prop :=
  (∀ bytes, Ipv6Text s bytes → out.ret = 1 ∧ ∀ i < 16, last? out.dest i = bytes[i]?) ∧
    ((∀ bytes, ¬ Ipv6Text s bytes) → out.ret = 0) ∧
    Within 16 out.dest ∧ Within 16 out.ip ∧ Within 16 out.rip

/-- **What `inet_ipv6_pton` gets right.** Exactly the strings that are addresses, and those without
the leniencies listed in `Lenient`. -/
theorem ipv6_right_iff (s : CString) :
    Ipv6Right s.bytes (inetIpv6Pton s.bytes) ↔
      (∃ bytes, Ipv6Text s.bytes bytes) ∨ ¬ Lenient s.bytes := by
  obtain ⟨hlenient, hrefused⟩ := inetIpv6Pton_lenient s
  constructor
  · rintro ⟨_, hret, _, hip, hrip⟩
    by_contra hnot
    rw [not_or, not_exists, not_not] at hnot
    rcases hlenient hnot.2 with hone | hout
    · have hzero := hret hnot.1
      omega
    · exact hout ⟨hip, hrip⟩
  · intro h
    by_cases htext : ∃ bytes, Ipv6Text s.bytes bytes
    · obtain ⟨bytes, htext⟩ := htext
      refine ⟨fun bytes' h' => ?_, fun hnone => absurd htext (hnone bytes),
        (inetIpv6Pton_text htext).within⟩
      have haccepted := inetIpv6Pton_text h'
      exact ⟨haccepted.ret, haccepted.dest⟩
    · have hr := hrefused (h.resolve_left htext)
      exact ⟨fun bytes h' => absurd ⟨bytes, h'⟩ htext, fun _ => hr.ret, hr.dest, hr.ip, hr.rip⟩

theorem ipv6_nine_groups :
    let nine := joinGroups (List.replicate 9 ['1'.toUInt8])
    0 ∉ nine ∧ ¬ Ipv6Right nine (inetIpv6Pton nine) := by
  refine ⟨by decide, fun h => ?_⟩
  have hlast : 16 < 16 := h.2.2.2.1 (16, 0) (by decide)
  exact absurd hlast (Nat.lt_irrefl 16)

end Nuttx.Libc

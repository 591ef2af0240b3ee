import Nuttx.Libc.Net.InetNtop
import Nuttx.Libc.Net.Proof.Ipv6

/-!
# IPv6 addresses survive printing and reading

`inet_ipv6_ntop` prints an address in one of the text forms of the grammar and `inet_ipv6_pton`
reads those forms.
-/

open List

namespace Nuttx.Libc

variable {n offset : Nat} {gs : List (List UInt8)} {size : Nat} {dest : Dest}

theorem hexDigit_isDigit (hn : n < 16) : digitValue (hexDigit n) = some n := by
  have hall : ∀ k : Fin 16, digitValue (hexDigit k) = some k.val := by decide
  exact hall ⟨n, hn⟩

theorem isDigitIn_hexDigit (hn : n < 16) : isDigitIn 16 (hexDigit n) = true := by
  unfold isDigitIn
  rw [hexDigit_isDigit hn]
  exact decide_eq_true hn

theorem valueOf_concat (base : Nat) (ds : List UInt8) (c : UInt8) :
    valueOf base (ds ++ [c]) = valueOf base ds * base + (digitValue c).getD 0 :=
  foldl_concat _ _ _ _

theorem valueOf_printHex (n : Nat) : valueOf 16 (printHex n) = n := by
  fun_induction printHex n with
  | case1 n hn =>
    have hone := valueOf_concat 16 [] (hexDigit n)
    rw [hexDigit_isDigit hn] at hone
    exact hone.trans (by simp [valueOf, valueFrom])
  | case2 n hn ih =>
    rw [valueOf_concat, ih, hexDigit_isDigit (Nat.mod_lt n (by decide)), Option.getD_some]
    omega

theorem printHex_digits (n : Nat) : ∀ c ∈ printHex n, isDigitIn 16 c = true := by
  fun_induction printHex n with
  | case1 n hn => exact forall_mem_singleton.mpr (isDigitIn_hexDigit hn)
  | case2 n hn ih =>
    exact forall_mem_append.mpr
      ⟨ih, forall_mem_singleton.mpr (isDigitIn_hexDigit (Nat.mod_lt n (by decide)))⟩

theorem printHex_ne_nil (n : Nat) : printHex n ≠ [] := by
  fun_cases printHex n <;> simp

theorem length_printHex {k : Nat} (hn : n < 16 ^ (k + 1)) : (printHex n).length ≤ k + 1 := by
  induction k generalizing n with
  | zero =>
    rw [printHex, if_pos (show n < 16 from hn)]
    exact Nat.le_refl 1
  | succ k ih =>
    rw [printHex]
    split_ifs with hsmall
    · exact Nat.succ_le_succ (Nat.zero_le _)
    have hdiv : n / 16 < 16 ^ (k + 1) := by
      rw [Nat.div_lt_iff_lt_mul (by decide), ← Nat.pow_succ]
      exact hn
    rw [length_append]
    exact Nat.succ_le_succ (ih hdiv)

theorem warray_lt (addr : In6Addr) (offset : Nat) : addr.warray offset < 2 ^ 16 := by
  have hhigh := (addr.bytes.getD (2 * offset) 0).toNat_lt
  have hlow := (addr.bytes.getD (2 * offset + 1) 0).toNat_lt
  unfold In6Addr.warray
  omega

theorem isGroup_printHex (hn : n < 2 ^ 16) : IsGroup (printHex n) :=
  ⟨printHex_ne_nil n, length_printHex (k := 3) hn, printHex_digits n⟩

def wordTexts (warray : Nat → Nat) (offset n : Nat) : List (List UInt8) :=
  (List.range' offset n).map fun i => printHex (warray i)

theorem wordTexts_isGroup (addr : In6Addr) (offset n : Nat) :
    ∀ f ∈ wordTexts addr.warray offset n, IsGroup f := by
  intro f hf
  obtain ⟨i, _, rfl⟩ := mem_map.mp hf
  exact isGroup_printHex (warray_lt addr i)

theorem length_wordTexts (warray : Nat → Nat) (offset n : Nat) :
    (wordTexts warray offset n).length = n := by
  unfold wordTexts
  rw [length_map, length_range']

theorem groupBytes_word (a b : UInt8) : groupBytes (a.toNat * 2 ^ 8 + b.toNat) = [a, b] := by
  have ha := a.toNat_lt
  have hb := b.toNat_lt
  have hhigh : (a.toNat * 2 ^ 8 + b.toNat) / 2 ^ 8 % 256 = a.toNat := by omega
  have hlow : (a.toNat * 2 ^ 8 + b.toNat) % 256 = b.toNat := by omega
  unfold groupBytes
  rw [hhigh, hlow, UInt8.ofNat_toNat, UInt8.ofNat_toNat]

theorem textBytes_wordTexts (addr : In6Addr) (h : offset + n ≤ 8) :
    textBytes (wordTexts addr.warray offset n) = (addr.bytes.drop (2 * offset)).take (2 * n) := by
  induction n generalizing offset with
  | zero => rfl
  | succ n ih =>
    have hsize := addr.size
    have hsplit : addr.bytes.drop (2 * offset) =
        addr.bytes.getD (2 * offset) 0 :: addr.bytes.getD (2 * offset + 1) 0 ::
          addr.bytes.drop (2 * (offset + 1)) := by
      rw [drop_eq_getElem_cons (by omega), drop_eq_getElem_cons (by omega),
        getD_eq_getElem?_getD, getD_eq_getElem?_getD,
        getElem?_eq_getElem (by omega), getElem?_eq_getElem (by omega)]
      rfl
    have hcons : textBytes (wordTexts addr.warray offset (n + 1)) =
        groupBytes (valueOf 16 (printHex (addr.warray offset))) ++
          textBytes (wordTexts addr.warray (offset + 1) n) := rfl
    rw [hcons, valueOf_printHex, ih (by omega), hsplit]
    unfold In6Addr.warray
    rw [groupBytes_word]
    rfl

structure ZeroRun.Of (warray : Nat → Nat) (run : ZeroRun) : Prop where
  fits : run.entry + run.count ≤ 8
  zero : ∀ i, run.entry ≤ i → i < run.entry + run.count → warray i = 0

theorem runEnd_spec (warray : Nat → Nat) (start offset count : Nat) (hoffset : offset ≤ 8)
    (hcount : start + count = offset) (hzero : ∀ i, start ≤ i → i < offset → warray i = 0) :
    let stop := runEnd warray offset count
    stop.1 ≤ 8 ∧ start + stop.2 = stop.1 ∧ ∀ i, start ≤ i → i < stop.1 → warray i = 0 := by
  fun_induction runEnd warray offset count with
  | case1 offset count hlt hne => exact ⟨hoffset, hcount, hzero⟩
  | case2 offset count hlt hword ih =>
    refine ih hlt (by omega) fun i hi hlast => ?_
    rcases Nat.lt_succ_iff_lt_or_eq.mp hlast with hbefore | heq
    · exact hzero i hi hbefore
    · rw [heq]
      exact not_not.mp hword
  | case3 offset count hge => exact ⟨hoffset, hcount, hzero⟩

theorem longestRun_zero (warray : Nat → Nat) (offset : Nat) (max : Option ZeroRun)
    (hmax : ∀ run, max = some run → run.Of warray) :
    ∀ run, longestRun warray offset max = some run → run.Of warray := by
  fun_induction longestRun warray offset max with
  | case1 offset max hlt hword stop ih =>
    refine ih fun run hrun => ?_
    split_ifs at hrun with hlonger
    · obtain ⟨hend, hcount, hzero⟩ := runEnd_spec warray offset (offset + 1) 1 hlt rfl
        fun i hi hlast => by rwa [show i = offset by omega]
      cases hrun
      have hstop : offset + stop.2 = stop.1 := hcount
      exact ⟨hstop.trans_le hend, fun i hi hlast => hzero i hi (hstop ▸ hlast)⟩
    · exact hmax run hrun
  | case2 offset max hlt hword ih => exact ih hmax
  | case3 offset max hge => exact hmax

def Dest.extend (dest : Dest) (text : List UInt8) : Dest :=
  ⟨dest.text ++ text, dest.size - text.length⟩

theorem snprintf_eq_extend {text : List UInt8} (hroom : text.length < dest.size)
    (hsize : dest.size < 2 ^ 32) : dest.snprintf text = dest.extend text := by
  have hwrap : (dest.size + 2 ^ 32 - text.length) % 2 ^ 32 = dest.size - text.length := by omega
  unfold Dest.snprintf Dest.extend
  rw [take_of_length_le (by omega), hwrap]

theorem extend_nil (dest : Dest) : dest.extend [] = dest := by
  unfold Dest.extend
  rw [List.append_nil, length_nil, Nat.sub_zero]

theorem extend_extend (dest : Dest) (text text' : List UInt8) :
    (dest.extend text).extend text' = dest.extend (text ++ text') := by
  unfold Dest.extend
  rw [append_assoc, length_append, Nat.sub_sub]

theorem snprintf_extend {text text' : List UInt8}
    (hroom : text.length + text'.length < size) (hsize : size < 2 ^ 32) :
    ((⟨[], size⟩ : Dest).extend text).snprintf text' = (⟨[], size⟩ : Dest).extend (text ++ text') := by
  have hleft : ((⟨[], size⟩ : Dest).extend text).size = size - text.length := rfl
  rw [snprintf_eq_extend (by omega) (by omega), extend_extend]

def wordText (warray : Nat → Nat) (offset : Nat) : List UInt8 :=
  (if offset > 0 then [colon] else []) ++ printHex (warray offset)

def wordsText (warray : Nat → Nat) (offset n : Nat) : List UInt8 :=
  (List.range' offset n).flatMap (wordText warray)

theorem length_wordText (addr : In6Addr) (offset : Nat) :
    (wordText addr.warray offset).length ≤ 5 := by
  have hshort := (isGroup_printHex (warray_lt addr offset)).short
  unfold wordText
  rw [length_append]
  split_ifs
  · rw [length_singleton]
    omega
  · rw [length_nil]
    omega

theorem length_wordsText (addr : In6Addr) (offset n : Nat) :
    (wordsText addr.warray offset n).length ≤ 5 * n := by
  induction n generalizing offset with
  | zero => exact Nat.le_refl 0
  | succ n ih =>
    have hword := length_wordText addr offset
    have hmore := ih (offset + 1)
    unfold wordsText at hmore ⊢
    rw [range'_succ, flatMap_cons, length_append]
    omega

theorem snprintf_word (addr : In6Addr) (offset : Nat) (hroom : 5 < dest.size)
    (hsize : dest.size < 2 ^ 32) :
    (if offset > 0 then dest.snprintf [colon] else dest).snprintf (printHex (addr.warray offset)) =
      dest.extend (wordText addr.warray offset) := by
  have hshort := (isGroup_printHex (warray_lt addr offset)).short
  unfold wordText
  split_ifs with hfirst
  · have hone : [colon].length = 1 := rfl
    rw [snprintf_eq_extend (by omega) hsize, ← extend_extend]
    refine snprintf_eq_extend ?_ ?_
    · show _ < dest.size - 1
      omega
    · show dest.size - 1 < _
      omega
  · exact snprintf_eq_extend (by omega) hsize

theorem printWords_words (addr : In6Addr) (max : Option ZeroRun) (hlast : offset + n ≤ 8)
    (hrun : ∀ run, max = some run → run.entry < offset ∨ offset + n ≤ run.entry)
    (hroom : 5 * n < dest.size) (hsize : dest.size < 2 ^ 32) :
    printWords addr.warray max offset dest =
      printWords addr.warray max (offset + n) (dest.extend (wordsText addr.warray offset n)) := by
  induction n generalizing offset dest with
  | zero => exact congrArg _ (extend_nil dest).symm
  | succ n ih =>
    have hnone : max.filter (fun run => offset = run.entry) = none := by
      rw [Option.filter_eq_none_iff]
      intro run hmem
      have hentry := hrun run hmem
      rw [decide_eq_true_iff]
      omega
    have hword := length_wordText addr offset
    have hnext : printWords addr.warray max (offset + 1)
        (dest.extend (wordText addr.warray offset)) = _ :=
      ih (by omega) (fun run hmem => by have hentry := hrun run hmem; omega)
        (by show _ < dest.size - _; omega) (by show dest.size - _ < _; omega)
    rw [printWords, if_pos (by omega), hnone]
    dsimp only
    rw [snprintf_word addr offset (by omega) hsize, hnext, extend_extend, Nat.add_assoc,
      Nat.add_comm 1 n]
    rfl

theorem joinGroups_cons (g : List UInt8) (gs : List (List UInt8)) :
    joinGroups (g :: gs) = g ++ gs.flatMap (colon :: ·) := by
  induction gs generalizing g with
  | nil => exact (List.append_nil g).symm
  | cons g' gs ih =>
    have hcons : joinGroups (g :: g' :: gs) = g ++ colon :: joinGroups (g' :: gs) := rfl
    rw [hcons, ih, flatMap_cons, cons_append]

theorem wordsText_pos (warray : Nat → Nat) (hpos : 0 < offset) (n : Nat) :
    wordsText warray offset n = (wordTexts warray offset n).flatMap (colon :: ·) := by
  unfold wordsText wordTexts
  rw [flatMap_map]
  refine flatMap_congr fun i hi => ?_
  have hle : offset ≤ i := (mem_range'_1.mp hi).1
  unfold wordText
  rw [if_pos (by omega)]
  rfl

theorem wordsText_zero (warray : Nat → Nat) (n : Nat) :
    wordsText warray 0 n = joinGroups (wordTexts warray 0 n) := by
  cases n with
  | zero => rfl
  | succ n =>
    have hcons : wordTexts warray 0 (n + 1) = printHex (warray 0) :: wordTexts warray 1 n := rfl
    rw [hcons, joinGroups_cons, ← wordsText_pos warray Nat.zero_lt_one]
    rfl

theorem wordsText_behind (warray : Nat → Nat) (hpos : 0 < offset) (hn : 0 < n) :
    wordsText warray offset n = colon :: joinGroups (wordTexts warray offset n) := by
  obtain ⟨n, rfl⟩ := Nat.exists_eq_add_one_of_ne_zero (Nat.ne_of_gt hn)
  have hcons : wordTexts warray offset (n + 1) =
      printHex (warray offset) :: wordTexts warray (offset + 1) n := rfl
  rw [wordsText_pos warray hpos, hcons, joinGroups_cons, flatMap_cons]
  rfl

theorem printWords_short (addr : In6Addr) (run : ZeroRun) (hfits : run.entry + run.count ≤ 8)
    (hroom : INET6_ADDRSTRLEN ≤ size) (hsize : size < 2 ^ 32) :
    (printWords addr.warray (some run) 0 ⟨[], size⟩).text =
      joinGroups (wordTexts addr.warray 0 run.entry) ++ colon :: colon ::
        joinGroups (wordTexts addr.warray (run.entry + run.count)
          (8 - (run.entry + run.count))) := by
  have hsize46 : 46 ≤ size := hroom
  have hpos := run.pos
  have hleft := length_wordsText addr 0 run.entry
  have hone : [':'.toUInt8].length = 1 := rfl
  have hat : (some run).filter (fun r => run.entry = r.entry) = some run :=
    Option.filter_some_pos (decide_eq_true rfl)
  rw [printWords_words addr (some run) (n := run.entry) (by omega)
    (fun r h => by cases h; omega) (show 5 * run.entry < size by omega) hsize, Nat.zero_add,
    printWords, if_pos (by omega), hat]
  dsimp only
  rw [snprintf_extend (by omega) hsize]
  by_cases hend : run.entry + run.count ≥ 8
  · have hnone : 8 - (run.entry + run.count) = 0 := by omega
    rw [if_pos hend, snprintf_extend (by rw [length_append]; omega) hsize, printWords,
      if_neg (by omega), hnone, wordsText_zero]
    exact append_assoc _ _ _
  have hright : run.entry + run.count + (8 - (run.entry + run.count)) = 8 := by omega
  have hmore : 5 * (8 - (run.entry + run.count)) <
      ((⟨[], size⟩ : Dest).extend (wordsText addr.warray 0 run.entry ++ [colon])).size := by
    show _ < size - (wordsText addr.warray 0 run.entry ++ [colon]).length
    rw [length_append, length_singleton]
    omega
  have hless : ((⟨[], size⟩ : Dest).extend (wordsText addr.warray 0 run.entry ++ [colon])).size
      < 2 ^ 32 := Nat.lt_of_le_of_lt (Nat.sub_le _ _) hsize
  rw [if_neg hend, printWords_words addr (some run) hright.le
    (fun r h => by cases h; omega) hmore hless, hright, printWords, if_neg (by decide),
    extend_extend, wordsText_zero, wordsText_behind addr.warray (by omega) (by omega)]
  exact append_assoc _ _ _

theorem length_flatMap_colon (hgs : ∀ g ∈ gs, IsGroup g) :
    (gs.flatMap (colon :: ·)).length ≤ 5 * gs.length := by
  induction gs with
  | nil => exact Nat.le_refl 0
  | cons g gs ih =>
    obtain ⟨hg, hgs⟩ := forall_mem_cons.mp hgs
    have hshort := hg.short
    have hrest := ih hgs
    rw [flatMap_cons, length_append, length_cons, length_cons]
    omega

theorem length_joinGroups (hgs : ∀ g ∈ gs, IsGroup g) :
    (joinGroups gs).length ≤ 5 * gs.length - 1 := by
  cases gs with
  | nil => exact Nat.le_refl 0
  | cons g gs =>
    obtain ⟨hg, hgs⟩ := forall_mem_cons.mp hgs
    have hshort := hg.short
    have hmore := length_flatMap_colon hgs
    rw [joinGroups_cons, length_append, length_cons]
    omega

theorem zero_notMem_joinGroups (hgs : ∀ g ∈ gs, IsGroup g) : 0 ∉ joinGroups gs := by
  have hgroup : ∀ g ∈ gs, 0 ∉ g := fun g hg h0 => ((hexDigit_spec 0).2 ((hgs g hg).digits 0 h0)).1 rfl
  cases gs with
  | nil => exact not_mem_nil
  | cons g gs =>
    rw [joinGroups_cons, mem_append, mem_flatMap]
    rintro (hfirst | ⟨g', hmem, hrest⟩)
    · exact hgroup g mem_cons_self hfirst
    · rcases mem_cons.mp hrest with heq | hrest
      · exact absurd heq (by decide)
      · exact hgroup g' (mem_cons_of_mem _ hmem) hrest

theorem Ipv6Text.short_string {s bytes : List UInt8} (h : Ipv6Text s bytes) :
    s.length ≤ 39 ∧ 0 ∉ s := by
  cases h with
  | full hlen hgs =>
    have hjoin := length_joinGroups hgs
    exact ⟨by omega, zero_notMem_joinGroups hgs⟩
  | short hlen hls hrs =>
    have hleft := length_joinGroups hls
    have hright := length_joinGroups hrs
    constructor
    · rw [length_append, length_cons, length_cons]
      omega
    rw [mem_append, mem_cons, mem_cons]
    rintro (hmem | heq | heq | hmem)
    · exact zero_notMem_joinGroups hls hmem
    · exact absurd heq (by decide)
    · exact absurd heq (by decide)
    · exact zero_notMem_joinGroups hrs hmem

theorem run_bytes (addr : In6Addr) {run : ZeroRun} (h : run.Of addr.warray) :
    (addr.bytes.drop (2 * run.entry)).take (2 * run.count) = replicate (2 * run.count) 0 := by
  have hwords : wordTexts addr.warray run.entry run.count =
      replicate run.count (printHex 0) := by
    refine eq_replicate_iff.mpr ⟨length_wordTexts _ _ _, fun f hf => ?_⟩
    obtain ⟨i, hi, rfl⟩ := mem_map.mp hf
    obtain ⟨hfirst, hlast⟩ := mem_range'_1.mp hi
    rw [h.zero i hfirst hlast]
  rw [← textBytes_wordTexts addr h.fits, hwords]
  generalize run.count = n
  induction n with
  | zero => rfl
  | succ n ih =>
    have hcons : textBytes (replicate (n + 1) (printHex 0)) =
        groupBytes (valueOf 16 (printHex 0)) ++ textBytes (replicate n (printHex 0)) := rfl
    rw [hcons, ih, valueOf_printHex]
    rfl

theorem printWords_text (addr : In6Addr) (hroom : INET6_ADDRSTRLEN ≤ size) (hsize : size < 2 ^ 32) :
    Ipv6Text (printWords addr.warray (longestRun addr.warray 0 none) 0 ⟨[], size⟩).text
      addr.bytes := by
  have hlen := addr.size
  cases hrun : longestRun addr.warray 0 none with
  | none =>
    have hbytes : textBytes (wordTexts addr.warray 0 8) = addr.bytes := by
      rw [textBytes_wordTexts addr (by decide)]
      exact take_of_length_le hlen.le
    have hsize46 : 46 ≤ size := hroom
    rw [printWords_words addr none (n := 8) (by decide) (fun run h => by cases h)
      (show 5 * 8 < size by omega) hsize, printWords, if_neg (by decide), wordsText_zero addr.warray 8, ← hbytes]
    exact .full (length_wordTexts _ _ _) (wordTexts_isGroup addr 0 8)
  | some run =>
    have hzero := longestRun_zero addr.warray 0 none (fun r h => by cases h) run hrun
    have hpos := run.pos
    have hfits := hzero.fits
    have htext := @Ipv6Text.short (wordTexts addr.warray 0 run.entry)
      (wordTexts addr.warray (run.entry + run.count) (8 - (run.entry + run.count)))
      (by rw [length_wordTexts, length_wordTexts]; omega) (wordTexts_isGroup addr _ _)
      (wordTexts_isGroup addr _ _)
    have hcount : 8 - run.entry - (8 - (run.entry + run.count)) = run.count := by omega
    have hright : (addr.bytes.drop (2 * (run.entry + run.count))).take
        (2 * (8 - (run.entry + run.count))) = addr.bytes.drop (2 * (run.entry + run.count)) := by
      apply take_of_length_le
      rw [length_drop]
      omega
    have hbytes : addr.bytes.take (2 * run.entry) ++
        (addr.bytes.drop (2 * run.entry)).take (2 * run.count) ++
          addr.bytes.drop (2 * (run.entry + run.count)) = addr.bytes := by
      rw [Nat.mul_add, ← drop_drop, append_assoc, take_append_drop, take_append_drop]
    rw [textBytes_wordTexts addr (by omega), textBytes_wordTexts addr (by omega),
      length_wordTexts, length_wordTexts, hcount, ← run_bytes addr hzero, Nat.mul_zero,
      drop_zero, hright, hbytes] at htext
    rw [printWords_short addr run hfits hroom hsize]
    exact htext

/-- **Round trip.** Every address is printed with at most `INET6_ADDRSTRLEN` bytes, the terminator
included, and read back. -/
theorem ipv6_round_trip (addr : In6Addr) {size : Nat} (hroom : INET6_ADDRSTRLEN ≤ size)
    (hsize : size < 2 ^ 32) :
    ∃ text, inetIpv6Ntop addr size = .ok text ∧ text.length + 1 ≤ INET6_ADDRSTRLEN ∧ 0 ∉ text ∧
      (inetIpv6Pton text).ret = 1 ∧
      ∀ i < 16, WriteLog.last? (inetIpv6Pton text).dest i = addr.bytes[i]? := by
  have htext := printWords_text addr hroom hsize
  obtain ⟨hshort, hnul⟩ := htext.short_string
  have hread := inetIpv6Pton_text htext
  have hbound : INET6_ADDRSTRLEN = 46 := rfl
  exact ⟨_, if_neg hroom.not_gt, by omega, hnul, hread.ret, hread.dest⟩

theorem ipv6_round_trip_loopback :
    let addr : In6Addr := ⟨List.replicate 15 0 ++ [1], by decide⟩
    ∃ text, inetIpv6Ntop addr 46 = .ok text ∧ text.length + 1 ≤ INET6_ADDRSTRLEN ∧ 0 ∉ text ∧
      (inetIpv6Pton text).ret = 1 ∧
      ∀ i < 16, WriteLog.last? (inetIpv6Pton text).dest i = addr.bytes[i]? :=
  ipv6_round_trip _ (by decide) (by decide)

end Nuttx.Libc

import Nuttx.Library.Machine
import Nuttx.Net.Sixlowpan.Hc06

/-!
# Addresses are restored

An address is rebuilt from left to right.
-/

namespace Nuttx.Sixlowpan

open Nuttx.Net (be16)
open Buffer (copy start AgreeBelow Lies lies_map_range start_of_fin)

theorem toNat_be16 (h l : UInt8) : (be16 h l).toNat = 256 * h.toNat + l.toNat := by
  have hh := h.toNat_lt
  have hl := l.toNat_lt
  have hshift : (h.toUInt16 <<< 8).toNat = 256 * h.toNat := by
    rw [UInt16.toNat_shiftLeft, UInt8.toNat_toUInt16, Nat.shiftLeft_eq]
    change h.toNat * 2 ^ 8 % 2 ^ 16 = _
    omega
  rw [be16, UInt16.toNat_add, hshift, UInt8.toNat_toUInt16]
  omega

theorem toNat_hi (w : UInt16) : (hi w).toNat = w.toNat / 256 := by
  have hw := w.toNat_lt
  rw [hi, UInt16.toNat_toUInt8, UInt16.toNat_shiftRight, Nat.shiftRight_eq_div_pow]
  change w.toNat / 2 ^ 8 % 2 ^ 8 = _
  omega

theorem toNat_lo (w : UInt16) : (lo w).toNat = w.toNat % 256 := UInt16.toNat_toUInt8 w

@[simp]
theorem hi_be16 (h l : UInt8) : hi (be16 h l) = h := by
  have hl := l.toNat_lt
  rw [← UInt8.toNat_inj, toNat_hi, toNat_be16]
  omega

@[simp]
theorem lo_be16 (h l : UInt8) : lo (be16 h l) = l := by
  have hl := l.toNat_lt
  rw [← UInt8.toNat_inj, toNat_lo, toNat_be16]
  omega

@[simp]
theorem be16_hi_lo (w : UInt16) : be16 (hi w) (lo w) = w := by
  rw [← UInt16.toNat_inj, toNat_be16, toNat_hi, toNat_lo]
  omega

theorem hi_and (v w : UInt16) : hi (v &&& w) = hi v &&& hi w := by
  unfold hi
  rw [UInt16.shiftRight_and, UInt16.toUInt8_and]

theorem lo_and (v w : UInt16) : lo (v &&& w) = lo v &&& lo w := UInt16.toUInt8_and v w

theorem halves_toUInt16 : ∀ b : UInt8, hi b.toUInt16 = 0 ∧ lo b.toUInt16 = b := by decide +kernel

variable {a b ipaddr : Ipv6Addr} {i prefcount p : Nat} {w : UInt16} {pref frame : Nat → UInt8}
  {addr : Varaddr}

theorem word_eq_iff : word a i = w ↔ start a (2 * i) = hi w ∧ start a (2 * i + 1) = lo w := by
  unfold word
  constructor
  · rintro rfl
    exact ⟨(hi_be16 _ _).symm, (lo_be16 _ _).symm⟩
  · rintro ⟨hhi, hlo⟩
    rw [hhi, hlo, be16_hi_lo]

theorem and_ff (b : UInt8) : b &&& 0xff = b := UInt8.and_neg_one

theorem hi_of_and (h : word a i &&& 0xff00 = w) : start a (2 * i) = hi w := by
  have hmask : hi 0xff00 = 0xff := by decide
  rw [← h, hi_and, word, hi_be16, hmask, and_ff]

theorem lo_of_and (h : word a i &&& 0x00ff = w) : start a (2 * i + 1) = lo w := by
  have hmask : lo 0x00ff = 0xff := by decide
  rw [← h, lo_and, word, lo_be16, hmask, and_ff]

theorem agreeBelow_setWord (h : AgreeBelow (2 * i) a b)
    (hhi : start b (2 * i) = hi w) (hlo : start b (2 * i + 1) = lo w) :
    AgreeBelow (2 * (i + 1)) (setWord a i w) b := by
  refine AgreeBelow.copy h (by omega) fun k hk hk' => ?_
  rw [← start_of_fin b k]
  by_cases heq : k.val = 2 * i
  · rw [if_pos (by omega), heq, hhi]
  · have hnext : k.val = 2 * i + 1 := by omega
    rw [if_neg (by omega), hnext, hlo]

theorem copyWords_eq (srcptr : Nat → UInt8) (n i : Nat) (ipaddr : Ipv6Addr) :
    copyWords srcptr n i ipaddr = copy ipaddr (2 * i) (2 * n) srcptr := by
  induction n generalizing srcptr i ipaddr with
  | zero =>
    funext k
    exact (if_neg (by omega)).symm
  | succ n ih =>
    rw [copyWords, ih]
    funext k
    unfold setWord copy
    rw [hi_be16, lo_be16]
    dsimp only
    by_cases hfirst : k.val = 2 * i
    · rw [if_neg (by omega), if_pos (by omega), if_pos (by omega), if_pos (by omega), hfirst, Nat.sub_self]
    by_cases hsecond : k.val = 2 * i + 1
    · rw [if_neg (by omega), if_pos (by omega), if_neg (by omega), if_pos (by omega), hsecond,
        Nat.add_sub_cancel_left]
    by_cases hrest : 2 * (i + 1) ≤ k.val ∧ k.val < 2 * (i + 1) + 2 * n
    · rw [if_pos hrest, if_pos (by omega)]
      exact congrArg srcptr (by omega)
    · rw [if_neg hrest, if_neg (by omega), if_neg (by omega)]

/-- **A rule without short identifier.** The address is restored if it begins with the given bytes, ends
with the bytes of the frame, and is zero in between. -/
theorem applyRule_frame {zeropad : Bool} {postcount : Nat}
    (hpost : 0 < postcount) (hsum : prefcount + postcount ≤ 16)
    (hodd : postcount % 2 = 1 → prefcount + postcount < 16)
    (hshort : ¬ (postcount ≤ 2 ∧ prefcount < 11 ∧ ¬ zeropad = true))
    (hpref : ∀ i < prefcount, pref i = start b i)
    (hzero : ∀ i, prefcount ≤ i → i < 16 - postcount → start b i = 0)
    (hsrc : ∀ k < postcount, frame (p + k) = start b (16 - postcount + k)) :
    applyRule ⟨false, zeropad, prefcount, postcount⟩ addr pref frame p ipaddr = (b, p + postcount) := by
  have hbegin : AgreeBelow prefcount (if prefcount > 0 then copy ipaddr 0 prefcount pref else ipaddr) b := by
    by_cases hpos : prefcount > 0
    · rw [if_pos hpos]
      refine AgreeBelow.copy (AgreeBelow.zero _ _) (by omega) fun i _ hi => ?_
      rw [Nat.sub_zero, hpref i hi, start_of_fin]
    · rw [if_neg hpos]
      exact fun i hi => absurd hi (by omega)
  have hmiddle : AgreeBelow (16 - postcount)
      (if prefcount + postcount < 16 then
        copy (if prefcount > 0 then copy ipaddr 0 prefcount pref else ipaddr) prefcount
          (16 - (prefcount + postcount)) fun _ => 0
      else if prefcount > 0 then copy ipaddr 0 prefcount pref else ipaddr) b := by
    by_cases hgap : prefcount + postcount < 16
    · rw [if_pos hgap]
      refine AgreeBelow.copy hbegin (by omega) fun i hi hi' => ?_
      rw [← start_of_fin b i, hzero i hi hi']
    · rw [if_neg hgap]
      exact fun i hi => hbegin i (by omega)
  unfold applyRule
  simp only [Bool.false_eq_true, false_and, if_false]
  rw [if_pos hpost, if_neg hshort, copyWords_eq]
  refine Prod.ext (AgreeBelow.eq ?_) rfl
  dsimp only
  by_cases hparity : postcount % 2 ≠ 0
  · rw [if_pos hparity, if_pos hparity]
    have hindex : 2 * (8 - postcount / 2) = 2 * (8 - postcount / 2 - 1 + 1) := by omega
    rw [hindex]
    refine AgreeBelow.copy (agreeBelow_setWord (fun i hi => hmiddle i (by omega)) ?_ ?_) (by omega) ?_
    · rw [(halves_toUInt16 _).1, hzero _ (by omega) (by omega)]
    · rw [(halves_toUInt16 _).2, hsrc 0 hpost]
      exact congrArg (start b) (by omega)
    · intro i hi hi'
      rw [hsrc _ (by omega), ← start_of_fin b i]
      exact congrArg (start b) (by omega)
  · rw [if_neg hparity, if_neg hparity]
    refine AgreeBelow.copy (fun i hi => hmiddle i (by omega)) (by omega) fun i hi hi' => ?_
    rw [hsrc _ (by omega), ← start_of_fin b i]
    exact congrArg (start b) (by omega)

theorem agreeBelow_begin {len m : Nat}
    (hm : m ≤ prefcount + len) (hpref : ∀ i < prefcount, pref i = start b i)
    (hzero : ∀ i, prefcount ≤ i → i < m → start b i = 0) :
    AgreeBelow m (copy (copy ipaddr 0 prefcount pref) prefcount len fun _ => 0) b := by
  refine AgreeBelow.copy (AgreeBelow.copy (AgreeBelow.zero _ _) (by omega) fun i _ hi => ?_) hm fun i hi hi' => ?_
  · rw [Nat.sub_zero, hpref i hi, start_of_fin]
  · rw [← start_of_fin b i, hzero i hi hi']

theorem applyRule_short
    (hpos : 0 < prefcount) (hle : prefcount ≤ 8) (hpref : ∀ i < prefcount, pref i = start b i)
    (hzero : ∀ i, prefcount ≤ i → i < 8 → start b i = 0) (hiid : isIid16bitCompressable b = true)
    (hsrc : ∀ k < 2, frame (p + k) = start b (14 + k)) :
    applyRule ⟨false, false, prefcount, 2⟩ addr pref frame p ipaddr = (b, p + 2) := by
  obtain ⟨h4, h5, h6⟩ := of_decide_eq_true hiid
  obtain ⟨h8, h9⟩ := word_eq_iff.mp h4
  obtain ⟨h10, h11⟩ := word_eq_iff.mp h5
  obtain ⟨h12, h13⟩ := word_eq_iff.mp h6
  have hzero' : ∀ i, prefcount ≤ i → i < 10 → start b i = 0 := by
    intro i hi hi'
    by_cases hlt : i < 8
    · exact hzero i hi hlt
    · obtain rfl | rfl : i = 8 ∨ i = 9 := by omega
      · exact h8
      · exact h9
  have hgap : prefcount + 2 < 16 := by omega
  have hroom : prefcount < 11 := by omega
  have heval : applyRule ⟨false, false, prefcount, 2⟩ addr pref frame p ipaddr =
      (copy (setWord (setWord (copy (copy ipaddr 0 prefcount pref) prefcount (16 - (prefcount + 2)) fun _ => 0)
        5 0x00ff) 6 0xfe00) 14 2 fun k => frame (p + k), p + 2) := by
    simp [applyRule, hpos, hgap, hroom, copyWords_eq]
  rw [heval]
  refine Prod.ext (AgreeBelow.eq ?_) rfl
  dsimp only
  have hbegin : AgreeBelow (2 * 5)
      (copy (copy ipaddr 0 prefcount pref) prefcount (16 - (prefcount + 2)) fun _ => 0) b :=
    agreeBelow_begin (by omega) hpref hzero'
  have hmagic := agreeBelow_setWord (agreeBelow_setWord hbegin h10 h11) h12 h13
  refine AgreeBelow.copy hmagic (by omega) fun i hi hi' => ?_
  rw [hsrc _ (by omega), ← start_of_fin b i]
  exact congrArg (start b) (by omega)

theorem mac_words {eaddr : Nat → UInt8} (h : AgreeBelow 8 a b)
    (hiid : sixlowpanIseaddrbased b eaddr = true) :
    setWord (copy a 8 8 eaddr) 4 (word (copy a 8 8 eaddr) 4 ^^^ 0x0200) = b := by
  have hword : word (copy a 8 8 eaddr) 4 = be16 (eaddr 0) (eaddr 1) := rfl
  unfold sixlowpanIseaddrbased at hiid
  by_cases hbit : word b 4 &&& 0x0200 = 0
  · rw [if_pos hbit] at hiid
    exact absurd hiid Bool.false_ne_true
  rw [if_neg hbit] at hiid
  obtain ⟨h4, h5, h6, h7⟩ := of_decide_eq_true hiid
  obtain ⟨h8, h9⟩ := word_eq_iff.mp (rfl : word b 4 = word b 4)
  obtain ⟨h10, h11⟩ := word_eq_iff.mp h5
  obtain ⟨h12, h13⟩ := word_eq_iff.mp h6
  obtain ⟨h14, h15⟩ := word_eq_iff.mp h7
  rw [hi_be16] at h10 h12 h14
  rw [lo_be16] at h11 h13 h15
  have htail : ∀ k, 2 ≤ k → k < 8 → eaddr k = start b (8 + k) := by
    intro k hk hk'
    obtain rfl | rfl | rfl | rfl | rfl | rfl :
        k = 2 ∨ k = 3 ∨ k = 4 ∨ k = 5 ∨ k = 6 ∨ k = 7 := by omega
    exacts [h10.symm, h11.symm, h12.symm, h13.symm, h14.symm, h15.symm]
  rw [hword, ← h4]
  funext i
  rw [← start_of_fin b i]
  unfold setWord copy
  dsimp only
  by_cases hlow : i.val < 8
  · rw [if_neg (by omega), if_neg (by omega), h i hlow, start_of_fin]
  by_cases hfirst : i.val = 8
  · rw [if_pos (by omega), if_pos (by omega), hfirst]
    exact h8.symm
  by_cases hsecond : i.val = 9
  · rw [if_pos (by omega), if_neg (by omega), hsecond]
    exact h9.symm
  · rw [if_neg (by omega), if_pos (by omega), htail _ (by omega) (by omega)]
    exact congrArg (start b) (by omega)

theorem applyRule_mac (haddr : addr.addrlen = 8) (hpos : 0 < prefcount) (hle : prefcount ≤ 8)
    (hpref : ∀ i < prefcount, pref i = start b i) (hzero : ∀ i, prefcount ≤ i → i < 8 → start b i = 0)
    (hiid : sixlowpanIsmacbased b addr = true) :
    applyRule ⟨true, false, prefcount, 0⟩ addr pref frame p ipaddr = (b, p) := by
  have hlen : addr.addrlen.toNat = 8 := by rw [haddr]; rfl
  have headdr : sixlowpanIseaddrbased b addr.addr = true := by
    unfold sixlowpanIsmacbased at hiid
    rw [haddr] at hiid
    exact hiid
  obtain ⟨filled, heval, hfilled⟩ : ∃ filled, applyRule ⟨true, false, prefcount, 0⟩ addr pref frame p ipaddr =
      (setWord (copy filled 8 8 addr.addr) 4 (word (copy filled 8 8 addr.addr) 4 ^^^ 0x0200), p) ∧
      AgreeBelow 8 filled b := by
    by_cases hfull : prefcount = 8
    · refine ⟨copy ipaddr 0 8 pref, by simp [applyRule, hfull, hlen, copyWords_eq], ?_⟩
      refine AgreeBelow.copy (AgreeBelow.zero _ _) (by omega) fun i _ hi => ?_
      rw [Nat.sub_zero, hpref i (by omega), start_of_fin]
    · have hgap : prefcount + 8 < 16 := by omega
      exact ⟨copy (copy ipaddr 0 prefcount pref) prefcount (16 - (prefcount + 8)) fun _ => 0,
        by simp [applyRule, hpos, hgap, hlen, copyWords_eq], agreeBelow_begin (by omega) hpref hzero⟩
  rw [heval, mac_words hfilled headdr]

theorem applyRule_unspecified (hzero : ∀ i < 16, start b i = 0) :
    applyRule ⟨false, false, 0, 0⟩ addr pref frame p ipaddr = (b, p) := by
  have heval : applyRule ⟨false, false, 0, 0⟩ addr pref frame p ipaddr =
      (copy ipaddr 0 16 fun _ => 0, p) := by
    simp [applyRule]
  rw [heval]
  refine Prod.ext (AgreeBelow.eq ?_) rfl
  dsimp only
  refine AgreeBelow.copy (AgreeBelow.zero _ _) (by omega) fun i _ _ => ?_
  rw [← start_of_fin b i, hzero i i.isLt]

theorem lies_bytes {off len : Nat} (h : Lies frame p (bytes a off len))
    {k : Nat} (hk : k < len) : frame (p + k) = start a (off + k) :=
  lies_map_range h hk

theorem length_bytes (a : Ipv6Addr) (off len : Nat) : (bytes a off len).length = len := by
  rw [bytes, List.length_map, List.length_range]

theorem uncompressAddr_full {prefpost : UInt16} {zeropad : Bool}
    (hrule : rule prefpost = ⟨false, zeropad, 0, 16⟩) (hlies : Lies frame p (bytes b 0 16)) :
    uncompressAddr addr pref prefpost frame p ipaddr = (b, p + (bytes b 0 16).length) := by
  rw [uncompressAddr, hrule, length_bytes]
  refine applyRule_frame (by decide) (by decide) (fun h => absurd h (by decide))
    (fun h => absurd h.1 (by decide)) ?_ ?_ ?_
  · exact fun i hi => absurd hi (Nat.not_lt_zero i)
  · exact fun i _ hi => absurd hi (Nat.not_lt_zero i)
  · exact fun k hk => lies_bytes hlies hk

def ModeRules (conf : List UInt16) (prefcount : Nat) : Prop :=
  rule (conf.getD 1 0) = ⟨false, false, prefcount, 8⟩ ∧ rule (conf.getD 2 0) = ⟨false, false, prefcount, 2⟩ ∧
    rule (conf.getD 3 0) = ⟨true, false, prefcount, 0⟩

theorem modeRules_ctx : ModeRules gUncCtxconf 8 := by
  unfold ModeRules
  decide

theorem modeRules_ll : ModeRules gUncLlconf 2 := by
  unfold ModeRules
  decide

/-- **An address whose first bytes are known is restored** from its interface identifier, in each of the
three modes. -/
theorem compressTagaddr_restored {conf : List UInt16} {mac : Varaddr}
    (hconf : ModeRules conf prefcount) (hmac : mac.addrlen = 8)
    (hpos : 0 < prefcount) (hle : prefcount ≤ 8) (hpref : ∀ i < prefcount, pref i = start b i)
    (hzero : ∀ i, prefcount ≤ i → i < 8 → start b i = 0) (bitpos : UInt8)
    (hlies : Lies frame p (compressTagaddr b mac bitpos).2) (ipaddr : Ipv6Addr) :
    ∃ mode : Fin 4, mode ≠ 0 ∧ (compressTagaddr b mac bitpos).1 = UInt8.ofNat mode <<< bitpos ∧
      uncompressAddr mac pref (conf.getD mode 0) frame p ipaddr =
        (b, p + (compressTagaddr b mac bitpos).2.length) := by
  obtain ⟨h64, h16, h0⟩ := hconf
  unfold compressTagaddr compressIpaddr at hlies ⊢
  by_cases hbased : sixlowpanIsmacbased b mac = true
  · rw [if_pos hbased] at hlies ⊢
    refine ⟨3, by decide, rfl, ?_⟩
    rw [uncompressAddr]
    change applyRule (rule (conf.getD 3 0)) _ _ _ _ _ = _
    rw [h0]
    exact applyRule_mac hmac hpos hle hpref hzero hbased
  rw [if_neg hbased] at hlies ⊢
  by_cases hiid : isIid16bitCompressable b = true
  · rw [if_pos hiid] at hlies ⊢
    refine ⟨2, by decide, rfl, ?_⟩
    rw [uncompressAddr, length_bytes]
    change applyRule (rule (conf.getD 2 0)) _ _ _ _ _ = _
    rw [h16]
    exact applyRule_short hpos hle hpref hzero hiid fun k hk => lies_bytes hlies hk
  · rw [if_neg hiid] at hlies ⊢
    refine ⟨1, by decide, rfl, ?_⟩
    rw [uncompressAddr, length_bytes]
    change applyRule (rule (conf.getD 1 0)) _ _ _ _ _ = _
    rw [h64]
    exact applyRule_frame (by decide) (Nat.add_le_add_right hle 8) (fun h => absurd h (by decide))
      (fun h => absurd h.1 (by decide)) hpref hzero fun k hk => lies_bytes hlies hk

theorem start_eq_zero {m n : Nat} (h : ∀ j, m ≤ j → j < n → word a j = 0)
    (hi : 2 * m ≤ i) (hi' : i < 2 * n) : start a i = 0 := by
  obtain ⟨heven, hodd⟩ := word_eq_iff.mp (h (i / 2) (by omega) (by omega))
  obtain heq | heq : i = 2 * (i / 2) ∨ i = 2 * (i / 2) + 1 := by omega
  · rw [heq]
    exact heven
  · rw [heq]
    exact hodd

end Nuttx.Sixlowpan

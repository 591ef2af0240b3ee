import Nuttx.Net.Sixlowpan.Proof.Address

/-!
# The fields of the header are restored

Each field of a header is restored from its bits in the two bytes of IPHC and its bytes inline.
-/

namespace Nuttx.Sixlowpan

open Nuttx.Net (be16)
open Buffer (copy start Lies lies_append start_of_fin)

theorem and_of_and {x e m k : UInt8} (h : x &&& m = e) (hk : m &&& k = k) : x &&& k = e &&& k := by
  rw [← h, UInt8.and_assoc, hk]

def received (contexts : List Addrcontext) (a : Ipv6Addr) : Ipv6Addr :=
  ((findAddrcontextByPrefix a contexts).bind fun c => findAddrcontextBynumber c.number contexts).elim a
    fun c => copy a 0 8 (start c.pref)

variable {contexts : List Addrcontext} {a : Ipv6Addr} {c : Addrcontext}

theorem findAddrcontextBynumber_of_byPrefix (h : findAddrcontextByPrefix a contexts = some c) :
    ∃ c', findAddrcontextBynumber c.number contexts = some c' := by
  refine Option.isSome_iff_exists.mp (List.find?_isSome.mpr ⟨c, List.mem_of_find?_eq_some h, ?_⟩)
  have hfound := of_decide_eq_true (List.find?_some (p := fun c : Addrcontext =>
    decide (c.used = 1 ∧ netIpv6addrPrefixcmp c.pref a = true)) h)
  exact decide_eq_true ⟨hfound.1, rfl⟩

theorem received_of_none
    (h : findAddrcontextByPrefix a contexts = none) : received contexts a = a := by
  rw [received, h]
  rfl

theorem received_of_some {c' : Addrcontext} (h : findAddrcontextByPrefix a contexts = some c)
    (h' : findAddrcontextBynumber c.number contexts = some c') :
    received contexts a = copy a 0 8 (start c'.pref) := by
  rw [received, h, Option.bind_some, h']
  rfl

theorem start_copy_begin {src : Nat → UInt8} {len i : Nat} (hi : i < 16) :
    start (copy a 0 len src) i = if i < len then src i else start a i := by
  unfold start copy
  rw [dif_pos hi, dif_pos hi]
  refine if_congr ?_ rfl rfl
  rw [Nat.zero_add]
  exact and_iff_right (Nat.zero_le i)

theorem compressTagaddr_congr {b : Ipv6Addr} (h : ∀ i, 8 ≤ i → start a i = start b i) (mac : Varaddr)
    (bitpos : UInt8) : compressTagaddr a mac bitpos = compressTagaddr b mac bitpos := by
  have hword : ∀ i, 4 ≤ i → word a i = word b i := by
    intro i hi
    unfold word
    rw [h _ (by omega), h _ (by omega)]
  have hbytes : ∀ off len, 8 ≤ off → bytes a off len = bytes b off len := by
    intro off len hoff
    exact List.map_congr_left fun k _ => h _ (by omega)
  unfold compressTagaddr compressIpaddr sixlowpanIsmacbased sixlowpanIsbytebased sixlowpanIssaddrbased
    sixlowpanIseaddrbased isIid16bitCompressable
  rw [hword 4 (by omega), hword 5 (by omega), hword 6 (by omega), hword 7 (by omega),
    hbytes 14 2 (by omega), hbytes 8 8 (by omega)]

theorem context_restored {c' : Addrcontext} {mac : Varaddr}
    {frame : Nat → UInt8} {p : Nat} (hmac : mac.addrlen = 8)
    (h : findAddrcontextByPrefix a contexts = some c)
    (h' : findAddrcontextBynumber c.number contexts = some c') (bitpos : UInt8)
    (hlies : Lies frame p (compressTagaddr a mac bitpos).2) (ipaddr : Ipv6Addr) :
    ∃ mode : Fin 4, mode ≠ 0 ∧ (compressTagaddr a mac bitpos).1 = UInt8.ofNat mode <<< bitpos ∧
      uncompressAddr mac (start c'.pref) (gUncCtxconf.getD mode 0) frame p ipaddr =
        (received contexts a, p + (compressTagaddr a mac bitpos).2.length) := by
  have hreceived := received_of_some h h'
  have hsame : compressTagaddr a mac bitpos = compressTagaddr (received contexts a) mac bitpos := by
    refine compressTagaddr_congr (fun i hi => ?_) mac bitpos
    by_cases hlt : i < 16
    · rw [hreceived, start_copy_begin hlt, if_neg (by omega)]
    · unfold start
      rw [dif_neg hlt, dif_neg hlt]
  rw [hsame] at hlies ⊢
  refine compressTagaddr_restored modeRules_ctx hmac (by decide) (le_refl 8) ?_ ?_ bitpos hlies ipaddr
  · intro i hi
    rw [hreceived, start_copy_begin (by omega), if_pos hi]
  · exact fun i hi hi' => absurd hi' (by omega)

theorem linklocal_restored {mac : Varaddr} {frame : Nat → UInt8} {p : Nat}
    (hmac : mac.addrlen = 8) (h : isLinklocalPrefix a = true) (bitpos : UInt8)
    (hlies : Lies frame p (compressTagaddr a mac bitpos).2) (ipaddr : Ipv6Addr) :
    ∃ mode : Fin 4, mode ≠ 0 ∧ (compressTagaddr a mac bitpos).1 = UInt8.ofNat mode <<< bitpos ∧
      uncompressAddr mac gLlPrefix (gUncLlconf.getD mode 0) frame p ipaddr =
        (a, p + (compressTagaddr a mac bitpos).2.length) := by
  obtain ⟨h0, h1, h2, h3⟩ := of_decide_eq_true h
  obtain ⟨hfe, h80⟩ := word_eq_iff.mp (of_decide_eq_true h0)
  have hzero : ∀ j, 1 ≤ j → j < 4 → word a j = 0 := by
    intro j hj hj'
    obtain rfl | rfl | rfl : j = 1 ∨ j = 2 ∨ j = 3 := by omega
    exacts [h1, h2, h3]
  refine compressTagaddr_restored modeRules_ll hmac (by decide) (by decide) ?_ ?_ bitpos hlies ipaddr
  · intro i hi
    obtain rfl | rfl : i = 0 ∨ i = 1 := by omega
    exacts [hfe.symm, h80.symm]
  · exact fun i hi hi' => start_eq_zero hzero hi hi'

def receivedSrc (contexts : List Addrcontext) (a : Ipv6Addr) : Ipv6Addr :=
  if netIsAddrUnspecified a then a else received contexts a

theorem netIsAddrUnspecified_start (h : netIsAddrUnspecified a = true) :
    ∀ i < 16, start a i = 0 := by
  obtain ⟨h0, h1, h2, h3, h4, h5, h6, h7⟩ := of_decide_eq_true h
  have hword : ∀ j, 0 ≤ j → j < 8 → word a j = 0 := by
    intro j _ hj
    obtain rfl | rfl | rfl | rfl | rfl | rfl | rfl | rfl :
        j = 0 ∨ j = 1 ∨ j = 2 ∨ j = 3 ∨ j = 4 ∨ j = 5 ∨ j = 6 ∨ j = 7 := by omega
    exacts [h0, h1, h2, h3, h4, h5, h6, h7]
  exact fun i hi => start_eq_zero hword (Nat.zero_le i) hi

variable {contexts : List Addrcontext} {mac : Varaddr} {frame : Nat → UInt8} {iphc1 iphc2 : UInt8} {rx : Rx}

theorem uncompressSrc_context {mode : Fin 4} {c : Addrcontext} (hmode : mode ≠ 0)
    (h : iphc1 &&& 0x70 = iphcSac ||| UInt8.ofNat mode <<< iphcSamBit)
    (hfind : findAddrcontextBynumber (if iphc1 &&& iphcCid ≠ 0 then iphc2 >>> 4 else 0) contexts = some c) :
    uncompressSrc contexts (some mac) frame iphc1 iphc2 rx =
      .ok (rx.setSrc
        (uncompressAddr mac (start c.pref) (gUncCtxconf.getD mode 0) frame rx.hc06ptr rx.ipv6.srcipaddr)) := by
  have hbits : ∀ mode : Fin 4, mode ≠ 0 →
      (iphcSac ||| UInt8.ofNat mode <<< iphcSamBit) &&& iphcSac ≠ 0 ∧
      ((((iphcSac ||| UInt8.ofNat mode <<< iphcSamBit) &&& iphcSamMask) >>> iphcSamBit) &&& 0x03).toNat = mode ∧
      mode.val ≠ 0 := by
    decide
  obtain ⟨hsac, hsam, hne⟩ := hbits mode hmode
  rw [← and_of_and h (by decide)] at hsac
  rw [← and_of_and h (by decide)] at hsam
  unfold uncompressSrc
  dsimp only
  rw [if_pos hsac, hsam, if_pos hne, hfind]

theorem uncompressSrc_stateless {mode : Fin 4} (h : iphc1 &&& 0x70 = UInt8.ofNat mode <<< iphcSamBit) :
    uncompressSrc contexts (some mac) frame iphc1 iphc2 rx =
      .ok (rx.setSrc
        (uncompressAddr mac gLlPrefix (gUncLlconf.getD mode 0) frame rx.hc06ptr rx.ipv6.srcipaddr)) := by
  have hbits : ∀ mode : Fin 4, (UInt8.ofNat mode <<< iphcSamBit) &&& iphcSac = 0 ∧
      ((((UInt8.ofNat mode <<< iphcSamBit) &&& iphcSamMask) >>> iphcSamBit) &&& 0x03).toNat = mode := by
    decide
  obtain ⟨hsac, hsam⟩ := hbits mode
  rw [← and_of_and h (by decide)] at hsac
  rw [← and_of_and h (by decide)] at hsam
  unfold uncompressSrc
  dsimp only
  rw [if_neg (not_not_intro hsac), hsam]

theorem uncompressSrc_eq {a : Ipv6Addr} (hmac : mac.addrlen = 8)
    (hbits : iphc1 &&& 0x70 = (compressSrc contexts mac a).iphc1)
    (hsci : netIsAddrUnspecified a = false → ∀ c, findAddrcontextByPrefix a contexts = some c →
      (if iphc1 &&& iphcCid ≠ 0 then iphc2 >>> 4 else 0) = c.number)
    (hlies : Lies frame rx.hc06ptr (compressSrc contexts mac a).inline) :
    uncompressSrc contexts (some mac) frame iphc1 iphc2 rx =
      .ok (rx.setSrc (receivedSrc contexts a, rx.hc06ptr + (compressSrc contexts mac a).inline.length)) := by
  unfold receivedSrc
  by_cases hunspec : netIsAddrUnspecified a = true
  · rw [compressSrc, if_pos hunspec] at hbits hlies ⊢
    have hsac : iphc1 &&& iphcSac = iphcSac := and_of_and hbits (by decide)
    have hsam : iphc1 &&& iphcSamMask = 0 := and_of_and hbits (by decide)
    rw [if_pos hunspec, uncompressSrc, hsac, hsam]
    refine congrArg (fun result => Except.ok (rx.setSrc result)) ?_
    exact applyRule_unspecified (netIsAddrUnspecified_start hunspec)
  rw [if_neg hunspec]
  cases hfind : findAddrcontextByPrefix a contexts with
  | some c =>
    have heq : compressSrc contexts mac a =
        ⟨iphcSac ||| (compressTagaddr a mac iphcSamBit).1, c.number <<< 4,
          (compressTagaddr a mac iphcSamBit).2⟩ := by
      rw [compressSrc, if_neg hunspec, hfind]
    rw [heq] at hbits hlies ⊢
    obtain ⟨c', hnumber⟩ := findAddrcontextBynumber_of_byPrefix hfind
    obtain ⟨mode, hmode, htag, hrestored⟩ :=
      context_restored hmac hfind hnumber iphcSamBit hlies rx.ipv6.srcipaddr
    rw [htag] at hbits
    rw [← hsci (Bool.eq_false_of_not_eq_true hunspec) c hfind] at hnumber
    rw [uncompressSrc_context hmode hbits hnumber, hrestored]
  | none =>
    rw [received_of_none hfind]
    by_cases hlocal : isLinklocalPrefix a = true
    · have heq : compressSrc contexts mac a =
          ⟨(compressTagaddr a mac iphcSamBit).1, 0, (compressTagaddr a mac iphcSamBit).2⟩ := by
        rw [compressSrc, if_neg hunspec, hfind]
        exact if_pos hlocal
      rw [heq] at hbits hlies ⊢
      obtain ⟨mode, _, htag, hrestored⟩ :=
        linklocal_restored hmac hlocal iphcSamBit hlies rx.ipv6.srcipaddr
      rw [htag] at hbits
      rw [uncompressSrc_stateless hbits, hrestored]
    · have heq : compressSrc contexts mac a = ⟨0, 0, bytes a 0 16⟩ := by
        rw [compressSrc, if_neg hunspec, hfind]
        exact if_neg hlocal
      rw [heq] at hbits hlies ⊢
      have hmode : iphc1 &&& 0x70 = UInt8.ofNat (0 : Fin 4) <<< iphcSamBit := hbits
      rw [uncompressSrc_stateless hmode]
      exact congrArg (fun result => Except.ok (rx.setSrc result))
        (uncompressAddr_full (by decide : rule 0x000f = ⟨false, false, 0, 16⟩) hlies)

def receivedDest (contexts : List Addrcontext) (a : Ipv6Addr) : Ipv6Addr :=
  if netIsAddrMcast a then a else received contexts a

variable {mode : Fin 4} {a : Ipv6Addr}

theorem uncompressDest_context {c : Addrcontext}
    (h : iphc1 &&& 0x0f = iphcDac ||| UInt8.ofNat mode <<< iphcDamBit)
    (hfind : findAddrcontextBynumber (if iphc1 &&& iphcCid ≠ 0 then iphc2 &&& 0x0f else 0) contexts = some c) :
    uncompressDest contexts (some mac) frame iphc1 iphc2 rx =
      .ok (rx.setDest
        (uncompressAddr mac (start c.pref) (gUncCtxconf.getD mode 0) frame rx.hc06ptr rx.ipv6.destipaddr)) := by
  have hbits : ∀ mode : Fin 4, (iphcDac ||| UInt8.ofNat mode <<< iphcDamBit) &&& iphcM = 0 ∧
      (iphcDac ||| UInt8.ofNat mode <<< iphcDamBit) &&& iphcDac ≠ 0 ∧
      ((((iphcDac ||| UInt8.ofNat mode <<< iphcDamBit) &&& iphcDamMask) >>> iphcDamBit) &&& 0x03).toNat =
        mode := by
    decide
  obtain ⟨hm, hdac, hdam⟩ := hbits mode
  rw [← and_of_and h (by decide)] at hm
  rw [← and_of_and h (by decide)] at hdac
  rw [← and_of_and h (by decide)] at hdam
  unfold uncompressDest
  dsimp only
  rw [if_neg (not_not_intro hm), if_pos hdac, hfind, hdam]

theorem uncompressDest_stateless (h : iphc1 &&& 0x0f = UInt8.ofNat mode <<< iphcDamBit) :
    uncompressDest contexts (some mac) frame iphc1 iphc2 rx =
      .ok (rx.setDest
        (uncompressAddr mac gLlPrefix (gUncLlconf.getD mode 0) frame rx.hc06ptr rx.ipv6.destipaddr)) := by
  have hbits : ∀ mode : Fin 4, (UInt8.ofNat mode <<< iphcDamBit) &&& iphcM = 0 ∧
      (UInt8.ofNat mode <<< iphcDamBit) &&& iphcDac = 0 ∧
      ((((UInt8.ofNat mode <<< iphcDamBit) &&& iphcDamMask) >>> iphcDamBit) &&& 0x03).toNat = mode := by
    decide
  obtain ⟨hm, hdac, hdam⟩ := hbits mode
  rw [← and_of_and h (by decide)] at hm
  rw [← and_of_and h (by decide)] at hdac
  rw [← and_of_and h (by decide)] at hdam
  unfold uncompressDest
  dsimp only
  rw [if_neg (not_not_intro hm), if_neg (not_not_intro hdac), hdam]

def mcastPrefix (second : UInt8) (k : Nat) : UInt8 := if k = 0 then 0xff else second

theorem uncompressDest_mcast (mode : Fin 4) {result : Ipv6Addr × Nat}
    (h : iphc1 &&& 0x0f = iphcM ||| UInt8.ofNat mode)
    (hresult : (if mode.val > 0 ∧ mode.val < 3 then
        uncompressAddr mac (mcastPrefix (frame rx.hc06ptr)) (gUncMxconf.getD mode 0) frame (rx.hc06ptr + 1)
          rx.ipv6.destipaddr
      else
        uncompressAddr mac (mcastPrefix 0x02) (gUncMxconf.getD mode 0) frame rx.hc06ptr
          rx.ipv6.destipaddr) = result) :
    uncompressDest contexts (some mac) frame iphc1 iphc2 rx = .ok (rx.setDest result) := by
  have hbits : ∀ mode : Fin 4, (iphcM ||| UInt8.ofNat mode) &&& iphcM ≠ 0 ∧
      (iphcM ||| UInt8.ofNat mode) &&& iphcDac = 0 ∧
      ((((iphcM ||| UInt8.ofNat mode) &&& iphcDamMask) >>> iphcDamBit) &&& 0x03).toNat = mode := by
    decide
  obtain ⟨hm, hdac, hdam⟩ := hbits mode
  rw [← and_of_and h (by decide)] at hm
  rw [← and_of_and h (by decide)] at hdac
  rw [← and_of_and h (by decide)] at hdam
  unfold uncompressDest
  dsimp only
  rw [if_pos hm, if_neg (not_not_intro hdac), hdam, ← hresult]
  by_cases hinline : mode.val > 0 ∧ mode.val < 3
  · simp only [if_pos hinline]
    rfl
  · simp only [if_neg hinline]
    rfl

theorem mcast_rule {prefpost : UInt16} {n p : Nat} {second : UInt8} {ipaddr : Ipv6Addr}
    (hrule : rule prefpost = ⟨false, true, 2, n⟩) (hpos : 0 < n) (hlt : n < 14)
    (hmcast : netIsAddrMcast a = true) (hsecond : second = start a 1)
    (hzero : ∀ i, 2 ≤ i → i < 16 - n → start a i = 0)
    (hsrc : ∀ k < n, frame (p + k) = start a (16 - n + k)) :
    uncompressAddr mac (mcastPrefix second) prefpost frame p ipaddr = (a, p + n) := by
  have hff : start a 0 = 0xff := hi_of_and (of_decide_eq_true hmcast)
  rw [uncompressAddr, hrule]
  refine applyRule_frame hpos (by omega) (fun _ => by omega) (fun h => h.2.2 rfl) ?_ hzero hsrc
  intro i hi
  obtain rfl | rfl : i = 0 ∨ i = 1 := by omega
  · exact hff.symm
  · exact hsecond

theorem mcast_inline {prefpost : UInt16} {n p : Nat} {ipaddr : Ipv6Addr}
    (hrule : rule prefpost = ⟨false, true, 2, n⟩) (hpos : 0 < n) (hlt : n < 14)
    (hmcast : netIsAddrMcast a = true) (hzero : ∀ i, 2 ≤ i → i < 16 - n → start a i = 0)
    (hlies : Lies frame p (start a 1 :: bytes a (16 - n) n)) :
    uncompressAddr mac (mcastPrefix (frame p)) prefpost frame (p + 1) ipaddr =
      (a, p + (start a 1 :: bytes a (16 - n) n).length) := by
  obtain ⟨hsecond, hrest⟩ := hlies
  rw [mcast_rule hrule hpos hlt hmcast hsecond hzero fun k hk => lies_bytes hrest hk, List.length_cons,
    length_bytes, Nat.add_right_comm, Nat.add_assoc]

theorem start_eq_zero_masked {m : Nat} (h : ∀ j, 1 ≤ j → j < m → word a j = 0)
    (hmask : word a m &&& 0xff00 = 0) (i : Nat) (hi : 2 ≤ i) (hi' : i < 2 * m + 1) : start a i = 0 := by
  by_cases hlast : i = 2 * m
  · rw [hlast]
    exact hi_of_and hmask
  · exact start_eq_zero h hi (by omega)

theorem mcast_restored (hmcast : netIsAddrMcast a = true)
    (hbits : iphc1 &&& 0x0f = (compressDest contexts mac a).iphc1)
    (hlies : Lies frame rx.hc06ptr (compressDest contexts mac a).inline) :
    uncompressDest contexts (some mac) frame iphc1 iphc2 rx =
      .ok (rx.setDest (a, rx.hc06ptr + (compressDest contexts mac a).inline.length)) := by
  unfold compressDest at hbits hlies ⊢
  rw [if_pos hmcast] at hbits hlies ⊢
  by_cases h8 : isMcastaddrCompressable8 a = true
  · rw [if_pos h8] at hbits hlies ⊢
    obtain ⟨h0, h1, h2, h3, h4, h5, h6, h7⟩ := of_decide_eq_true h8
    have hwords : ∀ j, 1 ≤ j → j < 7 → word a j = 0 := by
      intro j hj hj'
      obtain rfl | rfl | rfl | rfl | rfl | rfl : j = 1 ∨ j = 2 ∨ j = 3 ∨ j = 4 ∨ j = 5 ∨ j = 6 := by omega
      exacts [h1, h2, h3, h4, h5, h6]
    have hsrc : ∀ k < 1, frame (rx.hc06ptr + k) = start a (16 - 1 + k) := by
      intro k hk
      obtain rfl : k = 0 := by omega
      exact hlies.1.trans (lo_be16 _ _)
    refine uncompressDest_mcast 3 hbits ?_
    exact mcast_rule (by decide : rule 0x0221 = ⟨false, true, 2, 1⟩) Nat.one_pos (by decide : 1 < 14) hmcast
      (lo_of_and h0).symm (start_eq_zero_masked hwords h7) hsrc
  rw [if_neg h8] at hbits hlies ⊢
  by_cases h32 : isMcastaddrCompressable32 a = true
  · rw [if_pos h32] at hbits hlies ⊢
    obtain ⟨h1, h2, h3, h4, h5, h6⟩ := of_decide_eq_true h32
    have hwords : ∀ j, 1 ≤ j → j < 6 → word a j = 0 := by
      intro j hj hj'
      obtain rfl | rfl | rfl | rfl | rfl : j = 1 ∨ j = 2 ∨ j = 3 ∨ j = 4 ∨ j = 5 := by omega
      exacts [h1, h2, h3, h4, h5]
    exact uncompressDest_mcast 2 hbits (mcast_inline (by decide : rule 0x0223 = ⟨false, true, 2, 3⟩)
      (by decide) (by decide) hmcast (start_eq_zero_masked hwords h6) hlies)
  rw [if_neg h32] at hbits hlies ⊢
  by_cases h48 : isMcastaddrCompressable48 a = true
  · rw [if_pos h48] at hbits hlies ⊢
    obtain ⟨h1, h2, h3, h4, h5⟩ := of_decide_eq_true h48
    have hwords : ∀ j, 1 ≤ j → j < 5 → word a j = 0 := by
      intro j hj hj'
      obtain rfl | rfl | rfl | rfl : j = 1 ∨ j = 2 ∨ j = 3 ∨ j = 4 := by omega
      exacts [h1, h2, h3, h4]
    exact uncompressDest_mcast 1 hbits (mcast_inline (by decide : rule 0x0225 = ⟨false, true, 2, 5⟩)
      (by decide) (by decide) hmcast (start_eq_zero_masked hwords h5) hlies)
  · rw [if_neg h48] at hbits hlies ⊢
    exact uncompressDest_mcast 0 hbits
      (uncompressAddr_full (by decide : rule 0x020f = ⟨false, true, 0, 16⟩) hlies)

theorem uncompressDest_eq (hmac : mac.addrlen = 8)
    (hbits : iphc1 &&& 0x0f = (compressDest contexts mac a).iphc1)
    (hdci : netIsAddrMcast a = false → ∀ c, findAddrcontextByPrefix a contexts = some c →
      (if iphc1 &&& iphcCid ≠ 0 then iphc2 &&& 0x0f else 0) = c.number)
    (hlies : Lies frame rx.hc06ptr (compressDest contexts mac a).inline) :
    uncompressDest contexts (some mac) frame iphc1 iphc2 rx =
      .ok (rx.setDest (receivedDest contexts a, rx.hc06ptr + (compressDest contexts mac a).inline.length)) := by
  unfold receivedDest
  by_cases hmcast : netIsAddrMcast a = true
  · rw [if_pos hmcast]
    exact mcast_restored hmcast hbits hlies
  rw [if_neg hmcast]
  cases hfind : findAddrcontextByPrefix a contexts with
  | some c =>
    have heq : compressDest contexts mac a =
        ⟨iphcDac ||| (compressTagaddr a mac iphcDamBit).1, c.number, (compressTagaddr a mac iphcDamBit).2⟩ := by
      rw [compressDest, if_neg hmcast, hfind]
    rw [heq] at hbits hlies ⊢
    obtain ⟨c', hnumber⟩ := findAddrcontextBynumber_of_byPrefix hfind
    obtain ⟨mode, _, htag, hrestored⟩ :=
      context_restored hmac hfind hnumber iphcDamBit hlies rx.ipv6.destipaddr
    rw [htag] at hbits
    rw [← hdci (Bool.eq_false_of_not_eq_true hmcast) c hfind] at hnumber
    rw [uncompressDest_context hbits hnumber, hrestored]
  | none =>
    rw [received_of_none hfind]
    by_cases hlocal : isLinklocalPrefix a = true
    · have heq : compressDest contexts mac a =
          ⟨(compressTagaddr a mac iphcDamBit).1, 0, (compressTagaddr a mac iphcDamBit).2⟩ := by
        rw [compressDest, if_neg hmcast, hfind]
        exact if_pos hlocal
      rw [heq] at hbits hlies ⊢
      obtain ⟨mode, _, htag, hrestored⟩ :=
        linklocal_restored hmac hlocal iphcDamBit hlies rx.ipv6.destipaddr
      rw [htag] at hbits
      rw [uncompressDest_stateless hbits, hrestored]
    · have heq : compressDest contexts mac a = ⟨0, 0, bytes a 0 16⟩ := by
        rw [compressDest, if_neg hmcast, hfind]
        exact if_neg hlocal
      rw [heq] at hbits hlies ⊢
      have hmode : iphc1 &&& 0x0f = UInt8.ofNat (0 : Fin 4) <<< iphcDamBit := hbits
      rw [uncompressDest_stateless hmode]
      exact congrArg (fun result => Except.ok (rx.setDest result))
        (uncompressAddr_full (by decide : rule 0x000f = ⟨false, false, 0, 16⟩) hlies)

end Nuttx.Sixlowpan

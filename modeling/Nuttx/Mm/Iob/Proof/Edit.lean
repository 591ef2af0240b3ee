import Nuttx.Mm.Iob.Proof.Copy

/-!
# Editing a chain

Trimming, packing and joining chains, seen through their payload.
-/

open List

namespace Nuttx.Mm

open Ring

namespace Iob

variable {bufsize : Nat} {debug : Bool} {iob next : Iob} {rest chain : List Iob} {freed : List Nat}

theorem iobFree_eq
    (h : debug = true → iob.ioPktlen > iob.ioLen → next.ioLen ≤ iob.ioPktlen - iob.ioLen) :
    iobFree debug iob next = .ok { next with ioPktlen := iob.ioPktlen - iob.ioLen } := by
  rw [iobFree]
  by_cases hpkt : iob.ioPktlen > iob.ioLen
  · have hassert : debugAssert debug Assertion.freePktlen
        (decide (iob.ioPktlen - iob.ioLen ≥ next.ioLen)) = .ok () :=
      debugAssert_ok (fun hdebug => decide_eq_true (h hdebug hpkt))
    rw [if_pos hpkt]
    dsimp only
    rw [hassert]
    rfl
  · rw [if_neg hpkt, Nat.sub_eq_zero_of_le (by omega)]
    rfl

theorem iobFree_quiet (h : debug = true → iob.ioPktlen = 0) :
    iobFree debug iob next = .ok { next with ioPktlen := iob.ioPktlen - iob.ioLen } := by
  apply iobFree_eq
  intro hdebug hpkt
  rw [h hdebug] at hpkt
  omega

theorem Fits.setPktlen (h : iob.Fits bufsize) (pktlen : Nat) :
    Fits bufsize { iob with ioPktlen := pktlen } :=
  ⟨h.fits, h.sized⟩

theorem WellFormed.tail (h : WellFormed bufsize (iob :: next :: rest)) (debug : Bool) :
    iobFree debug iob next = .ok { next with ioPktlen := iob.ioPktlen - iob.ioLen } ∧
      WellFormed bufsize ({ next with ioPktlen := iob.ioPktlen - iob.ioLen } :: rest) := by
  obtain ⟨hpktlen, hless, hfits⟩ := h
  simp only [map_cons, sum_cons] at hpktlen
  refine ⟨iobFree_eq (fun _ _ => by omega), ?_, Nat.lt_of_le_of_lt (Nat.sub_le _ _) hless, ?_⟩
  · simp only [map_cons, sum_cons]
    omega
  · have hnext := forall_mem_cons.mp (forall_mem_cons.mp hfits).2
    exact forall_mem_cons.mpr ⟨hnext.1.setPktlen _, hnext.2⟩

theorem compact_spec (h : iob.Fits bufsize) :
    (compact iob).Fits bufsize ∧ (compact iob).ioOffset = 0 ∧ (compact iob).ioLen = iob.ioLen ∧
      (compact iob).ioPktlen = iob.ioPktlen ∧ (compact iob).id = iob.id ∧
      (compact iob).bytes = iob.bytes := by
  have hfits := h.fits
  have hsized := h.sized
  by_cases hoff : iob.ioOffset > 0
  · have hlen := h.length_bytes
    have hroom : 0 + iob.bytes.length ≤ iob.ioData.length := by omega
    have heq : compact iob = { iob with ioData := overlay iob.ioData 0 iob.bytes, ioOffset := 0 } :=
      if_pos hoff
    rw [heq]
    refine ⟨⟨?_, ?_⟩, rfl, rfl, rfl, rfl, ?_⟩
    · show 0 + iob.ioLen ≤ bufsize
      omega
    · show (overlay iob.ioData 0 iob.bytes).length = bufsize
      rw [length_overlay hroom, hsized]
    · show ((overlay iob.ioData 0 iob.bytes).drop 0).take iob.ioLen = iob.bytes
      rw [drop_zero, overlay, take_zero, nil_append,
        take_append_of_le_length (by omega), take_of_length_le (by omega)]
  · have heq : compact iob = iob := if_neg hoff
    rw [heq]
    exact ⟨h, by omega, rfl, rfl, rfl, rfl⟩

theorem Fits.advance (hbuf : bufsize ≤ 2 ^ 16) (h : iob.Fits bufsize) {n : Nat}
    (hn : n ≤ iob.ioLen) :
    Fits bufsize { iob with
        ioOffset := (iob.ioOffset + n) % lenMod bufsize, ioLen := iob.ioLen - n } ∧
      bytes { iob with ioOffset := (iob.ioOffset + n) % lenMod bufsize, ioLen := iob.ioLen - n }
        = iob.bytes.drop n := by
  have hfits := h.fits
  by_cases hlt : iob.ioOffset + n < lenMod bufsize
  · rw [Nat.mod_eq_of_lt hlt]
    refine ⟨⟨?_, h.sized⟩, ?_⟩
    · show iob.ioOffset + n + (iob.ioLen - n) ≤ bufsize
      omega
    · show (iob.ioData.drop (iob.ioOffset + n)).take (iob.ioLen - n) = iob.bytes.drop n
      rw [bytes, drop_take, drop_drop]
  · -- the offset wrapped around: there is nothing left
    have hall : n = iob.ioLen ∧ iob.ioOffset + n = lenMod bufsize := by
      rw [lenMod] at hlt ⊢
      split_ifs at hlt ⊢ <;> omega
    rw [hall.2, Nat.mod_self, hall.1, Nat.sub_self]
    refine ⟨⟨Nat.zero_le _, h.sized⟩, ?_⟩
    show (iob.ioData.drop 0).take 0 = iob.bytes.drop iob.ioLen
    rw [take_zero, drop_of_length_le (Nat.le_of_eq h.length_bytes)]

theorem moveBytes_spec (hbuf : bufsize ≤ 2 ^ 16) (h : iob.Fits bufsize)
    (hoff : iob.ioOffset = 0) (hnext : next.Fits bufsize) {ncopy : Nat} (hn : ncopy ≤ next.ioLen)
    (hroom : iob.ioLen + ncopy ≤ bufsize) (hpkt : iob.ioLen + ncopy < 2 ^ 16) :
    ∃ iob' next', moveBytes bufsize iob next ncopy = (iob', next') ∧
      (iob'.Fits bufsize ∧ iob'.ioOffset = 0 ∧ iob'.ioLen = iob.ioLen + ncopy ∧
        iob'.ioPktlen = iob.ioPktlen ∧ iob'.id = iob.id ∧
        iob'.bytes = iob.bytes ++ next.bytes.take ncopy) ∧
      next'.Fits bufsize ∧ next'.ioLen = next.ioLen - ncopy ∧ next'.ioPktlen = next.ioPktlen ∧
        next'.id = next.id ∧ next'.bytes = next.bytes.drop ncopy := by
  have hmod : (iob.ioLen + ncopy) % lenMod bufsize = iob.ioLen + ncopy :=
    Nat.mod_eq_of_lt (lt_lenMod hroom hpkt)
  have hmoved : (next.ioData.drop next.ioOffset).take ncopy = next.bytes.take ncopy := by
    rw [bytes, take_take, Nat.min_eq_left hn]
  have hcount : (next.bytes.take ncopy).length = ncopy := by
    rw [length_take, hnext.length_bytes]
    omega
  have hstore := h.overlay (next.bytes.take ncopy) le_rfl
    (show iob.ioLen + ncopy = max iob.ioLen (iob.ioLen + (next.bytes.take ncopy).length) by omega)
    (by omega)
  rw [show iob.ioOffset + iob.ioLen = iob.ioLen by omega] at hstore
  obtain ⟨hfits', hbytes'⟩ := hnext.advance hbuf hn
  refine ⟨_, _, ?_, ⟨hstore.1, hoff, rfl, rfl, rfl, ?_⟩, hfits', rfl, rfl, rfl, hbytes'⟩
  · rw [moveBytes, hmod, hmoved]
  · rw [hstore.2, overlay, take_of_length_le (Nat.le_of_eq h.length_bytes),
      drop_of_length_le (by rw [h.length_bytes]; omega), append_nil]

theorem freed_cons {ids before : List Nat} {id : Nat} (h : (ids ++ freed).Perm before) :
    (ids ++ id :: freed).Perm (id :: before) :=
  perm_middle.trans (h.cons id)

theorem quiet_tail {next next' : Iob} (h : Quiet (iob :: next :: rest)) : Quiet (next' :: rest) :=
  fun b hb => h b (mem_cons_of_mem _ hb)

theorem sub_mod_pktlen {pktlen n : Nat} (hless : pktlen < 2 ^ 16) (hn : n ≤ pktlen) :
    (pktlen + 2 ^ 16 - n) % 2 ^ 16 = pktlen - n := by
  rw [show pktlen + 2 ^ 16 - n = pktlen - n + 2 ^ 16 by omega, Nat.add_mod_right,
    Nat.mod_eq_of_lt (by omega)]

structure Trimmed (bufsize trimlen : Nat) (before chain : List Iob) (freed : List Nat) : Prop where
  wellFormed : WellFormed bufsize chain
  payload : payload chain = (payload before).drop trimlen
  ids : (chain.map Iob.id ++ freed).Perm (before.map Iob.id)
  quiet : Quiet before → Quiet chain

theorem trimheadLoop_stop (debug : Bool) (hbuf : bufsize ≤ 2 ^ 16)
    (h : WellFormed bufsize (iob :: rest)) {trimlen : Nat} (hstop : trimlen = 0 ∨ trimlen < iob.ioLen) :
    ∃ chain freed, trimheadLoop debug bufsize iob.ioPktlen trimlen iob rest = .ok (chain, freed) ∧
      Trimmed bufsize trimlen (iob :: rest) chain freed := by
  obtain ⟨hpktlen, hless, hfits⟩ := h
  have hpair := forall_mem_cons.mp hfits
  by_cases hzero : trimlen = 0
  · refine ⟨iob :: rest, [], ?_, ⟨hpktlen, hless, hfits⟩, ?_, ?_, fun hquiet => hquiet⟩
    · rw [trimheadLoop, if_neg (by omega)]
      rfl
    · rw [hzero, drop_zero]
    · rw [append_nil]
  have hlt := hstop.resolve_left hzero
  rw [map_cons, sum_cons] at hpktlen
  obtain ⟨hfits', hbytes'⟩ := hpair.1.advance hbuf (Nat.le_of_lt hlt)
  have hrest : iob.ioPktlen - trimlen = iob.ioLen - trimlen + (rest.map ioLen).sum := by omega
  refine ⟨{ iob with
      ioLen := iob.ioLen - trimlen
      ioOffset := (iob.ioOffset + trimlen) % lenMod bufsize
      ioPktlen := iob.ioPktlen - trimlen } :: rest, [], ?_, ⟨?_, ?_, ?_⟩, ?_, ?_, fun hquiet => hquiet⟩
  · rw [trimheadLoop, if_pos (by omega), if_neg (by omega), sub_mod_pktlen hless (by omega)]
    rfl
  · rw [map_cons, sum_cons]
    exact hrest
  · exact Nat.lt_of_le_of_lt (Nat.sub_le _ _) hless
  · exact forall_mem_cons.mpr ⟨hfits'.setPktlen _, hpair.2⟩
  · rw [payload_cons, payload_cons,
      drop_append_of_le_length (by rw [hpair.1.length_bytes]; omega)]
    exact congrArg (· ++ Iob.payload rest) hbytes'
  · rw [append_nil]
    rfl

theorem drop_payload_cons (h : iob.Fits bufsize) (rest : List Iob) {n : Nat}
    (hn : iob.ioLen ≤ n) : (payload (iob :: rest)).drop n = (payload rest).drop (n - iob.ioLen) := by
  have hlen := h.length_bytes
  have hnone : iob.bytes.drop n = [] := drop_of_length_le (by omega)
  rw [payload_cons, drop_append, hnone, nil_append, hlen]

theorem trimheadLoop_spec (hbuf : bufsize ≤ 2 ^ 16)
    (h : WellFormed bufsize (iob :: rest)) (trimlen : Nat) :
    ∃ chain freed, trimheadLoop debug bufsize iob.ioPktlen trimlen iob rest = .ok (chain, freed) ∧
      Trimmed bufsize trimlen (iob :: rest) chain freed := by
  induction rest generalizing iob trimlen with
  | nil =>
    by_cases hstop : trimlen = 0 ∨ trimlen < iob.ioLen
    · exact trimheadLoop_stop debug hbuf h hstop
    have hiob := h.2.2 iob mem_cons_self
    have hpktlen : iob.ioPktlen = iob.ioLen := by simpa using h.1
    have hlocal : (iob.ioPktlen + 2 ^ 16 - iob.ioLen) % 2 ^ 16 = 0 := by
      rw [sub_mod_pktlen h.2.1 (by omega), hpktlen, Nat.sub_self]
    have hassert : debugAssert debug Assertion.trimheadPktlen (decide (0 = 0)) = .ok () :=
      debugAssert_ok (fun _ => rfl)
    refine ⟨[{ iob with ioLen := 0, ioOffset := 0, ioPktlen := 0 }], [], ?_,
      ⟨rfl, Nat.two_pow_pos 16, ?_⟩, ?_, ?_, fun _ b hb => nomatch hb⟩
    · rw [trimheadLoop, if_pos (by omega), if_pos (by omega), hlocal]
      dsimp only
      rw [hassert]
      rfl
    · exact forall_mem_singleton.mpr ⟨Nat.zero_le _, hiob.sized⟩
    · rw [drop_payload_cons hiob [] (by omega), payload_nil, drop_nil]
      rfl
    · rw [append_nil]
      rfl
  | cons next rest ih =>
    by_cases hstop : trimlen = 0 ∨ trimlen < iob.ioLen
    · exact trimheadLoop_stop debug hbuf h hstop
    have hiob := h.2.2 iob mem_cons_self
    have hpktlen := h.1
    rw [map_cons, sum_cons] at hpktlen
    have hlocal := sub_mod_pktlen h.2.1 (show iob.ioLen ≤ iob.ioPktlen by omega)
    obtain ⟨hfree, hwf⟩ := h.tail debug
    obtain ⟨chain, freed, hrun, htrim⟩ := ih hwf (trimlen - iob.ioLen)
    refine ⟨chain, iob.id :: freed, ?_, htrim.wellFormed, ?_, freed_cons htrim.ids,
      fun hquiet => htrim.quiet (quiet_tail hquiet)⟩
    · rw [trimheadLoop, if_pos (by omega), if_pos (by omega), hlocal]
      dsimp only
      rw [hfree, Result.ok_bind, hrun]
      rfl
    · rw [htrim.payload, drop_payload_cons hiob (next :: rest) (by omega)]
      rfl

theorem trimtailLoop_spec {rev : List Iob} (h : ∀ b ∈ rev, b.Fits bufsize) {pktlen : Nat}
    (hpktlen : pktlen = (rev.map ioLen).sum) (hless : pktlen < 2 ^ 16) (len : Nat) :
    ∃ rev' pktlen' freed, trimtailLoop pktlen len rev = (rev', pktlen', freed) ∧
      (∀ b ∈ rev', b.Fits bufsize) ∧ pktlen' = (rev'.map ioLen).sum ∧ pktlen' ≤ pktlen ∧
      payload rev'.reverse = (payload rev.reverse).take (pktlen - len) ∧
      (rev'.map Iob.id ++ freed).Perm (rev.map Iob.id) ∧
      rev'.map ioPktlen <:+ rev.map ioPktlen := by
  induction rev generalizing pktlen len with
  | nil =>
    refine ⟨[], pktlen, [], rfl, h, hpktlen, le_rfl, ?_, List.Perm.refl _, suffix_refl _⟩
    simp
  | cons last before ih =>
    have hpair := forall_mem_cons.mp h
    have hlen := hpair.1.length_bytes
    rw [map_cons, sum_cons] at hpktlen
    have hbefore : (payload before.reverse).length = (before.map ioLen).sum := by
      rw [length_payload (fun b hb => hpair.2 b (mem_reverse.mp hb)), map_reverse, sum_reverse]
    have hpay : payload (last :: before).reverse = payload before.reverse ++ last.bytes := by
      rw [reverse_cons, payload_append, payload_cons, payload_nil, append_nil]
    rw [trimtailLoop]
    by_cases hpos : len > 0
    · by_cases hall : last.ioLen ≤ len
      · obtain ⟨rev', pktlen', freed, hrun, hfits', hsum', hle', hpay', hids', hsuffix⟩ :=
          ih hpair.2 (show pktlen - last.ioLen = (before.map ioLen).sum by omega) (by omega)
            (len - last.ioLen)
        have hlocal := sub_mod_pktlen hless (show last.ioLen ≤ pktlen by omega)
        refine ⟨rev', pktlen', last.id :: freed, ?_, hfits', hsum', by omega, ?_, freed_cons hids',
          hsuffix.trans (suffix_cons _ _)⟩
        · rw [if_pos hpos, if_pos hall, hlocal, hrun]
        · rw [hpay', hpay, take_append_of_le_length (by omega)]
          congr 1
          omega
      have hlocal := sub_mod_pktlen hless (show len ≤ pktlen by omega)
      have hfits' : Fits bufsize { last with ioLen := last.ioLen - len } :=
        ⟨Nat.le_trans (Nat.add_le_add_left (Nat.sub_le _ _) _) hpair.1.fits, hpair.1.sized⟩
      have hbytes' : bytes { last with ioLen := last.ioLen - len }
          = last.bytes.take (last.ioLen - len) := by
        show (last.ioData.drop last.ioOffset).take (last.ioLen - len) = _
        rw [bytes, take_take, Nat.min_eq_left (Nat.sub_le _ _)]
      refine ⟨{ last with ioLen := last.ioLen - len } :: before, pktlen - len, [], ?_,
        forall_mem_cons.mpr ⟨hfits', hpair.2⟩, ?_, Nat.sub_le _ _, ?_, ?_, suffix_refl _⟩
      · rw [if_pos hpos, if_neg hall, hlocal]
      · rw [map_cons, sum_cons]
        show pktlen - len = last.ioLen - len + (before.map ioLen).sum
        omega
      · have hkeep : (payload before.reverse).take (pktlen - len) = payload before.reverse :=
          take_of_length_le (by omega)
        rw [hpay, reverse_cons, payload_append, payload_cons, payload_nil, append_nil,
          hbytes', take_append, hkeep, hbefore]
        congr 2
        omega
      · rw [append_nil]
        rfl
    · refine ⟨last :: before, pktlen, [], if_neg hpos, h, hpktlen, le_rfl, ?_, ?_,
        suffix_refl _⟩
      · rw [take_of_length_le]
        rw [hpay, length_append, hbefore, hlen]
        omega
      · rw [append_nil]

theorem payload_setPktlen (pktlen : Nat) (chain : List Iob) :
    payload (setPktlen pktlen chain) = payload chain := by
  cases chain with
  | nil => rfl
  | cons head rest => rfl

theorem map_id_setPktlen (pktlen : Nat) (chain : List Iob) :
    (setPktlen pktlen chain).map Iob.id = chain.map Iob.id := by
  cases chain with
  | nil => rfl
  | cons head rest => rfl

theorem wellFormed_setPktlen {chain : List Iob} (hne : chain ≠ [])
    (hfits : ∀ b ∈ chain, b.Fits bufsize) {pktlen : Nat} (hpktlen : pktlen = (chain.map ioLen).sum)
    (hless : pktlen < 2 ^ 16) : WellFormed bufsize (setPktlen pktlen chain) := by
  cases chain with
  | nil => exact absurd rfl hne
  | cons head rest =>
    have hpair := forall_mem_cons.mp hfits
    exact ⟨hpktlen, hless, forall_mem_cons.mpr ⟨hpair.1.setPktlen _, hpair.2⟩⟩

theorem quiet_setPktlen {before chain : List Iob} (h : chain.map ioPktlen <+: before.map ioPktlen)
    (hquiet : Quiet before) (pktlen : Nat) : Quiet (setPktlen pktlen chain) := by
  cases chain with
  | nil => exact fun b hb => nomatch hb
  | cons head rest =>
    cases before with
    | nil => simp at h
    | cons iob others =>
      intro b hb
      rw [map_cons, map_cons, cons_prefix_cons] at h
      have hmem : b.ioPktlen ∈ others.map ioPktlen :=
        h.2.subset (mem_map_of_mem (f := ioPktlen) hb)
      obtain ⟨c, hc, hcb⟩ := mem_map.mp hmem
      rw [← hcb]
      exact hquiet c hc

theorem iobTrimtail_spec (h : WellFormed bufsize (iob :: rest))
    {trimlen : Nat} (htrim : trimlen ≤ 2147483647) :
    ∃ chain freed, iobTrimtail (iob :: rest) trimlen = (chain, freed) ∧
      (chain = [] ∨ WellFormed bufsize chain) ∧
      payload chain = (payload (iob :: rest)).take ((payload (iob :: rest)).length - trimlen) ∧
      (chain.map Iob.id ++ freed).Perm ((iob :: rest).map Iob.id) ∧
      (Quiet (iob :: rest) → Quiet chain) := by
  obtain ⟨hpktlen, hless, hfits⟩ := h
  have hlen := length_payload hfits
  by_cases hpos : trimlen > 0
  · have hint : (Int.bmod trimlen (2 ^ 32)).toNat = trimlen := by
      rw [Int.bmod_eq_of_le (by omega) (by omega), Int.toNat_natCast]
    obtain ⟨rev, pktlen, freed, hrun, hfits', hsum', hle, hpay, hids, hsuffix⟩ :=
      trimtailLoop_spec (show ∀ b ∈ (iob :: rest).reverse, b.Fits bufsize from
        fun b hb => hfits b (mem_reverse.mp hb))
        (show iob.ioPktlen = _ by rw [map_reverse, sum_reverse, hpktlen]) hless trimlen
    refine ⟨setPktlen pktlen rev.reverse, freed, ?_, ?_, ?_, ?_, ?_⟩
    · rw [iobTrimtail, if_pos hpos]
      dsimp only
      rw [hint, hrun]
    · by_cases hne : rev.reverse = []
      · rw [hne]
        exact .inl rfl
      · refine .inr (wellFormed_setPktlen hne (fun b hb => hfits' b (mem_reverse.mp hb)) ?_
          (by omega))
        rw [map_reverse, sum_reverse, hsum']
    · rw [payload_setPktlen, hpay, reverse_reverse, hlen, hpktlen]
    · rw [map_id_setPktlen, map_reverse]
      rw [map_reverse] at hids
      exact ((reverse_perm _).append_right freed).trans (hids.trans (reverse_perm _))
    · intro hquiet
      refine quiet_setPktlen ?_ hquiet pktlen
      rw [map_reverse] at hsuffix ⊢
      rw [← reverse_suffix, reverse_reverse]
      exact hsuffix
  · obtain rfl : trimlen = 0 := by omega
    refine ⟨iob :: rest, [], rfl, .inr ⟨hpktlen, hless, hfits⟩, ?_, ?_, fun hquiet => hquiet⟩
    · rw [Nat.sub_zero, take_length]
    · rw [append_nil]

structure Repacked (bufsize : Nat) (before chain : List Iob) (freed : List Nat) : Prop where
  fits : ∀ b ∈ chain, b.Fits bufsize
  pktlen : chain.head?.map ioPktlen = before.head?.map ioPktlen
  payload : payload chain = payload before
  ids : (chain.map Iob.id ++ freed).Perm (before.map Iob.id)
  quiet : Quiet before → Quiet chain

theorem Repacked.wellFormed
    (h : WellFormed bufsize (iob :: rest)) (hrep : Repacked bufsize (iob :: rest) chain freed) :
    WellFormed bufsize chain := by
  have hhead := hrep.pktlen
  have hlen := length_payload hrep.fits
  have hfits := hrep.fits
  rw [hrep.payload, length_payload h.2.2, ← h.1] at hlen
  cases chain with
  | nil => simp at hhead
  | cons head tail =>
    simp only [List.head?_cons, Option.map_some, Option.some.injEq] at hhead
    exact ⟨by rw [hhead, hlen], by rw [hhead]; exact h.2.1, hfits⟩

theorem Repacked.ne_nil (hrep : Repacked bufsize (iob :: rest) chain freed) : chain ≠ [] := by
  rintro rfl
  cases hrep.pktlen

theorem Repacked.all_quiet
    (hrep : Repacked bufsize (iob :: rest) chain freed) (hiob : iob.ioPktlen = 0)
    (hquiet : Quiet (iob :: rest)) : ∀ b ∈ chain, b.ioPktlen = 0 := by
  have hhead := hrep.pktlen
  have htail := hrep.quiet hquiet
  cases chain with
  | nil => exact fun b hb => nomatch hb
  | cons head tail =>
    simp only [List.head?_cons, Option.map_some, Option.some.injEq] at hhead
    exact forall_mem_cons.mpr ⟨hhead.trans hiob, htail⟩

theorem Repacked.refl {chain : List Iob} (hfits : ∀ b ∈ chain, b.Fits bufsize) :
    Repacked bufsize chain chain [] :=
  ⟨hfits, rfl, rfl, by rw [append_nil], fun hquiet => hquiet⟩

theorem Repacked.trans {before mid chain : List Iob} {more : List Nat}
    (h₁ : Repacked bufsize before mid freed) (h₂ : Repacked bufsize mid chain more) :
    Repacked bufsize before chain (freed ++ more) where
  fits := h₂.fits
  pktlen := h₂.pktlen.trans h₁.pktlen
  payload := h₂.payload.trans h₁.payload
  ids := by
    have hswap : (chain.map Iob.id ++ (freed ++ more)).Perm (chain.map Iob.id ++ more ++ freed) := by
      rw [append_assoc]
      exact perm_append_comm.append_left _
    exact hswap.trans ((h₂.ids.append_right freed).trans h₁.ids)
  quiet := fun hquiet => h₂.quiet (h₁.quiet hquiet)

theorem Repacked.cons (hiob : iob.Fits bufsize) (h : Repacked bufsize (next :: rest) chain freed) :
    Repacked bufsize (iob :: next :: rest) (iob :: chain) freed where
  fits := List.forall_mem_cons.mpr ⟨hiob, h.fits⟩
  pktlen := rfl
  payload := by rw [payload_cons, payload_cons, h.payload]
  ids := h.ids.cons iob.id
  quiet := fun hquiet => h.all_quiet (hquiet next mem_cons_self) (quiet_tail hquiet)

theorem repacked_compact (hfits : ∀ b ∈ iob :: rest, b.Fits bufsize) :
    Repacked bufsize (iob :: rest) (compact iob :: rest) [] := by
  have hpair := forall_mem_cons.mp hfits
  obtain ⟨hfits', -, -, hpktlen, hid, hbytes⟩ := compact_spec hpair.1
  refine ⟨forall_mem_cons.mpr ⟨hfits', hpair.2⟩, ?_, ?_, ?_, fun hquiet => hquiet⟩
  · simp [hpktlen]
  · rw [payload_cons, payload_cons, hbytes]
  · rw [append_nil, map_cons, map_cons, hid]

theorem repacked_moveBytes (hbuf : bufsize ≤ 2 ^ 16)
    (hfits : ∀ b ∈ iob :: next :: rest, b.Fits bufsize) (hoff : iob.ioOffset = 0) {ncopy : Nat}
    (hn : ncopy ≤ next.ioLen) (hroom : iob.ioLen + ncopy ≤ bufsize)
    (hpkt : iob.ioLen + ncopy < 2 ^ 16) :
    ∃ iob' next', moveBytes bufsize iob next ncopy = (iob', next') ∧ iob'.ioOffset = 0 ∧
      iob'.ioLen = iob.ioLen + ncopy ∧ next'.ioLen = next.ioLen - ncopy ∧
      Repacked bufsize (iob :: next :: rest) (iob' :: next' :: rest) [] := by
  have hpair := forall_mem_cons.mp hfits
  have hpair' := forall_mem_cons.mp hpair.2
  obtain ⟨iob', next', heq, ⟨hf, ho, hl, hp, hi, hb⟩, hf', hl', hp', hi', hb'⟩ :=
    moveBytes_spec hbuf hpair.1 hoff hpair'.1 hn hroom hpkt
  refine ⟨iob', next', heq, ho, hl, hl', ?_, ?_, ?_, ?_, ?_⟩
  · exact forall_mem_cons.mpr ⟨hf, forall_mem_cons.mpr ⟨hf', hpair'.2⟩⟩
  · simp [hp]
  · rw [payload_cons, payload_cons, payload_cons, payload_cons, hb, hb', append_assoc,
      ← append_assoc (next.bytes.take ncopy), take_append_drop]
  · rw [append_nil]
    simp [hi, hi']
  · intro hquiet
    have hzero := forall_mem_cons.mp hquiet
    exact forall_mem_cons.mpr ⟨hp'.trans hzero.1, hzero.2⟩

theorem bytes_of_len_zero (h : iob.ioLen = 0) : iob.bytes = [] := by
  rw [bytes, h, take_zero]

theorem repacked_free {next after : Iob}
    (hfits : ∀ b ∈ iob :: next :: after :: rest, b.Fits bufsize) (hempty : next.ioLen = 0) :
    Repacked bufsize (iob :: next :: after :: rest)
      (iob :: { after with ioPktlen := next.ioPktlen - next.ioLen } :: rest) [next.id] := by
  have hpair := forall_mem_cons.mp hfits
  have hpair' := forall_mem_cons.mp (forall_mem_cons.mp hpair.2).2
  refine ⟨?_, rfl, ?_, ?_, ?_⟩
  · exact forall_mem_cons.mpr ⟨hpair.1, forall_mem_cons.mpr ⟨hpair'.1.setPktlen _, hpair'.2⟩⟩
  · rw [payload_cons, payload_cons, payload_cons, payload_cons, payload_cons,
      bytes_of_len_zero hempty, nil_append]
    rfl
  · refine (freed_cons (List.Perm.of_eq (append_nil _))).trans ?_
    exact List.Perm.swap iob.id next.id _
  · intro hquiet
    have hzero := forall_mem_cons.mp hquiet
    refine forall_mem_cons.mpr ⟨?_, (forall_mem_cons.mp hzero.2).2⟩
    rw [hzero.1, Nat.zero_sub]

theorem repacked_free_last (hiob : iob.Fits bufsize) (hempty : next.ioLen = 0) :
    Repacked bufsize [iob, next] [iob] [next.id] := by
  refine ⟨forall_mem_singleton.mpr hiob, rfl, ?_, List.Perm.refl _, fun _ b hb => nomatch hb⟩
  rw [payload_cons, payload_cons, payload_cons, bytes_of_len_zero hempty, nil_append]

theorem Repacked.sum_eq {before chain : List Iob}
    (hfits : ∀ b ∈ before, b.Fits bufsize) (h : Repacked bufsize before chain freed) :
    (chain.map ioLen).sum = (before.map ioLen).sum := by
  rw [← length_payload h.fits, h.payload, length_payload hfits]

theorem contigLoop_spec (hbuf : bufsize ≤ 2 ^ 16)
    (hfits : ∀ b ∈ iob :: next :: rest, b.Fits bufsize) (hoff : iob.ioOffset = 0) {len : Nat}
    (hneed : iob.ioLen < len) (hroom : len ≤ bufsize)
    (henough : len ≤ ((iob :: next :: rest).map ioLen).sum) (hpkt : len < 2 ^ 16)
    (hquiet : debug = true → Quiet (iob :: next :: rest)) :
    ∃ head tail freed, contigLoop debug bufsize len iob next rest = .ok (head :: tail, freed) ∧
      len ≤ head.ioLen ∧ Repacked bufsize (iob :: next :: rest) (head :: tail) freed := by
  induction rest generalizing iob next with
  | nil =>
    obtain ⟨iob', next', hmove, hoff', hlen, hlen', hrep⟩ := repacked_moveBytes hbuf hfits hoff
      (Nat.min_le_right (len - iob.ioLen) next.ioLen) (by omega) (by omega)
    simp only [map_cons, map_nil, sum_cons, sum_nil] at henough
    rw [contigLoop]
    simp only [hmove]
    by_cases hempty : next'.ioLen = 0
    · refine ⟨iob', [], [next'.id], ?_, by omega,
        hrep.trans (repacked_free_last (hrep.fits iob' mem_cons_self) hempty)⟩
      rw [if_pos hempty, if_neg (by omega)]
      rfl
    · exact ⟨iob', [next'], [], if_neg hempty, by omega, hrep⟩
  | cons after rest ih =>
    obtain ⟨iob', next', hmove, hoff', hlen, hlen', hrep⟩ := repacked_moveBytes hbuf hfits hoff
      (Nat.min_le_right (len - iob.ioLen) next.ioLen) (by omega) (by omega)
    rw [contigLoop]
    simp only [hmove]
    by_cases hempty : next'.ioLen = 0
    · have hstep := hrep.trans (repacked_free hrep.fits hempty)
      have hfree : iobFree debug next' after
          = .ok { after with ioPktlen := next'.ioPktlen - next'.ioLen } :=
        iobFree_quiet (fun hdebug => hrep.quiet (hquiet hdebug) next' mem_cons_self)
      rw [if_pos hempty, hfree, Result.ok_bind]
      by_cases hmore : len > iob'.ioLen
      · obtain ⟨head, tail, freed, hrun, hhead, hrest⟩ := ih hstep.fits hoff' hmore
          (by rw [hstep.sum_eq hfits]; exact henough) (fun hdebug => hstep.quiet (hquiet hdebug))
        refine ⟨head, tail, next'.id :: freed, ?_, hhead, hstep.trans hrest⟩
        rw [if_pos hmore, hrun]
        rfl
      · refine ⟨iob', _, [next'.id], ?_, by omega, hstep⟩
        rw [if_neg hmore]
        rfl
    · exact ⟨iob', next' :: after :: rest, [], if_neg hempty, by omega, hrep⟩

theorem iobContig_spec (hbuf : bufsize ≤ 2 ^ 16)
    (h : WellFormed bufsize (iob :: rest)) (hquiet : debug = true → Quiet (iob :: rest)) {len : Nat}
    (hroom : len ≤ bufsize) (henough : len ≤ (payload (iob :: rest)).length) :
    ∃ head tail freed, iobContig debug bufsize iob rest len = .ok (0, head :: tail, freed) ∧
      len ≤ head.ioLen ∧ Repacked bufsize (iob :: rest) (head :: tail) freed := by
  rw [h.length_payload] at henough
  have hassert : debugAssert debug Assertion.contigLen (decide (len ≤ bufsize)) = .ok () :=
    debugAssert_ok (fun _ => decide_eq_true hroom)
  unfold iobContig
  rw [hassert, Result.ok_bind]
  by_cases hhave : len ≤ iob.ioLen
  · exact ⟨iob, rest, [], if_pos hhave, hhave, Repacked.refl h.2.2⟩
  rw [if_neg hhave, if_pos henough]
  cases rest with
  | nil =>
    have hpktlen : iob.ioPktlen = iob.ioLen := by simpa using h.1
    omega
  | cons next rest =>
    have hcompact := repacked_compact h.2.2
    obtain ⟨-, hoff, hlen, -, -, -⟩ := compact_spec (h.2.2 iob mem_cons_self)
    have hless := h.2.1
    obtain ⟨head, tail, freed, hrun, hhead, hrep⟩ := contigLoop_spec hbuf hcompact.fits hoff
      (show (compact iob).ioLen < len by omega) hroom
      (by rw [hcompact.sum_eq h.2.2, ← h.1]; exact henough) (by omega)
      (fun hdebug => hcompact.quiet (hquiet hdebug))
    refine ⟨head, tail, freed, ?_, hhead, hcompact.trans hrep⟩
    simp only [hrun, Result.ok_bind]
    rfl

theorem packHead_spec (h : WellFormed bufsize (iob :: rest)) (debug : Bool) :
    ∃ found freed, packHead debug iob rest = .ok (found, freed) ∧
      (found = none → payload (iob :: rest) = [] ∧ freed.Perm ((iob :: rest).map Iob.id)) ∧
      ((iob :: rest).map ioLen).dropWhile (· == 0)
        = found.elim [] (fun found => (found.1 :: found.2).map ioLen) ∧
      ∀ iob' rest', found = some (iob', rest') → WellFormed bufsize (iob' :: rest') ∧
        payload (iob' :: rest') = payload (iob :: rest) ∧
        ((iob' :: rest').map Iob.id ++ freed).Perm ((iob :: rest).map Iob.id) ∧
        (Quiet (iob :: rest) → Quiet (iob' :: rest')) := by
  induction rest generalizing iob with
  | nil =>
    rw [packHead]
    by_cases hempty : iob.ioLen ≤ 0
    · refine ⟨none, [iob.id], if_pos hempty, fun _ => ⟨?_, List.Perm.refl _⟩,
        by simp [show iob.ioLen = 0 by omega], by simp⟩
      rw [payload_cons, bytes_of_len_zero (by omega), payload_nil, append_nil]
    · refine ⟨some (iob, []), [], if_neg hempty, by simp, by simp [show iob.ioLen ≠ 0 by omega], ?_⟩
      rintro iob' rest' ⟨⟩
      exact ⟨h, rfl, List.Perm.refl _, fun hquiet => hquiet⟩
  | cons next rest ih =>
    rw [packHead]
    by_cases hempty : iob.ioLen ≤ 0
    · obtain ⟨hfree, hwf⟩ := h.tail debug
      have hbytes := bytes_of_len_zero (show iob.ioLen = 0 by omega)
      have hpay : payload (iob :: next :: rest)
          = payload ({ next with ioPktlen := iob.ioPktlen - iob.ioLen } :: rest) := by
        rw [payload_cons, hbytes, nil_append]
        rfl
      obtain ⟨found, freed, hrun, hnone, hlens, hsome⟩ := ih hwf
      refine ⟨found, iob.id :: freed, ?_, fun hfound => ?_, ?_, fun iob' rest' hfound => ?_⟩
      · rw [if_pos hempty, hfree, Result.ok_bind, hrun]
        rfl
      · exact ⟨hpay.trans (hnone hfound).1, (hnone hfound).2.cons iob.id⟩
      · simpa [show iob.ioLen = 0 by omega] using hlens
      · obtain ⟨hwf', hpay', hids, hquiet⟩ := hsome iob' rest' hfound
        exact ⟨hwf', hpay'.trans hpay.symm, freed_cons hids,
          fun hbefore => hquiet (quiet_tail hbefore)⟩
    · refine ⟨some (iob, next :: rest), [], if_neg hempty, by simp,
        by simp [show iob.ioLen ≠ 0 by omega], ?_⟩
      rintro iob' rest' ⟨⟩
      refine ⟨h, rfl, ?_, fun hquiet => hquiet⟩
      rw [append_nil]

theorem repacked_fill (hbuf : bufsize ≤ 2 ^ 16)
    (hfits : ∀ b ∈ iob :: next :: rest, b.Fits bufsize) (hoff : iob.ioOffset = 0)
    (hpkt : ((iob :: next :: rest).map ioLen).sum < 2 ^ 16) :
    ∃ iob' next', (if (if next.ioLen > bufsize - iob.ioLen then bufsize - iob.ioLen else next.ioLen) > 0
        then moveBytes bufsize iob next
          (if next.ioLen > bufsize - iob.ioLen then bufsize - iob.ioLen else next.ioLen)
        else (iob, next)) = (iob', next') ∧ iob'.ioOffset = 0 ∧
      iob'.ioLen = min bufsize (iob.ioLen + next.ioLen) ∧
      Repacked bufsize (iob :: next :: rest) (iob' :: next' :: rest) [] := by
  have hiob := (hfits iob mem_cons_self).fits
  simp only [map_cons, sum_cons] at hpkt
  have hn : ∃ ncopy, ncopy = if next.ioLen > bufsize - iob.ioLen then bufsize - iob.ioLen
      else next.ioLen := ⟨_, rfl⟩
  obtain ⟨ncopy, hncopy⟩ := hn
  rw [← hncopy]
  by_cases hpos : ncopy > 0
  · have hle : ncopy ≤ next.ioLen ∧ iob.ioLen + ncopy ≤ bufsize := by
      split_ifs at hncopy <;> omega
    obtain ⟨iob', next', hmove, hoff', hlen, -, hrep⟩ :=
      repacked_moveBytes hbuf hfits hoff hle.1 hle.2 (by omega)
    refine ⟨iob', next', by rw [if_pos hpos, hmove], hoff', ?_, hrep⟩
    split_ifs at hncopy <;> omega
  · refine ⟨iob, next, if_neg hpos, hoff, ?_, Repacked.refl hfits⟩
    split_ifs at hncopy <;> omega

/-- All buffers but the last one are full. -/
def Filled (bufsize : Nat) (chain : List Iob) : Prop := ∀ b ∈ chain.dropLast, b.ioLen = bufsize

theorem filled_cons (hne : chain ≠ []) :
    Filled bufsize (iob :: chain) ↔ iob.ioLen = bufsize ∧ Filled bufsize chain := by
  rw [Filled, dropLast_cons_of_ne_nil hne, forall_mem_cons]
  rfl

/-- The lengths that one pass packs. What a buffer and the next one hold is more than fits into the
buffer, and the rest of it stays in the next one; or it fits, and then it fills the buffer or is the
end of the chain. -/
def FillsUp (bufsize : Nat) : List Nat → Prop
  | len :: next :: rest =>
    if bufsize < len + next then
      FillsUp bufsize ((len + next - bufsize) :: rest)
    else
      rest = [] ∨ len + next = bufsize ∧ FillsUp bufsize rest
  | _ => True
termination_by lens => lens.length
decreasing_by
  · exact Nat.lt_succ_self _
  · exact Nat.lt_add_of_pos_right Nat.two_pos

theorem packLoop_spec (hbuf : bufsize ≤ 2 ^ 16)
    (hfits : ∀ b ∈ iob :: rest, b.Fits bufsize) (hpkt : ((iob :: rest).map ioLen).sum < 2 ^ 16)
    (hquiet : debug = true → Quiet (iob :: rest)) :
    ∃ chain freed, packLoop debug bufsize iob rest = .ok (chain, freed) ∧
      Repacked bufsize (iob :: rest) chain freed ∧ (∀ b ∈ chain, b.ioOffset = 0) ∧
      (Filled bufsize chain ↔ FillsUp bufsize ((iob :: rest).map ioLen)) := by
  induction hn : rest.length using Nat.strongRecOn generalizing iob rest with
  | ind n ih =>
    subst hn
    cases rest with
    | nil =>
      obtain ⟨-, hoff, -⟩ := compact_spec (hfits iob mem_cons_self)
      exact ⟨[compact iob], [], rfl, repacked_compact hfits, by simpa using hoff,
        by simp [Filled, FillsUp]⟩
    | cons next rest =>
      have hcompact := repacked_compact hfits
      obtain ⟨-, hoff, hlen, -, -, -⟩ := compact_spec (hfits iob mem_cons_self)
      obtain ⟨iob', next', hfill, hoff', hlen', hrep⟩ := repacked_fill hbuf hcompact.fits hoff
        (by rw [hcompact.sum_eq hfits]; exact hpkt)
      have hstart := hcompact.trans hrep
      have hsum := hstart.sum_eq hfits
      simp only [map_cons, sum_cons] at hsum
      rw [packLoop.eq_2, map_cons, map_cons, FillsUp]
      simp only [hfill]
      by_cases hempty : next'.ioLen ≤ 0
      · rw [if_pos hempty]
        cases rest with
        | nil =>
          refine ⟨[iob'], [next'.id], rfl, hstart.trans (repacked_free_last
            (hstart.fits iob' mem_cons_self) (by omega)), by simpa using hoff', ?_⟩
          simp [Filled, FillsUp]
        | cons after rest =>
          have hstep := hstart.trans (repacked_free hstart.fits (by omega))
          have hsum' := hstep.sum_eq hfits
          have hfree : iobFree debug next' after
              = .ok { after with ioPktlen := next'.ioPktlen - next'.ioLen } :=
            iobFree_quiet (fun hdebug => hstart.quiet (hquiet hdebug) next' mem_cons_self)
          obtain ⟨chain, freed, hrun, hrest, hoffs, hfilled⟩ := ih rest.length
            (by rw [length_cons, length_cons]; omega)
            (forall_mem_cons.mp hstep.fits).2
            (by rw [map_cons, sum_cons] at hsum'; omega)
            (fun hdebug => quiet_tail (hstep.quiet (hquiet hdebug))) rfl
          refine ⟨iob' :: chain, next'.id :: freed, ?_,
            hstep.trans (hrest.cons (hstep.fits iob' mem_cons_self)),
            forall_mem_cons.mpr ⟨hoff', hoffs⟩, ?_⟩
          · dsimp only
            rw [hfree, Result.ok_bind, hrun]
            rfl
          · have hsame : iob'.ioLen = bufsize ↔ iob.ioLen + next.ioLen = bufsize := by omega
            rw [filled_cons hrest.ne_nil, hfilled, hsame, if_neg (by omega), map_cons, map_cons]
            simp
      · obtain ⟨chain, freed, hrun, hrest, hoffs, hfilled⟩ := ih rest.length
          (by rw [length_cons]; omega) (forall_mem_cons.mp hstart.fits).2
          (by rw [map_cons, sum_cons]; simp only [map_cons, sum_cons] at hpkt; omega)
          (fun hdebug => quiet_tail (hstart.quiet (hquiet hdebug))) rfl
        refine ⟨iob' :: chain, freed, ?_,
          hstart.trans (hrest.cons (hstart.fits iob' mem_cons_self)),
          forall_mem_cons.mpr ⟨hoff', hoffs⟩, ?_⟩
        · rw [if_neg hempty, hrun]
          rfl
        · have hleft : next'.ioLen = iob.ioLen + next.ioLen - bufsize := by omega
          rw [filled_cons hrest.ne_nil, hfilled, if_pos (by omega), map_cons, hleft]
          exact and_iff_right (by omega)

/-- What the description of `iob_pack` promises of the chain for the data. -/
structure Packed (bufsize : Nat) (data : List UInt8) (chain : List Iob) : Prop where
  offsets : ∀ b ∈ chain, b.ioOffset = 0
  filled : Filled bufsize chain
  none : data = [] → chain = []

theorem iobPack_spec (hbuf : bufsize ≤ 2 ^ 16)
    (h : WellFormed bufsize (iob :: rest)) (hquiet : debug = true → Quiet (iob :: rest)) :
    ∃ chain freed, iobPack debug bufsize iob rest = .ok (chain, freed) ∧
      (chain = [] ∨ WellFormed bufsize chain) ∧ payload chain = payload (iob :: rest) ∧
      (chain.map Iob.id ++ freed).Perm ((iob :: rest).map Iob.id) ∧
      (Quiet (iob :: rest) → Quiet chain) ∧
      (Packed bufsize (payload (iob :: rest)) chain
        ↔ FillsUp bufsize (((iob :: rest).map ioLen).dropWhile (· == 0))) := by
  obtain ⟨found, freed, hrun, hnone, hlens, hsome⟩ := packHead_spec h debug
  rw [iobPack, hrun, Result.ok_bind]
  cases found with
  | none =>
    obtain ⟨hpay, hids⟩ := hnone rfl
    refine ⟨[], freed, rfl, .inl rfl, by rw [hpay, payload_nil], hids, by simp [Quiet], ?_⟩
    rw [hlens, Option.elim_none, FillsUp]
    · exact iff_of_true ⟨by simp, by simp [Filled], fun _ => rfl⟩ trivial
    · simp
  | some found =>
    obtain ⟨iob', rest'⟩ := found
    obtain ⟨hwf, hpay, hids, hquiet'⟩ := hsome iob' rest' rfl
    obtain ⟨chain, more, hloop, hrep, hoffs, hfilled⟩ := packLoop_spec hbuf hwf.2.2
      (by rw [← hwf.1]; exact hwf.2.1) (fun hdebug => hquiet' (hquiet hdebug))
    refine ⟨chain, freed ++ more, ?_, .inr (hrep.wellFormed hwf), hrep.payload.trans hpay, ?_,
      fun hbefore => hrep.quiet (hquiet' hbefore), ?_⟩
    · dsimp only
      rw [hloop]
      rfl
    · have hswap : (chain.map Iob.id ++ (freed ++ more)).Perm (chain.map Iob.id ++ more ++ freed) := by
        rw [append_assoc]
        exact perm_append_comm.append_left _
      exact hswap.trans ((hrep.ids.append_right freed).trans hids)
    rw [hlens, Option.elim_some, ← hfilled]
    refine ⟨Packed.filled, fun hfull => ⟨hoffs, hfull, fun hnil => ?_⟩⟩
    have hpos := head?_dropWhile_not (· == 0) ((iob :: rest).map ioLen)
    rw [hlens] at hpos
    have hsum := length_payload hwf.2.2
    rw [hpay, hnil, map_cons, sum_cons, length_nil] at hsum
    simp only [Option.elim_some, map_cons, head?_cons, beq_eq_false_iff_ne] at hpos
    omega

theorem iobConcat_spec {iob1 iob2 : Iob} {rest1 rest2 : List Iob}
    (h1 : WellFormed bufsize (iob1 :: rest1)) (h2 : WellFormed bufsize (iob2 :: rest2)) :
    payload (iobConcat iob1 rest1 iob2 rest2) = payload (iob1 :: rest1) ++ payload (iob2 :: rest2) ∧
      (iobConcat iob1 rest1 iob2 rest2).map Iob.id
        = (iob1 :: rest1).map Iob.id ++ (iob2 :: rest2).map Iob.id ∧
      ((payload (iob1 :: rest1)).length + (payload (iob2 :: rest2)).length ≤ 65535 →
        WellFormed bufsize (iobConcat iob1 rest1 iob2 rest2)) := by
  refine ⟨?_, ?_, fun hfit => ?_⟩
  · rw [iobConcat, payload_append]
    rfl
  · rw [iobConcat, map_append]
    rfl
  rw [h1.length_payload, h2.length_payload] at hfit
  have hmod : (iob1.ioPktlen + iob2.ioPktlen) % 2 ^ 16 = iob1.ioPktlen + iob2.ioPktlen :=
    Nat.mod_eq_of_lt (by omega)
  have hsum : ((iobConcat iob1 rest1 iob2 rest2).map ioLen).sum
      = ((iob1 :: rest1).map ioLen).sum + ((iob2 :: rest2).map ioLen).sum := by
    rw [iobConcat, map_append, sum_append]
    rfl
  have hfits : ∀ b ∈ iobConcat iob1 rest1 iob2 rest2, b.Fits bufsize := by
    intro b hb
    rcases mem_append.mp hb with hb | hb
    · have hpair := forall_mem_cons.mp h1.2.2
      exact (forall_mem_cons.mpr ⟨hpair.1.setPktlen _, hpair.2⟩) b hb
    · have hpair := forall_mem_cons.mp h2.2.2
      exact (forall_mem_cons.mpr ⟨hpair.1.setPktlen _, hpair.2⟩) b hb
  refine ⟨hmod.trans ?_, Nat.mod_lt _ (Nat.two_pow_pos 16), hfits⟩
  rw [h1.1, h2.1]
  exact hsum.symm

/-- **Editing a chain.** Trimming cuts bytes off either end of the payload, making data contiguous and
packing leave it as it is, and joining appends one payload to the other. The buffers left in the chain
and those freed are together the buffers there were, each of them once. -/
theorem edits_payload {debug : Bool} (hbuf : bufsize ≤ 2 ^ 16) {iob : Iob} {rest : List Iob}
    (h : WellFormed bufsize (iob :: rest)) (hquiet : debug = true → Quiet (iob :: rest)) :
    (∀ trimlen ≤ 2147483647, ∃ chain freed,
      iobTrimhead debug bufsize (iob :: rest) trimlen = .ok (chain, freed) ∧
      WellFormed bufsize chain ∧ payload chain = (payload (iob :: rest)).drop trimlen ∧
      (chain.map Iob.id ++ freed).Perm ((iob :: rest).map Iob.id) ∧
      (Quiet (iob :: rest) → Quiet chain)) ∧
    (∀ trimlen ≤ 2147483647, ∃ chain freed, iobTrimtail (iob :: rest) trimlen = (chain, freed) ∧
      (chain = [] ∨ WellFormed bufsize chain) ∧
      payload chain = (payload (iob :: rest)).take ((payload (iob :: rest)).length - trimlen) ∧
      (chain.map Iob.id ++ freed).Perm ((iob :: rest).map Iob.id) ∧
      (Quiet (iob :: rest) → Quiet chain)) ∧
    (∀ len ≤ bufsize, len ≤ (payload (iob :: rest)).length → ∃ head tail freed,
      iobContig debug bufsize iob rest len = .ok (0, head :: tail, freed) ∧
      WellFormed bufsize (head :: tail) ∧ payload (head :: tail) = payload (iob :: rest) ∧
      len ≤ head.ioLen ∧ ((head :: tail).map Iob.id ++ freed).Perm ((iob :: rest).map Iob.id) ∧
      (Quiet (iob :: rest) → Quiet (head :: tail))) ∧
    (∃ chain freed, iobPack debug bufsize iob rest = .ok (chain, freed) ∧
      (chain = [] ∨ WellFormed bufsize chain) ∧ payload chain = payload (iob :: rest) ∧
      (chain.map Iob.id ++ freed).Perm ((iob :: rest).map Iob.id) ∧
      (Quiet (iob :: rest) → Quiet chain)) ∧
    ∀ iob2 rest2, WellFormed bufsize (iob2 :: rest2) →
      payload (iobConcat iob rest iob2 rest2) = payload (iob :: rest) ++ payload (iob2 :: rest2) ∧
      (iobConcat iob rest iob2 rest2).map Iob.id
        = (iob :: rest).map Iob.id ++ (iob2 :: rest2).map Iob.id ∧
      ((payload (iob :: rest)).length + (payload (iob2 :: rest2)).length ≤ 65535 →
        WellFormed bufsize (iobConcat iob rest iob2 rest2)) := by
  refine ⟨?_, fun trimlen htrim => iobTrimtail_spec h htrim, ?_, ?_,
    fun iob2 rest2 h2 => iobConcat_spec h h2⟩
  · intro trimlen _
    by_cases hpos : trimlen > 0
    · obtain ⟨chain, freed, hrun, htrim⟩ := trimheadLoop_spec hbuf h trimlen
      refine ⟨chain, freed, ?_, htrim.wellFormed, htrim.payload, htrim.ids, htrim.quiet⟩
      rw [iobTrimhead, if_pos hpos, hrun]
    · obtain rfl : trimlen = 0 := by omega
      exact ⟨iob :: rest, [], rfl, h, rfl, by rw [append_nil], fun hquiet => hquiet⟩
  · intro len hroom henough
    obtain ⟨head, tail, freed, hrun, hhead, hrep⟩ := iobContig_spec hbuf h hquiet hroom henough
    exact ⟨head, tail, freed, hrun, hrep.wellFormed h, hrep.payload, hhead, hrep.ids, hrep.quiet⟩
  · obtain ⟨chain, freed, hrun, hwf, hpay, hids, hquiet', -⟩ := iobPack_spec hbuf h hquiet
    exact ⟨chain, freed, hrun, hwf, hpay, hids, hquiet'⟩

theorem edits_payload_four :
    WellFormed 4 [⟨0, 0, 2, 3, [0, 0, 0, 0]⟩, ⟨1, 2, 1, 0, [0, 1, 2, 0]⟩, ⟨2, 0, 3, 0, [0, 0, 0, 0]⟩,
        ⟨3, 1, 2, 0, [0, 0, 3, 0]⟩] ∧
      ∃ chain freed, iobPack true 4 ⟨0, 0, 2, 3, [0, 0, 0, 0]⟩
          [⟨1, 2, 1, 0, [0, 1, 2, 0]⟩, ⟨2, 0, 3, 0, [0, 0, 0, 0]⟩, ⟨3, 1, 2, 0, [0, 0, 3, 0]⟩]
            = .ok (chain, freed) ∧
        payload chain = [1, 2, 3] ∧ (chain.map Iob.id ++ freed).Perm [0, 1, 2, 3] := by
  have hwf : WellFormed 4 [⟨0, 0, 2, 3, [0, 0, 0, 0]⟩, ⟨1, 2, 1, 0, [0, 1, 2, 0]⟩,
      ⟨2, 0, 3, 0, [0, 0, 0, 0]⟩, ⟨3, 1, 2, 0, [0, 0, 3, 0]⟩] := by
    decide
  have hquiet : Quiet [⟨0, 0, 2, 3, [0, 0, 0, 0]⟩, ⟨1, 2, 1, 0, [0, 1, 2, 0]⟩,
      ⟨2, 0, 3, 0, [0, 0, 0, 0]⟩, ⟨3, 1, 2, 0, [0, 0, 3, 0]⟩] := by
    simp [Quiet]
  refine ⟨hwf, ?_⟩
  obtain ⟨chain, freed, hrun, -, hpay, hids, -⟩ :=
    (edits_payload (by decide) hwf (fun _ : true = true => hquiet)).2.2.2.1
  exact ⟨chain, freed, hrun, hpay, hids⟩

/-- **Packing.** `iob_pack` takes data from one buffer after each before it goes on, so that it packs
the chains whose lengths fill up, the empty buffers at their head apart, and no others. -/
theorem packs_iff {debug : Bool} (hbuf : bufsize ≤ 2 ^ 16) {iob : Iob} {rest : List Iob}
    (h : WellFormed bufsize (iob :: rest)) (hquiet : debug = true → Quiet (iob :: rest)) :
    ∃ chain freed, iobPack debug bufsize iob rest = .ok (chain, freed) ∧
      (Packed bufsize (payload (iob :: rest)) chain
        ↔ FillsUp bufsize (((iob :: rest).map ioLen).dropWhile (· == 0))) := by
  obtain ⟨chain, freed, hrun, -, -, -, -, hpacked⟩ := iobPack_spec hbuf h hquiet
  exact ⟨chain, freed, hrun, hpacked⟩

theorem packs_iff_carried :
    ∃ chain freed, iobPack true 4 ⟨0, 3, 0, 6, [1, 2, 3, 0]⟩
        [⟨1, 2, 1, 0, [0, 4, 5, 0]⟩, ⟨2, 1, 3, 0, [0, 0, 0, 6]⟩] = .ok (chain, freed) ∧
      Packed 4 [1, 2, 3, 4, 5, 6] chain := by
  obtain ⟨chain, freed, hrun, hpacked⟩ := @packs_iff 4 true (by decide) ⟨0, 3, 0, 6, [1, 2, 3, 0]⟩
    [⟨1, 2, 1, 0, [0, 4, 5, 0]⟩, ⟨2, 1, 3, 0, [0, 0, 0, 6]⟩] (by decide) (fun _ => by simp [Quiet])
  exact ⟨chain, freed, hrun, hpacked.mpr (by simp [FillsUp])⟩

/-- Three buffers of four bytes with a byte each: two bytes are left in the first one. -/
theorem pack_leaves_room : WellFormed 4 [⟨0, 1, 0, 3, [1, 0, 0, 0]⟩, ⟨1, 1, 0, 0, [2, 0, 0, 0]⟩,
      ⟨2, 1, 0, 0, [3, 0, 0, 0]⟩] ∧
    iobPack true 4 ⟨0, 1, 0, 3, [1, 0, 0, 0]⟩
        [⟨1, 1, 0, 0, [2, 0, 0, 0]⟩, ⟨2, 1, 0, 0, [3, 0, 0, 0]⟩]
      = .ok ([⟨0, 2, 0, 3, [1, 2, 0, 0]⟩, ⟨2, 1, 0, 0, [3, 0, 0, 0]⟩], [1]) ∧
    ¬ Packed 4 [1, 2, 3] [⟨0, 2, 0, 3, [1, 2, 0, 0]⟩, ⟨2, 1, 0, 0, [3, 0, 0, 0]⟩] :=
  ⟨by decide, rfl, fun h => absurd (h.filled _ mem_cons_self) (by decide)⟩

end Iob

end Nuttx.Mm

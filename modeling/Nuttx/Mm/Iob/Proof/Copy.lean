import Nuttx.Mm.Iob.Model

/-!
# Writing and reading a chain

Copying into a chain is copying over its payload.
-/

open List

namespace Nuttx.Mm

open Ring

namespace Iob

variable {bufsize grown : Nat} {rest chain : List Iob} {done : Bool}

theorem payload_cons (iob : Iob) (rest : List Iob) : payload (iob :: rest) = iob.bytes ++ payload rest :=
  flatMap_cons

@[simp]
theorem payload_nil : payload [] = [] := rfl

theorem payload_append (fst snd : List Iob) : payload (fst ++ snd) = payload fst ++ payload snd :=
  flatMap_append

variable {iob : Iob} {offset : Nat} {src : List UInt8} {pool : List (Nat × List UInt8)}

theorem Fits.length_bytes (h : iob.Fits bufsize) : iob.bytes.length = iob.ioLen := by
  have := h.fits
  have := h.sized
  rw [bytes, length_take, length_drop]
  omega

theorem length_payload (h : ∀ b ∈ chain, b.Fits bufsize) :
    (payload chain).length = (chain.map ioLen).sum := by
  induction chain with
  | nil => rfl
  | cons iob rest ih =>
    rw [payload_cons, length_append, (h iob mem_cons_self).length_bytes, map_cons,
      sum_cons, ih (fun b hb => h b (mem_cons_of_mem _ hb))]

theorem WellFormed.length_payload
    (h : WellFormed bufsize (iob :: rest)) : (payload (iob :: rest)).length = iob.ioPktlen := by
  rw [Iob.length_payload h.2.2, h.1]

theorem lt_lenMod {n : Nat} (hfits : n ≤ bufsize) (hpkt : n < 2 ^ 16) : n < lenMod bufsize := by
  rw [lenMod]
  split_ifs <;> omega

theorem Fits.overlay (h : iob.Fits bufsize) (src : List UInt8) {n : Nat}
    (hoff : offset ≤ iob.ioLen) (hn : n = max iob.ioLen (offset + src.length))
    (hroom : iob.ioOffset + n ≤ bufsize) :
    Fits bufsize { iob with
        ioLen := n, ioData := Ring.overlay iob.ioData (iob.ioOffset + offset) src } ∧
      bytes { iob with ioLen := n, ioData := Ring.overlay iob.ioData (iob.ioOffset + offset) src }
        = Ring.overlay iob.bytes offset src := by
  have hsized := h.sized
  have hslice : iob.ioOffset + iob.ioLen ≤ iob.ioData.length := by omega
  refine ⟨⟨hroom, ?_⟩, slice_overlay hslice hoff hn⟩
  rw [length_overlay (by omega), hsized]

theorem copyinBuffer_mid (h : iob.Fits bufsize) (hoff : offset ≤ iob.ioLen) (src : List UInt8) :
    ∃ iob', copyinBuffer bufsize iob true src offset = (iob', 0, src.drop (iob.ioLen - offset)) ∧
      iob'.Fits bufsize ∧ iob'.id = iob.id ∧ iob'.ioLen = iob.ioLen ∧ iob'.ioPktlen = iob.ioPktlen ∧
      iob'.bytes = overlay iob.bytes offset (src.take (iob.ioLen - offset)) := by
  have hstore := h.overlay _ hoff
    (show iob.ioLen = max iob.ioLen (offset + (src.take (iob.ioLen - offset)).length) by
      rw [length_take]
      omega) h.fits
  refine ⟨_, ?_, hstore.1, rfl, rfl, rfl, hstore.2⟩
  rw [copyinBuffer]
  by_cases hlen : src.length > iob.ioLen - offset
  · simp [if_pos hlen]
  · have htake : src.take (iob.ioLen - offset) = src := take_of_length_le (by omega)
    have hdrop : src.drop (iob.ioLen - offset) = [] := drop_of_length_le (by omega)
    simp [if_neg hlen, htake, hdrop]

theorem copyinBuffer_last (h : iob.Fits bufsize)
    (hoff : offset ≤ iob.ioLen) (hpkt : offset + src.length < 2 ^ 16) :
    ∃ iob' grown k, copyinBuffer bufsize iob false src offset = (iob', grown, src.drop k) ∧
      iob'.Fits bufsize ∧ iob'.id = iob.id ∧ iob'.ioLen = iob.ioLen + grown ∧
      iob'.ioPktlen = iob.ioPktlen ∧ iob'.bytes = overlay iob.bytes offset (src.take k) ∧
      (src.length ≤ k ∨ iob.ioLen ≤ offset + k ∧ bufsize ≤ iob.ioOffset + offset + k) := by
  have hfits := h.fits
  by_cases hlen : src.length > iob.ioLen - offset
  · -- the buffer grows, at most to its end
    have hnew : ∃ newlen, newlen = (if src.length + offset > bufsize - iob.ioOffset then
        bufsize - iob.ioOffset else src.length + offset) := ⟨_, rfl⟩
    obtain ⟨newlen, hnewlen⟩ := hnew
    have hle : newlen ≤ src.length + offset ∧ newlen ≤ bufsize - iob.ioOffset ∧ iob.ioLen ≤ newlen ∧
        (newlen = src.length + offset ∨ newlen = bufsize - iob.ioOffset) := by
      split_ifs at hnewlen <;> omega
    have hstore := h.overlay _ hoff
      (show newlen = max iob.ioLen (offset + (src.take (newlen - offset)).length) by
        rw [length_take]
        omega) (by omega)
    refine ⟨_, newlen - iob.ioLen, newlen - offset, ?_, hstore.1, rfl, ?_, rfl, hstore.2, by omega⟩
    · have hmod : newlen % lenMod bufsize = newlen :=
        Nat.mod_eq_of_lt (lt_lenMod (by omega) (by omega))
      rw [copyinBuffer]
      simp [if_pos hlen, ← hnewlen, hmod]
    · show newlen = iob.ioLen + (newlen - iob.ioLen)
      omega
  · have hstore := h.overlay _ hoff
      (show iob.ioLen = max iob.ioLen (offset + src.length) by omega) hfits
    refine ⟨_, 0, src.length, ?_, hstore.1, rfl, rfl, rfl, ?_, .inl le_rfl⟩
    · rw [copyinBuffer]
      simp [if_neg hlen]
    · rw [take_length]
      exact hstore.2

/-- What a walk over the buffers `before` has made of them when it copied `src` in from `offset` on,
with the buffers of `pool` for the taking. -/
structure Copied (bufsize : Nat) (pool : List (Nat × List UInt8)) (before : List Iob)
    (src : List UInt8) (offset : Nat) (chain : List Iob) (grown : Nat) (done : Bool) : Prop where
  fits : ∀ b ∈ chain, b.Fits bufsize
  lens : (chain.map ioLen).sum = (before.map ioLen).sum + grown
  pktlen : chain.head?.map ioPktlen = before.head?.map ioPktlen
  used : ∃ k ≤ pool.length, chain.map Iob.id = before.map Iob.id ++ (pool.take k).map Prod.fst ∧
    (done = false → k = pool.length)
  whole : done = true → payload chain = overlay (payload before) offset src
  cut : done = false → payload chain <+: overlay (payload before) offset src
  short : done = false → pool.length * bufsize < src.length

theorem copied_nil {before : List Iob}
    (hfits : ∀ b ∈ before, b.Fits bufsize) : Copied bufsize pool before [] offset before 0 true where
  fits := hfits
  lens := rfl
  pktlen := rfl
  used := ⟨0, Nat.zero_le _, by simp, by simp⟩
  whole := fun _ => (overlay_nil_right _ _).symm
  cut := by simp
  short := by simp

theorem copyinLast_cases (h : iob.Fits bufsize)
    (hoff : offset ≤ iob.ioLen) (hpkt : offset + src.length < 2 ^ 16)
    (pool : List (Nat × List UInt8)) :
    (∃ chain grown, copyinLast bufsize iob src offset pool = (chain, grown, true) ∧
      Copied bufsize pool [iob] src offset chain grown true) ∨
    ∃ iob' grown k, k < src.length ∧ bufsize ≤ iob.ioOffset + offset + k ∧ iob'.Fits bufsize ∧
      iob'.id = iob.id ∧ iob'.ioLen = iob.ioLen + grown ∧ iob'.ioPktlen = iob.ioPktlen ∧
      overlay iob.bytes offset src = iob'.bytes ++ src.drop k ∧
      (pool = [] → copyinLast bufsize iob src offset pool = ([iob'], grown, false)) ∧
      ∀ next more, pool = next :: more → copyinLast bufsize iob src offset pool =
        (iob' :: (copyinLast bufsize (allocated next) (src.drop k) 0 more).1,
          grown + (copyinLast bufsize (allocated next) (src.drop k) 0 more).2.1,
          (copyinLast bufsize (allocated next) (src.drop k) 0 more).2.2) := by
  by_cases hsrc : src.length > 0
  · obtain ⟨iob', grown, k, hstep, hfits', hid, hlen, hpktlen, hbytes, hk⟩ :=
      copyinBuffer_last h hoff hpkt
    by_cases hleft : src.length ≤ k
    · left
      have hnone : ¬ (src.drop k).length > 0 := by
        rw [length_drop]
        omega
      rw [take_of_length_le hleft] at hbytes
      refine ⟨[iob'], grown, ?_, ?_⟩
      · rw [copyinLast]
        simp only [if_pos hsrc, hstep, if_neg hnone]
      · exact {
          fits := by simpa using hfits'
          lens := by simpa using hlen
          pktlen := by simpa using hpktlen
          used := ⟨0, Nat.zero_le _, by simp [hid], by simp⟩
          whole := by simpa [payload] using hbytes
          cut := by simp
          short := by simp }
    · right
      have hfull := hk.resolve_left hleft
      have hsome : (src.drop k).length > 0 := by
        rw [length_drop]
        omega
      refine ⟨iob', grown, k, by omega, hfull.2, hfits', hid, hlen, hpktlen, ?_, ?_, ?_⟩
      · rw [overlay_split (by rw [h.length_bytes]; exact hfull.1), hbytes]
      · rintro rfl
        rw [copyinLast]
        simp only [if_pos hsrc, hstep, if_pos hsome]
      · rintro next more rfl
        rw [copyinLast]
        simp only [if_pos hsrc, hstep, if_pos hsome]
  · obtain rfl : src = [] := length_eq_zero_iff.mp (by omega)
    left
    refine ⟨[iob], 0, ?_, copied_nil (by simpa using h)⟩
    rw [copyinLast, if_neg (by simp)]

theorem copyinLast_spec (hpool : ∀ b ∈ pool, b.2.length = bufsize)
    (h : iob.Fits bufsize) (hoff : offset ≤ iob.ioLen) (hpkt : offset + src.length < 2 ^ 16) :
    ∃ chain grown done, copyinLast bufsize iob src offset pool = (chain, grown, done) ∧
      Copied bufsize pool [iob] src offset chain grown done ∧
      (done = false → pool.length * bufsize + (bufsize - iob.ioOffset - offset) < src.length) := by
  induction pool generalizing iob src offset with
  | nil =>
    obtain ⟨chain, grown, hrun, hcop⟩ |
      ⟨iob', grown, k, hk, hfull, hfits', hid, hlen, hpktlen, hsplit, hnil, -⟩ :=
      copyinLast_cases h hoff hpkt []
    · exact ⟨chain, grown, true, hrun, hcop, by simp⟩
    have hcop : Copied bufsize [] [iob] src offset [iob'] grown false := {
      fits := by simpa using hfits'
      lens := by simpa using hlen
      pktlen := by simpa using hpktlen
      used := ⟨0, le_rfl, by simp [hid], fun _ => rfl⟩
      whole := by simp
      cut := fun _ => by
        simp only [payload_cons, payload_nil, append_nil, hsplit]
        exact prefix_append _ _
      short := fun _ => by
        simp only [length_nil]
        omega }
    refine ⟨[iob'], grown, false, hnil rfl, hcop, fun _ => ?_⟩
    simp only [length_nil]
    omega
  | cons next pool ih =>
    obtain ⟨chain, grown, hrun, hcop⟩ |
      ⟨iob', grown, k, hk, hfull, hfits', hid, hlen, hpktlen, hsplit, -, hcons⟩ :=
      copyinLast_cases h hoff hpkt (next :: pool)
    · exact ⟨chain, grown, true, hrun, hcop, by simp⟩
    have hnext : (allocated next).Fits bufsize := ⟨Nat.zero_le _, hpool next mem_cons_self⟩
    obtain ⟨chain, more, done, hrun, hcop, hshort⟩ :=
      ih (fun b hb => hpool b (mem_cons_of_mem _ hb)) hnext
        (Nat.zero_le _) (show 0 + (src.drop k).length < 2 ^ 16 by rw [length_drop]; omega)
    rw [length_drop] at hshort
    have hpay : payload [allocated next] = [] := rfl
    have hwhole : overlay (payload [iob]) offset src = iob'.bytes ++ src.drop k := by
      rw [← hsplit, payload_cons, payload_nil, append_nil]
    have hroom : done = false →
        (next :: pool).length * bufsize + (bufsize - iob.ioOffset - offset) < src.length := by
      intro hdone
      have hless := hshort hdone
      have hzero : (allocated next).ioOffset = 0 := rfl
      rw [hzero] at hless
      rw [length_cons, Nat.add_one_mul]
      omega
    have hmine : Copied bufsize (next :: pool) [iob] src offset (iob' :: chain) (grown + more) done := {
      fits := forall_mem_cons.mpr ⟨hfits', hcop.fits⟩
      lens := by
        have hlens := hcop.lens
        have hzero : ([allocated next].map ioLen).sum = 0 := rfl
        simp only [map_cons, map_nil, sum_cons, sum_nil]
        omega
      pktlen := by simpa using hpktlen
      used := by
        obtain ⟨j, hj, hids, hall⟩ := hcop.used
        refine ⟨j + 1, by simpa using hj, ?_, fun hdone => by simpa using hall hdone⟩
        rw [map_cons, hids, hid]
        rfl
      whole := fun hdone => by
        rw [payload_cons, hcop.whole hdone, hwhole, hpay, overlay_nil_left]
      cut := fun hdone => by
        have hcut := hcop.cut hdone
        rw [hpay, overlay_nil_left] at hcut
        rw [payload_cons, hwhole]
        exact (prefix_append_right_inj _).mpr hcut
      short := fun hdone => by
        have := hroom hdone
        omega }
    refine ⟨iob' :: chain, grown + more, done, ?_, hmine, hroom⟩
    rw [hcons next pool rfl, hrun]

theorem Copied.cons {iob' : Iob} (h : iob.Fits bufsize)
    (hoff : offset ≤ iob.ioLen) (h' : iob'.Fits bufsize) (hid : iob'.id = iob.id)
    (hlen : iob'.ioLen = iob.ioLen) (hpktlen : iob'.ioPktlen = iob.ioPktlen)
    (hbytes : iob'.bytes = overlay iob.bytes offset (src.take (iob.ioLen - offset)))
    (hcop : Copied bufsize pool rest (src.drop (iob.ioLen - offset)) 0 chain grown done) :
    Copied bufsize pool (iob :: rest) src offset (iob' :: chain) grown done := by
  have hsplit : overlay (payload (iob :: rest)) offset src
      = iob'.bytes ++ overlay (payload rest) 0 (src.drop (iob.ioLen - offset)) := by
    rw [payload_cons, overlay_append (by rw [h.length_bytes]; exact hoff), h.length_bytes, hbytes]
  exact {
    fits := forall_mem_cons.mpr ⟨h', hcop.fits⟩
    lens := by
      rw [map_cons, map_cons, sum_cons, sum_cons, hcop.lens, hlen, Nat.add_assoc]
    pktlen := by simpa using hpktlen
    used := by
      obtain ⟨k, hk, hids, hall⟩ := hcop.used
      refine ⟨k, hk, ?_, hall⟩
      rw [map_cons, hids, hid]
      rfl
    whole := fun hdone => by rw [payload_cons, hcop.whole hdone, hsplit]
    cut := fun hdone => by
      rw [payload_cons, hsplit]
      exact (prefix_append_right_inj _).mpr (hcop.cut hdone)
    short := fun hdone => by
      have hshort := hcop.short hdone
      rw [length_drop] at hshort
      omega }

theorem Copied.skip (h : iob.Fits bufsize) (hoff : iob.ioLen ≤ offset)
    (hcop : Copied bufsize pool rest src (offset - iob.ioLen) chain grown done) :
    Copied bufsize pool (iob :: rest) src offset (iob :: chain) grown done := by
  have hsplit : overlay (payload (iob :: rest)) offset src
      = iob.bytes ++ overlay (payload rest) (offset - iob.ioLen) src := by
    have hlen := h.length_bytes
    rw [payload_cons, overlay, overlay, take_append, take_of_length_le (by omega), drop_append,
      drop_of_length_le (by omega), nil_append, hlen,
      show offset + src.length - iob.ioLen = offset - iob.ioLen + src.length by omega]
    simp [append_assoc]
  exact {
    fits := forall_mem_cons.mpr ⟨h, hcop.fits⟩
    lens := by
      rw [map_cons, map_cons, sum_cons, sum_cons, hcop.lens, Nat.add_assoc]
    pktlen := rfl
    used := by
      obtain ⟨k, hk, hids, hall⟩ := hcop.used
      refine ⟨k, hk, ?_, hall⟩
      rw [map_cons, hids]
      rfl
    whole := fun hdone => by rw [payload_cons, hcop.whole hdone, hsplit]
    cut := fun hdone => by
      rw [payload_cons, hsplit]
      exact (prefix_append_right_inj _).mpr (hcop.cut hdone)
    short := hcop.short }

theorem copyinLoop_spec (hpool : ∀ b ∈ pool, b.2.length = bufsize)
    (h : ∀ b ∈ iob :: rest, b.Fits bufsize)
    (hoff : offset ≤ iob.ioLen) (hpkt : offset + src.length < 2 ^ 16) :
    ∃ chain grown done, copyinLoop bufsize pool iob rest src offset = (chain, grown, done) ∧
      Copied bufsize pool (iob :: rest) src offset chain grown done := by
  have hiob := h iob mem_cons_self
  induction rest generalizing iob src offset with
  | nil =>
    obtain ⟨chain, grown, done, hrun, hcop, -⟩ := copyinLast_spec hpool hiob hoff hpkt
    exact ⟨chain, grown, done, hrun, hcop⟩
  | cons next rest ih =>
    rw [copyinLoop]
    by_cases hsrc : src.length > 0
    · obtain ⟨iob', hstep, h', hid, hlen, hpktlen, hbytes⟩ := 
        copyinBuffer_mid hiob hoff src
      have hnext := forall_mem_cons.mp h
      obtain ⟨chain, grown, done, hrun, hcop⟩ := ih hnext.2 (Nat.zero_le _)
        (show 0 + (src.drop (iob.ioLen - offset)).length < 2 ^ 16 by
          rw [length_drop]
          omega) (hnext.2 next mem_cons_self)
      refine ⟨iob' :: chain, grown, done, ?_, Copied.cons hiob hoff h' hid hlen hpktlen hbytes hcop⟩
      simp [if_pos hsrc, hstep, hrun]
    · obtain rfl : src = [] := length_eq_zero_iff.mp (by omega)
      exact ⟨_, _, _, if_neg (by simp), copied_nil h⟩

theorem copyinSkip_spec (hpool : ∀ b ∈ pool, b.2.length = bufsize)
    (h : ∀ b ∈ iob :: rest, b.Fits bufsize) (hoff : offset ≤ ((iob :: rest).map ioLen).sum)
    (hpkt : offset + src.length < 2 ^ 16) :
    ∃ chain grown done, copyinSkip bufsize pool iob rest src offset = (chain, grown, done) ∧
      Copied bufsize pool (iob :: rest) src offset chain grown done := by
  induction rest generalizing iob offset with
  | nil => exact copyinLoop_spec hpool h (by simpa using hoff) hpkt
  | cons next rest ih =>
    rw [copyinSkip]
    by_cases hskip : offset > iob.ioLen
    · have hnext := forall_mem_cons.mp h
      rw [map_cons, sum_cons] at hoff
      obtain ⟨chain, grown, done, hrun, hcop⟩ :=
        ih hnext.2 (show offset - iob.ioLen ≤ _ by omega) (by omega)
      refine ⟨iob :: chain, grown, done, ?_, Copied.skip hnext.1 (Nat.le_of_lt hskip) hcop⟩
      simp only [if_pos hskip, hrun]
    · rw [if_neg hskip]
      exact copyinLoop_spec hpool h (by omega) hpkt

theorem payload_growPktlen (grown : Nat) (chain : List Iob) :
    payload (growPktlen grown chain) = payload chain := by
  cases chain with
  | nil => rfl
  | cons head rest => rfl

theorem Copied.wellFormed
   
    (hcop : Copied bufsize pool (iob :: rest) src offset chain grown done)
    (hpktlen : iob.ioPktlen = ((iob :: rest).map ioLen).sum)
    (hless : (chain.map ioLen).sum < 2 ^ 16) : WellFormed bufsize (growPktlen grown chain) := by
  have hhead := hcop.pktlen
  have hlens := hcop.lens
  have hfits := hcop.fits
  cases chain with
  | nil => simp at hhead
  | cons head tail =>
    simp only [List.head?_cons, Option.map_some, Option.some.injEq] at hhead
    have hmod : (head.ioPktlen + grown) % 2 ^ 16 = ((head :: tail).map ioLen).sum := by
      rw [hhead, hpktlen, ← hlens, Nat.mod_eq_of_lt hless]
    refine ⟨hmod, by rw [hmod]; exact hless, ?_⟩
    have hpair := forall_mem_cons.mp hfits
    exact forall_mem_cons.mpr ⟨⟨hpair.1.fits, hpair.1.sized⟩, hpair.2⟩

theorem Copied.length_le {before chain : List Iob}
   
    (hcop : Copied bufsize pool before src offset chain grown done) :
    (chain.map ioLen).sum ≤ (overlay (payload before) offset src).length := by
  rw [← length_payload hcop.fits]
  cases done with
  | false => exact (hcop.cut rfl).length_le
  | true => exact Nat.le_of_eq (congrArg List.length (hcop.whole rfl))

theorem iobCopyinInternal_spec (h : WellFormed bufsize (iob :: rest))
    (hpool : ∀ b ∈ pool, b.2.length = bufsize)
    (hoff : offset ≤ iob.ioPktlen) (hpkt : offset + src.length ≤ 65535) :
    ∃ ret chain, iobCopyinInternal bufsize iob rest src offset pool = (ret, chain) ∧
      WellFormed bufsize chain ∧
      (src.length ≤ pool.length * bufsize → ret = src.length) ∧
      (ret = src.length ∧ payload chain = overlay (payload (iob :: rest)) offset src ∨
        ret = -enomem ∧ chain.map Iob.id = (iob :: rest).map Iob.id ++ pool.map Prod.fst ∧
          payload chain <+: overlay (payload (iob :: rest)) offset src) := by
  obtain ⟨hpktlen, hless, hfits⟩ := h
  obtain ⟨chain, grown, done, hrun, hcop⟩ :=
    copyinSkip_spec hpool hfits (hpktlen ▸ hoff) (show offset + src.length < 2 ^ 16 by omega)
  have hlen : (chain.map ioLen).sum < 2 ^ 16 := by
    have hbound := hcop.length_le
    have hpay := length_payload hfits
    rw [← hpktlen] at hpay
    simp only [overlay, length_append, length_take, length_drop, hpay] at hbound
    omega
  refine ⟨if done then src.length else -enomem, growPktlen grown chain, ?_,
    hcop.wellFormed hpktlen hlen, ?_, ?_⟩
  · simp only [iobCopyinInternal, if_neg (show ¬ offset > iob.ioPktlen by omega), hrun]
  · intro henough
    cases done with
    | false =>
      have hshort := hcop.short rfl
      omega
    | true => rfl
  · rw [payload_growPktlen]
    cases done with
    | true => exact .inl ⟨rfl, hcop.whole rfl⟩
    | false =>
      obtain ⟨k, -, hids, hall⟩ := hcop.used
      rw [hall rfl, take_length] at hids
      refine .inr ⟨rfl, ?_, hcop.cut rfl⟩
      rw [← hids]
      cases chain with
      | nil => rfl
      | cons head tail => rfl

theorem copyoutLoop_eq (h : ∀ b ∈ chain, b.Fits bufsize)
    (hoff : ∀ iob ∈ chain.head?, offset ≤ iob.ioLen) (remaining : Nat) :
    copyoutLoop chain remaining offset = ((payload chain).drop offset).take remaining := by
  induction chain generalizing remaining offset with
  | nil => simp [copyoutLoop]
  | cons iob rest ih =>
    have hpair := forall_mem_cons.mp h
    have hlen := hpair.1.length_bytes
    have hle : offset ≤ iob.ioLen := hoff iob rfl
    rw [copyoutLoop]
    by_cases hrem : remaining > 0
    · simp only [if_pos hrem]
      rw [ih hpair.2 (fun _ _ => Nat.zero_le _), payload_cons,
        drop_append_of_le_length (by omega), take_append, length_drop, hlen,
        drop_zero]
      have hfirst : (iob.ioData.drop (iob.ioOffset + offset)).take (min (iob.ioLen - offset) remaining)
          = (iob.bytes.drop offset).take remaining := by
        rw [bytes, drop_take, drop_drop, take_take, Nat.min_comm]
      rw [hfirst]
      congr 2
      omega
    · rw [if_neg hrem, show remaining = 0 by omega, take_zero]

theorem iobCopyout_eq (h : ∀ b ∈ chain, b.Fits bufsize) (len offset : Nat) :
    iobCopyout chain len offset
      = ((((payload chain).drop offset).take len).length, ((payload chain).drop offset).take len) := by
  induction chain generalizing offset with
  | nil => simp [iobCopyout]
  | cons iob rest ih =>
    have hpair := forall_mem_cons.mp h
    have hlen := hpair.1.length_bytes
    rw [iobCopyout]
    by_cases hskip : offset ≥ iob.ioLen
    · have hnone : iob.bytes.drop offset = [] := drop_of_length_le (by omega)
      rw [if_pos hskip, ih hpair.2, payload_cons, drop_append, hnone, nil_append, hlen]
    rw [if_neg hskip]
    have hhead : ∀ b ∈ (iob :: rest).head?, offset ≤ b.ioLen := by
      rintro b ⟨⟩
      omega
    simp only [copyoutLoop_eq h hhead]

/-- **Writing and reading a chain.** Copying into a chain copies over its payload, which grows where
the new bytes reach past its end, as long as there are buffers to be had; without them a prefix is
written. Copying out reads the payload. -/
theorem copyin_copyout_payload {iob : Iob} {rest : List Iob} (h : WellFormed bufsize (iob :: rest)) :
    (∀ src offset pool, (∀ b ∈ pool, b.2.length = bufsize) → offset ≤ iob.ioPktlen →
      offset + src.length ≤ 65535 →
      ∃ ret chain, iobCopyin bufsize iob rest src offset pool = (ret, chain) ∧
        WellFormed bufsize chain ∧
        (src.length ≤ pool.length * bufsize → ret = src.length) ∧
        (ret = src.length ∧ payload chain = overlay (payload (iob :: rest)) offset src ∨
          ret = -enomem ∧ chain.map Iob.id = (iob :: rest).map Iob.id ++ pool.map Prod.fst ∧
            payload chain <+: overlay (payload (iob :: rest)) offset src)) ∧
    (∀ src offset pool, iob.ioPktlen < offset →
      iobCopyin bufsize iob rest src offset pool = (-espipe, iob :: rest)) ∧
    ∀ len offset, iobCopyout (iob :: rest) len offset
      = ((((payload (iob :: rest)).drop offset).take len).length,
          ((payload (iob :: rest)).drop offset).take len) := by
  refine ⟨fun src offset pool hpool hoff hpkt => iobCopyinInternal_spec h hpool hoff hpkt, ?_, ?_⟩
  · exact fun src offset pool hoff => if_pos hoff
  · exact iobCopyout_eq h.2.2

theorem copyin_copyout_payload_three :
    WellFormed 4 [⟨0, 2, 1, 3, [0, 1, 2, 0]⟩, ⟨1, 0, 3, 0, [0, 0, 0, 0]⟩, ⟨2, 1, 2, 0, [0, 0, 3, 0]⟩] ∧
      ∃ ret chain, iobCopyin 4 ⟨0, 2, 1, 3, [0, 1, 2, 0]⟩
          [⟨1, 0, 3, 0, [0, 0, 0, 0]⟩, ⟨2, 1, 2, 0, [0, 0, 3, 0]⟩] [7, 8, 9] 2 [(3, [0, 0, 0, 0])]
            = (ret, chain) ∧
        ret = 3 ∧ payload chain = [1, 2, 7, 8, 9] := by
  have hwf : WellFormed 4
      [⟨0, 2, 1, 3, [0, 1, 2, 0]⟩, ⟨1, 0, 3, 0, [0, 0, 0, 0]⟩, ⟨2, 1, 2, 0, [0, 0, 3, 0]⟩] := by
    decide
  refine ⟨hwf, ?_⟩
  obtain ⟨ret, chain, hrun, -, hret, hpay⟩ := (copyin_copyout_payload hwf).1 [7, 8, 9] 2
    [(3, [0, 0, 0, 0])] (by decide) (by decide) (by decide)
  have hthree : ret = 3 := hret (by decide)
  refine ⟨ret, chain, hrun, hthree, ?_⟩
  rcases hpay with ⟨-, hwhole⟩ | ⟨herr, -⟩
  · rw [hwhole]
    decide
  · rw [hthree] at herr
    exact absurd herr (by decide)

end Iob

end Nuttx.Mm

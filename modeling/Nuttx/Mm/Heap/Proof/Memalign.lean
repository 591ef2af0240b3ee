import Nuttx.Mm.Heap.Proof.Resize

/-!
# The trimming section of `mm_memalign`

An over-large allocation is cut at an aligned address.
-/

namespace Nuttx.Mm

open ByteMemory

variable {c : HeapConfig} {h : Heap} {m : Mem} {pre post cs : List Chunk} {p q : Chunk}
  {a s n d : Nat}

theorem alignPoint_eq {x k : Nat} (hx : x + (2 ^ k - 1) < c.sizeMod) :
    c.add x (c.sub (2 ^ k) 1) &&& c.compl (c.sub (2 ^ k) 1) = (x + (2 ^ k - 1)) / 2 ^ k * 2 ^ k := by
  have hpos := Nat.two_pow_pos k
  have hk : k ≤ 8 * c.ptrBytes := by
    by_contra hlt
    have hle : 2 ^ (8 * c.ptrBytes + 1) ≤ 2 ^ k := Nat.pow_le_pow_right (by omega) (by omega)
    rw [c.sizeMod_eq] at hx
    rw [pow_succ] at hle
    omega
  have hmask : c.sub (2 ^ k) 1 = 2 ^ k - 1 := by
    by_cases heq : 2 ^ k = c.sizeMod
    · rw [HeapConfig.sub, heq, show c.sizeMod + c.sizeMod - 1 = c.sizeMod - 1 + c.sizeMod by omega,
        Nat.add_mod_right, Nat.mod_eq_of_lt (by omega)]
    · exact c.sub_eq hpos (by omega)
  rw [hmask, c.add_eq hx, HeapConfig.compl, c.sizeMod_eq]
  exact and_compl_mask (by rw [← c.sizeMod_eq]; exact hx) hk

theorem memalignPoint_spec {x k : Nat} (hk : c.mmMinChunk < 2 ^ k)
    (hunit : 2 * c.sizeofMmAllocnode ∣ x) (hx : x + 2 * 2 ^ k < c.sizeMod)
    (hge : c.sizeofMmAllocnode ≤ x) :
    ∃ d, memalignPoint c (2 ^ k) x = x + d ∧ 2 ^ k ∣ x + d ∧ 2 * c.sizeofMmAllocnode ∣ d ∧
      d + c.sizeofMmFreenode ≤ 2 * 2 ^ k ∧
      (d = 0 ∧ (x + (2 ^ k - 1)) / 2 ^ k * 2 ^ k = x ∨ c.sizeofMmFreenode ≤ d ∧
        x + 2 * c.sizeofMmAllocnode ≤ (x + (2 ^ k - 1)) / 2 ^ k * 2 ^ k) := by
  have hlay := c.layout
  have hdvd : c.mmMinChunk ∣ 2 ^ k := by
    refine Nat.pow_dvd_pow 2 ?_
    by_contra hlt
    have hle : 2 ^ k ≤ 2 ^ c.mmMinShift := Nat.pow_le_pow_right (by omega) (by omega)
    rw [HeapConfig.mmMinChunk] at hk
    omega
  have hunitk : 2 * c.sizeofMmAllocnode ∣ 2 ^ k := c.unit_dvd_mmMinChunk.trans hdvd
  have hdouble : 2 * c.mmMinChunk ≤ 2 ^ k := by
    obtain ⟨j, hj⟩ := hdvd
    rw [hj] at hk ⊢
    rcases j with _ | _ | j
    · omega
    · omega
    · rw [Nat.mul_comm]
      exact Nat.mul_le_mul_left _ (by omega)
  have hpoint := alignPoint_eq (c := c) (x := x) (k := k) (by omega)
  unfold memalignPoint
  simp only [hpoint]
  generalize hfp : (x + (2 ^ k - 1)) / 2 ^ k * 2 ^ k = fp at *
  have hfpdvd : 2 ^ k ∣ fp := hfp ▸ Dvd.intro_left _ rfl
  have hfpge : x ≤ fp ∧ fp < x + 2 ^ k := by
    have hmod := Nat.div_add_mod (x + (2 ^ k - 1)) (2 ^ k)
    rw [Nat.mul_comm, hfp] at hmod
    omega
  obtain ⟨e, rfl⟩ : ∃ e, fp = x + e := ⟨fp - x, by omega⟩
  have heunit : 2 * c.sizeofMmAllocnode ∣ e := (Nat.dvd_add_right hunit).mp (hunitk.trans hfpdvd)
  have hprec : c.sub (c.sub (x + e) c.sizeofMmAllocnode) (c.sub x c.sizeofMmAllocnode) = e := by
    have hnew : c.sub (x + e) c.sizeofMmAllocnode = x + e - c.sizeofMmAllocnode :=
      c.sub_eq (by omega) (by omega)
    have hold : c.sub x c.sizeofMmAllocnode = x - c.sizeofMmAllocnode := c.sub_eq hge (by omega)
    rw [hnew, hold, c.sub_eq (by omega) (by omega)]
    omega
  rw [hprec]
  by_cases hzero : e = 0
  · subst hzero
    refine ⟨0, by simp, hfpdvd, by simp, by omega, .inl ⟨rfl, rfl⟩⟩
  have hege : 2 * c.sizeofMmAllocnode ≤ e := Nat.le_of_dvd (by omega) heunit
  by_cases hsmall : e < c.sizeofMmFreenode
  · rw [if_pos ⟨by omega, hsmall⟩]
    refine ⟨e + 2 ^ k, ?_, ?_, Nat.dvd_add heunit hunitk, by omega, .inr ⟨by omega, by omega⟩⟩
    · rw [c.add_eq (by omega), Nat.add_assoc]
    · rw [← Nat.add_assoc]
      exact Nat.dvd_add hfpdvd dvd_rfl
  · rw [if_neg (fun hboth => hsmall hboth.2)]
    exact ⟨e, rfl, hfpdvd, heunit, by omega, .inr ⟨by omega, by omega⟩⟩

namespace HeapInv

theorem memalignLeading_spec (hinv : HeapInv c h m (pre ++ p :: ⟨a, s, true⟩ :: q :: post) [])
    (hd : ChunkSize c d) (hrest : ChunkSize c (s - d)) :
    ∃ m', memalignLeading c h m a (a + d) = .ok m' ∧
      HeapInv c h m' (pre ++ p :: ⟨a, d, false⟩ :: ⟨a + d, s - d, true⟩ :: q :: post) [] ∧
      ChangesOnly (ownBytes c h (pre ++ p :: q :: post)) m m' := by
  have hlay := c.layout
  obtain ⟨⟨hmeets, hsize, hprec⟩, hqaddr, hqsize, hqprec⟩ :=
    isChain_follows_one.mp (hinv.window [⟨a, s, true⟩])
  have hdge := hd.1
  have hrge := hrest.1
  have hpmem : p ∈ pre ++ p :: ⟨a, s, true⟩ :: q :: post := by simp
  have hkmem : (⟨a, s, true⟩ : Chunk) ∈ pre ++ p :: ⟨a, s, true⟩ :: q :: post := by simp
  have hps := hinv.size_lt hpmem
  have hs := hinv.size_lt hkmem
  have hbounds := hinv.tiling.bounds hkmem
  have hend := hinv.region.end_lt
  have hdtag := tag_lt_two_mul (c := c) (s := d) (u := true) (by omega)
  have hqtag := tag_lt_two_mul (c := c) (s := s - d) (u := q.used) (by omega)
  rw [hqaddr] at hqsize hqprec
  have hpsize : c.sub (a + d) a = d := by rw [c.sub_eq (by omega) (by omega)]; omega
  have hnsize : c.sub (a + s) (a + d) = s - d := by rw [c.sub_eq (by omega) (by omega)]; omega
  have hor : d ||| c.mmAllocBit = c.tag d true := HeapConfig.or_mmAllocBit (by omega)
  have hclear : c.clearAllocBit (nodePreceding c (setSize c (setPreceding c (setSize c m (a + d)
      (s - d)) (a + d) (c.tag d true)) a d) a) = p.size := by
    simp (disch := omega) only [nodePreceding_setSize, nodePreceding_setPreceding_of_ne, hprec]
    exact HeapConfig.clearAllocBit_tag hps
  have hnew : nodeSize c (setPreceding c (setSize c (setPreceding c (setSize c m (a + d) (s - d))
      (a + d) (c.tag d true)) a d) a p.size) (a + d) = s - d := by
    simp (disch := omega) only [nodeSize_setSize, nodeSize_setSize_of_ne, nodeSize_setPreceding]
  have hupdate := @updatePreceding_eq c (setPreceding c (setSize c (setPreceding c (setSize c m
    (a + d) (s - d)) (a + d) (c.tag d true)) a d) a p.size) (a + s) s (s - d) q.used (by
    simp (disch := omega) only [nodePreceding_setSize, nodePreceding_setPreceding_of_ne, hqprec])
    hs (by omega)
  obtain ⟨hinv1, hchg1⟩ := hinv.rewrite [⟨a, s, true⟩]
    (setPreceding c (setPreceding c (setSize c (setPreceding c (setSize c m (a + d) (s - d)) (a + d)
      (c.tag d true)) a d) a p.size) (a + s) (c.tag (s - d) q.used))
    [⟨a, d, false⟩, ⟨a + d, s - d, true⟩] [⟨a, d, false⟩] (by
      refine setPreceding_changesOnly (setPreceding_changesOnly (setSize_changesOnly
        (setPreceding_changesOnly (setSize_changesOnly (.refl _ _) ?_ ?_) ?_ ?_) ?_ ?_) ?_ ?_)
        ?_ ?_ <;> omega) (by
      rw [isChain_follows_two, hqaddr]
      simp (disch := omega) only [nodeSize_setSize, nodeSize_setSize_of_ne, nodeSize_setPreceding,
        nodePreceding_setPreceding, nodePreceding_setPreceding_of_ne, nodePreceding_setSize, hqsize,
        HeapConfig.tag_false, and_true, true_and]
      omega) (by
      simp only [List.mem_cons, List.not_mem_nil, or_false, forall_eq_or_imp, forall_eq]
      exact ⟨hd, hrest⟩) (by simp) (by simp; grind)
  obtain ⟨m2, hadd, hinv2, hchg2⟩ := hinv1.list_chunk (by simp) (by simp)
  refine ⟨m2, ?_, hinv2, hchg1.trans (hchg2.mono (ownBytes_around [_, _]))⟩
  simp [memalignLeading, hsize, hpsize, hnsize, hor, hclear, hnew, hupdate, hadd]

end HeapInv

theorem mmMemalignLocked_ret {alignment size allocsize raw r : Nat} {h' : Heap}
    (heval : mmMemalignLocked c h alignment size allocsize raw = .ok (r, h')) :
    r = memalignPoint c alignment raw := by
  simp only [mmMemalignLocked, bind, Except.bind, pure, Except.pure] at heval
  repeat' split at heval
  all_goals cases heval <;> rfl

theorem Rep.mmMemalignLocked_spec {k size : Nat} (hrep : Rep c h cs) (hmem : ⟨a, s, true⟩ ∈ cs)
    (hlo : a ≠ h.mmHeapstart) (hhi : a ≠ h.mmHeapend) (hk : c.mmMinChunk < 2 ^ k)
    (hroom : size + (2 ^ k + 2 ^ k) + c.sizeofMmAllocnode ≤ s) :
    ∃ d cs1 cs' m', mmMemalignLocked c h (2 ^ k) size (size + (2 ^ k + 2 ^ k))
          (a + c.sizeofMmAllocnode) = .ok (a + d + c.sizeofMmAllocnode, { h with mem := m' }) ∧
      Rep c { h with mem := m' } cs' ∧ 2 ^ k ∣ a + d + c.sizeofMmAllocnode ∧
      d + c.sizeofMmFreenode ≤ 2 * 2 ^ k ∧
      (d = 0 ∧ cs1 = cs ∨ d ≠ 0 ∧ Trimmed d a cs cs1) ∧
      (cs' = cs1 ∨ Shrunk c (c.mmAlignUp (size + c.sizeofMmAllocnode)) (a + d) cs1 cs') ∧
      Tiling c h.mmHeapstart h.mmHeapend cs1 ∧
      ChangesOnly (ownBytes c h (others a cs)) h.mem m' := by
  have hlay := c.layout
  have hmask : c.mmGranMask = c.mmMinChunk - 1 := rfl
  have hinside := hrep.tiling.inside hmem (Tiling.ne_guard_of_addr_ne hlo)
    (Tiling.ne_guard_of_addr_ne hhi)
  have hend := hrep.region.end_lt
  have hraw : 2 * c.sizeofMmAllocnode ∣ a + c.sizeofMmAllocnode :=
    hrep.tiling.unit_dvd (c.unit_dvd_mmMinChunk.trans hrep.region.start_dvd) hmem hlo
  have hsdvd := (hrep.tiling.ok_of_addr_ne hmem hlo hhi).2
  obtain ⟨d, hpoint, hdvd, hdunit, hdle, hcase⟩ := memalignPoint_spec hk hraw (by omega) (by omega)
  have hfirst := alignPoint_eq (c := c) (x := a + c.sizeofMmAllocnode) (k := k) (by omega)
  have hnode : c.sub (a + c.sizeofMmAllocnode) c.sizeofMmAllocnode = a := by
    rw [c.sub_eq (by omega) (by omega), Nat.add_sub_cancel]
  have hnew : c.sub (a + c.sizeofMmAllocnode + d) c.sizeofMmAllocnode = a + d := by
    rw [c.sub_eq (by omega) (by omega)]
    omega
  have hsize : c.add size c.sizeofMmAllocnode = size + c.sizeofMmAllocnode := c.add_eq (by omega)
  obtain ⟨hnle, hnge, hngran⟩ := c.mmAlignUp_spec (a := size + c.sizeofMmAllocnode) (by omega)
  generalize hn : c.mmAlignUp (size + c.sizeofMmAllocnode) = n at hnle hnge hngran
  have hnmin : c.mmMinChunk ≤ n := Nat.le_of_dvd (by omega) hngran
  have hnunit := c.unit_dvd_mmMinChunk.trans hngran
  rcases hcase with ⟨rfl, heq⟩ | ⟨hdge, hfar⟩
  · obtain ⟨m', cs', hshrink, hinv', hstep, hchg⟩ :=
      HeapInv.mmShrinkchunk_spec hrep hmem hlo hhi (n := n) (by omega) hngran hnunit (by omega)
    refine ⟨0, cs, cs', m', ?_, hinv'.rep, by simpa using hdvd, hdle, .inl ⟨rfl, rfl⟩,
      .inr hstep, hrep.tiling, hchg⟩
    simp [mmMemalignLocked, hfirst, heq, hpoint, hnode, hsize, hn, hshrink,
      show n < size + (2 ^ k + 2 ^ k) by omega]
  obtain ⟨pre, p, q, post, rfl⟩ := hrep.tiling.exists_around hmem
    (Tiling.ne_guard_of_addr_ne hlo) (Tiling.ne_guard_of_addr_ne hhi)
  obtain ⟨m1, hlead, hinv1, hchg1⟩ := HeapInv.memalignLeading_spec hrep ⟨hdge, hdunit⟩
    ⟨by omega, Nat.dvd_sub hsdvd hdunit⟩
  have htrim : Trimmed d a (pre ++ p :: ⟨a, s, true⟩ :: q :: post)
      (pre ++ p :: ⟨a, d, false⟩ :: ⟨a + d, s - d, true⟩ :: q :: post) :=
    ⟨pre ++ [p], s, q :: post, by simp, by simp⟩
  have hex := htrim.exchanged hrep.tiling hinv1.tiling hmem
  have hmem1 : (⟨a + d, s - d, true⟩ : Chunk) ∈
      pre ++ p :: ⟨a, d, false⟩ :: ⟨a + d, s - d, true⟩ :: q :: post := by simp
  have hsize1 := hinv1.nodeSize_eq hmem1
  have hpay : c.sub (s - d) c.sizeofMmAllocnode = s - d - c.sizeofMmAllocnode :=
    c.sub_eq (by omega) (by omega)
  have hassert : c.add (a + c.sizeofMmAllocnode) 8 = a + c.sizeofMmAllocnode + 8 :=
    c.add_eq (by omega)
  have hfar' : a + c.sizeofMmAllocnode + 8
      ≤ (a + c.sizeofMmAllocnode + (2 ^ k - 1)) / 2 ^ k * 2 ^ k := by omega
  have hne : (a + c.sizeofMmAllocnode + (2 ^ k - 1)) / 2 ^ k * 2 ^ k ≠ a + c.sizeofMmAllocnode := by
    omega
  have hdvd' : 2 ^ k ∣ a + d + c.sizeofMmAllocnode := by rwa [Nat.add_right_comm]
  have hchg1' := hchg1.mono (ownBytes_sides (c := c) (h := h) (a := a) [⟨a, s, true⟩] (by simp))
  by_cases hmore : s - d - c.sizeofMmAllocnode > n
  · obtain ⟨m2, cs', hshrink, hinv2, hstep, hchg2⟩ :=
      hinv1.mmShrinkchunk_spec hmem1 (n := n) (by omega) (by omega) (by omega) hngran hnunit
        (by omega)
    refine ⟨d, _, cs', m2, ?_, hinv2.rep, hdvd', hdle, .inr ⟨by omega, htrim⟩, .inr hstep,
      hinv1.tiling, hchg1'.trans (hchg2.mono (ownBytes_exchanged hex))⟩
    rw [Nat.add_right_comm]
    simp [mmMemalignLocked, hfirst, hne, hpoint, hnode, hnew, hassert, hfar', hlead, hsize1, hpay,
      hsize, hn, hmore, hshrink]
  · refine ⟨d, _, _, m1, ?_, hinv1.rep, hdvd', hdle, .inr ⟨by omega, htrim⟩, .inl rfl,
      hinv1.tiling, hchg1'⟩
    rw [Nat.add_right_comm]
    simp [mmMemalignLocked, hfirst, hne, hpoint, hnode, hnew, hassert, hfar', hlead, hsize1, hpay,
      hsize, hn, hmore]

end Nuttx.Mm

import Nuttx.Mm.Heap.Proof.Invariant

/-!
# Changing the size of an allocation

`mm_shrinkchunk` gives the end of a chunk back. `mm_realloc` extends a chunk into the free chunk
before it or after it.
-/

open List

namespace Nuttx.Mm

open ByteMemory

variable {c : HeapConfig} {h : Heap} {m : Mem} {pre post hid cs : List Chunk} {p q : Chunk}
  {a b s t n d : Nat}

namespace HeapInv

theorem mmShrinkchunk_of_free
    (hinv : HeapInv c h m (pre ++ p :: ⟨a, s, true⟩ :: ⟨b, t, false⟩ :: q :: post) [])
    (hok : ChunkSize c s) (hn : c.sizeofMmFreenode ≤ n) (hgran : c.mmMinChunk ∣ n)
    (hunit : 2 * c.sizeofMmAllocnode ∣ n) (hle : n ≤ s) :
    ∃ m', mmShrinkchunk c h m a n = .ok m' ∧
      HeapInv c h m' (pre ++ p :: ⟨a, n, true⟩ :: ⟨a + n, s + t - n, false⟩ :: q :: post) [] ∧
      ChangesOnly (ownBytes c h (pre ++ p :: q :: post)) m m' := by
  have hlay := c.layout
  have hmask : (n &&& c.mmGranMask == 0) = true := by rw [c.and_mmGranMask_of_dvd hgran]; rfl
  have hbmem : (⟨b, t, false⟩ : Chunk) ∈
      pre ++ p :: ⟨a, s, true⟩ :: ⟨b, t, false⟩ :: q :: post := by simp
  obtain ⟨hblink, hinv1, hchg1⟩ := hinv.unlink hbmem (by simp)
  obtain ⟨⟨hmeets, hsize, hprec⟩, ⟨rfl, hbsize, -⟩, hqaddr, hqsize, hqprec⟩ :=
    isChain_follows_two.mp (hinv1.window [⟨a, s, true⟩, ⟨b, t, false⟩])
  have hsize0 := hinv.nodeSize_eq (a := a) (s := s) (u := true) (by simp)
  have hbsize0 := hinv.nodeSize_eq hbmem
  have halloc0 := hinv.isAllocated_eq hbmem
  have hlow := (hinv.tiling.bounds (a := a) (s := s) (u := true) (by simp)).1
  have hhigh := (hinv.tiling.bounds hbmem).2
  have hregion := hinv.region.size_lt
  have hend := hinv.region.end_lt
  obtain ⟨htge, htdvd⟩ := hinv.tiling.ok_of_free hbmem
  have hval : c.sub (c.add t s) n = s + t - n := by
    rw [c.add_eq (by omega), c.sub_eq (by omega) (by omega), Nat.add_comm]
  rw [hqaddr] at hqprec
  obtain ⟨hinv2, hchg2⟩ := hinv1.split [⟨a, s, true⟩, ⟨a + s, t, false⟩]
    [⟨a + n, s + t - n, false⟩] hmeets hprec hqaddr (by omega) ⟨hn, hunit⟩
    ⟨by omega, Nat.dvd_sub (Nat.dvd_add hok.2 htdvd) hunit⟩ (by simp; grind) (by simp)
  obtain ⟨m3, hadd, hinv3, hchg3⟩ := hinv2.list_chunk (by simp) (by simp)
  refine ⟨m3, ?_, hinv3, ?_⟩
  · have hnew : nodeSize c (setSize c (setPreceding c (setSize c (unlinkNode c m (a + s)) (a + n)
        (s + t - n)) (a + n) n) a n) (a + n) = s + t - n := by
      simp (disch := omega) only [nodeSize_setSize, nodeSize_setSize_of_ne, nodeSize_setPreceding]
    have hupdate := @updatePreceding_eq c (setSize c (setPreceding c (setSize c
      (unlinkNode c m (a + s)) (a + n) (s + t - n)) (a + n) n) a n) (a + s + t) t (s + t - n) q.used
      (by simp (disch := omega) only [nodePreceding_setSize, nodePreceding_setPreceding_of_ne,
        hqprec]) (by omega) (by omega)
    simp [mmShrinkchunk, hmask, hsize0, halloc0, hbsize0, hblink, hbsize, hsize, hval, hnew, hupdate,
      hadd]
  · exact ((hchg1.mono (ownBytes_around [_, _])).trans
      hchg2).trans (hchg3.mono (ownBytes_around [_, _]))

theorem mmShrinkchunk_of_used (hinv : HeapInv c h m (pre ++ p :: ⟨a, s, true⟩ :: q :: post) [])
    (hok : ChunkSize c s) (hq : q.used = true) (hn : c.sizeofMmFreenode ≤ n)
    (hgran : c.mmMinChunk ∣ n) (hunit : 2 * c.sizeofMmAllocnode ∣ n) (hle : n ≤ s) :
    ∃ m', mmShrinkchunk c h m a n = .ok m' ∧
      HeapInv c h m' (pre ++ p :: ⟨a, carved c s n, true⟩ :: (leftover c a s n ++ q :: post)) [] ∧
      ChangesOnly (ownBytes c h (pre ++ p :: q :: post)) m m' := by
  have hlay := c.layout
  have hmask : (n &&& c.mmGranMask == 0) = true := by rw [c.and_mmGranMask_of_dvd hgran]; rfl
  have hqmem : q ∈ pre ++ p :: ⟨a, s, true⟩ :: q :: post := by simp
  obtain ⟨⟨hmeets, hsize, hprec⟩, hqaddr, -, -⟩ :=
    isChain_follows_one.mp (hinv.window [⟨a, s, true⟩])
  have halloc : isAllocated c m (a + s) = true := by rw [← hqaddr, hinv.isAllocated_eq hqmem, hq]
  have hlt := hinv.size_lt (a := a) (s := s) (u := true) (by simp)
  have hpow := c.powers
  have hval : c.sub s n = s - n := c.sub_eq hle (by omega)
  unfold carved leftover
  by_cases hroom : c.sizeofMmFreenode ≤ s - n
  · obtain ⟨hinv1, hchg1⟩ := hinv.split [⟨a, s, true⟩] [⟨a + n, s - n, false⟩] hmeets hprec hqaddr
      (by omega) ⟨hn, hunit⟩ ⟨hroom, Nat.dvd_sub hok.2 hunit⟩ (by simp) (by simp)
    obtain ⟨m2, hadd, hinv2, hchg2⟩ := hinv1.list_chunk (by simp) (by simp)
    rw [if_pos hroom, if_pos hroom]
    refine ⟨m2, ?_, hinv2, hchg1.trans (hchg2.mono (ownBytes_around [_, _]))⟩
    have hnew : nodeSize c (setSize c (setPreceding c (setSize c m (a + n) (s - n)) (a + n) n) a n)
        (a + n) = s - n := by
      simp (disch := omega) only [nodeSize_setSize, nodeSize_setSize_of_ne, nodeSize_setPreceding]
    have htag : s - n ||| c.mmAllocBit = c.tag (s - n) q.used := by
      rw [hq, HeapConfig.or_mmAllocBit (by omega)]
      rfl
    simp [mmShrinkchunk, hmask, hsize, halloc, hval, hnew, htag, hadd,
      show n + c.sizeofMmFreenode ≤ s by omega]
  · rw [if_neg hroom, if_neg hroom]
    refine ⟨m, ?_, hinv, .refl _ _⟩
    simp [mmShrinkchunk, hmask, hsize, halloc, show ¬ n + c.sizeofMmFreenode ≤ s by omega]

theorem mmShrinkchunk_spec (hinv : HeapInv c h m cs []) (hmem : ⟨a, s, true⟩ ∈ cs)
    (hlo : a ≠ h.mmHeapstart) (hhi : a ≠ h.mmHeapend) (hn : c.sizeofMmFreenode ≤ n)
    (hgran : c.mmMinChunk ∣ n) (hunit : 2 * c.sizeofMmAllocnode ∣ n) (hle : n ≤ s) :
    ∃ m' cs', mmShrinkchunk c h m a n = .ok m' ∧ HeapInv c h m' cs' [] ∧ Shrunk c n a cs cs' ∧
      ChangesOnly (ownBytes c h (others a cs)) m m' := by
  have hok := hinv.tiling.ok_of_addr_ne hmem hlo hhi
  obtain ⟨pre, p, q, post, rfl⟩ := hinv.tiling.exists_around hmem
    (Tiling.ne_guard_of_addr_ne hlo) (Tiling.ne_guard_of_addr_ne hhi)
  cases hq : q.used with
  | true =>
    obtain ⟨m', hshrink, hinv', hchg⟩ := hinv.mmShrinkchunk_of_used hok hq hn hgran hunit hle
    refine ⟨m', _, hshrink, hinv', ⟨pre ++ [p], s, q :: post, by simp, hle,
      .inr ⟨by simpa using hq, by simp⟩⟩, hchg.mono (ownBytes_sides [_] (by simp))⟩
  | false =>
    obtain ⟨b, t, used⟩ := q
    subst hq
    have hsplit : pre ++ p :: ⟨a, s, true⟩ :: ⟨b, t, false⟩ :: post
        = (pre ++ [p, ⟨a, s, true⟩]) ++ ⟨b, t, false⟩ :: post := by simp
    obtain ⟨q, post, rfl⟩ := (hsplit ▸ hinv.tiling).exists_next (Tiling.ne_guard_of_free rfl _)
    obtain ⟨m', hshrink, hinv', hchg⟩ := hinv.mmShrinkchunk_of_free hok hn hgran hunit hle
    refine ⟨m', _, hshrink, hinv', ⟨pre ++ [p], s, _, by simp, hle,
      .inl ⟨b, t, q :: post, rfl, by simp⟩⟩, hchg.mono (ownBytes_sides [_, _] (by simp))⟩

/-- **Moving a border.** The headers that `mm_realloc` writes when a chunk takes a part of its
neighbour. -/
theorem divide {e f : Nat} {u v : Bool}
    (hinv : HeapInv c h m (pre ++ p :: ⟨a, s, u⟩ :: ⟨a + s, t, v⟩ :: q :: post) hid)
    (hid' : List Chunk) (hsum : e + f = s + t) (he : ChunkSize c e) (hf : ChunkSize c f)
    (hhid : ∀ k, k ∈ hid ↔ k ∈ [⟨a, s, u⟩, ⟨a + s, t, v⟩] ∧ k.used = false)
    (hhid' : ∀ k, k ∈ hid' ↔ k ∈ [⟨a, e, u⟩, ⟨a + e, f, v⟩] ∧ k.used = false) :
    nodeSize c (setSize c m a e) a = e ∧
    nodeSize c (setSize c (setSize c m a e) (a + e) f) a = e ∧
    nodeSize c (setSize c (setSize c m a e) (a + e) f) (a + e) = f ∧
    nodeSize c (setPreceding c (setSize c (setSize c m a e) (a + e) f) (a + e) (c.tag e v)) (a + e) = f ∧
    HeapInv c h (updatePreceding c (setPreceding c (setSize c (setSize c m a e) (a + e) f) (a + e)
      (c.tag e v)) (a + s + t) f) (pre ++ p :: ⟨a, e, u⟩ :: ⟨a + e, f, v⟩ :: q :: post) hid' ∧
    ChangesOnly (ownBytes c h (pre ++ p :: q :: post)) m (updatePreceding c (setPreceding c
      (setSize c (setSize c m a e) (a + e) f) (a + e) (c.tag e v)) (a + s + t) f) := by
  have hlay := c.layout
  obtain ⟨⟨hmeets, -, hprec⟩, -, hqaddr, hqsize, hqprec⟩ :=
    isChain_follows_two.mp (hinv.window [⟨a, s, u⟩, ⟨a + s, t, v⟩])
  have hlow := (hinv.tiling.bounds (a := a) (s := s) (u := u) (by simp)).1
  have hhigh := (hinv.tiling.bounds (a := a + s) (s := t) (u := v) (by simp)).2
  have hregion := hinv.region.size_lt
  have hege := he.1
  have hfge := hf.1
  have hetag := tag_lt_two_mul (c := c) (s := e) (u := v) (by omega)
  have hftag := tag_lt_two_mul (c := c) (s := f) (u := q.used) (by omega)
  rw [hqaddr] at hqsize hqprec
  rw [updatePreceding_eq (s := t) (u := q.used) (by
    simp (disch := omega) only [nodePreceding_setSize, nodePreceding_setPreceding_of_ne, hqprec])
    (by omega) (by omega)]
  refine ⟨nodeSize_setSize (by omega), ?_, nodeSize_setSize (by omega), ?_, ?_⟩
  · simp (disch := omega) only [nodeSize_setSize, nodeSize_setSize_of_ne]
  · simp (disch := omega) only [nodeSize_setSize, nodeSize_setPreceding]
  refine hinv.rewrite [⟨a, s, u⟩, ⟨a + s, t, v⟩] _ [⟨a, e, u⟩, ⟨a + e, f, v⟩] hid' ?_ ?_ ?_ hhid hhid'
  · refine setPreceding_changesOnly (setPreceding_changesOnly (setSize_changesOnly
      (setSize_changesOnly (.refl _ _) ?_ ?_) ?_ ?_) ?_ ?_) ?_ ?_ <;> omega
  · rw [isChain_follows_two, hqaddr]
    simp (disch := omega) only [nodeSize_setSize, nodeSize_setSize_of_ne, nodeSize_setPreceding,
      nodePreceding_setPreceding, nodePreceding_setPreceding_of_ne, nodePreceding_setSize, hprec,
      hqsize, and_true, true_and]
    omega
  · simp only [mem_cons, not_mem_nil, or_false, forall_eq_or_imp, forall_eq]
    exact ⟨he, hf⟩

theorem memcpy_payload {src k : Nat} (hinv : HeapInv c h m cs hid) (hmem : ⟨a, s, true⟩ ∈ cs)
    (hk : c.sizeofMmAllocnode + k ≤ s) :
    HeapInv c h (memcpy m (a + c.sizeofMmAllocnode) src k) cs hid := by
  refine hinv.write (ChangesOnly.memcpy (fun x hx => hx) (.refl _ _)) fun x hx hown => ?_
  rw [mem_span] at hx
  refine hown.2 _ hmem rfl (Chunk.mem_payload.mpr ?_)
  simp only
  omega

variable (hd : d ≤ t) (hunit : 2 * c.sizeofMmAllocnode ∣ d) (hrest : t - d = 0 ∨ c.sizeofMmFreenode ≤ t - d)
include hd hunit hrest

theorem reallocTakenext_spec
    (hinv : HeapInv c h m (pre ++ p :: ⟨a, s, true⟩ :: ⟨b, t, false⟩ :: q :: post) [])
    (hok : ChunkSize c s) :
    ∃ m', reallocTakenext c h m a b t s d = .ok m' ∧
      HeapInv c h m' (pre ++ p :: ⟨a, s + d, true⟩ :: (remnant (b + d) (t - d) ++ q :: post)) [] ∧
      ChangesOnly (ownBytes c h (pre ++ p :: q :: post)) m m' := by
  have hbmem : (⟨b, t, false⟩ : Chunk) ∈
      pre ++ p :: ⟨a, s, true⟩ :: ⟨b, t, false⟩ :: q :: post := by simp
  obtain ⟨hblink, hinv1, hchg1⟩ := hinv.unlink hbmem (by simp)
  obtain ⟨⟨hmeets, hsize, hprec⟩, ⟨rfl, hbsize, -⟩, hqaddr, hqsize, hqprec⟩ :=
    isChain_follows_two.mp (hinv1.window [⟨a, s, true⟩, ⟨b, t, false⟩])
  have hlow := (hinv.tiling.bounds (a := a) (s := s) (u := true) (by simp)).1
  have hhigh := (hinv.tiling.bounds hbmem).2
  have hregion := hinv.region.size_lt
  obtain ⟨hsge, hsdvd⟩ := hok
  obtain ⟨htge, htdvd⟩ := hinv.tiling.ok_of_free hbmem
  rw [hqaddr] at hqsize hqprec
  have hnew : nodeSize c (setSize c (unlinkNode c m (a + s)) a (s + d)) a = s + d :=
    nodeSize_setSize (by omega)
  unfold remnant
  by_cases hzero : t - d = 0
  · rw [if_pos hzero]
    obtain rfl : d = t := by omega
    obtain ⟨hinv2, -, hchg2⟩ := hinv1.merge ⟨hsge, hsdvd⟩ [] (by simp) (by simp)
    refine ⟨_, ?_, hinv2, (hchg1.mono (ownBytes_around [_, _])).trans hchg2⟩
    simp [reallocTakenext, hblink, hnew]
  rw [if_neg hzero]
  have hge := hrest.resolve_left hzero
  obtain ⟨-, hold, hnext, hnext', hinv2, hchg2⟩ := hinv1.divide
    [⟨a + (s + d), t - d, false⟩] (show s + d + (t - d) = s + t by omega)
    ⟨by omega, Nat.dvd_add hsdvd hunit⟩ ⟨hge, Nat.dvd_sub htdvd hunit⟩ (by simp; grind) (by simp; grind)
  rw [HeapConfig.tag_false] at hnext' hinv2 hchg2
  obtain ⟨m3, hadd, hinv3, hchg3⟩ := hinv2.list_chunk (by simp) (by simp)
  refine ⟨m3, ?_, ?_, ?_⟩
  · simp [reallocTakenext, hblink, hnew, hnext, hnext', hold, show d < t by omega, hge, hadd]
  · rw [show a + s + d = a + (s + d) by omega]
    exact hinv3
  · exact ((hchg1.mono (ownBytes_around [_, _])).trans hchg2).trans
      (hchg3.mono (ownBytes_around [_, _]))

theorem reallocTakeprev_spec
    (hinv : HeapInv c h m (pre ++ p :: ⟨b, t, false⟩ :: ⟨a, s, true⟩ :: q :: post) [])
    (hok : ChunkSize c s) :
    ∃ m', reallocTakeprev c h m b a q.addr t s d = .ok (m', a - d) ∧
      HeapInv c h m' (pre ++ p :: (remnant b (t - d) ++ ⟨a - d, s + d, true⟩ :: q :: post)) [] ∧
      ChangesOnly (ownBytes c h (pre ++ p :: q :: post)) m m' := by
  have hlay := c.layout
  have hbmem : (⟨b, t, false⟩ : Chunk) ∈
      pre ++ p :: ⟨b, t, false⟩ :: ⟨a, s, true⟩ :: q :: post := by simp
  obtain ⟨hblink, hinv1, hchg1⟩ := hinv.unlink hbmem (by simp)
  obtain ⟨⟨hmeets, hbsize, hprec⟩, ⟨rfl, hsize, -⟩, hqaddr, hqsize, hqprec⟩ :=
    isChain_follows_two.mp (hinv1.window [⟨b, t, false⟩, ⟨a, s, true⟩])
  have hlow := (hinv.tiling.bounds hbmem).1
  have hhigh := (hinv.tiling.bounds (a := b + t) (s := s) (u := true) (by simp)).2
  have hregion := hinv.region.size_lt
  obtain ⟨hsge, hsdvd⟩ := hok
  obtain ⟨htge, htdvd⟩ := hinv.tiling.ok_of_free hbmem
  rw [hqaddr] at hqsize hqprec ⊢
  have htag := tag_lt_two_mul (c := c) (s := s + d) (u := q.used) (by omega)
  unfold remnant
  by_cases hzero : t - d = 0
  · rw [if_pos hzero]
    obtain rfl : d = t := by omega
    rw [Nat.add_sub_cancel, Nat.add_comm s d] at *
    have hps := hinv.size_lt (a := p.addr) (s := p.size) (u := p.used) (by simp)
    have hptag := tag_lt_two_mul (c := c) (s := p.size) (u := true) hps
    have hprec2 : nodePreceding c (setSize c (unlinkNode c m b) b (d + s)) b ||| c.mmAllocBit
        = c.tag p.size true := by
      rw [nodePreceding_setSize (.inl rfl), hprec, HeapConfig.tag_or_mmAllocBit hps]
    have hsize3 : nodeSize c (setPreceding c (setSize c (unlinkNode c m b) b (d + s)) b
        (c.tag p.size true)) b = d + s := by
      simp (disch := omega) only [nodeSize_setSize, nodeSize_setPreceding]
    have hupdate := @updatePreceding_eq c (setPreceding c (setSize c (unlinkNode c m b) b (d + s)) b
      (c.tag p.size true)) (b + d + s) s (d + s) q.used (by simp (disch := omega) only
        [nodePreceding_setSize, nodePreceding_setPreceding_of_ne, hqprec]) (by omega) (by omega)
    obtain ⟨hinv2, hchg2⟩ := hinv1.rewrite [⟨b, d, false⟩, ⟨b + d, s, true⟩]
      (setPreceding c (setPreceding c (setSize c (unlinkNode c m b) b (d + s)) b (c.tag p.size true))
        (b + d + s) (c.tag (d + s) q.used)) [⟨b, d + s, true⟩] [] (by
        refine setPreceding_changesOnly (setPreceding_changesOnly (setSize_changesOnly (.refl _ _)
          ?_ ?_) ?_ ?_) ?_ ?_ <;> omega) (by
        rw [isChain_follows_one, hqaddr]
        simp (disch := omega) only [nodeSize_setSize, nodeSize_setSize_of_ne, nodeSize_setPreceding,
          nodePreceding_setPreceding, nodePreceding_setPreceding_of_ne, hqsize, and_true]
        omega) (by
        simp only [mem_singleton, forall_eq]
        exact ⟨by omega, Nat.dvd_add htdvd hsdvd⟩) (by simp; grind) (by simp)
    have hinv3 := @memcpy_payload _ _ _ _ _ b (d + s) (b + d + c.sizeofMmAllocnode)
      (s - c.sizeofMmAllocnode) hinv2 (by simp) (by omega)
    refine ⟨_, ?_, hinv3, ?_⟩
    · simp [reallocTakeprev, hblink, hbsize, hprec2, hsize3, hupdate]
    refine ((hchg1.mono (ownBytes_around [_, _])).trans
      hchg2).memcpy fun x hx => hinv.segBytes_subset [_, _] ?_
    rw [mem_span] at hx
    rw [mem_segBytes]
    omega
  · rw [if_neg hzero]
    have hge := hrest.resolve_left hzero
    obtain ⟨e, rfl⟩ : ∃ e, t = e + d := ⟨t - d, by omega⟩
    rw [Nat.add_sub_cancel] at hge
    rw [Nat.add_sub_cancel, show b + (e + d) - d = b + e by omega]
    have hor : e ||| c.mmAllocBit = c.tag e true := HeapConfig.or_mmAllocBit (by omega)
    obtain ⟨hsize2, hsize3, -, hsize4, hinv2, hchg2⟩ := hinv1.divide [⟨b, e, false⟩]
      (show e + (s + d) = e + d + s by omega) ⟨hge, (Nat.dvd_add_left hunit).mp htdvd⟩
      ⟨by omega, Nat.dvd_add hsdvd hunit⟩ (by simp; grind) (by simp; grind)
    obtain ⟨m3, hadd, hinv3, hchg3⟩ := hinv2.list_chunk (by simp) (by simp)
    have hinv4 := @memcpy_payload _ _ _ _ _ (b + e) (s + d)
      (b + (e + d) + c.sizeofMmAllocnode) (s - c.sizeofMmAllocnode) hinv3 (by simp) (by omega)
    refine ⟨_, ?_, hinv4, ?_⟩
    · simp [reallocTakeprev, hblink, hbsize, hsize2, hsize3, hge, hor, hsize4, hadd,
        show d < e + d by omega, show b + (e + d) - d = b + e by omega]
    refine (((hchg1.mono (ownBytes_around [_, _])).trans hchg2).trans
      (hchg3.mono (ownBytes_around [_, _]))).memcpy fun x hx => hinv.segBytes_subset [_, _] ?_
    rw [mem_span] at hx
    rw [mem_segBytes]
    omega

theorem takenext (hinv : HeapInv c h m (pre ++ ⟨a, s, true⟩ :: ⟨b, t, false⟩ :: post) [])
    (hlo : a ≠ h.mmHeapstart) (hhi : a ≠ h.mmHeapend) :
    b = a + s ∧ ∃ m', reallocTakenext c h m a b t s d = .ok m' ∧
      HeapInv c h m' (pre ++ ⟨a, s + d, true⟩ :: (remnant (a + s + d) (t - d) ++ post)) [] ∧
      ChangesOnly (ownBytes c h (others a (pre ++ ⟨a, s, true⟩ :: ⟨b, t, false⟩ :: post))) m m' := by
  have hok := hinv.tiling.ok_of_addr_ne (a := a) (s := s) (u := true) (by simp) hlo hhi
  obtain ⟨pre, p, rfl⟩ := hinv.tiling.exists_prev (Tiling.ne_guard_of_addr_ne hlo)
  have hnext : Tiling c h.mmHeapstart h.mmHeapend
      ((pre ++ [p] ++ [⟨a, s, true⟩]) ++ ⟨b, t, false⟩ :: post) := by simpa using hinv.tiling
  obtain ⟨q, post, rfl⟩ := hnext.exists_next (Tiling.ne_guard_of_free rfl _)
  simp only [append_assoc, singleton_append] at hinv ⊢
  obtain ⟨m', htake, hinv', hchg⟩ := hinv.reallocTakenext_spec hd hunit hrest hok
  have hmeets : b = a + s := (isChain_follows_two.mp (hinv.window [⟨a, s, true⟩, ⟨b, t, false⟩])).2.1.1
  subst hmeets
  refine ⟨rfl, m', htake, hinv', hchg.mono (ownBytes_sides [_, _] ?_)⟩
  simp

theorem takeprev (hinv : HeapInv c h m (pre ++ ⟨b, t, false⟩ :: ⟨a, s, true⟩ :: post) [])
    (hlo : a ≠ h.mmHeapstart) (hhi : a ≠ h.mmHeapend) :
    ∃ m', reallocTakeprev c h m b a (a + s) t s d = .ok (m', a - d) ∧
      HeapInv c h m' (pre ++ (remnant b (t - d) ++ ⟨a - d, s + d, true⟩ :: post)) [] ∧
      ChangesOnly (ownBytes c h (others a (pre ++ ⟨b, t, false⟩ :: ⟨a, s, true⟩ :: post))) m m' := by
  have hok := hinv.tiling.ok_of_addr_ne (a := a) (s := s) (u := true) (by simp) hlo hhi
  obtain ⟨pre, p, rfl⟩ := hinv.tiling.exists_prev (Tiling.ne_guard_of_free rfl _)
  have hnext : Tiling c h.mmHeapstart h.mmHeapend
      ((pre ++ [p] ++ [⟨b, t, false⟩]) ++ ⟨a, s, true⟩ :: post) := by simpa using hinv.tiling
  obtain ⟨q, post, rfl⟩ := hnext.exists_next (Tiling.ne_guard_of_addr_ne hhi)
  simp only [append_assoc, singleton_append] at hinv ⊢
  obtain ⟨m', htake, hinv', hchg⟩ := hinv.reallocTakeprev_spec hd hunit hrest hok
  have hq : q.addr = a + s := (isChain_follows_two.mp (hinv.window [⟨b, t, false⟩, ⟨a, s, true⟩])).2.2.1
  rw [hq] at htake
  refine ⟨m', htake, hinv', hchg.mono (ownBytes_sides [_, _] ?_)⟩
  simp

end HeapInv

end Nuttx.Mm

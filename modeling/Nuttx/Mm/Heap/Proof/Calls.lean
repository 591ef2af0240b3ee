import Nuttx.Mm.Heap.Proof.Ownership

/-!
# The calls of the heap

The functions callers use, run without interference: `mm_free`, `mm_malloc`, `mm_realloc`,
`mm_memalign` and `mm_extend`.
-/

open List

namespace Nuttx.Mm

open ByteMemory

variable {c : HeapConfig} {h : Heap} {m m' : Mem} {cs cs' own own' ds ks : List Chunk} {k : Chunk}
  {size : Nat} {mem : Nat}

def ptr (c : HeapConfig) (x : Option Chunk) : Nat := x.elim 0 (Chunk.mem c)

theorem alignsize_spec (hsize : SizeOk c size) :
    c.add size c.sizeofMmAllocnode = size + c.sizeofMmAllocnode ∧
      size + c.sizeofMmAllocnode ≤ c.mmAlignUp (size + c.sizeofMmAllocnode) ∧
      c.mmMinChunk ≤ c.mmAlignUp (size + c.sizeofMmAllocnode) ∧
      c.mmMinChunk ∣ c.mmAlignUp (size + c.sizeofMmAllocnode) ∧
      c.mmAlignUp (size + c.sizeofMmAllocnode) < c.sizeMod := by
  have hlay := c.layout
  unfold SizeOk at hsize
  obtain ⟨hle, hge, hdvd⟩ := c.mmAlignUp_spec hsize
  exact ⟨c.add_eq (by omega), hle, Nat.le_of_dvd (by omega) hdvd, hdvd, by omega⟩

theorem mmFree_of_not_delays {ctx : CallContext} (hmem : mem ≠ 0)
    (hctx : ctx.delays = false) : mmFree c h mem ctx = mmFreeLocked c h mem := by
  rw [← Bool.not_eq_true] at hctx
  simp only [CallContext.delays, Bool.or_eq_true, Bool.and_eq_true, bne_iff_ne, beq_iff_eq] at hctx
  unfold mmFree
  split_ifs <;> first | rfl | tauto

theorem mmFree_task (hmem : mem ≠ 0) :
    mmFree c h mem CallContext.task = mmFreeLocked c h mem := mmFree_of_not_delays hmem rfl

theorem mmMalloc_eq {h1 h2 : Heap} {r : Nat} (hsize : SizeOk c size) (hpos : 0 < size)
    (hdelay : mmFreeDelaylist c h = .ok h1)
    (hlocked : mmMallocLocked c h1 (c.mmAlignUp (size + c.sizeofMmAllocnode)) = .ok (r, h2)) :
    mmMalloc c h size = .ok (r, if c.fillAllocations ∧ r ≠ 0 then { h2 with
      mem := memset h2.mem r 0xaa (c.mmAlignUp (size + c.sizeofMmAllocnode) - c.sizeofMmAllocnode) }
      else h2) := by
  have hlay := c.layout
  obtain ⟨hadd, hle, hge, -, hlt⟩ := alignsize_spec hsize
  generalize hn : c.mmAlignUp (size + c.sizeofMmAllocnode) = n at *
  have hassert1 : decide (n ≥ size) = true := decide_eq_true (by omega)
  have hassert2 : decide (n ≥ c.mmMinChunk) = true := decide_eq_true (by omega)
  have hassert3 : decide (n ≥ c.sizeofMmFreenode) = true := decide_eq_true (by omega)
  have hsub : c.sub n c.sizeofMmAllocnode = n - c.sizeofMmAllocnode := c.sub_eq (by omega) hlt
  simp only [mmMalloc, hdelay, hadd, hn, hassert1, hassert2, hassert3, hlocked, debugassert_true, hsub,
    if_neg (show ¬ size < 1 by omega), Result.ok_bind, Result.pure_eq_ok]
  split <;> rfl

theorem ExtendOk.asserts (hext : ExtendOk c h mem size) :
    decide (size ≥ 2 * c.sizeofMmAllocnode) = true ∧ c.mmAlignUp mem = mem ∧
      c.mmAlignDown (c.add mem size) = c.add mem size := by
  have hlay := c.layout
  have hmin' := Nat.le_of_dvd hext.size_pos hext.size_dvd
  have hend := hext.end_lt
  have hmask : c.mmGranMask = c.mmMinChunk - 1 := rfl
  refine ⟨decide_eq_true (by omega), c.mmAlignUp_of_dvd (by omega) hext.mem_dvd, ?_⟩
  rw [c.add_eq hend, c.mmAlignDown_eq hend]
  exact Nat.div_mul_cancel (Nat.dvd_add hext.mem_dvd hext.size_dvd)

namespace HeapOk

theorem mem_ne_zero (hok : HeapOk c h cs own ds) (hk : k ∈ own ++ ds) : k.mem c ≠ 0 := by
  have hbounds := hok.mem_bounds hk
  omega

theorem mallocUsableSize_eq (hok : HeapOk c h cs own ds) (hk : k ∈ own ++ ds) :
    mallocUsableSize c h (k.mem c) = k.size - c.sizeofMmAllocnode := by
  have hmem := (hok.mem_cs hk).1
  have hge := hok.rep.tiling.size_ge hmem
  have hlt := hok.rep.size_lt hmem
  have hpow := c.powers
  rw [mallocUsableSize, if_neg (hok.mem_ne_zero hk), Chunk.mem, Nat.add_sub_cancel,
    hok.rep.nodeSize_eq hmem, c.sub_eq hge (by omega)]

theorem mmFree (hok : HeapOk c h cs own ds) (hk : k ∈ own) (ctx : CallContext) :
    ∃ m' dl cs' ds', mmFree c h (k.mem c) ctx = .ok { h with mem := m', mmDelaylist := dl } ∧
      HeapOk c { h with mem := m', mmDelaylist := dl } cs' (others k.addr own) ds' ∧
      (Coalesced cs → Coalesced cs') ∧ Keeps c (others k.addr own) h.mem m' ∧
      (ctx.delays = false → dl = h.mmDelaylist) := by
  have hne := hok.mem_ne_zero (mem_append_left ds hk)
  obtain ⟨hok1, hkeep1⟩ := hok.mmAddDelaylist hk
  obtain ⟨m2, cs2, heval2, hok2, hstep, hkeep2⟩ := hok.mmFreeLocked hk
  cases hdelay : ctx.delays with
  | true =>
    refine ⟨_, _, cs, _, ?_, hok1, id, hkeep1, by simp⟩
    simp only [CallContext.delays, Bool.or_eq_true, Bool.and_eq_true, bne_iff_ne, beq_iff_eq] at hdelay
    unfold Mm.mmFree
    split_ifs <;> first | rfl | omega | tauto
  | false =>
    refine ⟨m2, h.mmDelaylist, cs2, ds, ?_, hok2, hstep.coalesced, hkeep2, fun _ => rfl⟩
    exact (mmFree_of_not_delays hne hdelay).trans heval2

theorem freeDelaylistLoop {fuel tmp : Nat} (hok : HeapOk c h cs (ks ++ own) [])
    (hchain : DelayChain c h.mem tmp ks) (hfuel : ks.length < fuel) :
    ∃ m' cs', freeDelaylistLoop c fuel h tmp = .ok { h with mem := m' } ∧
      HeapOk c { h with mem := m' } cs' own [] ∧ (Coalesced cs → Coalesced cs') ∧
      Keeps c own h.mem m' := by
  induction ks generalizing fuel tmp h cs with
  | nil =>
    obtain ⟨fuel, rfl⟩ := Nat.exists_eq_add_of_lt hfuel
    rw [DelayChain] at hchain
    subst hchain
    exact ⟨h.mem, cs, by simp [Mm.freeDelaylistLoop], hok, id, .refl _ _ _⟩
  | cons k ks ih =>
    obtain ⟨fuel, rfl⟩ : ∃ n, fuel = n + 1 := ⟨fuel - 1, by omega⟩
    obtain ⟨rfl, hrest⟩ := hchain
    have hk : k ∈ k :: ks ++ own := by simp
    have hne := hok.mem_ne_zero (mem_append_left [] hk)
    obtain ⟨m1, cs1, heval1, hok1, hstep, hkeep1⟩ := hok.mmFreeLocked hk
    have hperm : (others k.addr (k :: ks ++ own)).Perm (ks ++ own) :=
      (hok.perm_others hk).cons_inv.symm
    have hkeep : Keeps c (ks ++ own) h.mem m1 := hkeep1.subset hperm.symm.subset
    obtain ⟨m', cs', heval', hok', hco', hkeep'⟩ := ih (hok1.perm hperm)
      (hrest.congr (fun j hj => (hok.size_ok (by simp [hj])).1)
        (hkeep.subset (subset_append_left _ _))) (show ks.length < fuel by simpa using hfuel)
    refine ⟨m', cs', ?_, hok', hco' ∘ hstep.coalesced,
      (hkeep.subset (subset_append_right _ _)).trans hkeep'⟩
    simp only [Mm.freeDelaylistLoop, if_neg hne, mmFree_task hne, heval1]
    exact heval'

theorem take_delaylist (hok : HeapOk c h cs own ds) :
    HeapOk c { h with mmDelaylist := 0 } cs (ds ++ own) [] := by
  have hperm : (own ++ ds).Perm (ds ++ own ++ []) := by
    rw [append_nil]
    exact perm_append_comm
  exact ⟨hok.rep.with_mem _ _, rfl, hperm.nodup_iff.mp hok.nodup,
    fun j => hperm.symm.mem_iff.trans (hok.owned j)⟩

theorem mmFreeDelaylist (hok : HeapOk c h cs own ds) :
    ∃ m' cs', mmFreeDelaylist c h = .ok { h with mem := m', mmDelaylist := 0 } ∧
      HeapOk c { h with mem := m', mmDelaylist := 0 } cs' own [] ∧ (Coalesced cs → Coalesced cs') ∧
      Keeps c own h.mem m' := by
  have hfuel : ds.length < c.sizeMod := by
    have hend := hok.rep.region.end_lt
    have hdup : (ds.map (Chunk.mem c)).Nodup := by
      refine (nodup_append.mp hok.nodup).2.1.map_on fun x hx y hy heq => ?_
      exact hok.eq_of_addr_eq (mem_append_right _ hx) (mem_append_right _ hy)
        (Nat.add_right_cancel heq)
    have hsub : ds.map (Chunk.mem c) ⊆ List.range h.mmHeapend := by
      intro x hx
      obtain ⟨d, hd, rfl⟩ := mem_map.mp hx
      exact mem_range.mpr (hok.mem_bounds (mem_append_right _ hd)).2
    have hlen := (subperm_of_subset hdup hsub).length_le
    rw [length_map, length_range] at hlen
    omega
  exact hok.take_delaylist.freeDelaylistLoop hok.delay hfuel

theorem mmMalloc (hok : HeapOk c h cs own ds) (hsize : SizeOk c size) :
    ∃ x m' cs', mmMalloc c h size = .ok (ptr c x, { h with mem := m', mmDelaylist := 0 }) ∧
      HeapOk c { h with mem := m', mmDelaylist := 0 } cs' (x.toList ++ own) [] ∧
      (∀ k ∈ x, 0 < size ∧ c.mmAlignUp (size + c.sizeofMmAllocnode) ≤ k.size) ∧
      (Coalesced cs → Coalesced cs' ∧ ∀ k ∈ x, PrevUsed k.addr cs') ∧ Keeps c own h.mem m' := by
  obtain ⟨ha, hf, hmm, hp, hmin⟩ := c.layout
  obtain ⟨hadd, hle, hge, hdvd, hlt⟩ := alignsize_spec hsize
  obtain ⟨m1, cs1, heval1, hok1, hco1, hkeep1⟩ := hok.mmFreeDelaylist
  by_cases hzero : size < 1
  · refine ⟨none, m1, cs1, ?_, hok1, by simp, fun hco => ⟨hco1 hco, by simp⟩, hkeep1⟩
    simp [Mm.mmMalloc, heval1, hzero, ptr]
  have heval := fun {r h2} => @mmMalloc_eq c h size _ h2 r hsize (by omega) heval1
  generalize c.mmAlignUp (size + c.sizeofMmAllocnode) = n at *
  rcases hok1.mmMallocLocked (hmin.trans hge) (c.unit_dvd_mmMinChunk.trans hdvd)
    with ⟨heval2, -⟩ | ⟨k, cs2, m2, heval2, hok2, hk, hstep, hkeep2⟩
  · refine ⟨none, m1, cs1, ?_, hok1, by simp, fun hco => ⟨hco1 hco, by simp⟩, hkeep1⟩
    simpa [ptr] using heval heval2
  have hco : Coalesced cs → Coalesced cs2 ∧ ∀ j ∈ some k, PrevUsed j.addr cs2 := by
    intro hco
    refine ⟨hstep.coalesced (hco1 hco), ?_⟩
    rintro j ⟨⟩
    exact hstep.prevUsed hok2.rep.tiling (hco1 hco)
  have hk' : ∀ j ∈ some k, 0 < size ∧ n ≤ j.size := by
    rintro j ⟨⟩
    exact ⟨by omega, hk⟩
  have hmem : k ∈ k :: own := mem_cons_self
  have hne := hok2.mem_ne_zero (mem_append_left [] hmem)
  by_cases hfill : c.fillAllocations = true
  · have hchg : ChangesOnly (k.payload c) m2 (memset m2 (k.mem c) 0xaa (n - c.sizeofMmAllocnode)) := by
      refine (ChangesOnly.refl _ _).memset _ fun x hx => ?_
      rw [mem_span, Chunk.mem] at hx
      rw [Chunk.mem_payload]
      omega
    obtain ⟨hok3, hkeep3⟩ := hok2.write hmem hchg
    have hperm := (hok2.perm_others hmem).cons_inv
    refine ⟨some k, _, cs2, ?_, hok3, hk', hco,
      (hkeep1.trans hkeep2).trans (hkeep3.subset hperm.subset)⟩
    simpa [ptr, hfill, hne] using heval heval2
  · refine ⟨some k, m2, cs2, ?_, hok2, hk', hco, hkeep1.trans hkeep2⟩
    simpa [ptr, hfill] using heval heval2

theorem copy_free {k' : Chunk} (hok : HeapOk c h cs (k' :: own) ds) (hk : k ∈ own)
    (hroom : k.size + c.sizeofMmAllocnode ≤ k'.size) :
    ∃ m' cs', Mm.mmFreeLocked c { h with mem := memcpy h.mem (k'.mem c) (k.mem c) k.size } (k.mem c)
          = .ok { h with mem := m' } ∧
      HeapOk c { h with mem := m' } cs' (k' :: others k.addr own) ds ∧
      (Coalesced cs → Coalesced cs') ∧ Keeps c (others k.addr own) h.mem m' := by
  have hk'own : k' ∈ k' :: own := mem_cons_self
  have hkown : k ∈ k' :: own := mem_cons_of_mem _ hk
  have hchg : ChangesOnly (k'.payload c) h.mem (memcpy h.mem (k'.mem c) (k.mem c) k.size) := by
    refine (ChangesOnly.refl _ _).memcpy fun x hx => ?_
    rw [mem_span, Chunk.mem] at hx
    rw [Chunk.mem_payload]
    omega
  obtain ⟨hok1, hkeep1⟩ := hok.write hk'own hchg
  obtain ⟨m', cs', heval, hok', hstep, hkeep'⟩ := hok1.mmFreeLocked hkown
  have haddr : k'.addr ≠ k.addr := by
    intro heq
    have hkk := hok.eq_of_addr_eq (mem_append_left ds hk'own) (mem_append_left ds hkown) heq
    have hdup := hok.nodup
    rw [hkk] at hdup
    exact (nodup_cons.mp hdup).1 (mem_append_left ds hk)
  rw [others_cons_of_ne haddr] at hok' hkeep'
  have hsub : others k.addr own ⊆ others k'.addr (k' :: own) := fun j hj =>
    (hok.perm_others hk'own).cons_inv.subset (others_subset _ _ hj)
  exact ⟨m', cs', heval, hok', hstep.coalesced,
    (hkeep1.subset hsub).trans (hkeep'.subset (subset_cons_self _ _))⟩

theorem mmRealloc (hok : HeapOk c h cs own ds) (hk : k ∈ own) (hpos : 0 < size)
    (hsize : SizeOk c size)
    (hclean : GrowsCleanly c (c.mmAlignUp (size + c.sizeofMmAllocnode)) k.addr cs) :
    ∃ x m' dl cs' ds', mmRealloc c h (k.mem c) size
          = .ok (ptr c x, { h with mem := m', mmDelaylist := dl }) ∧
      HeapOk c { h with mem := m', mmDelaylist := dl } cs'
        (x.elim own (· :: others k.addr own)) ds' ∧
      (∀ k' ∈ x, c.mmAlignUp (size + c.sizeofMmAllocnode) ≤ k'.size) ∧
      (Coalesced cs → Coalesced cs') ∧ Keeps c (others k.addr own) h.mem m' ∧
      (h.mmDelaylist = 0 → dl = 0) := by
  obtain ⟨ha, hf, hmm, hp, hmin⟩ := c.layout
  obtain ⟨hadd, hle, hge, hdvd, hlt⟩ := alignsize_spec hsize
  have hne := hok.mem_ne_zero (mem_append_left ds hk)
  have hkmem := (hok.mem_cs (mem_append_left ds hk)).1
  have hksize : nodeSize c h.mem (k.mem c - c.sizeofMmAllocnode) = k.size := by
    rw [Chunk.mem, Nat.add_sub_cancel]
    exact hok.rep.nodeSize_eq hkmem
  have hmalloc := fun {h cs ds} (hok : HeapOk c h cs own ds) => hok.mmMalloc hsize
  generalize hn : c.mmAlignUp (size + c.sizeofMmAllocnode) = n at *
  rcases hok.mmReallocLocked hk (hmin.trans hge) hdvd hclean
    with ⟨heval1, hlarger⟩ | ⟨k', cs', m', heval1, hok', hk', hco, hkeep⟩
  · obtain ⟨x, m1, cs1, heval2, hok1, hx, hco1, hkeep1⟩ := hmalloc hok
    cases x with
    | none =>
      refine ⟨none, m1, 0, cs1, [], ?_, hok1, by simp, fun hco => (hco1 hco).1,
        hkeep1.subset (others_subset _ _), fun _ => rfl⟩
      simp [Mm.mmRealloc, hne, show size ≠ 0 by omega, hadd, hn, heval1, heval2, ptr]
    | some k' =>
      have hok1 : HeapOk c _ cs1 (k' :: own) [] := hok1
      -- the old chunk is smaller by a unit at least
      have hroom : k.size + c.sizeofMmAllocnode ≤ k'.size := by
        have hunit := Nat.dvd_sub (c.unit_dvd_mmMinChunk.trans hdvd)
          (hok.size_ok (mem_append_left ds hk)).2
        have hdiff := Nat.le_of_dvd (by omega) hunit
        have hn' := (hx k' rfl).2
        omega
      have hne' := hok1.mem_ne_zero (mem_append_left [] mem_cons_self)
      obtain ⟨m3, cs3, heval3, hok3, hco3, hkeep3⟩ := hok1.copy_free hk hroom
      refine ⟨some k', m3, 0, cs3, [], ?_, hok3, ?_, fun hco => hco3 (hco1 hco).1,
        (hkeep1.subset (others_subset _ _)).trans hkeep3, fun _ => rfl⟩
      · have hfree : Mm.mmFree c { h with
            mem := memcpy m1 (k'.mem c) (k.mem c) k.size, mmDelaylist := 0 } (k.mem c)
            CallContext.task = .ok { h with mem := m3, mmDelaylist := 0 } :=
          (mmFree_task hne).trans heval3
        simp [Mm.mmRealloc, hne, show size ≠ 0 by omega, hadd, hn, heval1, heval2, ptr, hne',
          hksize, hfree]
      · rintro j ⟨⟩
        exact (hx k' rfl).2
  · refine ⟨some k', m', h.mmDelaylist, cs', ds, ?_, hok', ?_, hco, hkeep, id⟩
    · simp [Mm.mmRealloc, hne, show size ≠ 0 by omega, hadd, hn, heval1, ptr]
    · rintro j ⟨⟩
      exact hk'

theorem mmMemalign {e : Nat} (hok : HeapOk c h cs own ds) (he : c.mmMinChunk < 2 ^ e)
    (hup : size + c.mmGranMask < c.sizeMod)
    (hsize : SizeOk c (c.mmAlignUp size + (2 ^ e + 2 ^ e))) :
    ∃ x m' cs', mmMemalign c h (2 ^ e) size
          = .ok (ptr c x, { h with mem := m', mmDelaylist := 0 }) ∧
      HeapOk c { h with mem := m', mmDelaylist := 0 } cs' (x.toList ++ own) [] ∧
      (∀ k ∈ x, size + c.sizeofMmAllocnode ≤ k.size ∧ 2 ^ e ∣ k.mem c) ∧
      (Coalesced cs → Coalesced cs') ∧ Keeps c own h.mem m' := by
  obtain ⟨hle, -, -⟩ := c.mmAlignUp_spec hup
  obtain ⟨-, hge, -, -, hlt⟩ := alignsize_spec hsize
  have hadd : c.add (c.mmAlignUp size) (c.add (2 ^ e) (2 ^ e)) = c.mmAlignUp size + (2 ^ e + 2 ^ e) := by
    rw [c.add_eq (a := 2 ^ e) (by omega), c.add_eq (by omega)]
  obtain ⟨x, m1, cs1, heval1, hok1, hx, hco1, hkeep1⟩ := hok.mmMalloc hsize
  cases x with
  | none =>
    refine ⟨none, m1, cs1, ?_, hok1, by simp, fun hco => (hco1 hco).1, hkeep1⟩
    simp [Mm.mmMemalign, show ¬ 2 ^ e ≤ c.mmMinChunk by omega, hadd, heval1, ptr]
  | some k =>
    have hok1 : HeapOk c _ cs1 (k :: own) [] := hok1
    have hk : k ∈ k :: own := mem_cons_self
    have hne := hok1.mem_ne_zero (mem_append_left [] hk)
    obtain ⟨k', cs', m', heval', hok', hs, hdvd, hco', hkeep'⟩ :=
      hok1.mmMemalignLocked hk he (hge.trans (hx k rfl).2)
    have hperm := (hok1.perm_others hk).cons_inv
    refine ⟨some k', m', cs', ?_, hok'.perm (hperm.symm.cons _), ?_,
      fun hco => hco' (hco1 hco).1 (.inr ((hco1 hco).2 k rfl)), hkeep1.trans (hkeep'.subset hperm.subset)⟩
    · simp [Mm.mmMemalign, show ¬ 2 ^ e ≤ c.mmMinChunk by omega, hadd, heval1, ptr, hne, heval']
    · rintro j ⟨⟩
      exact ⟨by omega, hdvd⟩

theorem mmExtend (hok : HeapOk c h cs own ds)
    (hext : ExtendOk c h (h.mmHeapend + c.sizeofMmAllocnode) size) :
    ∃ m' cs', mmExtend c h (h.mmHeapend + c.sizeofMmAllocnode) size
        = .ok { h with mem := m', mmHeapend := h.mmHeapend + size } ∧
      HeapOk c { h with mem := m', mmHeapend := h.mmHeapend + size } cs' own ds ∧
      (Coalesced cs → Coalesced cs') ∧ Keeps c own h.mem m' := by
  obtain ⟨m1, cs1, heval1, hok1, hstep1, hkeep1⟩ := hok.mmExtendLocked hext
  have hk : (⟨h.mmHeapend, size, true⟩ : Chunk) ∈ (⟨h.mmHeapend, size, true⟩ : Chunk) :: own :=
    mem_cons_self
  have hne := hok1.mem_ne_zero (mem_append_left ds hk)
  obtain ⟨m2, cs2, heval2, hok2, hstep2, hkeep2⟩ := hok1.mmFreeLocked hk
  have hperm := (hok1.perm_others hk).cons_inv
  refine ⟨m2, cs2, ?_, hok2.perm hperm.symm, fun hco => hstep2.coalesced (hstep1.coalesced hco),
    hkeep1.trans (hkeep2.subset hperm.subset)⟩
  obtain ⟨hassert, hup, hdown⟩ := hext.asserts
  have hfree : Mm.mmFree c { h with mem := m1, mmHeapend := h.mmHeapend + size }
      (h.mmHeapend + c.sizeofMmAllocnode) CallContext.task = _ := (mmFree_task hne).trans heval2
  simp only [Mm.mmExtend, hassert, hup, hdown, beq_self_eq_true, debugassert_true,
    heval1, hfree, Result.ok_bind]

end HeapOk

end Nuttx.Mm

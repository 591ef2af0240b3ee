import Nuttx.Mm.Heap.Proof.Invariant

/-!
# `mm_malloc`

The section of `mm_malloc` that holds the semaphore takes a smallest free chunk that is large
enough.
-/

namespace Nuttx.Mm

open ByteMemory

variable {c : HeapConfig} {h : Heap} {m : Mem} {pre post hid : List Chunk} {p q : Chunk}
  {a s n : Nat}

namespace HeapInv

variable (hinv : HeapInv c h m (pre ++ p :: ⟨a, s, false⟩ :: q :: post) [⟨a, s, false⟩])
include hinv

theorem mallocSplit_spec (hn : c.sizeofMmFreenode ≤ n) (hunit : 2 * c.sizeofMmAllocnode ∣ n)
    (hle : n ≤ s) :
    ∃ m', mallocSplit c h m a n = .ok m' ∧
      HeapInv c h m' (pre ++ p :: ⟨a, carved c s n, false⟩ :: (leftover c a s n ++ q :: post))
        [⟨a, carved c s n, false⟩] ∧
      ChangesOnly (ownBytes c h (pre ++ p :: q :: post)) m m' := by
  have hlay := c.layout
  have hmem : (⟨a, s, false⟩ : Chunk) ∈ pre ++ p :: ⟨a, s, false⟩ :: q :: post := by simp
  have hsize : nodeSize c m a = s := hinv.nodeSize_eq hmem
  have hs : s < c.mmAllocBit := hinv.size_lt hmem
  have hpow := c.powers
  have hrem : c.sub s n = s - n := c.sub_eq hle (by omega)
  rw [mallocSplit, hsize, hrem, carved, leftover]
  split
  · rename_i hsplit
    obtain ⟨⟨hmeets, -, hprec⟩, hqaddr, -, hqprec⟩ :=
      isChain_follows_one.mp (hinv.window [⟨a, s, false⟩])
    have hok := (hinv.tiling.ok_of_free hmem).2
    rw [hqaddr] at hqprec
    simp only
    rw [updatePreceding_eq (s := s) (u := q.used) (by
      simp (disch := omega) only [nodePreceding_setSize, nodePreceding_setPreceding_of_ne, hqprec])
      hs (by omega)]
    obtain ⟨hinv', hchg⟩ := hinv.split [⟨a, s, false⟩] [⟨a + n, s - n, false⟩, ⟨a, n, false⟩] hmeets
      hprec hqaddr (by omega) ⟨hn, hunit⟩ ⟨hsplit, Nat.dvd_sub hok hunit⟩ (by simp) (by simp)
    obtain ⟨m', hadd, hinv'', hchg'⟩ := hinv'.list_chunk (by simp) (by simp; omega)
    exact ⟨m', hadd, hinv'', hchg.trans (hchg'.mono (ownBytes_around [_, _]))⟩
  · exact ⟨m, rfl, hinv, .refl _ _⟩

end HeapInv

/-- **The locked section of `mm_malloc`.** Either no free chunk is large enough and nothing
changes, or a smallest one that is large enough gives the allocation. -/
theorem Rep.mmMallocLocked_spec {cs : List Chunk} (hrep : Rep c h cs)
    (hn : c.sizeofMmFreenode ≤ n) (hunit : 2 * c.sizeofMmAllocnode ∣ n) :
    (mmMallocLocked c h n = .ok (0, h) ∧ ∀ k ∈ cs, k.used = false → k.size < n) ∨
      ∃ a cs' m', mmMallocLocked c h n = .ok (a + c.sizeofMmAllocnode, { h with mem := m' }) ∧
        Rep c { h with mem := m' } cs' ∧ Allocated c n a cs cs' ∧
        ChangesOnly (ownBytes c h cs) h.mem m' := by
  have hlay := c.layout
  obtain ⟨ns, hlist, hlisted⟩ := hrep.list
  obtain ⟨prev, node, hseek, hnode⟩ := hlist.search (n := n) (by omega)
  have hndx : (if n ≥ c.mmMaxChunk then c.mmNnodes - 1 else c.mmSize2ndx n) = c.mmSize2ndx n := by
    split
    · rename_i hge
      exact (if_pos hge).symm
    · rfl
  rcases hnode with ⟨rfl, hsmall⟩ | ⟨s, hmem, hle, hbest⟩
  · refine .inl ⟨?_, ?_⟩
    · simp [mmMallocLocked, hndx, hseek]
    · rintro ⟨a, s, used⟩ hk rfl
      exact hsmall a s ((hlisted a s).mpr ⟨hk, by simp⟩)
  have hk := ((hlisted node s).mp hmem).1
  obtain ⟨pre, p, q, post, rfl⟩ := hrep.tiling.exists_around hk
    (Tiling.ne_guard_of_free rfl _) (Tiling.ne_guard_of_free rfl _)
  have hinside := hrep.tiling.inside hk (Tiling.ne_guard_of_free rfl _)
    (Tiling.ne_guard_of_free rfl _)
  obtain ⟨hblink, hinv1, hchg1⟩ := hrep.unlink hk (by simp)
  obtain ⟨m2, hsplit, hinv2, hchg2⟩ := hinv1.mallocSplit_spec hn hunit hle
  obtain ⟨q', post', hrest⟩ : ∃ q' post', leftover c node s n ++ q :: post = q' :: post' := by
    cases leftover c node s n with
    | nil => exact ⟨q, post, rfl⟩
    | cons x l => exact ⟨x, l ++ q :: post, rfl⟩
  have hsub : ∀ k ∈ pre ++ p :: q :: post, k ∈ pre ++ p :: q' :: post' := by
    rw [← hrest]
    exact fun k hk => mem_of_mem_sides _ hk
  rw [hrest] at hinv2
  obtain ⟨hinv3, hchg3⟩ := hinv2.mark true (hinv2.tiling.ok_of_free (a := node) (by simp)) [] (by simp)
    (by simp) fun hps hprec => (congrArg (· ||| c.mmAllocBit) hprec).trans (HeapConfig.tag_or_mmAllocBit hps)
  have hmember : mmHeapmember h (node + c.sizeofMmAllocnode) = true := by
    simp only [mmHeapmember, Bool.and_eq_true, decide_eq_true_eq]
    omega
  have hzero : node ≠ 0 := by
    omega
  have hbest' : ∀ k ∈ pre ++ p :: ⟨node, s, false⟩ :: q :: post, k.used = false →
      n ≤ k.size → s ≤ k.size := by
    rintro ⟨a, s', used⟩ hk' rfl hle'
    exact hbest a s' ((hlisted a s').mpr ⟨hk', by simp⟩) hle'
  refine .inr ⟨node, _, setPreceding c m2 node (nodePreceding c m2 node ||| c.mmAllocBit), ?_,
    hinv3.rep, ⟨pre ++ [p], s, q :: post, by simp, hle, hbest', ?_⟩, ?_⟩
  · simp [mmMallocLocked, hndx, hseek, hzero, hblink, hsplit, hmember]
  · rw [List.append_assoc, List.singleton_append, hrest]
  have hused : ∀ k ∈ pre ++ p :: ⟨node, s, false⟩ :: q :: post, k.used = true →
      k ∈ pre ++ p :: q :: post := by
    intro k hk hused
    have hne : k ≠ ⟨node, s, false⟩ := by
      rintro rfl
      cases hused
    simp only [List.mem_append, List.mem_cons] at hk ⊢
    tauto
  exact (hchg1.trans (hchg2.mono (ownBytes_anti hused))).trans
    (hchg3.mono (ownBytes_anti fun k hk hk' => hsub k (hused k hk hk')))

end Nuttx.Mm

import Nuttx.Mm.Heap.Proof.Invariant

/-!
# `mm_free`

A freed chunk is merged with the chunk after it and with the chunk before it, when these are free,
and the result goes on the free list.
-/

open List

namespace Nuttx.Mm

open ByteMemory

variable {c : HeapConfig} {h : Heap} {m : Mem} {pre post hid : List Chunk} {p q : Chunk}
  {a b s t : Nat}

namespace HeapInv

variable (hinv : HeapInv c h m (pre ++ p :: ⟨a, s, false⟩ :: q :: post) [⟨a, s, false⟩])
include hinv

theorem freeMergeNext_spec :
    ∃ m' t q' post', freeMergeNext c m a q.addr = .ok (m', q'.addr) ∧
      HeapInv c h m' (pre ++ p :: ⟨a, s + t, false⟩ :: q' :: post') [⟨a, s + t, false⟩] ∧
      (t = 0 ∧ q.used = true ∧ q' :: post' = q :: post ∨
        q.used = false ∧ q.size = t ∧ q' :: post' = post) ∧
      ChangesOnly (ownBytes c h (pre ++ p :: q' :: post')) m m' := by
  have hmem : q ∈ pre ++ p :: ⟨a, s, false⟩ :: q :: post := by simp
  have halloc := hinv.isAllocated_eq hmem
  have hsize := hinv.nodeSize_eq hmem
  rw [freeMergeNext, halloc]
  cases hq : q.used with
  | true => exact ⟨m, 0, q, post, rfl, hinv, .inl ⟨rfl, rfl, rfl⟩, .refl _ _⟩
  | false =>
    obtain ⟨b, t, used⟩ := q
    subst hq
    have hsplit : pre ++ p :: ⟨a, s, false⟩ :: ⟨b, t, false⟩ :: post
        = (pre ++ [p, ⟨a, s, false⟩]) ++ ⟨b, t, false⟩ :: post := by simp
    obtain ⟨q', post', rfl⟩ := (hsplit ▸ hinv.tiling).exists_next (Tiling.ne_guard_of_free rfl _)
    have hne : (⟨b, t, false⟩ : Chunk) ∉ [(⟨a, s, false⟩ : Chunk)] := by
      have hdup := hinv.tiling.nodup
      grind
    obtain ⟨hblink, hinv1, hchg1⟩ := hinv.unlink hmem hne
    obtain ⟨hinv2, hsize2, hchg2⟩ := hinv1.merge (hinv.tiling.ok_of_free (a := a) (s := s) (by simp)) [⟨a, s + t, false⟩] (by grind)
      (by simp)
    have hbaddr : q'.addr = b + t :=
      (isChain_follows_two.mp (hinv.window [⟨a, s, false⟩, ⟨b, t, false⟩])).2.2.1
    have hasize1 := hinv1.nodeSize_eq (a := a) (s := s) (u := false) (by simp)
    have hbsize1 := hinv1.nodeSize_eq hmem
    refine ⟨_, t, q', post', ?_, hinv2, .inr ⟨rfl, rfl, rfl⟩, ?_⟩
    · simp [hsize, hblink, hasize1, hbsize1, hsize2, hbaddr]
    · exact (hchg1.mono (ownBytes_around [_, _])).trans hchg2

theorem freeMergePrev_spec :
    ∃ m' b t pre', freeMergePrev c m a q.addr = .ok (m', b) ∧
      HeapInv c h m' (pre' ++ ⟨b, t + s, false⟩ :: q :: post) [⟨b, t + s, false⟩] ∧
      (t = 0 ∧ b = a ∧ p.used = true ∧ pre' = pre ++ [p] ∨ p = ⟨b, t, false⟩ ∧ pre' = pre) ∧
      ChangesOnly (ownBytes c h (pre' ++ q :: post)) m m' := by
  have hmem : p ∈ pre ++ p :: ⟨a, s, false⟩ :: q :: post := by simp
  have halloc := hinv.isAllocated_eq hmem
  have hsize := hinv.nodeSize_eq hmem
  have hlt := hinv.size_lt hmem
  obtain ⟨⟨hmeets, hasize, hprec⟩, hqaddr, -, -⟩ :=
    isChain_follows_one.mp (hinv.window [⟨a, s, false⟩])
  have hprev : a - nodePreceding c m a = p.addr := by
    rw [hprec, HeapConfig.tag_false]
    omega
  have hcheck : (c.clearAllocBit (nodePreceding c m a) == nodeSize c m p.addr) = true := by
    rw [hprec, HeapConfig.clearAllocBit_tag hlt, hsize]
    exact beq_self_eq_true _
  cases hp : p.used with
  | true =>
    refine ⟨m, a, 0, pre ++ [p], ?_, by simpa using hinv, .inl ⟨rfl, rfl, rfl, rfl⟩, .refl _ _⟩
    simp [freeMergePrev, hprev, hcheck, halloc, hp]
  | false =>
    obtain ⟨b, t, used⟩ := p
    subst hp
    obtain ⟨pre', p', rfl⟩ := hinv.tiling.exists_prev (Tiling.ne_guard_of_free rfl _)
    have hne : (⟨b, t, false⟩ : Chunk) ∉ [(⟨a, s, false⟩ : Chunk)] := by
      have hdup := hinv.tiling.nodup
      grind
    obtain ⟨hblink, hinv1, hchg1⟩ := hinv.unlink hmem hne
    rw [append_assoc, singleton_append] at hinv1 hchg1 hmem
    obtain ⟨hinv2, hsize2, hchg2⟩ := hinv1.merge (hinv.tiling.ok_of_free (a := b) (s := t) (by simp)) [⟨b, t + s, false⟩] (by grind)
      (by simp)
    have hasize1 := hinv1.nodeSize_eq (a := a) (s := s) (u := false) (by simp)
    have hbsize1 := hinv1.nodeSize_eq hmem
    refine ⟨_, b, t, pre' ++ [p'], ?_, by simpa using hinv2, .inr ⟨rfl, rfl⟩, ?_⟩
    · simp [freeMergePrev, hprev, hcheck, halloc, hblink, hasize1, hbsize1, hsize2, hqaddr]
    · rw [append_assoc, singleton_append]
      exact (hchg1.mono (ownBytes_around [_, _])).trans hchg2

end HeapInv

theorem Rep.mmFreeLocked_spec {cs : List Chunk} (hrep : Rep c h cs) (hmem : ⟨a, s, true⟩ ∈ cs)
    (hlo : a ≠ h.mmHeapstart) (hhi : a ≠ h.mmHeapend) :
    ∃ m' cs', mmFreeLocked c h (a + c.sizeofMmAllocnode) = .ok { h with mem := m' } ∧
      Rep c { h with mem := m' } cs' ∧ Released a cs cs' ∧
      ChangesOnly (ownBytes c h (others a cs)) h.mem m' := by
  have hlay := c.layout
  have hok := hrep.tiling.ok_of_addr_ne hmem hlo hhi
  have hlo' : (⟨a, s, true⟩ : Chunk) ≠ .guard c h.mmHeapstart := Tiling.ne_guard_of_addr_ne hlo
  have hhi' : (⟨a, s, true⟩ : Chunk) ≠ .guard c h.mmHeapend := Tiling.ne_guard_of_addr_ne hhi
  have hinside := hrep.tiling.inside hmem hlo' hhi'
  obtain ⟨pre, p, q, post, rfl⟩ := hrep.tiling.exists_around hmem hlo' hhi'
  obtain ⟨hinv1, hchg1⟩ := HeapInv.mark false hrep hok [⟨a, s, false⟩] (by simp) (by simp)
    fun hps hprec => (congrArg c.clearAllocBit hprec).trans (HeapConfig.clearAllocBit_tag hps)
  obtain ⟨m2, t, q', post', hnext, hinv2, hR, hchg2⟩ := hinv1.freeMergeNext_spec
  obtain ⟨m3, b, t', pre', hprev, hinv3, hL, hchg3⟩ := hinv2.freeMergePrev_spec
  obtain ⟨m4, hadd, hinv4, hchg4⟩ := hinv3.list_chunk (by simp) (by simp)
  have hmeets : a = p.addr + p.size := (isChain_follows_one.mp (hrep.window [⟨a, s, true⟩])).1.1
  obtain ⟨R, hRsplit, rfl, hRabs⟩ : ∃ R, q :: post = R ++ q' :: post' ∧ total R = t ∧
      Absorbs R (some q') := by
    rcases hR with ⟨rfl, hused, heq⟩ | ⟨hfree, rfl, rfl⟩
    · refine ⟨[], heq.symm, rfl, .inl ⟨rfl, ?_⟩⟩
      simpa [(List.cons.injEq _ _ _ _ ▸ heq).1] using hused
    · refine ⟨[q], rfl, by simp [total], .inr ⟨q.addr, q.size, ?_⟩⟩
      rw [← hfree]
  obtain ⟨L, hLsplit, rfl, rfl, hLabs⟩ : ∃ L, pre ++ [p] = pre' ++ L ∧ total L = t' ∧
      a - total L = b ∧ Absorbs L pre'.getLast? := by
    rcases hL with ⟨rfl, rfl, hused, rfl⟩ | ⟨rfl, rfl⟩
    · exact ⟨[], by simp, rfl, rfl, .inl ⟨rfl, by simpa using hused⟩⟩
    refine ⟨[⟨b, t', false⟩], rfl, by simp [total], ?_, .inr ⟨b, t', rfl⟩⟩
    simp only at hmeets
    simp [total]
    omega
  have hcs : pre ++ p :: ⟨a, s, true⟩ :: q :: post
      = pre' ++ (L ++ ⟨a, s, true⟩ :: (R ++ q' :: post')) := by
    rw [← hRsplit, ← append_assoc, ← hLsplit]
    simp
  refine ⟨m4, _, ?_, hinv4.rep, ?_, ?_⟩
  · have hmember : mmHeapmember h (a + c.sizeofMmAllocnode) = true := by
      have hge := hok.1
      simp only [mmHeapmember, Bool.and_eq_true, decide_eq_true_eq]
      omega
    have hasize : nodeSize c (setPreceding c h.mem a (c.clearAllocBit (nodePreceding c h.mem a))) a
        = s := hinv1.nodeSize_eq (u := false) (by simp)
    obtain ⟨-, hqaddr, -, hqprec⟩ := isChain_follows_one.mp (hinv1.window [⟨a, s, false⟩])
    have hlt : s < c.mmAllocBit := hrep.size_lt hmem
    rw [hqaddr] at hnext hqprec
    simp [mmFreeLocked, hmember, hrep.isAllocated_eq hmem, hasize, hqprec,
      HeapConfig.clearAllocBit_tag hlt, hnext, hprev, hadd]
  · exact ⟨pre', L, s, R, q' :: post', hcs, hLabs, hRabs, by rw [Nat.add_assoc]⟩
  -- the chunks merged away are free, so every other allocated chunk is on one of the two sides
  have hkeep : ∀ k ∈ others a (pre ++ p :: ⟨a, s, true⟩ :: q :: post), k.used = true →
      k ∈ pre' ∨ k ∈ q' :: post' := by
    intro k hk hused
    rw [mem_others, hcs] at hk
    simp only [mem_append, mem_cons] at hk ⊢
    have hfree : ∀ (ks : List Chunk) (o : Option Chunk), Absorbs ks o → k ∉ ks := by
      rintro ks o (⟨rfl, -⟩ | ⟨b, t, rfl⟩) hmem
      · cases hmem
      · rw [mem_singleton.mp hmem] at hused
        cases hused
    have hne : k ≠ ⟨a, s, true⟩ := fun heq => hk.2 (congrArg Chunk.addr heq)
    have hL' := hfree L _ hLabs
    have hR' := hfree R _ hRabs
    tauto
  have hleft : ∀ k ∈ pre', k ∈ pre ++ [p] := fun k hk => hLsplit ▸ mem_append_left _ hk
  have hright : ∀ k ∈ q' :: post', k ∈ q :: post := fun k hk => hRsplit ▸ mem_append_right _ hk
  refine ((hchg1.mono (ownBytes_anti fun k hk hused => ?_)).trans
    (hchg2.mono (ownBytes_anti fun k hk hused => ?_))).trans
    ((hchg3.mono (ownBytes_anti fun k hk hused => ?_)).trans
    (hchg4.mono (ownBytes_anti fun k hk hused => ?_)))
  · rw [append_cons]
    exact mem_append.mpr ((hkeep k hk hused).imp (hleft k) (hright k))
  · rw [append_cons]
    exact mem_append.mpr ((hkeep k hk hused).imp_left (hleft k))
  · exact mem_append.mpr (hkeep k hk hused)
  · exact mem_append.mpr ((hkeep k hk hused).imp_right (mem_cons_of_mem _))

end Nuttx.Mm

import Nuttx.Mm.Heap.Proof.Malloc
import Nuttx.Mm.Heap.Proof.Realloc
import Nuttx.Mm.Heap.Proof.Memalign
import Nuttx.Mm.Heap.Proof.Regions

/-!
# Who owns an allocated chunk

Every allocated chunk but the guards is owned by a caller or waits on the delay list. `HeapOk` says
so, and each critical section is stated again in these terms.
-/

open List

namespace Nuttx.Mm

open ByteMemory

variable {c : HeapConfig} {h : Heap} {m m' : Mem} {cs cs' own own' ds ks : List Chunk} {k : Chunk}
  {a s n : Nat}

def Chunk.mem (c : HeapConfig) (k : Chunk) : Nat := k.addr + c.sizeofMmAllocnode

theorem others_subset (a : Nat) (ks : List Chunk) : others a ks ⊆ ks :=
  fun _ hk => (mem_others.mp hk).1

theorem others_cons_of_ne (hne : k.addr ≠ a) : others a (k :: ks) = k :: others a ks :=
  filter_cons_of_pos (bne_iff_ne.mpr hne)

def Keeps (c : HeapConfig) (ks : List Chunk) (m m' : Mem) : Prop :=
  ∀ k ∈ ks, ∀ x ∈ k.payload c, m'.byte x = m.byte x

theorem Keeps.trans {m'' : Mem} (h : Keeps c ks m m') (h' : Keeps c ks m' m'') : Keeps c ks m m'' :=
  fun k hk x hx => (h' k hk x hx).trans (h k hk x hx)

theorem Keeps.refl (c : HeapConfig) (ks : List Chunk) (m : Mem) : Keeps c ks m m :=
  fun _ _ _ _ => rfl

theorem Keeps.subset {ks' : List Chunk} (h : Keeps c ks m m') (hsub : ks' ⊆ ks) : Keeps c ks' m m' :=
  fun k hk => h k (hsub hk)

def DelayChain (c : HeapConfig) (m : Mem) : Nat → List Chunk → Prop
  | tmp, [] => tmp = 0
  | tmp, k :: ks => tmp = k.mem c ∧ DelayChain c m (load m c.ptrBytes tmp) ks

/-- The heap is in order, its chunks are `cs`, callers own the chunks `own`, and the chunks `ds` wait
on the delay list. -/
structure HeapOk (c : HeapConfig) (h : Heap) (cs own ds : List Chunk) : Prop where
  rep : Rep c h cs
  delay : DelayChain c h.mem h.mmDelaylist ds
  nodup : (own ++ ds).Nodup
  owned : ∀ k, k ∈ own ++ ds ↔
    k ∈ cs ∧ k.used = true ∧ k.addr ≠ h.mmHeapstart ∧ k.addr ≠ h.mmHeapend

theorem DelayChain.congr {tmp : Nat} (hchain : DelayChain c m tmp ks)
    (hsize : ∀ k ∈ ks, c.sizeofMmFreenode ≤ k.size) (hkeep : Keeps c ks m m') :
    DelayChain c m' tmp ks := by
  have hlay := c.layout
  induction ks generalizing tmp with
  | nil => exact hchain
  | cons k ks ih =>
    obtain ⟨rfl, hrest⟩ := hchain
    have hk := hsize k mem_cons_self
    have hload : load m' c.ptrBytes (k.mem c) = load m c.ptrBytes (k.mem c) := by
      refine load_congr fun x hx hx' => hkeep k mem_cons_self x ?_
      rw [Chunk.mem] at hx hx'
      rw [Chunk.mem_payload]
      omega
    refine ⟨rfl, ?_⟩
    rw [hload]
    exact ih hrest (fun k hk => hsize k (mem_cons_of_mem _ hk))
      (hkeep.subset (subset_cons_self _ _))

theorem keeps_of_changesOnly (hchg : ChangesOnly (ownBytes c h (others a cs)) m m')
    (hks : ∀ k ∈ ks, k ∈ cs ∧ k.used = true ∧ k.addr ≠ a) : Keeps c ks m m' := by
  intro k hk x hx
  obtain ⟨hmem, hused, hne⟩ := hks k hk
  exact hchg x fun hin => hin.2 k (mem_others.mpr ⟨hmem, hne⟩) hused hx

namespace HeapOk

variable (hok : HeapOk c h cs own ds)
include hok

theorem mem_cs (hk : k ∈ own ++ ds) :
    ⟨k.addr, k.size, true⟩ ∈ cs ∧ k.addr ≠ h.mmHeapstart ∧ k.addr ≠ h.mmHeapend := by
  obtain ⟨hmem, hused, hends⟩ := (hok.owned k).mp hk
  rw [← hused]
  exact ⟨hmem, hends⟩

theorem size_ok (hk : k ∈ own ++ ds) : ChunkSize c k.size := by
  obtain ⟨hmem, hlo, hhi⟩ := hok.mem_cs hk
  exact hok.rep.tiling.ok_of_addr_ne hmem hlo hhi

theorem eq_of_addr_eq {j : Chunk} (hk : k ∈ own ++ ds)
    (hj : j ∈ own ++ ds) (heq : k.addr = j.addr) : k = j :=
  hok.rep.tiling.eq_of_addr_eq ((hok.owned k).mp hk).1 ((hok.owned j).mp hj).1 heq

theorem perm (hperm : own.Perm own') : HeapOk c h cs own' ds := by
  have happ := hperm.append_right ds
  exact ⟨hok.rep, hok.delay, happ.nodup_iff.mp hok.nodup,
    fun k => happ.symm.mem_iff.trans (hok.owned k)⟩

theorem perm_others_of_sublist (hks : ks.Sublist own) (hk : k ∈ ks) :
    ks.Perm (k :: others k.addr ks) := by
  have hdup := (nodup_append.mp hok.nodup).1.sublist hks
  have herase : others k.addr ks = ks.erase k := by
    rw [hdup.erase_eq_filter, others]
    refine filter_congr fun j hj => ?_
    rw [Bool.eq_iff_iff, bne_iff_ne, bne_iff_ne, not_iff_not]
    exact ⟨hok.eq_of_addr_eq (mem_append_left _ (hks.subset hj))
      (mem_append_left _ (hks.subset hk)), congrArg Chunk.addr⟩
  rw [herase]
  exact perm_cons_erase hk

theorem perm_others (hk : k ∈ own) :
    own.Perm (k :: others k.addr own) := hok.perm_others_of_sublist (List.Sublist.refl own) hk

theorem mem_bounds (hk : k ∈ own ++ ds) : h.mmHeapstart < k.mem c ∧ k.mem c < h.mmHeapend := by
  have hlay := c.layout
  obtain ⟨hmem, hlo, hhi⟩ := hok.mem_cs hk
  have hinside := hok.rep.tiling.inside hmem (Tiling.ne_guard_of_addr_ne hlo)
    (Tiling.ne_guard_of_addr_ne hhi)
  have hsize := (hok.size_ok hk).1
  unfold Chunk.mem
  omega

theorem exchange {x : Option Chunk}
    (hrep : Rep c { h with mem := m' } cs') (hex : Exchanged a x cs cs')
    (hx : ∀ y, x = some y → y.used = true) (hlo : a ≠ h.mmHeapstart) (hhi : a ≠ h.mmHeapend)
    (hds : ∀ d ∈ ds, d.addr ≠ a) (hchg : ChangesOnly (ownBytes c h (others a cs)) h.mem m') :
    HeapOk c { h with mem := m' } cs' (x.toList ++ others a own) ds ∧
      Keeps c (others a own) h.mem m' := by
  have hothers : ∀ k ∈ others a own, k ∈ cs ∧ k.used = true ∧ k.addr ≠ a := by
    intro k hk
    obtain ⟨hk, hne⟩ := mem_others.mp hk
    obtain ⟨hmem, hused, -⟩ := (hok.owned k).mp (mem_append_left _ hk)
    exact ⟨hmem, hused, hne⟩
  have hdelayed : ∀ k ∈ ds, k ∈ cs ∧ k.used = true ∧ k.addr ≠ a := by
    intro k hk
    obtain ⟨hmem, hused, -⟩ := (hok.owned k).mp (mem_append_right _ hk)
    exact ⟨hmem, hused, hds k hk⟩
  refine ⟨⟨hrep, ?_, ?_, ?_⟩, keeps_of_changesOnly hchg hothers⟩
  · exact hok.delay.congr (fun k hk => (hok.size_ok (mem_append_right _ hk)).1)
      (keeps_of_changesOnly hchg hdelayed)
  · rw [append_assoc]
    refine nodup_append.mpr ⟨by cases x <;> simp, ?_, fun y hy k hk heq => ?_⟩
    · exact hok.nodup.sublist (filter_sublist.append (List.Sublist.refl ds))
    · obtain ⟨hmem, hused, hne⟩ := (mem_append.mp hk).elim (hothers k) (hdelayed k)
      exact hex.fresh k hmem hused hne y (Option.mem_toList.mp hy) (congrArg Chunk.addr heq.symm)
  intro k
  have hguards := hok.rep.tiling.guard_mem
  simp only [mem_append, Option.mem_toList]
  constructor
  · rintro ((hk | hk) | hk)
    · have hused := hx k hk
      exact ⟨(hex.used k hused).mpr (.inr hk.symm), hused,
        (hex.fresh _ hguards.1 rfl hlo.symm k hk).symm,
        (hex.fresh _ hguards.2 rfl hhi.symm k hk).symm⟩
    · obtain ⟨hmem, hused, hne⟩ := hothers k hk
      exact ⟨(hex.used k hused).mpr (.inl ⟨hmem, hne⟩), hused,
        (hok.mem_cs (mem_append_left _ (mem_others.mp hk).1)).2⟩
    · obtain ⟨hmem, hused, hne⟩ := hdelayed k hk
      exact ⟨(hex.used k hused).mpr (.inl ⟨hmem, hne⟩), hused,
        (hok.mem_cs (mem_append_right _ hk)).2⟩
  · rintro ⟨hk, hused, hends⟩
    rcases (hex.used k hused).mp hk with ⟨hmem, hne⟩ | hk
    · rcases mem_append.mp ((hok.owned k).mpr ⟨hmem, hused, hends⟩) with hk | hk
      · exact .inl (.inr (mem_others.mpr ⟨hk, hne⟩))
      · exact .inr hk
    · exact .inl (.inl hk.symm)

theorem write (hk : k ∈ own) (hchg : ChangesOnly (k.payload c) h.mem m') :
    HeapOk c { h with mem := m' } cs own ds ∧ Keeps c (others k.addr own) h.mem m' := by
  obtain ⟨hmem, hlo, hhi⟩ := hok.mem_cs (mem_append_left ds hk)
  have hkeeps : ∀ ks, (∀ j ∈ ks, j ∈ own ++ ds ∧ j ≠ k) → Keeps c ks h.mem m' := by
    intro ks hks j hj x hx
    obtain ⟨hjmem, hne⟩ := hks j hj
    have hdisj := hok.rep.tiling.disjoint ((hok.owned j).mp hjmem).1
      ((hok.owned k).mp (mem_append_left ds hk)).1 hne
    refine hchg x fun hin => ?_
    rw [Chunk.mem_payload] at hx hin
    omega
  refine ⟨⟨?_, ?_, hok.nodup, hok.owned⟩, ?_⟩
  · exact HeapInv.rep (hok.rep.write hchg fun x hx hin => hin.2 _ hmem rfl hx)
  · refine hok.delay.congr (fun d hd => (hok.size_ok (mem_append_right _ hd)).1) (hkeeps ds ?_)
    rintro d hd
    refine ⟨mem_append_right _ hd, ?_⟩
    rintro rfl
    exact (nodup_append.mp hok.nodup).2.2 d hk d hd rfl
  · refine hkeeps _ fun j hj => ⟨mem_append_left _ (mem_others.mp hj).1, ?_⟩
    rintro rfl
    exact (mem_others.mp hj).2 rfl

theorem addr_ne_of_mem (hk : k ∈ own) : ∀ d ∈ ds, d.addr ≠ k.addr := by
  intro d hd heq
  have hdk := hok.eq_of_addr_eq (mem_append_right _ hd) (mem_append_left _ hk) heq
  exact (nodup_append.mp hok.nodup).2.2 k hk d hd hdk.symm

theorem mmFreeLocked (hk : k ∈ own) :
    ∃ m' cs', mmFreeLocked c h (k.mem c) = .ok { h with mem := m' } ∧
      HeapOk c { h with mem := m' } cs' (others k.addr own) ds ∧ Released k.addr cs cs' ∧
      Keeps c (others k.addr own) h.mem m' := by
  obtain ⟨hmem, hlo, hhi⟩ := hok.mem_cs (mem_append_left ds hk)
  obtain ⟨m', cs', heval, hrep', hstep, hchg⟩ := hok.rep.mmFreeLocked_spec hmem hlo hhi
  obtain ⟨hok', hkeep⟩ := hok.exchange hrep' (hstep.exchanged hok.rep.tiling hrep'.tiling) (by simp)
    hlo hhi (hok.addr_ne_of_mem hk) hchg
  exact ⟨m', cs', heval, hok', hstep, hkeep⟩

theorem mmMallocLocked (hn : c.sizeofMmFreenode ≤ n) (hunit : 2 * c.sizeofMmAllocnode ∣ n) :
    (mmMallocLocked c h n = .ok (0, h) ∧ ∀ k ∈ cs, k.used = false → k.size < n) ∨
      ∃ k cs' m', mmMallocLocked c h n = .ok (k.mem c, { h with mem := m' }) ∧
        HeapOk c { h with mem := m' } cs' (k :: own) ds ∧ n ≤ k.size ∧
        Allocated c n k.addr cs cs' ∧ Keeps c own h.mem m' := by
  rcases hok.rep.mmMallocLocked_spec hn hunit with hnone | ⟨a, cs', m', heval, hrep', hstep, hchg⟩
  · exact .inl hnone
  obtain ⟨s, hs, hex⟩ := hstep.exchanged hok.rep.tiling hrep'.tiling
  obtain ⟨pre, t, post, hcs, -⟩ := id hstep
  have hmem : (⟨a, t, false⟩ : Chunk) ∈ cs := by simp [hcs]
  have hne : ∀ k ∈ own ++ ds, k.addr ≠ a := by
    intro k hk heq
    obtain ⟨hk, hused, -⟩ := (hok.owned k).mp hk
    rw [hok.rep.tiling.eq_of_addr_eq hk hmem heq] at hused
    cases hused
  have hothers : others a own = own :=
    filter_eq_self.mpr fun k hk => bne_iff_ne.mpr (hne k (mem_append_left _ hk))
  have hinside := hok.rep.tiling.inside hmem (Tiling.ne_guard_of_free rfl _)
    (Tiling.ne_guard_of_free rfl _)
  have hlay := c.layout
  have hsize := hok.rep.tiling.size_ge hmem
  obtain ⟨hok', hkeep⟩ := hok.exchange hrep' hex (by simp) (by omega) (by omega)
    (fun d hd => hne d (mem_append_right _ hd))
    (hchg.mono (ownBytes_anti fun k hk _ => (mem_others.mp hk).1))
  rw [hothers] at hok' hkeep
  exact .inr ⟨⟨a, s, true⟩, cs', m', heval, hok', hs, hstep, hkeep⟩

theorem mmReallocLocked (hk : k ∈ own) (hn : c.sizeofMmFreenode ≤ n)
    (hgran : c.mmMinChunk ∣ n) (hclean : GrowsCleanly c n k.addr cs) :
    (mmReallocLocked c h (k.mem c) n = .ok (none, h) ∧ k.size < n) ∨
      ∃ k' cs' m', mmReallocLocked c h (k.mem c) n
          = .ok (some (k'.mem c), { h with mem := m' }) ∧
        HeapOk c { h with mem := m' } cs' (k' :: others k.addr own) ds ∧ n ≤ k'.size ∧
        (Coalesced cs → Coalesced cs') ∧ Keeps c (others k.addr own) h.mem m' := by
  obtain ⟨hmem, hlo, hhi⟩ := hok.mem_cs (mem_append_left ds hk)
  rcases hok.rep.mmReallocLocked_spec hmem hlo hhi hn hgran (c.unit_dvd_mmMinChunk.trans hgran) hclean
    with hnone | ⟨a', cs', m', heval, hrep', ⟨⟨s, hs, hex⟩, hco⟩, hchg⟩
  · exact .inl hnone
  · obtain ⟨hok', hkeep⟩ := hok.exchange hrep' hex (by simp) hlo hhi (hok.addr_ne_of_mem hk) hchg
    exact .inr ⟨⟨a', s, true⟩, cs', m', heval, hok', hs, hco, hkeep⟩

theorem mmMemalignLocked {e size : Nat} (hk : k ∈ own)
    (he : c.mmMinChunk < 2 ^ e) (hroom : size + (2 ^ e + 2 ^ e) + c.sizeofMmAllocnode ≤ k.size) :
    ∃ k' cs' m', mmMemalignLocked c h (2 ^ e) size (size + (2 ^ e + 2 ^ e)) (k.mem c)
          = .ok (k'.mem c, { h with mem := m' }) ∧
      HeapOk c { h with mem := m' } cs' (k' :: others k.addr own) ds ∧
      size + c.sizeofMmAllocnode ≤ k'.size ∧ 2 ^ e ∣ k'.mem c ∧
      (Coalesced cs → memalignPoint c (2 ^ e) (k.mem c) = k.mem c ∨ PrevUsed k.addr cs →
        Coalesced cs') ∧ Keeps c (others k.addr own) h.mem m' := by
  have hmask : c.mmGranMask = c.mmMinChunk - 1 := rfl
  obtain ⟨hmem, hlo, hhi⟩ := hok.mem_cs (mem_append_left ds hk)
  have hbounds := hok.rep.tiling.bounds hmem
  have hend := hok.rep.region.end_lt
  obtain ⟨d, cs1, cs', m', heval, hrep', hdvd, hd, hlead, htail, htiling, hchg⟩ :=
    hok.rep.mmMemalignLocked_spec hmem hlo hhi he hroom
  obtain ⟨hup, -, -⟩ := c.mmAlignUp_spec (a := size + c.sizeofMmAllocnode) (by omega)
  have hex1 : Exchanged k.addr (some ⟨k.addr + d, k.size - d, true⟩) cs cs1 := by
    rcases hlead with ⟨rfl, rfl⟩ | ⟨-, hstep⟩
    · exact exchanged_self hok.rep.tiling hmem
    · exact hstep.exchanged hok.rep.tiling htiling hmem
  obtain ⟨s, hs, hex⟩ : ∃ s, size + c.sizeofMmAllocnode ≤ s ∧
      Exchanged k.addr (some ⟨k.addr + d, s, true⟩) cs cs' := by
    rcases htail with rfl | hstep
    · exact ⟨k.size - d, by omega, hex1⟩
    · obtain ⟨s, hs, hex2⟩ := hstep.exchanged htiling hrep'.tiling
      exact ⟨s, hup.trans hs, hex1.trans hex2⟩
  obtain ⟨hok', hkeep⟩ := hok.exchange hrep' hex (by simp) hlo hhi (hok.addr_ne_of_mem hk) hchg
  refine ⟨⟨k.addr + d, s, true⟩, cs', m', heval, hok', hs, hdvd, fun hco hprev => ?_, hkeep⟩
  have hco1 : Coalesced cs1 := by
    rcases hlead with ⟨-, rfl⟩ | ⟨hd0, hstep⟩
    · exact hco
    refine hstep.coalesced hco (hprev.resolve_left fun hpoint => hd0 ?_)
    have hret := (mmMemalignLocked_ret heval).trans hpoint
    rw [Chunk.mem] at hret
    omega
  rcases htail with rfl | hstep
  · exact hco1
  · exact hstep.coalesced hco1

theorem mmExtendLocked {size : Nat} (hext : ExtendOk c h (h.mmHeapend + c.sizeofMmAllocnode) size) :
    ∃ m' cs', mmExtendLocked c h (h.mmHeapend + c.sizeofMmAllocnode) size
        = .ok { h with mem := m', mmHeapend := h.mmHeapend + size } ∧
      HeapOk c { h with mem := m', mmHeapend := h.mmHeapend + size } cs'
        (⟨h.mmHeapend, size, true⟩ :: own) ds ∧
      Extended c size h.mmHeapend cs cs' ∧ Keeps c own h.mem m' := by
  have hlay := c.layout
  obtain ⟨m', cs', heval, hrep', hstep, hchg⟩ := hok.rep.mmExtendLocked_spec hext
  have hin : ∀ k ∈ own ++ ds, k.addr + k.size ≤ h.mmHeapend := by
    intro k hk
    obtain ⟨hmem, hlo, hhi⟩ := hok.mem_cs hk
    exact (hok.rep.tiling.inside hmem (Tiling.ne_guard_of_addr_ne hlo)
      (Tiling.ne_guard_of_addr_ne hhi)).2
  have hge : ∀ k ∈ own ++ ds, c.sizeofMmFreenode ≤ k.size := fun k hk => (hok.size_ok hk).1
  have hkeeps : ∀ ks ⊆ own ++ ds, Keeps c ks h.mem m' := by
    intro ks hks k hk x hx
    have hle := hin k (hks hk)
    refine hchg x fun hmem => ?_
    rw [Chunk.mem_payload] at hx
    rw [mem_span] at hmem
    omega
  have hstart := hok.rep.region.start_lt
  have hpos := hext.size_pos
  refine ⟨m', cs', heval, ⟨hrep', ?_, ?_, ?_⟩, hstep, hkeeps own (subset_append_left _ _)⟩
  · exact hok.delay.congr (fun k hk => hge k (mem_append_right _ hk))
      (hkeeps ds (subset_append_right _ _))
  · rw [cons_append, nodup_cons]
    refine ⟨fun hk => ?_, hok.nodup⟩
    have hle := hin _ hk
    simp only at hle
    omega
  obtain ⟨pre, rfl, rfl⟩ := hstep
  rintro ⟨b, t, used⟩
  rw [cons_append, mem_cons, hok.owned]
  have hinit := fun k (hk : k ∈ pre) => hok.rep.tiling.le_of_mem_init hk
  simp only [mem_append, mem_cons, not_mem_nil, or_false, Chunk.guard, Chunk.mk.injEq]
  constructor
  · rintro (⟨rfl, rfl, rfl⟩ | ⟨hk | ⟨rfl, -⟩, hused, hlo, hhi⟩)
    · exact ⟨.inr (.inl ⟨rfl, rfl, rfl⟩), rfl, by omega, by omega⟩
    · have hle := hinit _ hk
      simp only at hle
      exact ⟨.inl hk, hused, hlo, by omega⟩
    · exact absurd rfl hhi
  · rintro ⟨hk | hk | ⟨rfl, -⟩, hused, hlo, hhi⟩
    · have hle := hinit _ hk
      have hsize := hok.rep.tiling.size_ge (mem_append_left _ hk)
      simp only at hle
      exact .inr ⟨.inl hk, hused, hlo, by omega⟩
    · exact .inl hk
    · exact absurd rfl hhi

theorem mmAddDelaylist (hk : k ∈ own) :
    HeapOk c (mmAddDelaylist c h (k.mem c)) cs (others k.addr own) (k :: ds) ∧
      Keeps c (others k.addr own) h.mem (mmAddDelaylist c h (k.mem c)).mem := by
  have hlay := c.layout
  have hsize := (hok.size_ok (mem_append_left ds hk)).1
  have hhead : h.mmDelaylist < 256 ^ c.ptrBytes := by
    have hend := hok.rep.region.end_lt
    have hdelay := hok.delay
    cases ds with
    | nil =>
      rw [DelayChain] at hdelay
      rw [hdelay]
      exact Nat.pow_pos (by omega)
    | cons d ds =>
      have hbounds := hok.mem_bounds (mem_append_right own mem_cons_self)
      rw [hdelay.1]
      exact lt_trans hbounds.2 (by unfold HeapConfig.sizeMod at hend; omega)
  have hchg : ChangesOnly (k.payload c) h.mem (store h.mem c.ptrBytes (k.mem c) h.mmDelaylist) := by
    refine (ChangesOnly.refl _ _).store _ fun x hx => ?_
    rw [mem_span, Chunk.mem] at hx
    rw [Chunk.mem_payload]
    omega
  obtain ⟨hok', hkeep⟩ := hok.write hk hchg
  have hperm : (own ++ ds).Perm (others k.addr own ++ k :: ds) :=
    ((hok.perm_others hk).append_right ds).trans perm_middle.symm
  refine ⟨⟨hok'.rep.with_mem _ _, ⟨rfl, ?_⟩, hperm.nodup_iff.mp hok.nodup,
    fun j => hperm.symm.mem_iff.trans (hok.owned j)⟩, hkeep⟩
  rw [Mm.mmAddDelaylist, load_store_eq hhead]
  exact hok'.delay

end HeapOk

end Nuttx.Mm

import Nuttx.Mm.Heap.System
import Nuttx.Mm.Heap.Proof.Free

/-!
# `mm_initialize` and `mm_extend`

A fresh region holds its two guards and one free chunk. Extending it turns the last guard into an
allocated chunk, which `mm_extend` then frees.
-/

open List

namespace Nuttx.Mm

open ByteMemory LinkedList

variable {c : HeapConfig} {h : Heap} {m m' : Mem} {cs : List Chunk} {nodelist : Nat}

theorem hookAddr_sep (i j : Nat) : Sep c (hookAddr c nodelist i) (hookAddr c nodelist j) := by
  rcases Nat.lt_trichotomy i j with hlt | rfl | hlt
  · have hmul := Nat.mul_le_mul_right c.sizeofMmFreenode hlt
    rw [Nat.succ_mul] at hmul
    exact .inr (.inl (by unfold hookAddr; omega))
  · exact .inl rfl
  · have hmul := Nat.mul_le_mul_right c.sizeofMmFreenode hlt
    rw [Nat.succ_mul] at hmul
    exact .inr (.inr (by unfold hookAddr; omega))

theorem hookAddr_ne {i j : Nat} (hne : i ≠ j) : hookAddr c nodelist i ≠ hookAddr c nodelist j := by
  have hlay := c.layout
  intro heq
  unfold hookAddr at heq
  exact hne (Nat.eq_of_mul_eq_mul_right (show 0 < c.sizeofMmFreenode by omega) (by omega))

theorem linkHooks_links {n : Nat} (hle : hookAddr c nodelist (n + 1) ≤ c.sizeMod) :
    (∀ i < n, nodeFlink c (linkHooks c nodelist m n) (hookAddr c nodelist i)
        = hookAddr c nodelist (i + 1) ∧
      nodeBlink c (linkHooks c nodelist m n) (hookAddr c nodelist (i + 1)) = hookAddr c nodelist i) ∧
    (∀ i, n ≤ i → nodeFlink c (linkHooks c nodelist m n) (hookAddr c nodelist i)
      = nodeFlink c m (hookAddr c nodelist i)) ∧
    ∀ i, nodeSize c (linkHooks c nodelist m n) (hookAddr c nodelist i)
      = nodeSize c m (hookAddr c nodelist i) := by
  have hlay := c.layout
  induction n with
  | zero => exact ⟨by simp, fun _ _ => rfl, fun _ => rfl⟩
  | succ n ih =>
    have hstep : hookAddr c nodelist (n + 1 + 1) = hookAddr c nodelist (n + 1) + c.sizeofMmFreenode := by
      unfold hookAddr
      rw [Nat.succ_mul (n + 1), Nat.add_assoc]
    have hstep' : hookAddr c nodelist (n + 1) = hookAddr c nodelist n + c.sizeofMmFreenode := by
      unfold hookAddr
      rw [Nat.succ_mul n, Nat.add_assoc]
    obtain ⟨hlinked, hrest, hsizes⟩ := ih (by omega)
    have hnz : hookAddr c nodelist (n + 1) ≠ 0 := by omega
    have hlink : linkHooks c nodelist m (n + 1) = joinNodes c (linkHooks c nodelist m n)
        (hookAddr c nodelist n) (hookAddr c nodelist (n + 1)) := by rw [linkHooks, joinNodes, if_pos hnz]
    rw [hlink]
    refine ⟨fun i hi => ?_, fun i hi => ?_, fun i => ?_⟩
    · by_cases heq : i = n
      · subst heq
        exact ⟨nodeFlink_joinNodes (by omega) fun _ => hookAddr_sep _ _,
          nodeBlink_joinNodes (by omega) hnz⟩
      · obtain ⟨hfwd, hbwd⟩ := hlinked i (by omega)
        rw [nodeFlink_joinNodes_of_ne (hookAddr_ne heq) (hookAddr_sep _ _) fun _ => hookAddr_sep _ _,
          nodeBlink_joinNodes_of_ne (hookAddr_ne (by omega)) (hookAddr_sep _ _)
            fun _ => hookAddr_sep _ _]
        exact ⟨hfwd, hbwd⟩
    · rw [nodeFlink_joinNodes_of_ne (hookAddr_ne (by omega)) (hookAddr_sep _ _)
        fun _ => hookAddr_sep _ _, hrest i (by omega)]
    · rw [nodeSize_joinNodes (hookAddr_sep _ _) fun _ => hookAddr_sep _ _, hsizes i]

def hooksOnly (c : HeapConfig) : List FreeNode := (List.range c.mmNnodes).map FreeNode.hook

theorem mem_hooksOnly {n : FreeNode} : n ∈ hooksOnly c ↔ ∃ i < c.mmNnodes, n = .hook i := by
  simp [hooksOnly, eq_comm]

theorem freeList_hooksOnly (hpos : 0 < nodelist) (hle : hookAddr c nodelist c.mmNnodes ≤ c.sizeMod)
    (hzero : ∀ x, nodelist ≤ x → x < hookAddr c nodelist c.mmNnodes → m.byte x = 0) :
    FreeList c nodelist (linkHooks c nodelist m (c.mmNnodes - 1)) (hooksOnly c) := by
  have hlay := c.layout
  have hN := c.mmNnodes_pos
  have hsucc : c.mmNnodes - 1 + 1 = c.mmNnodes := by omega
  obtain ⟨hlinked, hrest, hsizes⟩ := linkHooks_links (m := m) (hsucc.symm ▸ hle)
  have hload : ∀ (k a : Nat), nodelist ≤ a → a + k ≤ hookAddr c nodelist c.mmNnodes →
      load m k a = 0 := by
    intro k
    induction k with
    | zero => exact fun _ _ _ => rfl
    | succ k ih =>
      intro a hlow hhigh
      rw [load, hzero a hlow (by omega), ih (a + 1) (by omega) (by omega)]
      rfl
  refine ⟨?_, ?_, fun i => ?_, fun n hn => ?_, fun a s hn => ?_, ?_, fun n hn => ?_, fun n hn => ?_⟩
  · -- the hooks and the null pointer behind them, as one range
    have hlist : (hooksOnly c).map (FreeNode.addr c nodelist) ++ [0] = (List.range (c.mmNnodes + 1)).map
        fun i => if i < c.mmNnodes then hookAddr c nodelist i else 0 := by
      rw [range_succ, map_append, hooksOnly, map_map]
      congr 1
      · refine map_congr_left fun i hi => ?_
        simp [mem_range.mp hi]
      · simp
    unfold Threaded
    rw [hlist, isChain_map, isChain_range_succ]
    intro i hi
    rw [if_pos hi]
    by_cases hlast : i + 1 < c.mmNnodes
    · rw [Nat.succ_eq_add_one, if_pos hlast]
      exact ⟨(hlinked i (by omega)).1, fun _ => (hlinked i (by omega)).2⟩
    rw [Nat.succ_eq_add_one, if_neg hlast]
    refine ⟨?_, fun hne => absurd rfl hne⟩
    rw [hrest i (by omega)]
    have hbounds := @hookAddr_bounds c nodelist i hi
    exact hload _ _ (by omega) (by omega)
  · rw [hooksOnly, pairwise_map]
    exact pairwise_lt_range.imp fun hij => .inl hij
  · simp [hooksOnly]
  · obtain ⟨i, hi, rfl⟩ := mem_hooksOnly.mp hn
    have hbounds := @hookAddr_bounds c nodelist i hi
    rw [FreeNode.addr_hook, hsizes i]
    exact hload _ _ (by omega) (by omega)
  · obtain ⟨i, -, heq⟩ := mem_hooksOnly.mp hn
    cases heq
  · rw [hooksOnly, pairwise_map]
    refine pairwise_lt_range.imp fun {i j} hij => ?_
    have hmul := Nat.mul_le_mul_right c.sizeofMmFreenode hij
    rw [Nat.succ_mul] at hmul
    simp only [FreeNode.Apart, FreeNode.addr_hook, hookAddr]
    omega
  all_goals
    obtain ⟨i, hi, rfl⟩ := mem_hooksOnly.mp hn
    have hbounds := @hookAddr_bounds c nodelist i hi
    rw [FreeNode.addr_hook]
    omega

def freshChunks (c : HeapConfig) (lo s : Nat) : List Chunk :=
  [.guard c lo, ⟨lo + c.sizeofMmAllocnode, s, false⟩, .guard c (lo + c.sizeofMmAllocnode + s)]

def regionHeaders (c : HeapConfig) (m : Mem) (lo s : Nat) : Mem :=
  setPreceding c (setSize c (setPreceding c (setSize c (setPreceding c
    (setSize c m lo c.sizeofMmAllocnode) lo c.mmAllocBit) (lo + c.sizeofMmAllocnode) s)
    (lo + c.sizeofMmAllocnode) c.sizeofMmAllocnode) (lo + c.sizeofMmAllocnode + s)
    c.sizeofMmAllocnode) (lo + c.sizeofMmAllocnode + s) (c.tag s true)

theorem heapInv_fresh {lo s : Nat} (hregion : Region c h) (hlo : h.mmHeapstart = lo)
    (hhi : h.mmHeapend = lo + c.sizeofMmAllocnode + s) (hs : ChunkSize c s)
    (hlist : FreeList c h.mmNodelist m (hooksOnly c)) :
    HeapInv c h (regionHeaders c m lo s) (freshChunks c lo s)
      [⟨lo + c.sizeofMmAllocnode, s, false⟩] := by
  have hlay := c.layout
  have hge := hs.1
  have hlt := hregion.size_lt
  have hapart := hregion.apart
  rw [hlo, hhi] at hlt hapart
  have htag := tag_lt_two_mul (c := c) (s := s) (u := true) (by omega)
  have hchg : ChangesOnly (span lo (2 * c.sizeofMmAllocnode + s)) m (regionHeaders c m lo s) := by
    refine (((((((ChangesOnly.refl _ m).store _ ?_).store _ ?_).store _ ?_).store _ ?_).store _
      ?_).store _ ?_) <;>
    · intro x hx
      simp only [mem_span] at hx ⊢
      omega
  refine ⟨hregion, by rw [hlo, hhi]; exact ⟨by
    simp [freshChunks, Chunk.Meets, Chunk.guard], rfl, rfl, by simp [freshChunks, hs]⟩, ?_, ?_, hooksOnly c, ?_, fun a s' => ?_⟩
  · rw [hlo]
    simp (disch := omega) only [Header, Chunk.guard, regionHeaders, nodeSize_setSize,
      nodeSize_setSize_of_ne, nodeSize_setPreceding, nodePreceding_setPreceding,
      nodePreceding_setPreceding_of_ne, nodePreceding_setSize]
    simp [HeapConfig.tag]
  · simp only [freshChunks, isChain_cons_cons, isChain_singleton, Follows, Header,
      Chunk.Meets, Chunk.guard, and_true]
    simp (disch := omega) only [regionHeaders, nodeSize_setSize, nodeSize_setSize_of_ne,
      nodeSize_setPreceding, nodePreceding_setPreceding, nodePreceding_setPreceding_of_ne,
      nodePreceding_setSize, HeapConfig.tag_false, and_self]
  · refine hlist.congr_of_outside hchg fun node hnode x hx hin => ?_
    obtain ⟨i, hi, rfl⟩ := mem_hooksOnly.mp hnode
    have hbounds := @hookAddr_bounds c h.mmNodelist i hi
    simp only [FreeNode.addr_hook, mem_span] at hin hx
    omega
  · constructor
    · intro hn
      obtain ⟨i, -, heq⟩ := mem_hooksOnly.mp hn
      cases heq
    · rintro ⟨hmem, hnot⟩
      simp only [freshChunks, Chunk.guard, mem_cons, Chunk.mk.injEq, not_mem_nil] at hmem hnot
      simp at hmem
      exact absurd (by simpa using hmem) hnot

theorem mmAddregion_eq {heapstart heapsize base s : Nat} (hbase : c.mmAlignUp heapstart = base)
    (hend : c.mmAlignDown (heapstart + heapsize) = base + 2 * c.sizeofMmAllocnode + s)
    (hle : c.mmAlignDown (heapstart + heapsize) ≤ heapstart + heapsize)
    (hlt : heapstart + heapsize < c.sizeMod) (hsmall : c.mmBytes = 2 → heapsize ≤ 256 ^ c.mmBytes)
    (hsize : 2 * c.sizeofMmAllocnode + s < c.mmAllocBit) (hs : c.sizeofMmAllocnode ≤ s)
    (hadd : mmAddfreechunk c ⟨2 * c.sizeofMmAllocnode + s, base, base + c.sizeofMmAllocnode + s,
      nodelist, 0, m⟩ (regionHeaders c m base s) (base + c.sizeofMmAllocnode) = .ok m') :
    mmAddregion c ⟨0, 0, 0, nodelist, 0, m⟩ heapstart heapsize
      = .ok ⟨2 * c.sizeofMmAllocnode + s, base, base + c.sizeofMmAllocnode + s, nodelist, 0, m'⟩ := by
  have hassert : (c.mmBytes != 2 || decide (heapsize ≤ 256 ^ c.mmBytes)) = true := by
    simp only [Bool.or_eq_true, bne_iff_ne, decide_eq_true_eq]
    exact (em (c.mmBytes = 2)).symm.imp id hsmall
  have hregion : c.sub (base + 2 * c.sizeofMmAllocnode + s) base = 2 * c.sizeofMmAllocnode + s := by
    rw [c.sub_eq (by omega) (by omega)]
    omega
  have hguard : c.sub (base + 2 * c.sizeofMmAllocnode + s) c.sizeofMmAllocnode
      = base + c.sizeofMmAllocnode + s := by
    rw [c.sub_eq (by omega) (by omega)]
    omega
  have hchunk : c.sub (2 * c.sizeofMmAllocnode + s) (2 * c.sizeofMmAllocnode) = s := by
    rw [c.sub_eq (by omega) (by omega)]
    omega
  have htotal : c.add 0 (2 * c.sizeofMmAllocnode + s) = 2 * c.sizeofMmAllocnode + s := by
    rw [c.add_eq (by omega)]
    omega
  have htag : s ||| c.mmAllocBit = c.tag s true := c.or_mmAllocBit (by omega)
  simp (disch := omega) only [mmAddregion, hassert, c.add_eq hlt, hend, hbase, hregion, hguard, hchunk,
    htotal, nodeSize_setSize, nodeSize_setSize_of_ne, nodeSize_setPreceding, htag, debugassert_true]
  rw [regionHeaders] at hadd
  rw [hadd]
  rfl

theorem mmInitialize_spec {heapstart heapsize : Nat} (hok : InitOk c nodelist heapstart heapsize)
    (m : Mem) : ∃ base s m', mmInitialize c m nodelist heapstart heapsize
        = .ok ⟨2 * c.sizeofMmAllocnode + s, base, base + c.sizeofMmAllocnode + s, nodelist, 0, m'⟩ ∧
      base = c.mmAlignUp heapstart ∧
      base + 2 * c.sizeofMmAllocnode + s = c.mmAlignDown (heapstart + heapsize) ∧
      Rep c ⟨2 * c.sizeofMmAllocnode + s, base, base + c.sizeofMmAllocnode + s, nodelist, 0, m'⟩
        (freshChunks c base s) := by
  have hlay := c.layout
  have hroom := hok.room
  have hend := hok.end_lt
  have hlt := hok.size_lt
  have hpos := hok.start_pos
  have hapart := hok.apart
  obtain ⟨huple, -, hupdvd⟩ := c.mmAlignUp_spec hok.start_lt
  obtain ⟨hdownle, hdowndvd⟩ := c.mmAlignDown_spec hend
  obtain ⟨s, hs⟩ := Nat.exists_eq_add_of_le
    (show c.mmAlignUp heapstart + 2 * c.sizeofMmAllocnode ≤ c.mmAlignDown (heapstart + heapsize) by
      omega)
  have hsok : ChunkSize c s := by
    have hunit := c.unit_dvd_mmMinChunk
    have hbase := hunit.trans hupdvd
    refine ⟨by omega, (Nat.dvd_add_right (Nat.dvd_add hbase (Nat.dvd_refl _))).mp ?_⟩
    exact hs ▸ hunit.trans hdowndvd
  generalize hbase : c.mmAlignUp heapstart = base at *
  have hlist := freeList_hooksOnly (m := memset m nodelist 0 (c.sizeofMmFreenode * c.mmNnodes))
    hok.nodelist_pos hok.nodelist_le fun x hlow hhigh => by
      rw [hookAddr, Nat.mul_comm] at hhigh
      exact if_pos ⟨hlow, hhigh⟩
  have hassert : (decide (c.mmMinChunk ≥ c.sizeofMmFreenode) &&
      decide (c.mmMinChunk ≥ c.sizeofMmAllocnode)) = true := by
    simp only [Bool.and_eq_true, decide_eq_true_eq]
    omega
  have hregion : Region c ⟨2 * c.sizeofMmAllocnode + s, base, base + c.sizeofMmAllocnode + s,
      nodelist, 0, linkHooks c nodelist (memset m nodelist 0 (c.sizeofMmFreenode * c.mmNnodes))
        (c.mmNnodes - 1)⟩ :=
    ⟨by simp only; omega, hupdvd, by simp only; omega, by simp only; omega, by simp only; omega,
      hok.nodelist_pos, hok.nodelist_le, by simp only; omega⟩
  obtain ⟨m', hadd, hinv, -⟩ := (heapInv_fresh hregion rfl rfl hsok hlist).list_chunk
    (by simp [freshChunks]) (by simp)
  refine ⟨base, s, m', ?_, rfl, hs.symm, hinv.rep⟩
  rw [mmInitialize, hassert, debugassert_true]
  exact mmAddregion_eq hbase hs hdownle hend hok.small (by omega) (by have := hsok.1; omega) hadd

def Extended (c : HeapConfig) (s a : Nat) (cs cs' : List Chunk) : Prop :=
  ∃ pre, cs = pre ++ [.guard c a] ∧ cs' = pre ++ [⟨a, s, true⟩, .guard c (a + s)]

section Extend

variable {lo a s size : Nat} {cs' : List Chunk}

theorem Tiling.le_of_mem_init {pre : List Chunk} {k : Chunk}
    (h : Tiling c lo a (pre ++ [.guard c a])) (hk : k ∈ pre) : k.addr + k.size ≤ a :=
  (pairwise_append.mp h.pairwise_before).2.2 k hk _ (mem_singleton_self _)

theorem Extended.tiling (hstep : Extended c s a cs cs') (h : Tiling c lo a cs) (hne : lo ≠ a)
    (hs : ChunkSize c s) : Tiling c lo (a + s) cs' := by
  obtain ⟨pre, rfl, rfl⟩ := hstep
  have hlay := c.layout
  obtain ⟨q, pre, rfl⟩ : ∃ q rest, pre = q :: rest := by
    cases pre with
    | nil => exact absurd (by simpa [Chunk.guard] using h.head) hne.symm
    | cons q rest => exact ⟨q, rest, rfl⟩
  refine ⟨?_, by simpa using h.head, List.getLast?_eq_some_iff.mpr ⟨_, append_cons _ _ _⟩,
    fun k hk => ?_⟩
  · obtain ⟨hpre, -, hjoin⟩ := isChain_append.mp h.meets
    refine isChain_append.mpr ⟨hpre, by simp [Chunk.Meets, Chunk.guard], ?_⟩
    simpa [Chunk.Meets, Chunk.guard] using hjoin
  rcases mem_append.mp hk with hpre | hpost
  · rcases h.ok k (mem_append_left _ hpre) with heq | heq | hk'
    · exact .inl heq
    · have hle := h.le_of_mem_init hpre
      rw [heq, Chunk.guard] at hle
      simp only at hle
      omega
    · exact .inr (.inr hk')
  · simp only [mem_cons, not_mem_nil, or_false] at hpost
    rcases hpost with rfl | rfl
    · exact .inr (.inr hs)
    · exact .inr (.inl rfl)

theorem Extended.coalesced (hstep : Extended c s a cs cs') (h : Coalesced cs) : Coalesced cs' := by
  obtain ⟨pre, rfl, rfl⟩ := hstep
  refine isChain_append.mpr ⟨(isChain_append.mp h).1, by simp, fun p _ q hq => .inr ?_⟩
  obtain rfl : (⟨a, s, true⟩ : Chunk) = q := by simpa using hq
  rfl

theorem Rep.mmExtendLocked_spec (hrep : Rep c h cs)
    (hok : ExtendOk c h (h.mmHeapend + c.sizeofMmAllocnode) size) : ∃ m' cs',
    mmExtendLocked c h (h.mmHeapend + c.sizeofMmAllocnode) size
        = .ok { h with mem := m', mmHeapend := h.mmHeapend + size } ∧
      Rep c { h with mem := m', mmHeapend := h.mmHeapend + size } cs' ∧
      Extended c size h.mmHeapend cs cs' ∧
      ChangesOnly (span h.mmHeapend (size + c.sizeofMmAllocnode)) h.mem m' := by
  obtain ⟨ha, hf, hmm, hp, hmin⟩ := c.layout
  have hs : ChunkSize c size := ⟨hmin.trans (Nat.le_of_dvd hok.size_pos hok.size_dvd),
    c.unit_dvd_mmMinChunk.trans hok.size_dvd⟩
  have hge := hs.1
  have hlo := hrep.region.start_lt
  have hpos := hrep.region.start_pos
  have hend := hok.end_lt
  have hlt := hok.size_lt
  have hapart := hok.apart
  have htag := tag_lt_two_mul (c := c) (s := size) (u := true) (by omega)
  have htag' : size ||| c.mmAllocBit = c.tag size true := c.or_mmAllocBit (by omega)
  obtain ⟨pre, hcs⟩ := List.getLast?_eq_some_iff.mp hrep.tiling.last
  subst hcs
  generalize hhi : h.mmHeapend = hi at *
  have hstep : Extended c size hi (pre ++ [.guard c hi]) _ := ⟨pre, rfl, rfl⟩
  have htiling := hstep.tiling (hhi ▸ hrep.tiling) (by omega) hs
  have halloc : isAllocated c (setSize c h.mem hi size) hi = true := by
    rw [isAllocated, nodePreceding_setSize (by omega), ← isAllocated]
    exact hrep.isAllocated_eq (mem_append_right _ (mem_singleton_self _))
  have heval : mmExtendLocked c h (hi + c.sizeofMmAllocnode) size = .ok { h with
      mem := setPreceding c (setSize c (setSize c h.mem hi size) (hi + size) c.sizeofMmAllocnode)
        (hi + size) (c.tag size true)
      mmHeapend := hi + size } := by
    have hnew : c.sub (hi + c.sizeofMmAllocnode + size) c.sizeofMmAllocnode = hi + size := by
      rw [c.sub_eq (by omega) (by omega)]
      omega
    simp (disch := omega) only [mmExtendLocked, hhi, beq_self_eq_true, halloc, c.add_eq hend, hnew,
      nodeSize_setSize, nodeSize_setSize_of_ne, htag', debugassert_true]
    rfl
  have hchg : ChangesOnly (span hi (size + c.sizeofMmAllocnode)) h.mem (setPreceding c (setSize c
      (setSize c h.mem hi size) (hi + size) c.sizeofMmAllocnode) (hi + size) (c.tag size true)) := by
    refine (((ChangesOnly.refl _ h.mem).store _ ?_).store _ ?_).store _ ?_ <;>
    · intro x hx
      simp only [mem_span] at hx ⊢
      omega
  have hinit := fun k (hk : k ∈ pre) => (hhi ▸ hrep.tiling).le_of_mem_init hk
  have hkeep : ∀ k ∈ pre, ∀ q, Header c h.mem q k → Header c (setPreceding c (setSize c
      (setSize c h.mem hi size) (hi + size) c.sizeofMmAllocnode) (hi + size) (c.tag size true)) q k := by
    rintro k hk q ⟨hsize, hprec⟩
    have hbound := hinit k hk
    have hksize := hrep.tiling.size_ge (a := k.addr) (s := k.size) (u := k.used)
      (mem_append_left _ hk)
    refine ⟨(hchg.load_eq fun x hx hx' hmem => ?_).trans hsize,
      (hchg.load_eq fun x hx hx' hmem => ?_).trans hprec⟩ <;>
    · rw [mem_span] at hmem
      omega
  refine ⟨_, _, heval, ⟨?_, htiling, ?_, ?_, ?_⟩, hstep, hchg⟩
  · exact ⟨hpos, hrep.region.start_dvd, by simp only; omega, by simp only; omega, by simp only; omega,
      hrep.region.nodelist_pos, hrep.region.nodelist_le, by simp only; omega⟩
  · refine hkeep _ ?_ _ hrep.first
    have hguard := hrep.tiling.guard_mem.1
    rcases mem_append.mp hguard with hmem | hmem
    · exact hmem
    · simp only [mem_singleton, Chunk.guard, Chunk.mk.injEq] at hmem
      omega
  · obtain ⟨hpre, -, hjoin⟩ := isChain_append.mp hrep.headers
    refine isChain_append.mpr ⟨?_, ?_, ?_⟩
    · exact hpre.imp_of_mem_imp fun q k _ hk hqk => ⟨hqk.1, hkeep k hk q hqk.2⟩
    · simp (disch := omega) only [isChain_cons_cons, isChain_singleton, Follows, Header,
        Chunk.Meets, Chunk.guard, and_true, nodeSize_setSize, nodeSize_setPreceding,
        nodePreceding_setPreceding]
    intro q hq k hk
    obtain rfl : (⟨hi, size, true⟩ : Chunk) = k := by simpa using hk
    obtain ⟨hmeets, -, hprec⟩ := hjoin q hq _ rfl
    refine ⟨hmeets, ?_, ?_⟩
    · simp (disch := omega) only [nodeSize_setSize, nodeSize_setSize_of_ne, nodeSize_setPreceding]
    · simp (disch := omega) only [nodePreceding_setPreceding_of_ne, nodePreceding_setSize]
      exact hprec
  · obtain ⟨ns, hlist, hlisted⟩ := hrep.list
    have hfree : ∀ b t, (⟨b, t, false⟩ : Chunk) ∈ pre ++ [.guard c hi] ↔ ⟨b, t, false⟩ ∈ pre := by
      simp [Chunk.guard]
    refine ⟨ns, hlist.congr_of_outside hchg fun node hnode x hx hin => ?_, ?_⟩
    · rw [mem_span] at hx
      cases node with
      | hook i =>
        have hbounds := @hookAddr_bounds c h.mmNodelist i ((hlist.hooks i).mp hnode)
        simp only [FreeNode.addr_hook] at hin
        omega
      | chunk b t =>
        have hmem := (hfree b t).mp ((hlisted b t).mp hnode).1
        have hle := hinit _ hmem
        have hsize := (hrep.tiling.ok_of_free (mem_append_left _ hmem)).1
        simp only [FreeNode.addr_chunk] at hin hle
        omega
    · intro b t
      rw [hlisted, hfree]
      simp [Chunk.guard]

end Extend

end Nuttx.Mm

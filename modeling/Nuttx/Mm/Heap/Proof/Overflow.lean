import Nuttx.Mm.Heap.Proof.WellFormed

/-!
# Sizes that wrap

`mm_malloc` and `mm_realloc` compute the size of a chunk in `size_t`. With assertions compiled out
nothing stops a size near `SIZE_MAX`.
-/

open List

namespace Nuttx.Mm

open ByteMemory LinkedList

def payloadEnd (c : HeapConfig) (h : Heap) (p : Nat) : Nat :=
  p - c.sizeofMmAllocnode + nodeSize c h.mem (p - c.sizeofMmAllocnode)

structure Sufficient (c : HeapConfig) (st : Sys) (p size : Nat) : Prop where
  enough : p + size ≤ payloadEnd c st.heap p
  /-- The chunk lies between the guards. -/
  low : st.heap.mmHeapstart + 2 * c.sizeofMmAllocnode ≤ p
  high : payloadEnd c st.heap p ≤ st.heap.mmHeapend
  apart : ∀ q ∈ st.live, q ≠ p → payloadEnd c st.heap p ≤ q ∨ payloadEnd c st.heap q ≤ p

def Sys.Serves (c : HeapConfig) (st : Sys) (x : Call) (size : Nat) : Prop :=
  ∀ p st', st.call c x = .ok (p, st') → p ≠ 0 → Sufficient c st' p size

/-- No free chunk has the size of a granule. -/
def Exhausted (c : HeapConfig) (h : Heap) : Prop :=
  ∃ h' cs, mmFreeDelaylist c h = .ok h' ∧ h'.chunks c = some cs ∧
    ∀ k ∈ cs, k.used = false → k.size < c.mmMinChunk

def MallocServes (c : HeapConfig) (h : Heap) (size : Nat) : Prop :=
  SizeOk c size ∨ (c.mmAlignUp (c.add size c.sizeofMmAllocnode) ≠ 0 ∧ Exhausted c h)

variable {c : HeapConfig} {h : Heap} {m : Mem} {st : Sys} {cs own ds : List Chunk} {k : Chunk}
  {size n p : Nat} {x : Call}

theorem HeapOk.payloadEnd_eq (hok : HeapOk c h cs own ds) (hk : k ∈ own) :
    payloadEnd c h (k.mem c) = k.addr + k.size := by
  rw [payloadEnd, Chunk.mem, Nat.add_sub_cancel,
    hok.rep.nodeSize_eq (hok.mem_cs (mem_append_left ds hk)).1]

theorem After.sufficient {st' : Sys} (hafter : After c st x p st' cs own ds)
    (hreq : x.requested = some size) (hp : p ≠ 0) : Sufficient c st' p size := by
  obtain ⟨k, hk, rfl, hle⟩ := hafter.served size hreq hp
  have hok := hafter.ok.heap
  obtain ⟨hmem, hlo, hhi⟩ := hok.mem_cs (mem_append_left ds hk)
  have hinside := hok.rep.tiling.inside hmem (Tiling.ne_guard_of_addr_ne hlo)
    (Tiling.ne_guard_of_addr_ne hhi)
  refine ⟨?_, ?_, ?_, fun q hq hne => ?_⟩
  · rw [hok.payloadEnd_eq hk, Chunk.mem]
    omega
  · rw [Chunk.mem]
    omega
  · rw [hok.payloadEnd_eq hk]
    omega
  obtain ⟨j, hj, rfl⟩ := hafter.ok.exists_mem hq
  have hjmem := (hok.mem_cs (mem_append_left ds hj)).1
  have hdisj := hok.rep.tiling.disjoint hmem hjmem (fun heq => hne (congrArg (Chunk.mem c) heq).symm)
  rw [hok.payloadEnd_eq hk, hok.payloadEnd_eq hj, Chunk.mem, Chunk.mem]
  omega

theorem SysOk.serves (hst : SysOk c st cs own ds) (hallow : st.Allows c x)
    (hclean : st.Clean c x) (hreq : x.requested = some size) : st.Serves c x size := by
  obtain ⟨ret, st1, cs1, own1, ds1, hcall, hafter⟩ := hst.step hallow hclean
  intro p st' heval hp
  cases hcall.symm.trans heval
  exact hafter.sufficient hreq hp

theorem alignsize_wraps (hsize : ¬ SizeOk c size) (hlt : size < c.sizeMod) :
    c.mmAlignUp (c.add size c.sizeofMmAllocnode) = 0 ∨
      c.mmAlignUp (c.add size c.sizeofMmAllocnode) = c.mmMinChunk := by
  have hlay := c.layout
  obtain ⟨hbit, hmod, -⟩ := c.powers
  have hmask : c.mmGranMask = c.mmMinChunk - 1 := rfl
  unfold SizeOk at hsize
  by_cases hadd : size + c.sizeofMmAllocnode < c.sizeMod
  · -- the header fits, but not the rounding
    left
    have hround : c.add (size + c.sizeofMmAllocnode) c.mmGranMask
        = size + c.sizeofMmAllocnode + c.mmGranMask - c.sizeMod := by
      rw [HeapConfig.add, Nat.mod_eq_sub_mod (by omega), Nat.mod_eq_of_lt (by omega)]
    rw [c.add_eq hadd, HeapConfig.mmAlignUp, hround, ← HeapConfig.mmAlignDown,
      c.mmAlignDown_eq (by omega), Nat.div_eq_of_lt (by omega), zero_mul]
  · have hwrap : c.add size c.sizeofMmAllocnode = size + c.sizeofMmAllocnode - c.sizeMod := by
      rw [HeapConfig.add, Nat.mod_eq_sub_mod (by omega), Nat.mod_eq_of_lt (by omega)]
    rw [hwrap]
    generalize hx : size + c.sizeofMmAllocnode - c.sizeMod = x
    obtain ⟨hge, hle, d, hd⟩ := c.mmAlignUp_spec (a := x) (by omega)
    have hd2 : d < 2 := by
      by_contra hd2
      have hmul : c.mmMinChunk * 2 ≤ c.mmMinChunk * d := Nat.mul_le_mul_left _ (by omega)
      omega
    rw [hd]
    rcases (show d = 0 ∨ d = 1 by omega) with rfl | rfl
    · exact .inl (mul_zero _)
    · exact .inr (mul_one _)

section

variable (hdebug : c.debugAssertions = false)

include hdebug

theorem debugassert_off (site : Assertion) (b : Bool) : debugassert c site b = .ok () := by
  simp [debugassert, debugAssert, hdebug]

theorem mmAddfreechunk_zero {node : Nat} (hsize : nodeSize c m node = 0) :
    ∃ m', mmAddfreechunk c h m node = .ok m' := by
  have hpow : 0 < c.sizeMod := by
    have hlt := c.powers
    have hpos := c.mmMinChunk_pos
    omega
  simp [mmAddfreechunk, seek_stop hpow, hsize, debugassert_off hdebug]

theorem mallocSplit_zero (node : Nat) : ∃ m', mallocSplit c h m node 0 = .ok m' := by
  have hlay := c.layout
  have hbit : 0 < 2 * c.mmAllocBit := Nat.mul_pos (by omega) (Nat.two_pow_pos _)
  have hle : c.sub (nodeSize c m node) 0 ≤ nodeSize c m node := by
    rw [HeapConfig.sub, Nat.sub_zero, Nat.add_mod_right]
    exact Nat.mod_le _ _
  rw [mallocSplit]
  split
  · refine mmAddfreechunk_zero hdebug ?_
    simp (disch := omega) only [updatePreceding, Nat.add_zero, nodeSize_setPreceding, nodeSize_setSize]
  · exact ⟨m, rfl⟩

theorem mmShrinkchunk_zero (node : Nat) (hsize : c.sizeofMmAllocnode ≤ nodeSize c m node) :
    ∃ m', mmShrinkchunk c h m node 0 = .ok m' := by
  have hbit : 0 < 2 * c.mmAllocBit := Nat.mul_pos (by omega) (Nat.two_pow_pos _)
  simp only [mmShrinkchunk, debugassert_off hdebug, Result.ok_bind]
  split
  · refine mmAddfreechunk_zero hdebug ?_
    simp (disch := omega) only [updatePreceding, Nat.add_zero, nodeSize_setPreceding, nodeSize_setSize]
  split
  · refine mmAddfreechunk_zero hdebug ?_
    simp (disch := omega) only [Nat.add_zero, nodeSize_setPreceding, nodeSize_setSize]
  · exact ⟨m, rfl⟩

end

theorem mmSize2ndx_zero (c : HeapConfig) : c.mmSize2ndx 0 = 0 := by
  have hpos : 0 < c.mmMaxChunk := Nat.two_pow_pos _
  rw [HeapConfig.mmSize2ndx, if_neg (by omega), Nat.zero_shiftRight]
  cases c.mmMaxShift <;> rfl

theorem FreeList.flink_first_ne_zero {nodelist : Nat} {ns : List FreeNode}
    (hlist : FreeList c nodelist m ns) : nodeFlink c m (hookAddr c nodelist 0) ≠ 0 := by
  have hhooks : 1 < c.mmNnodes := Nat.succ_lt_succ (Nat.sub_pos_of_lt c.minShift_lt_maxShift)
  have hhead := hlist.head_eq
  have hmem0 := (hlist.hooks 0).mpr (by omega)
  have hmem1 := (hlist.hooks 1).mpr hhooks
  cases ns with
  | nil => cases hmem0
  | cons x ns =>
    cases ns with
    | nil =>
      cases (mem_singleton.mp hmem0).trans (mem_singleton.mp hmem1).symm
    | cons y ns =>
      rw [map_cons, headD_cons] at hhead
      have hfwd : nodeFlink c m (x.addr c nodelist) = y.addr c nodelist :=
        Threaded.fwd_eq (show Threaded 0 _ _ ([] ++ x.addr c nodelist :: _) from hlist.threaded)
      rw [← hhead, hfwd]
      exact (hlist.addr_pos y (by simp)).ne'

theorem Rep.mmMallocLocked_zero (hrep : Rep c h cs) (hdebug : c.debugAssertions = false) :
    ∃ r m', mmMallocLocked c h 0 = .ok (r, { h with mem := m' }) ∧ r ≠ 0 := by
  obtain ⟨ns, hlist, -⟩ := hrep.list
  have hfirst := hlist.flink_first_ne_zero
  have hmax : 0 < c.mmMaxChunk := Nat.two_pow_pos _
  have hpow : 0 < c.sizeMod := by
    have hlt := c.powers
    have hpos := c.mmMinChunk_pos
    omega
  generalize hnode : nodeFlink c h.mem (hookAddr c h.mmNodelist 0) = node at hfirst
  obtain ⟨m', hsplit⟩ := mallocSplit_zero (h := h) (m := unlinkNode c h.mem node) hdebug node
  refine ⟨node + c.sizeofMmAllocnode, setPreceding c m' node (nodePreceding c m' node ||| c.mmAllocBit),
    ?_, by omega⟩
  rw [mmMallocLocked, if_neg (show ¬ 0 ≥ c.mmMaxChunk by omega), mmSize2ndx_zero]
  simp only [hnode]
  rw [seek_stop hpow (by simp)]
  simp [hfirst, debugassert_off hdebug, hsplit]

theorem Region.serves_iff_of_wraps (live : List Nat) (hregion : Region c h)
    (hsize : ¬ SizeOk c size) (hcall : st.call c x = .ok (p, ⟨h, live⟩)) :
    st.Serves c x size ↔ p = 0 := by
  refine ⟨fun hserves => ?_, fun hp p' st'' heval hp' => ?_⟩
  · by_contra hp
    obtain ⟨henough, hlow, hhigh, -⟩ := hserves p ⟨h, live⟩ hcall hp
    have hstart := Nat.le_of_dvd hregion.start_pos hregion.start_dvd
    have hend := hregion.end_lt
    have hmask : c.mmGranMask = c.mmMinChunk - 1 := rfl
    unfold SizeOk at hsize
    dsimp only at henough hlow hhigh
    omega
  · cases hcall.symm.trans heval
    exact absurd hp hp'

theorem Region.with_mem (hregion : Region c h) (m' : Mem) : Region c { h with mem := m' } :=
  ⟨hregion.start_pos, hregion.start_dvd, hregion.start_lt, hregion.size_lt, hregion.end_lt,
    hregion.nodelist_pos, hregion.nodelist_le, hregion.apart⟩

namespace SysOk

/-- **`mm_malloc`** serves its caller exactly when its size does not wrap, or wraps to one granule in
an exhausted heap. -/
theorem malloc_serves_iff (hst : SysOk c st cs own ds) (hdebug : c.debugAssertions = false)
    (hpos : 0 < size) (hlt : size < c.sizeMod) : st.Serves c (.malloc size) size ↔ MallocServes c st.heap size := by
  by_cases hsize : SizeOk c size
  · exact iff_of_true (hst.serves hsize trivial rfl) (.inl hsize)
  obtain ⟨m1, cs1, hdelay, hok1, -, -⟩ := hst.heap.mmFreeDelaylist
  have hregion := hok1.rep.region
  have hchunks := (HeapInv.chunks_eq hok1.rep).1
  have hiff : ∀ {n r m2}, c.mmAlignUp (c.add size c.sizeofMmAllocnode) = n →
      mmMallocLocked c { st.heap with mem := m1, mmDelaylist := 0 } n
        = .ok (r, { st.heap with mem := m2, mmDelaylist := 0 }) →
      (st.Serves c (.malloc size) size ↔ r = 0) := by
    rintro n r m2 rfl hlocked
    obtain ⟨m3, heval⟩ : ∃ m3, mmMalloc c st.heap size
        = .ok (r, { st.heap with mem := m3, mmDelaylist := 0 }) := by
      simp only [mmMalloc, hdelay, hlocked, debugassert_off hdebug, if_neg (show ¬ size < 1 by omega),
        Result.ok_bind, Result.pure_eq_ok]
      split
      · exact ⟨_, rfl⟩
      · exact ⟨m2, rfl⟩
    refine (hregion.with_mem m3).serves_iff_of_wraps (Sys.hold r st.live) hsize ?_
    simp [Sys.call, heval]
  have hexhausted : Exhausted c st.heap ↔
      ∀ k ∈ cs1, k.used = false → k.size < c.mmMinChunk := by
    refine ⟨?_, fun hall => ⟨_, cs1, hdelay, hchunks, hall⟩⟩
    rintro ⟨h', cs', hdelay', hchunks', hall⟩
    cases hdelay.symm.trans hdelay'
    cases hchunks.symm.trans hchunks'
    exact hall
  rw [MallocServes, or_iff_right hsize, hexhausted]
  rcases alignsize_wraps hsize hlt with hn | hn
  · obtain ⟨r, m2, hlocked, hr⟩ := hok1.rep.mmMallocLocked_zero hdebug
    rw [hiff hn hlocked]
    exact iff_of_false hr fun hboth => hboth.1 hn
  have hne : c.mmAlignUp (c.add size c.sizeofMmAllocnode) ≠ 0 := by
    have hminpos := c.mmMinChunk_pos
    omega
  rcases hok1.mmMallocLocked c.layout.2.2.2.2 c.unit_dvd_mmMinChunk
    with ⟨hlocked, hsmall⟩ | ⟨k, cs2, m2, hlocked, hok2, -, hstep, -⟩
  · exact iff_of_true ((hiff hn hlocked).mpr rfl) ⟨hne, hsmall⟩
  · have hkne := hok2.mem_ne_zero (mem_append_left [] mem_cons_self)
    rw [hiff hn hlocked]
    refine iff_of_false hkne fun hboth => ?_
    obtain ⟨pre, t, post, hcs, hle, -⟩ := hstep
    exact absurd (hboth.2 ⟨k.addr, t, false⟩ (by simp [hcs]) rfl) hle.not_gt

/-- **`mm_realloc`** does not serve its caller when its size wraps: a wrapped size is taken for a
request to shrink. -/
theorem sizeOk_of_realloc_serves (hst : SysOk c st cs own ds) (hdebug : c.debugAssertions = false)
    (hpos : 0 < size) (hlt : size < c.sizeMod) {oldmem : Nat} (hmem : oldmem ∈ st.live)
    (hmin : c.mmMinChunk ≤ nodeSize c st.heap.mem (oldmem - c.sizeofMmAllocnode))
    (hserves : st.Serves c (.realloc oldmem size) size) : SizeOk c size := by
  by_contra hsize
  obtain ⟨k, hk, rfl⟩ := hst.exists_mem hmem
  have hne := hst.mem_ne_zero hk
  have hkds := mem_append_left ds hk
  obtain ⟨hkmem, hlo, hhi⟩ := hst.heap.mem_cs hkds
  have hkge := (hst.heap.size_ok hkds).1
  rw [Chunk.mem, Nat.add_sub_cancel, hst.heap.rep.nodeSize_eq hkmem] at hmin
  have hlocked : ∃ r m', r ≠ 0 ∧ mmReallocLocked c st.heap (k.mem c)
      (c.mmAlignUp (c.add size c.sizeofMmAllocnode)) = .ok (some r, { st.heap with mem := m' }) := by
    rcases alignsize_wraps hsize hlt with hn | hn
    · have hlay := c.layout
      have hksize := hst.heap.rep.nodeSize_eq hkmem
      obtain ⟨m', hshrink⟩ := mmShrinkchunk_zero (h := st.heap) (m := st.heap.mem)
        hdebug k.addr (by omega)
      refine ⟨k.mem c, m', hne, ?_⟩
      rw [hn, Chunk.mem, mmReallocLocked, Nat.add_sub_cancel]
      simp [hksize, show 0 < k.size by omega, debugassert_off hdebug, hshrink]
    · rcases hst.heap.mmReallocLocked hk c.layout.2.2.2.2 dvd_rfl (by
        rintro pre p s q post rfl hs
        have hsame := hst.heap.rep.tiling.eq_of_addr_eq hkmem
          (show (⟨k.addr, s, true⟩ : Chunk) ∈ _ by simp) rfl
        have hsize := congrArg Chunk.size hsame
        dsimp only at hsize
        omega) with ⟨-, hsmall⟩ | ⟨k', cs', m', heval, hok', -⟩
      · omega
      · exact ⟨k'.mem c, m', hok'.mem_ne_zero (mem_append_left ds mem_cons_self), hn ▸ heval⟩
  obtain ⟨r, m', hr, hlocked⟩ := hlocked
  refine hr (((hst.heap.rep.region.with_mem m').serves_iff_of_wraps
    (Sys.hold r (Sys.release (k.mem c) st.live)) hsize ?_).mp hserves)
  simp [Sys.call, mmRealloc, hne, show size ≠ 0 by omega, hlocked, hr]

end SysOk

end Nuttx.Mm

import Nuttx.Mm.Heap.Spec
import Nuttx.Mm.Heap.Proof.Runs

/-!
# The walks over a heap in order

A heap in order is well formed: the walk over the region finds its chunks, and the walk over the
free list finds the hooks and the free chunks.
-/

open List

namespace Nuttx.Mm

open ByteMemory LinkedList FreeNode

variable {c : HeapConfig} {h : Heap} {m : Mem} {cs own ds : List Chunk} {k : Chunk} {hi : Nat}
  {rest : List Chunk}

theorem addr_add_total (hmeets : (k :: rest).IsChain Chunk.Meets)
    (hlast : (k :: rest).getLast? = some (.guard c hi)) :
    k.addr + total (k :: rest) = hi + c.sizeofMmAllocnode := by
  induction rest generalizing k with
  | nil =>
    obtain rfl : k = .guard c hi := by simpa using hlast
    simp [total, Chunk.guard]
  | cons j rest ih =>
    obtain ⟨hkj, hrest⟩ := isChain_cons_cons.mp hmeets
    have htotal := ih hrest (by simpa [List.getLast?_cons_cons] using hlast)
    unfold Chunk.Meets at hkj
    simp only [total, map_cons, sum_cons] at htotal ⊢
    omega

theorem walkChunks_eq {fuel : Nat} (hmeets : (k :: rest).IsChain Chunk.Meets)
    (hbefore : (k :: rest).Pairwise Chunk.Before)
    (hlast : (k :: rest).getLast? = some (.guard c hi))
    (hnode : ∀ j ∈ k :: rest, nodeSize c m j.addr = j.size ∧ isAllocated c m j.addr = j.used)
    (hpos : ∀ j ∈ k :: rest, 0 < j.size) (hfuel : rest.length < fuel) :
    walkChunks c m hi fuel k.addr = some (k :: rest) := by
  induction rest generalizing k fuel with
  | nil =>
    obtain ⟨fuel, rfl⟩ : ∃ n, fuel = n + 1 := ⟨fuel - 1, by omega⟩
    obtain rfl : k = .guard c hi := by simpa using hlast
    obtain ⟨hsize, hused⟩ := hnode _ mem_cons_self
    rw [walkChunks, hsize, hused]
    exact if_pos rfl
  | cons j rest ih =>
    obtain ⟨fuel, rfl⟩ : ∃ n, fuel = n + 1 := ⟨fuel - 1, by omega⟩
    obtain ⟨hkj, hrest⟩ := isChain_cons_cons.mp hmeets
    obtain ⟨hk, hbefore'⟩ := pairwise_cons.mp hbefore
    have hlast' : (j :: rest).getLast? = some (.guard c hi) := by
      simpa [List.getLast?_cons_cons] using hlast
    have hne : k.addr ≠ hi := by
      have hle := hk _ (mem_of_mem_getLast? hlast')
      have hkpos := hpos k mem_cons_self
      simp only [Chunk.Before, Chunk.guard] at hle
      omega
    obtain ⟨hsize, hused⟩ := hnode k mem_cons_self
    have hwalk := ih hrest hbefore' hlast' (fun i hi => hnode i (mem_cons_of_mem _ hi))
      (fun i hi => hpos i (mem_cons_of_mem _ hi)) (show rest.length < fuel by simpa using hfuel)
    rw [walkChunks, hsize, hused, if_neg hne, ← hkj, hwalk]
    rfl

theorem length_le_total {ks : List Chunk} (hpos : ∀ j ∈ ks, 0 < j.size) : ks.length ≤ total ks := by
  induction ks with
  | nil => exact Nat.zero_le _
  | cons j ks ih =>
    obtain ⟨hj, hks⟩ := forall_mem_cons.mp hpos
    have hrest := ih hks
    simp only [total, length_cons, map_cons, sum_cons] at hrest ⊢
    omega

theorem Tiling.fills {lo : Nat} (h : Tiling c lo hi (.guard c lo :: rest)) :
    lo + total (.guard c lo :: rest) = hi + c.sizeofMmAllocnode ∧ rest.length < hi + 1 := by
  have hlay := c.layout
  have htotal := addr_add_total h.meets h.last
  have hlen := @length_le_total rest fun j hj =>
    lt_of_lt_of_le (by omega) (h.size_ge (mem_cons_of_mem _ hj))
  refine ⟨htotal, ?_⟩
  simp only [total, Chunk.guard, map_cons, sum_cons] at htotal hlen
  omega

theorem HeapInv.chunks_eq {hid : List Chunk} (hinv : HeapInv c h h.mem cs hid) :
    h.chunks c = some cs ∧ h.mmHeapstart + total cs = h.mmHeapend + c.sizeofMmAllocnode := by
  have hlay := c.layout
  obtain ⟨rest, rfl⟩ := hinv.tiling.exists_cons
  obtain ⟨hfills, hfuel⟩ := hinv.tiling.fills
  refine ⟨walkChunks_eq hinv.tiling.meets hinv.tiling.pairwise_before hinv.tiling.last
    (fun j hj => ⟨hinv.nodeSize_eq hj, hinv.isAllocated_eq hj⟩) (fun j hj => ?_) hfuel, hfills⟩
  exact lt_of_lt_of_le (by omega) (hinv.tiling.size_ge hj)

theorem walkNodes_eq {l : List Nat} {fuel : Nat} (hl : Threaded 0 (nodeFlink c m) (nodeBlink c m) l)
    (hpos : ∀ x ∈ l, x ≠ 0) (hfuel : l.length < fuel) :
    walkNodes c m fuel (l.headD 0) = some l := by
  induction l generalizing fuel with
  | nil =>
    obtain ⟨fuel, rfl⟩ : ∃ n, fuel = n + 1 := ⟨fuel - 1, by omega⟩
    rfl
  | cons x l ih =>
    obtain ⟨fuel, rfl⟩ : ∃ n, fuel = n + 1 := ⟨fuel - 1, by omega⟩
    have hfwd : nodeFlink c m x = l.headD 0 := Threaded.fwd_eq (show Threaded 0 _ _ ([] ++ x :: l) from hl)
    have hl' : Threaded 0 (nodeFlink c m) (nodeBlink c m) l := List.IsChain.tail hl
    rw [headD_cons, walkNodes, if_neg (hpos x mem_cons_self), hfwd,
      ih hl' (fun y hy => hpos y (mem_cons_of_mem _ hy))
        (show l.length < fuel by simpa using hfuel)]
    rfl

theorem pair_sublist {α : Type} {R : α → α → Prop} {l : List α} {x y : α} (hl : l.Pairwise R)
    (hx : x ∈ l) (hy : y ∈ l) (hne : x ≠ y) (hR : ¬ R y x) : [x, y].Sublist l := by
  obtain ⟨A, B, rfl⟩ := append_of_mem hx
  have hyB : y ∈ B := by
    rcases mem_append.mp hy with hA | hB
    · exact absurd ((pairwise_append.mp hl).2.2 y hA x mem_cons_self) hR
    · exact (mem_cons.mp hB).resolve_left hne.symm
  exact ((singleton_sublist.mpr hyB).cons_cons x).trans (sublist_append_right A _)

namespace FreeList

variable {nodelist : Nat} {ns : List FreeNode}

theorem head_eq (hlist : FreeList c nodelist m ns) :
    (ns.map (addr c nodelist)).headD 0 = hookAddr c nodelist 0 := by
  have hmem : .hook 0 ∈ ns := (hlist.hooks 0).mpr c.mmNnodes_pos
  cases ns with
  | nil => cases hmem
  | cons x ns =>
    rcases mem_cons.mp hmem with rfl | hmem
    · rfl
    have hle := (pairwise_cons.mp hlist.sorted).1 _ hmem
    cases x with
    | hook i =>
      simp only [Le, ndx_hook] at hle
      obtain rfl : i = 0 := by omega
      rfl
    | chunk a s =>
      have hpos := hlist.size_pos a s mem_cons_self
      simp only [Le, ndx_hook, size_chunk, size_hook] at hle
      omega

theorem nodes_eq (hlist : FreeList c h.mmNodelist h.mem ns) :
    h.nodes c = some (ns.map (addr c h.mmNodelist)) := by
  have hpos : ∀ x ∈ ns.map (addr c h.mmNodelist), x ≠ 0 := by
    intro x hx
    obtain ⟨n, hn, rfl⟩ := mem_map.mp hx
    exact (hlist.addr_pos n hn).ne'
  have hwalk := walkNodes_eq hlist.threaded hpos (by
    rw [length_map]
    exact hlist.length_lt)
  rwa [hlist.head_eq] at hwalk

theorem sorted_sizes (hlist : FreeList c nodelist m ns) :
    (ns.map (addr c nodelist)).Pairwise fun x y =>
      nodeSize c m y = 0 ∨ nodeSize c m x ≤ nodeSize c m y := by
  refine pairwise_map.mpr (hlist.sorted.imp_of_mem fun {x y} hx hy hxy => ?_)
  rw [hlist.sizes x hx, hlist.sizes y hy]
  cases y with
  | hook j => exact .inl rfl
  | chunk b t =>
    cases x with
    | hook i => exact .inr (Nat.zero_le _)
    | chunk a s =>
      refine .inr (Nat.le_of_not_lt fun hlt => ?_)
      have hmono := c.mmSize2ndx_mono (show t ≤ s from hlt.le)
      simp only [Le, ndx_chunk, size_chunk] at hxy hlt
      omega

theorem binned (hlist : FreeList c nodelist m ns) {a s : Nat} (hmem : .chunk a s ∈ ns) :
    [hookAddr c nodelist (c.mmSize2ndx s), a].Sublist (ns.map (addr c nodelist)) ∧
      (c.mmSize2ndx s + 1 < c.mmNnodes → [a, hookAddr c nodelist (c.mmSize2ndx s + 1)].Sublist
        (ns.map (addr c nodelist))) := by
  have hpos := hlist.size_pos a s hmem
  constructor
  · have hsub := pair_sublist hlist.sorted ((hlist.hooks _).mpr (c.mmSize2ndx_lt s)) hmem (by simp) (by
      simp only [Le, ndx_hook, ndx_chunk, size_chunk,
        size_hook]
      omega)
    exact hsub.map (addr c nodelist)
  · intro hlt
    have hsub := pair_sublist hlist.sorted hmem ((hlist.hooks _).mpr hlt) (by simp) (by
      simp only [Le, ndx_hook, ndx_chunk, size_chunk,
        size_hook]
      omega)
    exact hsub.map (addr c nodelist)

end FreeList

theorem HeapOk.wellFormed (hok : HeapOk c h cs own ds) (hco : Coalesced cs) :
    ∃ ns, WellFormed c h cs ns := by
  obtain ⟨ns, hlist, hlisted⟩ := hok.rep.list
  obtain ⟨hchunks, htotal⟩ := HeapInv.chunks_eq hok.rep
  refine ⟨ns.map (addr c h.mmNodelist), hchunks, hlist.nodes_eq, htotal, hok.rep.tiling.head,
    hok.rep.tiling.last, fun k hk hlo hhi => hok.rep.tiling.ok_of_addr_ne hk hlo hhi, ?_, hco,
    hlist.addr_nodup, fun x => ?_, ?_, fun a s hk => ?_, hlist.sorted_sizes⟩
  · refine hok.rep.headers.imp_of_mem_imp fun k k' hk _ hkk' => ?_
    rw [hkk'.2.2, HeapConfig.clearAllocBit_tag (hok.rep.size_lt hk)]
  · rw [mem_map]
    constructor
    · rintro ⟨n, hn, rfl⟩
      cases n with
      | hook i => exact .inl ⟨i, (hlist.hooks i).mp hn, rfl⟩
      | chunk a s => exact .inr ⟨s, ((hlisted a s).mp hn).1⟩
    · rintro (⟨i, hi, rfl⟩ | ⟨s, hk⟩)
      · exact ⟨.hook i, (hlist.hooks i).mpr hi, rfl⟩
      · exact ⟨.chunk x s, (hlisted x s).mpr ⟨hk, by simp⟩, rfl⟩
  · refine (isChain_append.mp hlist.threaded).1.imp_of_mem_imp fun x y _ hy hxy => hxy.2 ?_
    obtain ⟨n, hn, rfl⟩ := mem_map.mp hy
    exact (hlist.addr_pos n hn).ne'
  · exact hlist.binned ((hlisted a s).mpr ⟨hk, by simp⟩)

/-- **The heap invariant.** In the layout with four byte offsets and four byte pointers, the heap is
well formed after `mm_initialize` and after every run of calls. -/
theorem wellFormed_of_run (debug fill : Bool) (m : Mem) {nodelist heapstart heapsize : Nat}
    (hinit : InitOk (.bits32 debug fill) nodelist heapstart heapsize) :
    ∃ h, mmInitialize (.bits32 debug fill) m nodelist heapstart heapsize = .ok h ∧
      ∀ xs, (Sys.mk h []).Along (.bits32 debug fill) (Sys.Allows (.bits32 debug fill)) xs →
        ∃ st cs ns, (Sys.mk h []).run (.bits32 debug fill) xs = .ok st ∧
          WellFormed (.bits32 debug fill) st.heap cs ns := by
  obtain ⟨h, cs, heval, hst, -⟩ := sysOk_init hinit m
  refine ⟨h, heval, fun xs hall => ?_⟩
  obtain ⟨st, cs', own', ds', hrun, hst', -⟩ :=
    hst.run (fun hst hallow => ⟨hallow, hst.clean_of_unit le_rfl hallow⟩) hall
  obtain ⟨ns, hwf⟩ := hst'.heap.wellFormed hst'.coalesced
  exact ⟨st, cs', ns, hrun, hwf⟩

theorem wellFormed_of_run_page : InitOk (.bits32 true true) 4096 8192 4096 ∧ ∃ h st cs ns,
    mmInitialize (.bits32 true true) ⟨fun _ => 0⟩ 4096 8192 4096 = .ok h ∧
    (Sys.mk h []).run (.bits32 true true) [.malloc 100, .memalign 64 40, .realloc 0 8] = .ok st ∧
    WellFormed (.bits32 true true) st.heap cs ns := by
  obtain ⟨h, heval, hruns⟩ := wellFormed_of_run true true ⟨fun _ => 0⟩ (initOk_page true true)
  obtain ⟨st, cs, ns, hrun, hwf⟩ := hruns [.malloc 100, .memalign 64 40, .realloc 0 8]
    ⟨show SizeOk _ 100 by decide, fun _ _ => ⟨⟨⟨6, rfl⟩, by decide⟩, fun _ _ =>
      ⟨⟨.inl rfl, by decide⟩, fun _ _ => trivial⟩⟩⟩
  exact ⟨initOk_page true true, h, st, cs, ns, heval, hrun, hwf⟩

/-- **Best fit.** After the delayed frees, which it does first, `mm_malloc` returns `NULL` exactly when
all free chunks are too small, and else the memory of a smallest one that is not. -/
theorem malloc_best_fit (hok : HeapOk c h cs own ds) {size : Nat} (hsize : SizeOk c size)
    (hpos : 0 < size) :
    ∃ h1 cs1 ret h', mmFreeDelaylist c h = .ok h1 ∧ (h.mmDelaylist = 0 → h1 = h) ∧
      h1.chunks c = some cs1 ∧ mmMalloc c h size = .ok (ret, h') ∧
      (ret = 0 ↔ ∀ k ∈ cs1, k.used = false → k.size < c.mmAlignUp (size + c.sizeofMmAllocnode)) ∧
      (ret ≠ 0 → ∃ k ∈ cs1, k.used = false ∧ ret = k.mem c ∧
        c.mmAlignUp (size + c.sizeofMmAllocnode) ≤ k.size ∧
        ∀ j ∈ cs1, j.used = false → c.mmAlignUp (size + c.sizeofMmAllocnode) ≤ j.size →
          k.size ≤ j.size) := by
  have hlay := c.layout
  obtain ⟨-, -, hge, hdvd, hlt⟩ := alignsize_spec hsize
  obtain ⟨m1, cs1, hdelay, hok1, -, -⟩ := hok.mmFreeDelaylist
  have hsame : h.mmDelaylist = 0 → { h with mem := m1, mmDelaylist := 0 } = h := by
    intro hnone
    obtain ⟨fuel, hfuel⟩ := Nat.exists_eq_add_one_of_ne_zero (show c.sizeMod ≠ 0 by omega)
    rw [mmFreeDelaylist, hnone, hfuel] at hdelay
    exact (Except.ok.inj hdelay).symm.trans (by rw [← hnone])
  have hchunks := (HeapInv.chunks_eq hok1.rep).1
  rcases hok1.mmMallocLocked (n := c.mmAlignUp (size + c.sizeofMmAllocnode)) (by omega)
    (c.unit_dvd_mmMinChunk.trans hdvd) with ⟨hnull, hsmall⟩ | ⟨k, cs2, m2, hfound, hok2, -, hstep, -⟩
  · exact ⟨_, cs1, 0, _, hdelay, hsame, hchunks, mmMalloc_eq hsize hpos hdelay hnull,
      iff_of_true rfl hsmall, absurd rfl⟩
  obtain ⟨pre, s, post, hcs, hle, hbest, -⟩ := hstep
  have hmem : (⟨k.addr, s, false⟩ : Chunk) ∈ cs1 := by simp [hcs]
  have hne := hok2.mem_ne_zero (mem_append_left [] mem_cons_self)
  exact ⟨_, cs1, k.mem c, _, hdelay, hsame, hchunks, mmMalloc_eq hsize hpos hdelay hfound,
    iff_of_false hne fun hsmall => absurd (hsmall _ hmem rfl) hle.not_gt,
    fun _ => ⟨_, hmem, rfl, rfl, hle, hbest⟩⟩

/-- Of the free chunks of 208, 112 and 3664 bytes the second is taken. -/
theorem malloc_best_fit_page : ∃ h st cs1 h',
    mmInitialize (.bits32 true true) ⟨fun _ => 0⟩ 4096 8192 4096 = .ok h ∧
    (Sys.mk h []).run (.bits32 true true) [.malloc 200, .malloc 40, .malloc 100, .malloc 40,
      .free 8208 .task, .free 8464 .task] = .ok st ∧
    st.heap.chunks (.bits32 true true) = some cs1 ∧
    mmMalloc (.bits32 true true) st.heap 90 = .ok (8464, h') ∧
    ∃ k ∈ cs1, k.used = false ∧ 8464 = k.mem (.bits32 true true) ∧ 112 ≤ k.size ∧
      ∀ j ∈ cs1, j.used = false → 112 ≤ j.size → k.size ≤ j.size := by
  obtain ⟨h, cs, hinit, hst, -, hnone, -⟩ := sysOk_init (initOk_page true true) ⟨fun _ => 0⟩
  have hpage : ∃ h, mmInitialize (.bits32 true true) ⟨fun _ => 0⟩ 4096 8192 4096 = .ok h ∧
      ((Sys.mk h []).Along (.bits32 true true) (Sys.Allows (.bits32 true true)) [.malloc 200,
        .malloc 40, .malloc 100, .malloc 40, .free 8208 .task, .free 8464 .task] ∧
      ∃ st, (Sys.mk h []).run (.bits32 true true) [.malloc 200, .malloc 40, .malloc 100, .malloc 40,
        .free 8208 .task, .free 8464 .task] = .ok st ∧
      ∃ r, mmMalloc (.bits32 true true) st.heap 90 = .ok r ∧ r.1 = 8464) := by
    decide +kernel
  obtain ⟨h0, hinit0, hall, st, hrun, r, hcall, hr⟩ := hpage
  cases hinit.symm.trans hinit0
  obtain ⟨st', cs', own', ds', hrun', hst', -, -, -, hdelay⟩ :=
    hst.run (fun hst hallow => ⟨hallow, hst.clean_of_unit le_rfl hallow⟩) hall
  cases hrun.symm.trans hrun'
  obtain ⟨h1, cs1, ret, h', -, hsame, hchunks, hmalloc, -, hbest⟩ :=
    malloc_best_fit hst'.heap (show SizeOk (.bits32 true true) 90 by decide) (by decide)
  rw [hsame (hdelay hnone (by decide))] at hchunks
  cases hcall.symm.trans hmalloc
  cases hr
  exact ⟨h, st, cs1, h', hinit, hrun, hchunks, hmalloc, hbest (by decide)⟩

end Nuttx.Mm

import Nuttx.Mm.Heap.Proof.WellFormed
import Mathlib.Algebra.Order.BigOperators.Group.List

/-!
# The accounts of `mm_mallinfo`

`mm_mallinfo` adds up the chunks it meets on its way through the region. The total is the size of
the region.
-/

open List

namespace Nuttx.Mm

open ByteMemory LinkedList

variable {c : HeapConfig} {h : Heap} {m : Mem} {cs own ds pre rest : List Chunk} {k : Chunk}
  {info : Mallinfo}

def Largest (cs : List Chunk) (size : Nat) : Prop :=
  (∀ k ∈ cs, k.used = false → k.size ≤ size) ∧
    (size = 0 ∨ ∃ k ∈ cs, k.used = false ∧ k.size = size)

/-- `mm_mallinfo` returns, its totals add up to the size of the heap, and it finds the largest free
chunk. -/
def Accounted (c : HeapConfig) (h : Heap) : Prop :=
  ∃ info cs, mmMallinfo c h = .ok info ∧ h.chunks c = some cs ∧
    info.uordblks + info.fordblks = info.arena ∧ Largest cs info.mxordblk

def tally (info : Mallinfo) (k : Chunk) : Mallinfo :=
  if k.used then { info with uordblks := info.uordblks + k.size }
  else { info with
    ordblks := info.ordblks + 1
    fordblks := info.fordblks + k.size
    mxordblk := if k.size > info.mxordblk then k.size else info.mxordblk }

theorem FreeList.links_ok {nodelist : Nat} {ns : List FreeNode} (hlist : FreeList c nodelist m ns)
    {a s : Nat} (hmem : .chunk a s ∈ ns) :
    nodeFlink c m (nodeBlink c m a) = a ∧ nodeSize c m (nodeBlink c m a) ≤ nodeSize c m a ∧
      (nodeFlink c m a = 0 ∨ nodeBlink c m (nodeFlink c m a) = a ∧
        (nodeSize c m (nodeFlink c m a) = 0 ∨ nodeSize c m a ≤ nodeSize c m (nodeFlink c m a))) := by
  obtain ⟨A, p, B, rfl⟩ := hlist.exists_split_hook hmem
  have hthread := hlist.threaded
  have hsorted := hlist.sorted_sizes
  have ha := (hlist.addr_pos _ hmem).ne'
  have hsize : nodeSize c m a ≠ 0 := by
    have hpos := hlist.size_pos a s hmem
    have hs := hlist.sizes _ hmem
    simp only [FreeNode.addr_chunk, FreeNode.size_chunk] at hs
    omega
  simp only [map_append, map_cons, FreeNode.addr_chunk] at hthread hsorted ha
  have hblink : nodeBlink c m a = p.addr c nodelist := hthread.bwd_eq ha
  have hpfwd : nodeFlink c m (p.addr c nodelist) = a := hthread.fwd_eq
  have hright := (pairwise_append.mp hsorted).2.1
  obtain ⟨hp, hrest⟩ := pairwise_cons.mp hright
  refine ⟨by rw [hblink, hpfwd], ?_, ?_⟩
  · rw [hblink]
    exact (hp a mem_cons_self).resolve_left hsize
  rw [append_cons] at hthread
  cases B with
  | nil => exact .inl hthread.fwd_eq
  | cons q B =>
    have hq := (hlist.addr_pos q (by simp)).ne'
    have hflink : nodeFlink c m a = q.addr c nodelist := hthread.fwd_eq
    refine .inr ⟨?_, ?_⟩
    · rw [hflink]
      exact hthread.bwd_eq hq
    · rw [hflink]
      exact (pairwise_cons.mp hrest).1 _ mem_cons_self

theorem Rep.mallinfoNode_eq (hrep : Rep c h cs) (hk : k ∈ cs)
    (hu : info.uordblks + k.size < c.sizeMod) (hf : info.fordblks + k.size < c.sizeMod) :
    mallinfoNode c h.mem k.addr info = .ok (tally info k) := by
  have hsize : nodeSize c h.mem k.addr = k.size := hrep.nodeSize_eq hk
  have hused : isAllocated c h.mem k.addr = k.used := hrep.isAllocated_eq hk
  obtain ⟨a, s, used⟩ := k
  cases used with
  | true =>
    have hge := hrep.tiling.size_ge hk
    simp [mallinfoNode, hused, hsize, hge, c.add_eq hu, tally]
  | false =>
    obtain ⟨ns, hlist, hlisted⟩ := hrep.list
    obtain ⟨hback, hbsize, hfwd⟩ := hlist.links_ok ((hlisted a s).mpr ⟨hk, by simp⟩)
    have hge := (hrep.tiling.ok_of_free hk).1
    have hassert1 : (nodeFlink c h.mem a == 0 ||
        nodeBlink c h.mem (nodeFlink c h.mem a) == a) = true := by
      simp only [Bool.or_eq_true, beq_iff_eq]
      tauto
    have hassert2 : (nodeFlink c h.mem a == 0 || nodeSize c h.mem (nodeFlink c h.mem a) == 0 ||
        decide (nodeSize c h.mem (nodeFlink c h.mem a) ≥ s)) = true := by
      simp only [Bool.or_eq_true, beq_iff_eq, decide_eq_true_eq]
      rw [hsize] at hfwd
      tauto
    rw [hsize] at hbsize
    simp [mallinfoNode, hused, hsize, hge, hback, hbsize, hassert1, hassert2, c.add_eq hf, tally]

theorem tally_spec (info : Mallinfo) (k : Chunk) :
    (tally info k).uordblks + (tally info k).fordblks = info.uordblks + info.fordblks + k.size ∧
      info.mxordblk ≤ (tally info k).mxordblk ∧
      (k.used = false → k.size ≤ (tally info k).mxordblk) ∧
      ((tally info k).mxordblk = info.mxordblk ∨
        k.used = false ∧ k.size = (tally info k).mxordblk) := by
  unfold tally
  cases k.used with
  | true => simp [Nat.add_right_comm]
  | false =>
    simp only [Bool.false_eq_true, if_false, forall_true_left, true_and]
    split <;> omega

theorem foldl_tally (ks : List Chunk) (info : Mallinfo) :
    (ks.foldl tally info).uordblks + (ks.foldl tally info).fordblks
        = info.uordblks + info.fordblks + total ks ∧
      info.mxordblk ≤ (ks.foldl tally info).mxordblk ∧
      (∀ k ∈ ks, k.used = false → k.size ≤ (ks.foldl tally info).mxordblk) ∧
      ((ks.foldl tally info).mxordblk = info.mxordblk ∨
        ∃ k ∈ ks, k.used = false ∧ k.size = (ks.foldl tally info).mxordblk) := by
  induction ks generalizing info with
  | nil => simp [total]
  | cons k ks ih =>
    obtain ⟨htotal, hmono, hall, hsome⟩ := ih (tally info k)
    rw [foldl_cons]
    have hk := tally_spec info k
    refine ⟨?_, hk.2.1.trans hmono, ?_, ?_⟩
    · rw [htotal, hk.1]
      simp only [total, map_cons, sum_cons]
      omega
    · rintro j hj hfree
      rcases mem_cons.mp hj with rfl | hj
      · exact (hk.2.2.1 hfree).trans hmono
      · exact hall j hj hfree
    · rcases hsome with heq | ⟨j, hj, hfree, hsize⟩
      · rcases hk.2.2.2 with heq' | ⟨hfree, hsize⟩
        · exact .inl (heq.trans heq')
        · exact .inr ⟨k, mem_cons_self, hfree, hsize.trans heq.symm⟩
      · exact .inr ⟨j, mem_cons_of_mem _ hj, hfree, hsize⟩

theorem Rep.mallinfoLoop_eq {fuel : Nat} (hrep : Rep c h (pre ++ k :: rest))
    (hsum : info.uordblks + info.fordblks + total (k :: rest) < c.sizeMod)
    (hfuel : rest.length < fuel) :
    mallinfoLoop c h fuel k.addr (pre.getLast?.map Chunk.addr) info
      = .ok ((k :: rest).dropLast.foldl tally info) := by
  have hlay := c.layout
  induction rest generalizing pre k fuel info with
  | nil =>
    obtain ⟨fuel, rfl⟩ : ∃ n, fuel = n + 1 := ⟨fuel - 1, by omega⟩
    obtain rfl : k = .guard c h.mmHeapend := by
      have hlast := hrep.tiling.last
      simpa using hlast
    simp [mallinfoLoop, Chunk.guard]
  | cons j rest ih =>
    obtain ⟨fuel, rfl⟩ : ∃ n, fuel = n + 1 := ⟨fuel - 1, by omega⟩
    have hk : k ∈ pre ++ k :: j :: rest := by simp
    have hsize : nodeSize c h.mem k.addr = k.size := hrep.nodeSize_eq hk
    have hlt : k.addr < h.mmHeapend := by
      have hmeets := (isChain_cons_cons.mp (isChain_split.mp hrep.tiling.meets).2).1
      have hj := hrep.tiling.bounds (a := j.addr) (s := j.size) (u := j.used) (by simp)
      have hjs := hrep.tiling.size_ge (a := j.addr) (s := j.size) (u := j.used) (by simp)
      have hks := hrep.tiling.size_ge (a := k.addr) (s := k.size) (u := k.used) hk
      unfold Chunk.Meets at hmeets
      omega
    have hprev : ((pre.getLast?.map Chunk.addr).all fun prev => nodeSize c h.mem prev
        == c.clearAllocBit (nodePreceding c h.mem k.addr)) = true := by
      rcases eq_nil_or_concat pre with rfl | ⟨pre, p, rfl⟩
      · rfl
      have hrep' : Rep c h (pre ++ p :: ⟨k.addr, k.size, k.used⟩ :: j :: rest) := by
        simpa using hrep
      have hpmem : p ∈ pre ++ p :: ⟨k.addr, k.size, k.used⟩ :: j :: rest := by simp
      have hpsize : nodeSize c h.mem p.addr = p.size := hrep'.nodeSize_eq hpmem
      simp [hpsize, HeapInv.preceding_eq hrep',
        HeapConfig.clearAllocBit_tag (hrep'.size_lt hpmem)]
    have hrest : total (k :: j :: rest) = k.size + total (j :: rest) := by simp [total]
    have hnode : mallinfoNode c h.mem k.addr info = .ok (tally info k) :=
      hrep.mallinfoNode_eq hk (by omega) (by omega)
    have htally := (tally_spec info k).1
    have hmeets : j.addr = k.addr + k.size := HeapInv.meets hrep
    have hloop := ih (show Rep c h ((pre ++ [k]) ++ j :: rest) by simpa using hrep)
      (show (tally info k).uordblks + (tally info k).fordblks + total (j :: rest) < _ by omega)
      (show rest.length < fuel by simpa using hfuel)
    rw [List.getLast?_concat, Option.map_some, hmeets] at hloop
    simp only [mallinfoLoop, if_pos hlt, hnode, hprev, hsize, debugassert_true, hloop,
      Result.ok_bind, dropLast_cons_cons, foldl_cons]

theorem Rep.mmMallinfo_eq (hrep : Rep c h cs) : ∃ info, info.arena = h.mmHeapsize ∧
    h.mmHeapstart + (info.uordblks + info.fordblks) = h.mmHeapend + c.sizeofMmAllocnode ∧
    Largest cs info.mxordblk ∧
    mmMallinfo c h = (do
      debugassert c .mallinfoHeapsize (info.uordblks + info.fordblks == h.mmHeapsize)
      return info) := by
  obtain ⟨rest, rfl⟩ := hrep.tiling.exists_cons
  obtain ⟨hfills, hfuel⟩ := hrep.tiling.fills
  have hend := hrep.region.end_lt
  have hloop := @Rep.mallinfoLoop_eq c h [] rest _ ⟨0, 0, 0, 0, 0⟩ _ hrep (by simp only; omega) hfuel
  obtain ⟨init, hinit⟩ := List.getLast?_eq_some_iff.mp hrep.tiling.last
  rw [hinit, dropLast_concat] at hloop
  obtain ⟨htotal, -, hall, hsome⟩ := foldl_tally init ⟨0, 0, 0, 0, 0⟩
  have hsum : total (.guard c h.mmHeapstart :: rest) = total init + c.sizeofMmAllocnode := by
    rw [hinit]
    simp [total, Chunk.guard]
  generalize init.foldl tally ⟨0, 0, 0, 0, 0⟩ = info at *
  simp only [Nat.add_zero, Nat.zero_add] at htotal
  refine ⟨{ info with arena := h.mmHeapsize, uordblks := info.uordblks + c.sizeofMmAllocnode }, rfl,
    by simp only; omega, ⟨fun k hk hfree => ?_, hsome.imp id ?_⟩, ?_⟩
  · rw [hinit, mem_append, mem_singleton] at hk
    rcases hk with hk | rfl
    · exact hall k hk hfree
    · cases hfree
  · rintro ⟨k, hk, hfree⟩
    exact ⟨k, by rw [hinit]; exact mem_append_left _ hk, hfree⟩
  · have hadd : c.add info.uordblks c.sizeofMmAllocnode = info.uordblks + c.sizeofMmAllocnode :=
      c.add_eq (by omega)
    have hadd' : c.add (info.uordblks + c.sizeofMmAllocnode) info.fordblks
        = info.uordblks + c.sizeofMmAllocnode + info.fordblks := c.add_eq (by omega)
    have hloop : mallinfoLoop c h (h.mmHeapend + 1) h.mmHeapstart none ⟨0, 0, 0, 0, 0⟩ = .ok info :=
      hloop
    simp only [mmMallinfo, hloop, hadd, hadd', Result.ok_bind, Result.pure_eq_ok]

/-- **Accounts and growth.** After a run of calls the accounts are right if and only if no call has
extended the region: `mm_extend` leaves `mm_heapsize` as it was. -/
theorem accounted_iff_not_grown (debug fill : Bool) (m : Mem) {nodelist heapstart heapsize : Nat}
    (hinit : InitOk (.bits32 debug fill) nodelist heapstart heapsize) :
    ∃ h, mmInitialize (.bits32 debug fill) m nodelist heapstart heapsize = .ok h ∧
      ∀ xs, (Sys.mk h []).Along (.bits32 debug fill) (Sys.Allows (.bits32 debug fill)) xs →
        ∃ st, (Sys.mk h []).run (.bits32 debug fill) xs = .ok st ∧
          (Accounted (.bits32 debug fill) st.heap ↔ ∀ x ∈ xs, x.grown = 0) := by
  obtain ⟨h, cs, heval, hst, hsize, -⟩ := sysOk_init hinit m
  refine ⟨h, heval, fun xs hall => ?_⟩
  obtain ⟨st, cs', own', ds', hrun, hst', hsize', hstart', hend', -⟩ :=
    hst.run (fun hst hallow => ⟨hallow, hst.clean_of_unit le_rfl hallow⟩) hall
  obtain ⟨info, harena, htotal, hlargest, hmall⟩ := hst'.heap.rep.mmMallinfo_eq
  obtain ⟨hchunks, -⟩ := HeapInv.chunks_eq hst'.heap.rep
  refine ⟨st, hrun, ?_⟩
  have hgrown : (xs.map Call.grown).sum = 0 ↔ ∀ x ∈ xs, x.grown = 0 := by
    rw [sum_eq_zero_iff, forall_mem_map]
  rw [← hgrown]
  simp only at hsize' hstart' hend'
  constructor
  · rintro ⟨info', cs, hinfo', -, hsum, -⟩
    obtain rfl : info = info' := by
      rw [hmall, debugassert, debugAssert] at hinfo'
      split at hinfo'
      · cases hinfo'
      · exact Except.ok.inj hinfo'
    omega
  · intro hzero
    have hsum : info.uordblks + info.fordblks = st.heap.mmHeapsize := by omega
    refine ⟨info, cs', ?_, hchunks, hsum.trans harena.symm, hlargest⟩
    rw [hmall, beq_iff_eq.mpr hsum, debugassert_true]
    rfl

theorem accounted_iff_not_grown_page : InitOk (.bits32 true true) 4096 8192 4096 ∧ ∃ h st,
    mmInitialize (.bits32 true true) ⟨fun _ => 0⟩ 4096 8192 4096 = .ok h ∧
    (Sys.mk h []).run (.bits32 true true) [.malloc 100, .memalign 64 40] = .ok st ∧
    Accounted (.bits32 true true) st.heap := by
  obtain ⟨h, heval, hruns⟩ := accounted_iff_not_grown true true ⟨fun _ => 0⟩ (initOk_page true true)
  obtain ⟨st, hrun, hiff⟩ := hruns [.malloc 100, .memalign 64 40]
    ⟨show SizeOk _ 100 by decide, fun _ _ => ⟨⟨⟨6, rfl⟩, by decide⟩, fun _ _ => trivial⟩⟩
  exact ⟨initOk_page true true, h, st, heval, hrun, hiff.mpr (by decide)⟩

theorem mallinfo_after_extend : InitOk (.bits32 false false) 4096 8192 4096 ∧
    (∀ h, mmInitialize (.bits32 false false) ⟨fun _ => 0⟩ 4096 8192 4096 = .ok h →
      ExtendOk (.bits32 false false) h 12288 4096) ∧
    ((mmInitialize (.bits32 false false) ⟨fun _ => 0⟩ 4096 8192 4096).bind fun h =>
      ((Sys.mk h []).run (.bits32 false false) [.extend 12288 4096]).bind fun st =>
      (mmMallinfo (.bits32 false false) st.heap).map fun info =>
        (info.arena, info.uordblks + info.fordblks)) = .ok (4096, 8192) := by
  refine ⟨initOk_page false false, fun h heval => ?_, by decide⟩
  obtain ⟨base, s, m', heval', hbase, hend, -⟩ := mmInitialize_spec (initOk_page false false)
    ⟨fun _ => 0⟩
  have hbase' : base = 8192 := hbase.trans (by decide)
  have hend' : base + 2 * 8 + s = 12288 := hend.trans (by decide)
  obtain rfl : base = 8192 := hbase'
  obtain rfl : s = 4080 := by omega
  cases heval.symm.trans heval'
  exact ⟨rfl, by decide, by decide, by decide, by decide, by simp only; decide,
    by simp only; decide⟩

end Nuttx.Mm

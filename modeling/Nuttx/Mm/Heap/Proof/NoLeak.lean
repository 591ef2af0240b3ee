import Nuttx.Mm.Heap.Proof.WellFormed
import Mathlib.Algebra.Order.BigOperators.Group.List

/-!
# Nothing is lost

When callers hold nothing and nothing waits on the delay list, every chunk between the guards is
free.
-/

open List

namespace Nuttx.Mm

open ByteMemory

variable {c : HeapConfig} {h : Heap} {cs own ds : List Chunk} {lo hi : Nat}

theorem Tiling.eq_fresh (h : Tiling c lo hi cs) (hco : Coalesced cs)
    (hfree : ∀ k ∈ cs, k.used = true → k.addr = lo ∨ k.addr = hi)
    (hlt : lo + c.sizeofMmAllocnode < hi) :
    cs = freshChunks c lo (hi - (lo + c.sizeofMmAllocnode)) := by
  obtain ⟨rest, rfl⟩ := h.exists_cons
  have hlay := c.layout
  have hrest : ∀ k ∈ rest, lo + c.sizeofMmAllocnode ≤ k.addr :=
    (pairwise_cons.mp h.pairwise_before).1
  -- a chunk after the first guard is allocated only when it is the last guard
  have hlast : ∀ k ∈ rest, k.used = true → k = .guard c hi := by
    intro k hk hused
    have hge := hrest k hk
    have hmem := mem_cons_of_mem (Chunk.guard c lo) hk
    rcases hfree k hmem hused with heq | heq
    · omega
    · exact h.eq_of_addr_eq hmem h.guard_mem.2 heq
  cases rest with
  | nil =>
    have heq := congrArg Chunk.addr (show Chunk.guard c lo = .guard c hi by simpa using h.last)
    simp only [Chunk.guard] at heq
    omega
  | cons k rest =>
    obtain ⟨hmeets, hchain⟩ := isChain_cons_cons.mp h.meets
    have haddr : k.addr = lo + c.sizeofMmAllocnode := hmeets
    have hkfree : k.used = false := by
      by_contra hused
      have heq := congrArg Chunk.addr (hlast k mem_cons_self (by simpa using hused))
      simp only [Chunk.guard] at heq
      omega
    cases rest with
    | nil =>
      obtain rfl : k = .guard c hi := by simpa using h.last
      cases hkfree
    | cons j rest =>
      have hjused : j.used = true := by
        have hkj := (isChain_cons_cons.mp (isChain_cons_cons.mp hco).2).1
        exact hkj.resolve_left (by simp [hkfree])
      obtain rfl := hlast j (by simp) hjused
      have hkj : hi = k.addr + k.size := (isChain_cons_cons.mp hchain).1
      cases rest with
      | nil =>
        obtain ⟨a, s, used⟩ := k
        simp only at haddr hkfree hkj
        subst haddr hkfree
        rw [freshChunks, show hi - (lo + c.sizeofMmAllocnode) = s by omega,
          show lo + c.sizeofMmAllocnode + s = hi by omega]
      | cons i rest =>
        have hi' := (isChain_cons_cons.mp (isChain_cons_cons.mp hchain).2).1
        have hbounds := h.bounds (a := i.addr) (s := i.size) (u := i.used) (by simp)
        have hsize := h.size_ge (a := i.addr) (s := i.size) (u := i.used) (by simp)
        simp only [Chunk.Meets, Chunk.guard] at hi'
        omega

theorem HeapOk.chunks_fresh (hok : HeapOk c h cs [] []) (hco : Coalesced cs)
    (hlt : h.mmHeapstart + c.sizeofMmAllocnode < h.mmHeapend) :
    h.chunks c = some (freshChunks c h.mmHeapstart
      (h.mmHeapend - (h.mmHeapstart + c.sizeofMmAllocnode))) := by
  rw [← hok.rep.tiling.eq_fresh hco (fun k hk hused => ?_) hlt]
  · exact (HeapInv.chunks_eq hok.rep).1
  · by_contra hends
    rw [not_or] at hends
    exact not_mem_nil ((hok.owned k).mpr ⟨hk, hused, hends⟩)

/-- **No leak.** When callers have given back all they were given, in whatever order, the region is
two guards and one free chunk of the size it had at the start. -/
theorem fresh_of_nothing_live (debug fill : Bool) (m : Mem) {nodelist heapstart heapsize : Nat}
    (hinit : InitOk (.bits32 debug fill) nodelist heapstart heapsize) :
    ∃ h s, mmInitialize (.bits32 debug fill) m nodelist heapstart heapsize = .ok h ∧
      h.chunks (.bits32 debug fill) = some (freshChunks (.bits32 debug fill) h.mmHeapstart s) ∧
      ∀ xs, (Sys.mk h []).Along (.bits32 debug fill) (Sys.Allows (.bits32 debug fill)) xs →
        (∀ x ∈ xs, x.grown = 0 ∧ x.delayed = false) →
        ∃ st, (Sys.mk h []).run (.bits32 debug fill) xs = .ok st ∧
          (st.live = [] → st.heap.chunks (.bits32 debug fill)
            = some (freshChunks (.bits32 debug fill) h.mmHeapstart s)) := by
  obtain ⟨h, cs, heval, hst, hsize, hdl, hstart, hend⟩ := sysOk_init hinit m
  have hroom := hinit.room
  obtain ⟨ha, hf, hmm, hp, -⟩ := (HeapConfig.bits32 debug fill).layout
  have hlt : h.mmHeapstart + (HeapConfig.bits32 debug fill).sizeofMmAllocnode < h.mmHeapend := by
    omega
  refine ⟨h, _, heval, hst.heap.chunks_fresh hst.coalesced hlt, fun xs hall hxs => ?_⟩
  obtain ⟨st, cs', own', ds', hrun, hst', -, hstart', hend', hdl'⟩ :=
    hst.run (fun hst hallow => ⟨hallow, hst.clean_of_unit le_rfl hallow⟩) hall
  refine ⟨st, hrun, fun hlive => ?_⟩
  have hzero : (xs.map Call.grown).sum = 0 :=
    sum_eq_zero_iff.mpr (forall_mem_map.mpr fun x hx => (hxs x hx).1)
  obtain rfl : own' = [] := map_eq_nil_iff.mp (hst'.live.symm.trans hlive)
  obtain rfl : ds' = [] := by
    have hdelay := hst'.heap.delay
    rw [hdl' hdl fun x hx => (hxs x hx).2] at hdelay
    cases ds' with
    | nil => rfl
    | cons d ds => exact absurd hdelay.1.symm (hst'.heap.mem_ne_zero (by simp))
  have hfresh := hst'.heap.chunks_fresh hst'.coalesced (by simp only at hstart' hend'; omega)
  simp only [hzero, Nat.add_zero] at hend'
  rw [hfresh, hstart', hend']

theorem fresh_of_nothing_live_page : InitOk (.bits32 true true) 4096 8192 4096 ∧ ∃ h st s,
    mmInitialize (.bits32 true true) ⟨fun _ => 0⟩ 4096 8192 4096 = .ok h ∧
    (Sys.mk h []).run (.bits32 true true) [.malloc 100, .realloc 8208 200, .free 8208 .task] = .ok st ∧
    st.live = [] ∧
    st.heap.chunks (.bits32 true true) = some (freshChunks (.bits32 true true) h.mmHeapstart s) := by
  obtain ⟨h, s, heval, -, hruns⟩ := fresh_of_nothing_live true true ⟨fun _ => 0⟩ (initOk_page true true)
  have hpage : ∃ h, mmInitialize (.bits32 true true) ⟨fun _ => 0⟩ 4096 8192 4096 = .ok h ∧
      ((Sys.mk h []).Along (.bits32 true true) (Sys.Allows (.bits32 true true)) [.malloc 100,
        .realloc 8208 200, .free 8208 .task] ∧
      ∃ st, (Sys.mk h []).run (.bits32 true true) [.malloc 100, .realloc 8208 200, .free 8208 .task]
        = .ok st ∧ st.live = []) := by
    decide +kernel
  obtain ⟨h', heval', hall, st, hrun, hnone⟩ := hpage
  cases heval.symm.trans heval'
  obtain ⟨st', hrun', hfresh⟩ := hruns _ hall (by decide)
  cases hrun.symm.trans hrun'
  exact ⟨initOk_page true true, h, st, s, heval, hrun, hnone, hfresh hnone⟩

end Nuttx.Mm

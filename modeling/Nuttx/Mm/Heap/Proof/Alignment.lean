import Nuttx.Mm.Heap.Proof.Runs
import Mathlib.Data.Nat.Prime.Basic

/-!
# The alignment of an allocation

What `mm_malloc` returns is a multiple of twice the allocated node, and `mm_memalign` asks nothing
more of it for an alignment up to `MM_MIN_CHUNK`.
-/

open List

namespace Nuttx.Mm

open ByteMemory

variable {c : HeapConfig} {h : Heap} {cs own ds : List Chunk} {e size : Nat}

theorem mmMemalign_spec (hok : HeapOk c h cs own ds) (hsize : AlignOk c (2 ^ e) size)
    (halign : 2 ^ e ≤ 2 * c.sizeofMmAllocnode ∨ c.mmMinChunk < 2 ^ e) :
    ∃ x m' cs', mmMemalign c h (2 ^ e) size = .ok (ptr c x, { h with mem := m', mmDelaylist := 0 }) ∧
      HeapOk c { h with mem := m', mmDelaylist := 0 } cs' (x.toList ++ own) [] ∧
      ∀ k ∈ x, size + c.sizeofMmAllocnode ≤ k.size ∧ 2 ^ e ∣ k.mem c := by
  unfold AlignOk at hsize
  by_cases hle : 2 ^ e ≤ c.mmMinChunk
  · rw [if_pos hle] at hsize
    obtain ⟨x, m', cs', heval, hok', hx, -, -⟩ := hok.mmMalloc hsize
    refine ⟨x, m', cs', by simp [mmMemalign, hle, heval], hok', fun k hk =>
      ⟨(alignsize_spec hsize).2.1.trans (hx k hk).2, ?_⟩⟩
    obtain ⟨hmem, hlo, -⟩ := hok'.mem_cs
      (mem_append_left [] (mem_append_left own (Option.mem_toList.mpr hk)))
    obtain ⟨j, -, hunit⟩ := (Nat.dvd_prime_pow Nat.prime_two).mp c.unit_dvd_mmMinChunk
    have hej : 2 ^ e ≤ 2 ^ j := by omega
    have hdvd := hok'.rep.tiling.unit_dvd (c.unit_dvd_mmMinChunk.trans hok'.rep.region.start_dvd) hmem hlo
    rw [hunit] at hdvd
    exact (Nat.pow_dvd_pow 2 ((Nat.pow_le_pow_iff_right (by decide)).mp hej)).trans hdvd
  · rw [if_neg hle] at hsize
    obtain ⟨x, m', cs', heval, hok', hx, -, -⟩ :=
      hok.mmMemalign (Nat.lt_of_not_le hle) hsize.1 hsize.2
    exact ⟨x, m', cs', heval, hok', hx⟩

/-- **Alignment.** After every run of calls that leaves no sliver, in every layout: what `mm_memalign`
returns is aligned and large enough, if the alignment is one that `mm_malloc` keeps or one that
`mm_memalign` sees to itself. -/
theorem memalign_aligned (m : Mem) {nodelist heapstart heapsize : Nat}
    (hinit : InitOk c nodelist heapstart heapsize) :
    ∃ h, mmInitialize c m nodelist heapstart heapsize = .ok h ∧
      ∀ xs, (Sys.mk h []).Along c (fun st x => st.Allows c x ∧ st.Clean c x) xs →
        ∃ st, (Sys.mk h []).run c xs = .ok st ∧ ∀ e size, AlignOk c (2 ^ e) size →
          2 ^ e ≤ 2 * c.sizeofMmAllocnode ∨ c.mmMinChunk < 2 ^ e →
          ∃ ret h', mmMemalign c st.heap (2 ^ e) size = .ok (ret, h') ∧ (ret ≠ 0 → 2 ^ e ∣ ret ∧
            size + c.sizeofMmAllocnode ≤ nodeSize c h'.mem (ret - c.sizeofMmAllocnode)) := by
  obtain ⟨h, cs, heval, hst, -⟩ := sysOk_init hinit m
  refine ⟨h, heval, fun xs hall => ?_⟩
  obtain ⟨st, cs', own', ds', hrun, hst', -⟩ := hst.run (fun _ hx => hx) hall
  refine ⟨st, hrun, fun e size hsize halign => ?_⟩
  obtain ⟨x, m', cs1, hcall, hok, hx⟩ := mmMemalign_spec hst'.heap hsize halign
  refine ⟨_, _, hcall, ?_⟩
  cases x with
  | none => exact absurd rfl
  | some k =>
    obtain ⟨hk, hdvd⟩ := hx k rfl
    have hsize := hok.rep.nodeSize_eq (hok.mem_cs (mem_append_left [] mem_cons_self)).1
    rw [show ptr c (some k) - c.sizeofMmAllocnode = k.addr from Nat.add_sub_cancel .., hsize]
    exact fun _ => ⟨hdvd, hk⟩

theorem memalign_aligned_page : InitOk (.bits64 true true) 4096 8192 4096 ∧ ∃ h st ret h',
    mmInitialize (.bits64 true true) ⟨fun _ => 0⟩ 4096 8192 4096 = .ok h ∧
    (Sys.mk h []).run (.bits64 true true) [.malloc 100] = .ok st ∧
    mmMemalign (.bits64 true true) st.heap (2 ^ 6) 40 = .ok (ret, h') ∧ (ret ≠ 0 → 2 ^ 6 ∣ ret) := by
  have hinit : InitOk (.bits64 true true) 4096 8192 4096 := by constructor <;> decide
  obtain ⟨h, heval, hruns⟩ := memalign_aligned ⟨fun _ => 0⟩ hinit
  obtain ⟨st, hrun, halign⟩ := hruns [.malloc 100]
    ⟨⟨show SizeOk _ 100 by decide, trivial⟩, fun _ _ => trivial⟩
  obtain ⟨ret, h', hcall, hret⟩ := halign 6 40 (by decide) (by decide)
  exact ⟨hinit, h, st, ret, h', heval, hrun, hcall, fun hne => (hret hne).1⟩

/-- The first allocation of a heap, for an alignment of `MM_MIN_CHUNK`. -/
theorem memalign_misaligned :
    ((mmInitialize (.bits64 true false) ⟨fun _ => 0⟩ 4096 8192 96).bind fun h =>
        (mmMemalign (.bits64 true false) h 32 1).map Prod.fst) = .ok 8208 ∧ ¬ 32 ∣ 8208 ∧
    ((mmInitialize (.small32 true false) ⟨fun _ => 0⟩ 4096 8192 64).bind fun h =>
        (mmMemalign (.small32 true false) h 16 1).map Prod.fst) = .ok 8200 ∧ ¬ 16 ∣ 8200 := by
  decide

end Nuttx.Mm

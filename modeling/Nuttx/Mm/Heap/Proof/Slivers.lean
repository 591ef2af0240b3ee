import Nuttx.Mm.Heap.Proof.Runs

/-!
# Slivers

`mm_realloc` can take from a free neighbour all but a few bytes, too few for a free node. It asserts
that this does not happen.
-/

namespace Nuttx.Mm

open ByteMemory

variable {c : HeapConfig} {h : Heap} {m : Mem} {st : Sys} {cs own ds pre post : List Chunk} {k p q : Chunk}
  {a b d n s t size : Nat}

theorem debugassert_false (hdebug : c.debugAssertions = true) (site : Assertion) :
    debugassert c site false = .error (.assertion site) := by
  simp [debugassert, debugAssert, hdebug]

section

variable (hdebug : c.debugAssertions = true)

include hdebug

theorem HeapInv.takenext_sliver (hinv : HeapInv c h m (pre ++ ⟨a, s, true⟩ :: ⟨b, t, false⟩ :: post) [])
    (hlt : d < t) (hsliver : t - d < c.sizeofMmFreenode) :
    reallocTakenext c h m a b t s d = .error (.assertion .reallocNextSize) := by
  have hbmem : (⟨b, t, false⟩ : Chunk) ∈ pre ++ ⟨a, s, true⟩ :: ⟨b, t, false⟩ :: post := by simp
  have hbounds := hinv.tiling.bounds hbmem
  have hlow := hinv.tiling.bounds (a := a) (s := s) (u := true) (by simp)
  have hregion := hinv.region.size_lt
  obtain ⟨hblink, -, -⟩ := hinv.unlink hbmem (by simp)
  have hold : nodeSize c (setSize c (unlinkNode c m b) a (s + d)) a = s + d :=
    nodeSize_setSize (by omega)
  have hnew : nodeSize c (setSize c (setSize c (unlinkNode c m b) a (s + d)) (a + (s + d)) (t - d))
      (a + (s + d)) = t - d := nodeSize_setSize (by omega)
  have hassert : decide (t - d ≥ c.sizeofMmFreenode) = false := decide_eq_false (by omega)
  simp [reallocTakenext, hblink, hold, hlt, hnew, hassert, debugassert_false hdebug]

theorem HeapInv.takeprev_sliver {next : Nat}
    (hinv : HeapInv c h m (pre ++ ⟨b, t, false⟩ :: ⟨a, s, true⟩ :: post) [])
    (hlt : d < t) (hsliver : t - d < c.sizeofMmFreenode) :
    reallocTakeprev c h m b a next t s d = .error (.assertion .reallocPrevSize) := by
  have hbmem : (⟨b, t, false⟩ : Chunk) ∈ pre ++ ⟨b, t, false⟩ :: ⟨a, s, true⟩ :: post := by simp
  have hsize := hinv.size_lt hbmem
  obtain ⟨hblink, hinv1, -⟩ := hinv.unlink hbmem (by simp)
  have hold : nodeSize c (unlinkNode c m b) b = t := hinv1.nodeSize_eq hbmem
  have hnew : nodeSize c (setSize c (unlinkNode c m b) b (t - d)) b = t - d :=
    nodeSize_setSize (by omega)
  have hassert : decide (t - d ≥ c.sizeofMmFreenode) = false := decide_eq_false (by omega)
  simp [reallocTakeprev, hblink, hold, hlt, hnew, hassert, debugassert_false hdebug]

theorem HeapOk.mmReallocLocked_sliver (hok : HeapOk c h cs own ds) (hk : k ∈ own)
    (hgran : c.mmMinChunk ∣ n) (hgrow : ¬ GrowOk c h.mem (k.mem c) n) :
    ∃ site, Mm.mmReallocLocked c h (k.mem c) n = .error (.assertion site) := by
  obtain ⟨hmem, hlo, hhi⟩ := hok.mem_cs (List.mem_append_left ds hk)
  have hsdvd := (hok.size_ok (List.mem_append_left ds hk)).2
  have hrep := hok.rep
  obtain ⟨pre, p, q, post, rfl⟩ := hrep.tiling.exists_around hmem (Tiling.ne_guard_of_addr_ne hlo)
    (Tiling.ne_guard_of_addr_ne hhi)
  rw [Chunk.mem, hrep.growOk_iff] at hgrow
  simp only [Classical.not_imp] at hgrow
  obtain ⟨hlt, hroom, hsliver⟩ := hgrow
  obtain ⟨htp, htn, -⟩ := reallocTake_le (show n - k.size ≤ p.room + q.room by omega)
  obtain ⟨hdp, hdn⟩ := reallocTake_dvd (Chunk.unit_dvd_room hrep (q := p) (by simp))
    (Chunk.unit_dvd_room hrep (q := q) (by simp))
    (Nat.dvd_sub (c.unit_dvd_mmMinChunk.trans hgran) hsdvd)
  rw [noSliver_iff (by omega) (by omega)] at hsliver
  rw [Chunk.mem, hrep.mmReallocLocked_grow hlo hhi hlt hroom]
  generalize (reallocTake p.room q.room (n - k.size)).1 = tp at *
  generalize (reallocTake p.room q.room (n - k.size)).2 = tn at *
  by_cases hleftp : tp ≠ 0 → p.room - tp = 0 ∨ c.sizeofMmFreenode ≤ p.room - tp
  · -- the chunk before is taken as it should, the one after is not
    have hleftn : ¬ (tn ≠ 0 → q.room - tn = 0 ∨ c.sizeofMmFreenode ≤ q.room - tn) :=
      fun hleftn => hsliver ⟨hleftp, hleftn⟩
    simp only [Classical.not_imp, not_or, Nat.not_le] at hleftn
    obtain ⟨hne, hnz, hsmall⟩ := hleftn
    obtain ⟨m1, pre', hdown, hinv1, -⟩ := HeapInv.growDown hrep hlo hhi htp hdp hleftp
    have hq : q.addr = k.addr + k.size :=
      (isChain_follows_one.mp (HeapInv.window [⟨k.addr, k.size, true⟩] hrep)).2.1
    obtain ⟨b, t, used⟩ := q
    cases used with
    | true => simp [Chunk.room] at hnz
    | false =>
      simp only [Chunk.room, Bool.false_eq_true, if_false] at hnz hsmall htn hq
      have hsize := hinv1.nodeSize_eq (a := k.addr - tp) (s := k.size + tp) (u := true) (by simp)
      have herror := hinv1.takenext_sliver hdebug (d := tn) (by omega) hsmall
      refine ⟨.reallocNextSize, ?_⟩
      rw [hdown, Except.bind, if_pos hne, hsize, ← hq, Chunk.room, if_neg (by simp), herror]
      rfl
  · simp only [Classical.not_imp, not_or, Nat.not_le] at hleftp
    obtain ⟨hne, hnz, hsmall⟩ := hleftp
    obtain ⟨b, t, used⟩ := p
    cases used with
    | true => simp [Chunk.room] at hnz
    | false =>
      simp only [Chunk.room, Bool.false_eq_true, if_false] at hnz hsmall htp
      refine ⟨.reallocPrevSize, ?_⟩
      rw [if_pos hne, Chunk.room, if_neg (by simp),
        HeapInv.takeprev_sliver hdebug hrep (show tp < t by omega) hsmall]
      rfl

theorem SysOk.call_sliver {x : Call} (hst : SysOk c st cs own ds) (hallow : st.Allows c x)
    (hclean : ¬ st.Clean c x) : ∃ site, st.call c x = .error (.assertion site) := by
  cases x with
  | realloc oldmem size =>
    simp only [Sys.Clean, Classical.not_imp] at hclean
    obtain ⟨hne, hpos, hgrow⟩ := hclean
    obtain ⟨k, hk, rfl⟩ := hst.exists_mem (hallow.1.resolve_left hne)
    obtain ⟨hadd, -, -, hdvd, -⟩ := alignsize_spec hallow.2
    obtain ⟨site, herror⟩ := hst.heap.mmReallocLocked_sliver hdebug hk hdvd hgrow
    refine ⟨site, ?_⟩
    simp [Sys.call, mmRealloc, hne, show size ≠ 0 by omega, hadd, herror]
  | _ => exact absurd trivial hclean

theorem SysOk.run_returns_iff {xs : List Call} (hst : SysOk c st cs own ds)
    (hall : st.Along c (Sys.Allows c) xs) :
    (∃ st', st.run c xs = .ok st') ↔ st.Along c (Sys.Clean c) xs := by
  induction xs generalizing st cs own ds with
  | nil => exact ⟨fun _ => trivial, fun _ => ⟨st, rfl⟩⟩
  | cons x xs ih =>
    obtain ⟨hallow, hrest⟩ := hall
    by_cases hclean : st.Clean c x
    · obtain ⟨ret, st1, cs1, own1, ds1, hcall, hafter⟩ := hst.step hallow hclean
      have hnext := Sys.next_eq hcall
      have hiff := ih hafter.ok (hrest st1 hnext)
      refine ⟨fun hrun => ⟨hclean, fun st' heq => ?_⟩, fun hrun => ?_⟩
      · cases hnext.symm.trans heq
        simp only [Sys.run, List.foldlM_cons, hnext, Result.ok_bind] at hrun
        exact hiff.mp hrun
      · simp only [Sys.run, List.foldlM_cons, hnext, Result.ok_bind]
        exact hiff.mpr (hrun.2 st1 hnext)
    · obtain ⟨site, herror⟩ := hst.call_sliver hdebug hallow hclean
      refine ⟨?_, fun hrun => absurd hrun.1 hclean⟩
      rintro ⟨st', hrun⟩
      simp [Sys.run, Sys.next, herror] at hrun

end

/-- **Slivers.** With assertions on, in every layout: a run of calls returns, so that every chunk
passed to `mm_addfreechunk` has room for a free node, if and only if no `mm_realloc` in it would
leave a sliver of a neighbour. -/
theorem run_returns_iff_clean (hdebug : c.debugAssertions = true) (m : Mem)
    {nodelist heapstart heapsize : Nat} (hinit : InitOk c nodelist heapstart heapsize) :
    ∃ h, mmInitialize c m nodelist heapstart heapsize = .ok h ∧
      ∀ xs, (Sys.mk h []).Along c (Sys.Allows c) xs →
        ((∃ st, (Sys.mk h []).run c xs = .ok st) ↔ (Sys.mk h []).Along c (Sys.Clean c) xs) := by
  obtain ⟨h, cs, heval, hst, -⟩ := sysOk_init hinit m
  exact ⟨h, heval, fun xs hall => hst.run_returns_iff hdebug hall⟩

/-- The last call grows a chunk into the free one before it. -/
theorem run_returns_iff_clean_page : InitOk (.bits64 true true) 4096 8192 4096 ∧ ∃ h st,
    mmInitialize (.bits64 true true) ⟨fun _ => 0⟩ 4096 8192 4096 = .ok h ∧
    (Sys.mk h []).run (.bits64 true true) [.malloc 24, .malloc 24, .memalign 64 40, .free 8208 .task,
      .realloc 8240 50] = .ok st := by
  have hinit : InitOk (.bits64 true true) 4096 8192 4096 := by constructor <;> decide
  obtain ⟨h, heval, hruns⟩ := run_returns_iff_clean (c := .bits64 true true) rfl ⟨fun _ => 0⟩ hinit
  have hpage : ∃ h, mmInitialize (.bits64 true true) ⟨fun _ => 0⟩ 4096 8192 4096 = .ok h ∧
      ((Sys.mk h []).Along (.bits64 true true) (Sys.Allows (.bits64 true true)) [.malloc 24,
        .malloc 24, .memalign 64 40, .free 8208 .task, .realloc 8240 50] ∧
      (Sys.mk h []).Along (.bits64 true true) (Sys.Clean (.bits64 true true)) [.malloc 24,
        .malloc 24, .memalign 64 40, .free 8208 .task, .realloc 8240 50]) := by
    decide +kernel
  obtain ⟨h', heval', hallows, hclean⟩ := hpage
  cases heval.symm.trans heval'
  obtain ⟨st, hrun⟩ := (hruns _ hallows).mpr hclean
  exact ⟨hinit, h, st, heval, hrun⟩

theorem realloc_leaves_sliver :
    ((mmInitialize (.bits64 true false) ⟨fun _ => 0⟩ 4096 8192 96).bind fun h =>
        ((Sys.mk h []).run (.bits64 true false) [.malloc 24]).map Sys.live) = .ok [8208] ∧
    ((mmInitialize (.bits64 true false) ⟨fun _ => 0⟩ 4096 8192 96).bind fun h =>
        ((Sys.mk h []).run (.bits64 true false) [.malloc 24, .realloc 8208 56]).map Sys.live)
      = .error (.assertion .reallocNextSize) ∧
    ((mmInitialize (.small32 true false) ⟨fun _ => 0⟩ 4096 8192 64).bind fun h =>
        ((Sys.mk h []).run (.small32 true false) [.malloc 12]).map Sys.live) = .ok [8200] ∧
    ((mmInitialize (.small32 true false) ⟨fun _ => 0⟩ 4096 8192 64).bind fun h =>
        ((Sys.mk h []).run (.small32 true false) [.malloc 12, .realloc 8200 44]).map Sys.live)
      = .error (.assertion .reallocNextSize) := by
  decide +kernel

end Nuttx.Mm

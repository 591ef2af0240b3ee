import Nuttx.Mm.Heap.Proof.Calls

/-!
# Runs of calls

What one call preserves, and from it what every run of calls preserves.
-/

open List

namespace Nuttx.Mm

open ByteMemory

variable {c : HeapConfig} {h : Heap} {st : Sys} {cs own ds : List Chunk} {k : Chunk} {size n : Nat}
  {mem : Nat} {x : Call}

structure SysOk (c : HeapConfig) (st : Sys) (cs own ds : List Chunk) : Prop where
  heap : HeapOk c st.heap cs own ds
  live : st.live = own.map (Chunk.mem c)
  coalesced : Coalesced cs

/-- What a call leads to: the state is in order, the region has grown by what was added to it, and
an allocation is as large as it was asked for. -/
structure After (c : HeapConfig) (st : Sys) (x : Call) (ret : Nat) (st' : Sys)
    (cs own ds : List Chunk) : Prop where
  ok : SysOk c st' cs own ds
  heapsize : st'.heap.mmHeapsize = st.heap.mmHeapsize
  heapstart : st'.heap.mmHeapstart = st.heap.mmHeapstart
  heapend : st'.heap.mmHeapend = st.heap.mmHeapend + x.grown
  delay : st.heap.mmDelaylist = 0 → x.delayed = false → st'.heap.mmDelaylist = 0
  served : ∀ size, x.requested = some size → ret ≠ 0 →
    ∃ k ∈ own, ret = k.mem c ∧ size + c.sizeofMmAllocnode ≤ k.size

theorem Rep.growOk_iff {pre post : List Chunk} {p q : Chunk} {a s : Nat}
    (hrep : Rep c h (pre ++ p :: ⟨a, s, true⟩ :: q :: post)) :
    GrowOk c h.mem (a + c.sizeofMmAllocnode) n ↔
      (s < n → n ≤ q.room + p.room + s → NoSliver c p.room q.room (n - s)) := by
  obtain ⟨hsize, hnext, hprev, hproom⟩ := hrep.neighbours
  simp [GrowOk, hsize, hnext, hprev, hproom]

theorem HeapOk.growsCleanly (hok : HeapOk c h cs own ds) (hgrow : GrowOk c h.mem (k.mem c) n) :
    GrowsCleanly c n k.addr cs := by
  rintro pre p s q post rfl hlt hroom
  exact hok.rep.growOk_iff.mp hgrow hlt (by omega)

theorem release_map (c : HeapConfig) (ks : List Chunk) (k : Chunk) :
    Sys.release (k.mem c) (ks.map (Chunk.mem c)) = (others k.addr ks).map (Chunk.mem c) := by
  rw [Sys.release, filter_map, others]
  congr 1
  refine filter_congr fun j _ => ?_
  rw [Function.comp_apply, Bool.eq_iff_iff, bne_iff_ne, bne_iff_ne, Chunk.mem, Chunk.mem, ne_eq, ne_eq,
    Nat.add_right_cancel_iff]

theorem release_map_zero {ks : List Chunk} (hks : ∀ k ∈ ks, k.mem c ≠ 0) :
    Sys.release 0 (ks.map (Chunk.mem c)) = ks.map (Chunk.mem c) := by
  refine filter_eq_self.mpr fun x hx => bne_iff_ne.mpr ?_
  obtain ⟨k, hk, rfl⟩ := mem_map.mp hx
  exact hks k hk

namespace SysOk

variable (hst : SysOk c st cs own ds)
include hst

theorem mem_ne_zero (hk : k ∈ own) : k.mem c ≠ 0 :=
  hst.heap.mem_ne_zero (mem_append_left ds hk)

theorem exists_mem (hmem : mem ∈ st.live) : ∃ k ∈ own, k.mem c = mem := by
  rw [hst.live] at hmem
  exact mem_map.mp hmem

theorem release_live (k : Chunk) :
    Sys.release (k.mem c) st.live = (others k.addr own).map (Chunk.mem c) := by
  rw [hst.live, release_map]

theorem release_zero : Sys.release 0 st.live = st.live := by
  rw [hst.live, release_map_zero fun k hk => hst.mem_ne_zero hk]

end SysOk

theorem After.of_malloc {ret : Nat} {st' : Sys}
    (hafter : After c st (.malloc size) ret st' cs own ds) (hgrown : x.grown = 0)
    (hreq : x.requested = some size) : After c st x ret st' cs own ds := by
  refine ⟨hafter.ok, hafter.heapsize, hafter.heapstart, hgrown ▸ hafter.heapend,
    fun hdl _ => hafter.delay hdl rfl, ?_⟩
  rw [hreq]
  exact hafter.served

theorem call_memalign_small {alignment : Nat} (hle : alignment ≤ c.mmMinChunk) :
    st.call c (.memalign alignment size) = st.call c (.malloc size) := by
  simp only [Sys.call, mmMemalign, if_pos hle]

theorem SysOk.after_alloc {x : Option Chunk} {call : Call} {m' : Mem} {cs' : List Chunk}
    (hst : SysOk c st cs own ds)
    (hok : HeapOk c { st.heap with mem := m', mmDelaylist := 0 } cs' (x.toList ++ own) [])
    (hco : Coalesced cs') (hgrown : call.grown = 0) (hreq : call.requested = some size)
    (hsize : ∀ k ∈ x, size + c.sizeofMmAllocnode ≤ k.size) :
    After c st call (ptr c x) ⟨{ st.heap with mem := m', mmDelaylist := 0 },
      Sys.hold (ptr c x) st.live⟩ cs' (x.toList ++ own) [] := by
  have hx : ∀ k ∈ x, k.mem c ≠ 0 := by
    rintro k hk
    exact hok.mem_ne_zero (mem_append_left _ (mem_append_left _ (Option.mem_toList.mpr hk)))
  refine ⟨⟨hok, ?_, hco⟩, rfl, rfl, by rw [hgrown, Nat.add_zero], fun _ _ => rfl, ?_⟩
  · cases x with
    | none => simp [Sys.hold, ptr, hst.live]
    | some k => simp [Sys.hold, ptr, hst.live, hx k rfl]
  intro size' hsize' hret
  cases hreq.symm.trans hsize'
  cases x with
  | none => exact absurd rfl hret
  | some k => exact ⟨k, by simp, rfl, hsize k rfl⟩

namespace SysOk

variable (hst : SysOk c st cs own ds)
include hst

theorem malloc (hsize : SizeOk c size) :
    ∃ ret st' cs' own' ds', st.call c (.malloc size) = .ok (ret, st') ∧
      After c st (.malloc size) ret st' cs' own' ds' := by
  obtain ⟨x, m', cs', heval, hok, hx, hco, -⟩ := hst.heap.mmMalloc hsize
  refine ⟨_, _, cs', _, _, ?_, hst.after_alloc hok (hco hst.coalesced).1 rfl rfl
    fun k hk => (alignsize_spec hsize).2.1.trans (hx k hk).2⟩
  simp [Sys.call, heval]

theorem call_realloc_null : st.call c (.realloc 0 size) = st.call c (.malloc size) := by
  simp only [Sys.call, mmRealloc, if_true, hst.release_zero]
  cases hmalloc : mmMalloc c st.heap size with
  | error e => rfl
  | ok r =>
    simp only [Result.ok_bind, Result.pure_eq_ok]
    split
    · rename_i hret
      rw [hret.1]
      rfl
    · rfl

theorem memalign {alignment : Nat} (hpow : ∃ e, alignment = 2 ^ e)
    (hsize : AlignOk c alignment size) :
    ∃ ret st' cs' own' ds', st.call c (.memalign alignment size) = .ok (ret, st') ∧
      After c st (.memalign alignment size) ret st' cs' own' ds' := by
  obtain ⟨e, rfl⟩ := hpow
  by_cases hle : 2 ^ e ≤ c.mmMinChunk
  · rw [AlignOk, if_pos hle] at hsize
    obtain ⟨ret, st', cs', own', ds', hcall, hafter⟩ := hst.malloc hsize
    exact ⟨ret, st', cs', own', ds', (call_memalign_small hle).trans hcall, hafter.of_malloc rfl rfl⟩
  rw [AlignOk, if_neg hle] at hsize
  obtain ⟨x, m', cs', heval, hok, hx, hco, -⟩ :=
    hst.heap.mmMemalign (Nat.lt_of_not_le hle) hsize.1 hsize.2
  refine ⟨_, _, cs', _, _, ?_, hst.after_alloc hok (hco hst.coalesced) rfl rfl
    fun k hk => (hx k hk).1⟩
  simp [Sys.call, heval]

theorem free (hmem : mem = 0 ∨ mem ∈ st.live)
    (ctx : CallContext) : ∃ ret st' cs' own' ds', st.call c (.free mem ctx) = .ok (ret, st') ∧
      After c st (.free mem ctx) ret st' cs' own' ds' := by
  rcases hmem with rfl | hmem
  · refine ⟨0, st, cs, own, ds, ?_, ⟨hst, rfl, rfl, rfl, fun hdl _ => hdl, by simp [Call.requested]⟩⟩
    simp [Sys.call, mmFree, hst.release_zero]
  obtain ⟨k, hk, rfl⟩ := hst.exists_mem hmem
  obtain ⟨m', dl, cs', ds', heval, hok, hco, -, hdl⟩ := hst.heap.mmFree hk ctx
  refine ⟨0, ⟨_, Sys.release (k.mem c) st.live⟩, cs', _, ds', ?_,
    ⟨⟨hok, hst.release_live k, hco hst.coalesced⟩, rfl, rfl, rfl,
      fun hzero hctx => (hdl hctx).trans hzero, by simp [Call.requested]⟩⟩
  simp [Sys.call, heval]

theorem realloc {oldmem : Nat} (hmem : oldmem = 0 ∨ oldmem ∈ st.live)
    (hsize : SizeOk c size) (hclean : st.Clean c (.realloc oldmem size)) :
    ∃ ret st' cs' own' ds', st.call c (.realloc oldmem size) = .ok (ret, st') ∧
      After c st (.realloc oldmem size) ret st' cs' own' ds' := by
  rcases hmem with rfl | hmem
  · obtain ⟨ret, st', cs', own', ds', hcall, hafter⟩ := hst.malloc hsize
    exact ⟨ret, st', cs', own', ds', hst.call_realloc_null.trans hcall, hafter.of_malloc rfl rfl⟩
  obtain ⟨k, hk, rfl⟩ := hst.exists_mem hmem
  have hne := hst.mem_ne_zero hk
  by_cases hzero : size < 1
  · -- `mm_realloc(mem, 0)` is `mm_free(mem)`
    obtain ⟨m', dl, cs', ds', heval, hok, hco, -, hdl⟩ := hst.heap.mmFree hk CallContext.task
    refine ⟨0, ⟨_, Sys.release (k.mem c) st.live⟩, cs', _, ds', ?_,
      ⟨⟨hok, hst.release_live k, hco hst.coalesced⟩, rfl, rfl, rfl,
        fun hzero _ => (hdl rfl).trans hzero, fun _ _ hret => absurd rfl hret⟩⟩
    simp only [Sys.call, mmRealloc, if_neg hne, if_pos hzero, heval, Result.ok_bind, Result.pure_eq_ok,
      Sys.hold, if_true, if_neg (show ¬ (True ∧ 0 < size) by omega)]
  obtain ⟨x, m', dl, cs', ds', heval, hok, hx, hco, -, hdl⟩ := hst.heap.mmRealloc hk (by omega)
    hsize (hst.heap.growsCleanly (hclean hne (by omega)))
  refine ⟨ptr c x, _, cs', x.elim own (· :: others k.addr own), ds', by
    simp only [Sys.call, heval, Result.ok_bind, Result.pure_eq_ok]; rfl, ?_⟩
  cases x with
  | none =>
    refine ⟨⟨hok, ?_, hco hst.coalesced⟩, rfl, rfl, rfl, fun hzero _ => hdl hzero,
      fun _ _ hret => absurd rfl hret⟩
    exact (if_pos ⟨rfl, by omega⟩).trans hst.live
  | some k' =>
    have hok : HeapOk c _ cs' (k' :: others k.addr own) ds' := hok
    have hne' := hok.mem_ne_zero (mem_append_left ds' mem_cons_self)
    refine ⟨⟨hok, ?_, hco hst.coalesced⟩, rfl, rfl, rfl, fun hzero _ => hdl hzero, ?_⟩
    · simp [ptr, hne', Sys.hold, hst.release_live k]
    · intro size' hsize' _
      cases hsize'
      exact ⟨k', mem_cons_self, rfl, (alignsize_spec hsize).2.1.trans (hx k' rfl)⟩

theorem extend (hext : ExtendOk c st.heap mem size) :
    ∃ ret st' cs' own' ds', st.call c (.extend mem size) = .ok (ret, st') ∧
      After c st (.extend mem size) ret st' cs' own' ds' := by
  obtain rfl := hext.adjoins
  obtain ⟨m', cs', heval, hok, hco, -⟩ := hst.heap.mmExtend hext
  refine ⟨0, ⟨{ st.heap with mem := m', mmHeapend := st.heap.mmHeapend + size }, st.live⟩, cs', own, ds,
    ?_, ⟨⟨hok, hst.live, hco hst.coalesced⟩, rfl, rfl, rfl, fun hdl _ => hdl, by simp [Call.requested]⟩⟩
  simp [Sys.call, heval]

theorem write {addr : Nat}
    (haddr : ∃ p ∈ st.live, p ≤ addr ∧ addr < p + mallocUsableSize c st.heap p) (byte : UInt8) :
    ∃ ret st' cs' own' ds', st.call c (.write addr byte) = .ok (ret, st') ∧
      After c st (.write addr byte) ret st' cs' own' ds' := by
  obtain ⟨p, hp, hlow, hhigh⟩ := haddr
  obtain ⟨k, hk, rfl⟩ := hst.exists_mem hp
  rw [hst.heap.mallocUsableSize_eq (mem_append_left ds hk)] at hhigh
  have hchg : ChangesOnly (k.payload c) st.heap.mem (store st.heap.mem 1 addr byte.toNat) := by
    refine (ChangesOnly.refl _ _).store _ fun x hx => ?_
    rw [mem_span] at hx
    rw [Chunk.mem] at hlow hhigh
    rw [Chunk.mem_payload]
    omega
  exact ⟨0, _, cs, own, ds, rfl, ⟨⟨(hst.heap.write hk hchg).1, hst.live, hst.coalesced⟩, rfl, rfl, rfl,
    fun hdl _ => hdl, by simp [Call.requested]⟩⟩

theorem step (hallow : st.Allows c x) (hclean : st.Clean c x) :
    ∃ ret st' cs' own' ds', st.call c x = .ok (ret, st') ∧ After c st x ret st' cs' own' ds' := by
  cases x with
  | malloc size => exact hst.malloc hallow
  | free mem ctx => exact hst.free hallow ctx
  | realloc oldmem size => exact hst.realloc hallow.1 hallow.2 hclean
  | memalign alignment size => exact hst.memalign hallow.1 hallow.2
  | extend mem size => exact hst.extend hallow
  | write addr byte => exact hst.write hallow byte

theorem run {ok : Sys → Call → Prop} {xs : List Call}
    (hstep : ∀ {st x cs own ds}, SysOk c st cs own ds → ok st x → st.Allows c x ∧ st.Clean c x)
    (hall : st.Along c ok xs) :
    ∃ st' cs' own' ds', st.run c xs = .ok st' ∧ SysOk c st' cs' own' ds' ∧
      st'.heap.mmHeapsize = st.heap.mmHeapsize ∧ st'.heap.mmHeapstart = st.heap.mmHeapstart ∧
      st'.heap.mmHeapend = st.heap.mmHeapend + (xs.map Call.grown).sum ∧
      (st.heap.mmDelaylist = 0 → (∀ x ∈ xs, x.delayed = false) → st'.heap.mmDelaylist = 0) := by
  induction xs generalizing st cs own ds with
  | nil => exact ⟨st, cs, own, ds, rfl, hst, rfl, rfl, rfl, fun hdl _ => hdl⟩
  | cons x xs ih =>
    obtain ⟨hx, hrest⟩ := hall
    obtain ⟨hallow, hclean⟩ := hstep hst hx
    obtain ⟨ret, st1, cs1, own1, ds1, hcall, hafter⟩ := hst.step hallow hclean
    obtain ⟨st', cs', own', ds', hrun, hst', hsize, hstart, hend, hdelay⟩ :=
      ih hafter.ok (hrest st1 (Sys.next_eq hcall))
    refine ⟨st', cs', own', ds', ?_, hst', hsize.trans hafter.heapsize,
      hstart.trans hafter.heapstart, ?_, fun hdl hxs => ?_⟩
    · simp only [Sys.run, foldlM_cons, Sys.next_eq hcall, Result.ok_bind]
      exact hrun
    · rw [hend, hafter.heapend, map_cons, sum_cons, Nat.add_assoc]
    · obtain ⟨hx, hxs⟩ := forall_mem_cons.mp hxs
      exact hdelay (hafter.delay hdl hx) hxs

end SysOk

theorem sysOk_init {nodelist heapstart heapsize : Nat} (hinit : InitOk c nodelist heapstart heapsize)
    (m : Mem) : ∃ h cs, mmInitialize c m nodelist heapstart heapsize = .ok h ∧
      SysOk c ⟨h, []⟩ cs [] [] ∧ h.mmHeapstart + h.mmHeapsize = h.mmHeapend + c.sizeofMmAllocnode ∧
      h.mmDelaylist = 0 ∧ h.mmHeapstart = c.mmAlignUp heapstart ∧
      h.mmHeapend + c.sizeofMmAllocnode = c.mmAlignDown (heapstart + heapsize) := by
  obtain ⟨base, s, m', heval, hbase, hend, hrep⟩ := mmInitialize_spec hinit m
  refine ⟨_, _, heval, ⟨⟨hrep, rfl, nodup_nil, fun k => ?_⟩, rfl, by simp [Coalesced, freshChunks,
    Chunk.guard]⟩, by simp only; omega, rfl, hbase, by simp only; omega⟩
  refine ⟨fun hk => (not_mem_nil hk).elim, ?_⟩
  rintro ⟨hk, hused, hlo, hhi⟩
  simp only [freshChunks, mem_cons, not_mem_nil, or_false] at hk
  rcases hk with rfl | rfl | rfl
  · exact absurd rfl hlo
  · cases hused
  · exact absurd rfl hhi

theorem initOk_page (debug fill : Bool) : InitOk (.bits32 debug fill) 4096 8192 4096 := by
  constructor <;> revert debug fill <;> decide

theorem noSliver_of_unit {prevsize nextsize needed : Nat}
    (hunit : c.sizeofMmFreenode ≤ 2 * c.sizeofMmAllocnode)
    (hp : 2 * c.sizeofMmAllocnode ∣ prevsize) (hn : 2 * c.sizeofMmAllocnode ∣ nextsize)
    (hd : 2 * c.sizeofMmAllocnode ∣ needed) (hroom : needed ≤ prevsize + nextsize) :
    NoSliver c prevsize nextsize needed := by
  have hleaves : ∀ room, 2 * c.sizeofMmAllocnode ∣ room → needed ≤ room →
      needed = room ∨ needed + c.sizeofMmFreenode ≤ room := by
    intro room hdvd hle
    rcases hle.eq_or_lt with heq | hlt
    · exact .inl heq
    · have hrest := Nat.le_of_dvd (Nat.sub_pos_of_lt hlt) (Nat.dvd_sub hdvd hd)
      omega
  have hsmaller : 2 * c.sizeofMmAllocnode ∣ if prevsize = 0 then nextsize
      else if nextsize = 0 then prevsize else min prevsize nextsize := by
    rcases min_choice prevsize nextsize with hmin | hmin <;> split_ifs <;> simp only [hmin, hp, hn]
  simp only [NoSliver]
  generalize (if prevsize = 0 then nextsize
    else if nextsize = 0 then prevsize else min prevsize nextsize) = smaller at hsmaller
  by_cases hle : needed ≤ smaller
  · rw [if_pos hle]
    exact hleaves _ hsmaller hle
  · rw [if_neg hle]
    exact hleaves _ (Nat.dvd_add hp hn) hroom

theorem HeapOk.growOk_of_unit (hok : HeapOk c h cs own ds)
    (hunit : c.sizeofMmFreenode ≤ 2 * c.sizeofMmAllocnode) (hk : k ∈ own ++ ds)
    (hn : 2 * c.sizeofMmAllocnode ∣ n) : GrowOk c h.mem (k.mem c) n := by
  obtain ⟨hmem, hlo, hhi⟩ := hok.mem_cs hk
  have hks := (hok.size_ok hk).2
  have hrep := hok.rep
  obtain ⟨pre, p, q, post, rfl⟩ := hrep.tiling.exists_around hmem
    (Tiling.ne_guard_of_addr_ne hlo) (Tiling.ne_guard_of_addr_ne hhi)
  exact hrep.growOk_iff.mpr fun _ _ => noSliver_of_unit hunit (Chunk.unit_dvd_room hrep (by simp))
    (Chunk.unit_dvd_room hrep (by simp)) (Nat.dvd_sub hn hks) (by omega)

theorem SysOk.clean_of_unit (hunit : c.sizeofMmFreenode ≤ 2 * c.sizeofMmAllocnode)
    (hst : SysOk c st cs own ds) (hallow : st.Allows c x) : st.Clean c x := by
  cases x with
  | realloc oldmem size =>
    intro hne hpos
    obtain ⟨k, hk, rfl⟩ := hst.exists_mem (hallow.1.resolve_left hne)
    obtain ⟨-, -, -, hdvd, -⟩ := alignsize_spec hallow.2
    exact hst.heap.growOk_of_unit hunit (mem_append_left ds hk)
      (c.unit_dvd_mmMinChunk.trans hdvd)
  | _ => trivial

end Nuttx.Mm

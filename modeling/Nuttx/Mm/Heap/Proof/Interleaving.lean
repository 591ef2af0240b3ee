import Nuttx.Mm.Heap.Tasks
import Nuttx.Mm.Heap.Proof.WellFormed

/-!
# Interleaved calls

Between two of its steps a call owns the chunks it works on: what it has taken off the delay list,
what it was handed and what it has allocated.
-/

open List

namespace Nuttx.Mm

open ByteMemory

variable {c : HeapConfig} {h : Heap} {m m' : Mem} {cs rest ks js ds own : List Chunk} {k : Chunk}
  {size tmp : Nat} {caller : Caller} {ctx : CallContext} {p : Pending}

def Caller.Owns (c : HeapConfig) (size : Nat) : Caller → List Chunk → Prop
  | malloc, ks => ks = []
  | realloc oldmem oldsize, ks => ∃ k, ks = [k] ∧ oldmem = k.mem c ∧ oldsize = k.size ∧
      k.size < c.mmAlignUp (size + c.sizeofMmAllocnode)
  | memalign alignment asize allocsize, ks => ks = [] ∧ ∃ e, alignment = 2 ^ e ∧
      c.mmMinChunk < 2 ^ e ∧ allocsize = asize + (2 ^ e + 2 ^ e) ∧ size = allocsize

def Pending.Owns (c : HeapConfig) (m : Mem) : Pending → List Chunk → Prop
  | delaylist size caller, ks => SizeOk c size ∧ caller.Owns c size ks
  | drain tmp size caller, ks => SizeOk c size ∧ ∃ k js ls, ks = k :: js ++ ls ∧
      DelayChain c m tmp (k :: js) ∧ caller.Owns c size ls
  | malloc size caller, ks => 0 < size ∧ SizeOk c size ∧ caller.Owns c size ks
  | fill ret alignsize caller, ks => ∃ size k js, SizeOk c size ∧ ks = k :: js ∧ ret = k.mem c ∧
      alignsize = c.mmAlignUp (size + c.sizeofMmAllocnode) ∧ alignsize ≤ k.size ∧
      caller.Owns c size js
  | copy newmem oldmem oldsize, ks => ∃ k k', ks = [k, k'] ∧ newmem = k'.mem c ∧
      oldmem = k.mem c ∧ oldsize = k.size ∧ k.size + c.sizeofMmAllocnode ≤ k'.size
  | free mem ret, ks => ∃ k js, ks = k :: js ∧ mem = k.mem c ∧ Sys.hold ret [] = js.map (Chunk.mem c)
  | realloc oldmem size, ks => 0 < size ∧ SizeOk c size ∧ ∃ k, ks = [k] ∧ oldmem = k.mem c
  | trim alignment size allocsize rawchunk, ks => ∃ k e, ks = [k] ∧ rawchunk = k.mem c ∧
      alignment = 2 ^ e ∧ c.mmMinChunk < 2 ^ e ∧ allocsize = size + (2 ^ e + 2 ^ e) ∧
      allocsize + c.sizeofMmAllocnode ≤ k.size
  | extend _ _, ks => ks = []

def Outcome.Owns (c : HeapConfig) (m : Mem) : Outcome → List Chunk → Prop
  | next p, ks => p.Owns c m ks
  | done ret, ks => ret = ks.map (Chunk.mem c)

theorem Pending.Owns.congr (hp : p.Owns c m ks)
    (hsize : ∀ k ∈ ks, c.sizeofMmFreenode ≤ k.size) (hkeep : Keeps c ks m m') : p.Owns c m' ks := by
  cases p with
  | drain tmp size caller =>
    obtain ⟨hok, k, js, ls, rfl, hchain, hcaller⟩ := hp
    have hsub := subset_append_left (k :: js) ls
    exact ⟨hok, k, js, ls, rfl,
      hchain.congr (fun j hj => hsize j (hsub hj)) (hkeep.subset hsub), hcaller⟩
  | _ => exact hp

theorem Caller.Owns.resume_zero (hcaller : caller.Owns c size ks) :
    (caller.resume 0).Owns c m ks := by
  cases caller with
  | malloc =>
    obtain rfl := hcaller
    rfl
  | realloc oldmem oldsize =>
    obtain ⟨k, rfl, rfl, -⟩ := hcaller
    rfl
  | memalign alignment asize allocsize =>
    obtain ⟨rfl, -⟩ := hcaller
    rfl

theorem Caller.Owns.resume (hcaller : caller.Owns c size ks) (hsize : SizeOk c size)
    (hk : c.mmAlignUp (size + c.sizeofMmAllocnode) ≤ k.size) (hne : k.mem c ≠ 0)
    (hunit : ∀ j ∈ ks, 2 * c.sizeofMmAllocnode ∣ j.size) :
    ∃ ls, ls.Perm (k :: ks) ∧ (caller.resume (k.mem c)).Owns c m ls := by
  obtain ⟨-, hle, -, hdvd, -⟩ := alignsize_spec hsize
  cases caller with
  | malloc =>
    obtain rfl := hcaller
    exact ⟨[k], .refl _, by simp [Caller.resume, Outcome.Owns, Sys.hold, hne]⟩
  | realloc oldmem oldsize =>
    obtain ⟨j, rfl, rfl, rfl, hlt⟩ := hcaller
    -- the old chunk is smaller by a unit at least
    have hroom := Nat.le_of_dvd (by omega)
      (Nat.dvd_sub (c.unit_dvd_mmMinChunk.trans hdvd) (hunit j mem_cons_self))
    refine ⟨[j, k], List.Perm.swap _ _ _, ?_⟩
    rw [Caller.resume, if_pos hne]
    exact ⟨j, k, rfl, rfl, rfl, rfl, by omega⟩
  | memalign alignment asize allocsize =>
    obtain ⟨rfl, e, rfl, he, rfl, rfl⟩ := hcaller
    refine ⟨[k], .refl _, ?_⟩
    rw [Caller.resume, if_neg hne]
    exact ⟨k, e, rfl, rfl, rfl, he, rfl, hle.trans hk⟩

theorem DelayChain.drained (hchain : DelayChain c m tmp js) (hne : ∀ j ∈ js, j.mem c ≠ 0)
    (hsize : SizeOk c size) (hcaller : caller.Owns c size ks) :
    (Pending.drained tmp size caller).Owns c m (js ++ ks) := by
  cases js with
  | nil =>
    rw [DelayChain] at hchain
    subst hchain
    rw [Pending.drained, if_neg (by simp)]
    split
    · exact hcaller.resume_zero
    · exact ⟨by omega, hsize, hcaller⟩
  | cons j js =>
    have htmp : tmp ≠ 0 := hchain.1 ▸ hne j mem_cons_self
    rw [Pending.drained, if_pos htmp]
    exact ⟨hsize, j, js, ks, rfl, hchain, hcaller⟩

/-- A step of the call `p` returns, leaves the heap in order and every chunk of `rest` alone, and
under `calm` leaves the free chunks coalesced. -/
def Advances (c : HeapConfig) (ctx : CallContext) (h : Heap) (cs rest : List Chunk) (p : Pending)
    (calm : Prop) : Prop :=
  ∃ h' out cs' ks' ds', p.advance c ctx h = .ok (h', out) ∧ HeapOk c h' cs' (ks' ++ rest) ds' ∧
    out.Owns c h'.mem ks' ∧ Keeps c rest h.mem h'.mem ∧ (Coalesced cs → calm → Coalesced cs')

theorem HeapOk.others_perm (hok : HeapOk c h cs (k :: ks) ds) : (others k.addr (k :: ks)).Perm ks :=
  (hok.perm_others mem_cons_self).cons_inv.symm

theorem HeapOk.prevUsed (hok : HeapOk c h cs own ds) (hk : k ∈ own ++ ds)
    (hprev : isAllocated c h.mem (k.addr - c.clearAllocBit (nodePreceding c h.mem k.addr)) = true) :
    PrevUsed k.addr cs := by
  obtain ⟨hmem, hlo, hhi⟩ := hok.mem_cs hk
  have hrep := hok.rep
  obtain ⟨pre, p, q, post, rfl⟩ := hrep.tiling.exists_around hmem
    (Tiling.ne_guard_of_addr_ne hlo) (Tiling.ne_guard_of_addr_ne hhi)
  obtain ⟨-, -, hpaddr, -⟩ := hrep.neighbours
  have hpmem : p ∈ pre ++ p :: ⟨k.addr, k.size, true⟩ :: q :: post := by simp
  rw [hpaddr, hrep.isAllocated_eq hpmem] at hprev
  rintro pre' k' post' heq haddr
  have hsplit : pre ++ p :: ⟨k.addr, k.size, true⟩ :: q :: post
      = (pre ++ [p]) ++ ⟨k.addr, k.size, true⟩ :: q :: post := by simp
  have htiling := hrep.tiling
  rw [hsplit] at htiling heq
  obtain ⟨rfl, -⟩ := htiling.split_unique heq haddr.symm
  simpa using hprev

namespace Pending

variable (hok : HeapOk c h cs (ks ++ rest) ds)
include hok

theorem advance_delaylist (hp : (delaylist size caller).Owns c h.mem ks) :
    Advances c ctx h cs rest (delaylist size caller) True := by
  have hok' := hok.take_delaylist
  rw [← append_assoc] at hok'
  refine ⟨_, _, cs, ds ++ ks, [], rfl, hok', ?_, .refl _ _ _, fun hco _ => hco⟩
  refine hok.delay.drained (fun d hd => ?_) hp.1 hp.2
  exact hok.mem_ne_zero (mem_append_right _ hd)

theorem advance_drain (hp : (drain tmp size caller).Owns c h.mem ks) :
    Advances c ctx h cs rest (drain tmp size caller) True := by
  obtain ⟨hsize, k, js, ls, rfl, ⟨rfl, hchain⟩, hcaller⟩ := hp
  have hok : HeapOk c h cs (k :: (js ++ ls ++ rest)) ds := by simpa using hok
  obtain ⟨m', dl, cs', ds', heval, hok', hco, hkeep, -⟩ := hok.mmFree mem_cons_self ctx
  have hperm := hok.others_perm
  have hkeep := hkeep.subset hperm.symm.subset
  have hjs : js ⊆ js ++ ls ++ rest := fun j hj => by simp [hj]
  refine ⟨_, drained (load h.mem c.ptrBytes (k.mem c)) size caller, cs', js ++ ls, ds', ?_,
    hok'.perm hperm, ?_, hkeep.subset (subset_append_right _ _), fun h _ => hco h⟩
  · simp [advance, heval]
  · refine (hchain.congr (fun j hj => ?_) (hkeep.subset hjs)).drained (fun j hj => ?_) hsize hcaller
    · exact (hok.size_ok (mem_append_left ds (mem_cons_of_mem _ (hjs hj)))).1
    · exact hok.mem_ne_zero (mem_append_left ds (mem_cons_of_mem _ (hjs hj)))

theorem advance_malloc (hp : (malloc size caller).Owns c h.mem ks) :
    Advances c ctx h cs rest (malloc size caller) True := by
  obtain ⟨hpos, hsize, hcaller⟩ := hp
  obtain ⟨ha, hf, hmm, hp, hmin⟩ := c.layout
  obtain ⟨hadd, hle, hge, hdvd, hlt⟩ := alignsize_spec hsize
  have hunit : ∀ j ∈ ks, 2 * c.sizeofMmAllocnode ∣ j.size := fun j hj =>
    (hok.size_ok (mem_append_left ds (mem_append_left rest hj))).2
  generalize hn : c.mmAlignUp (size + c.sizeofMmAllocnode) = n at *
  have hassert1 : decide (n ≥ size) = true := decide_eq_true (by omega)
  have hassert2 : decide (n ≥ c.mmMinChunk) = true := decide_eq_true (by omega)
  have hassert3 : decide (n ≥ c.sizeofMmFreenode) = true := decide_eq_true (by omega)
  rcases hok.mmMallocLocked (hmin.trans hge) (c.unit_dvd_mmMinChunk.trans hdvd)
    with ⟨heval, -⟩ | ⟨k, cs', m', heval, hok', hk, hstep, hkeep⟩
  · refine ⟨h, caller.resume 0, cs, ks, ds, ?_, hok, hcaller.resume_zero, .refl _ _ _, fun hco _ => hco⟩
    simp [advance, hadd, hn, hassert1, hassert2, hassert3, heval]
  have hok' : HeapOk c { h with mem := m' } cs' (k :: ks ++ rest) ds := hok'
  have hkeep := hkeep.subset (subset_append_right ks rest)
  have hne := hok'.mem_ne_zero (mem_append_left ds mem_cons_self)
  by_cases hfill : c.fillAllocations = true
  · refine ⟨_, .next (.fill (k.mem c) n caller), cs', k :: ks, ds, ?_, hok', ?_, hkeep,
      fun hco _ => hstep.coalesced hco⟩
    · simp [advance, hadd, hn, hassert1, hassert2, hassert3, heval, hfill, hne]
    · exact ⟨size, k, ks, hsize, rfl, rfl, hn.symm, hk, hcaller⟩
  · obtain ⟨ls, hperm, howns⟩ := hcaller.resume (m := m') hsize (hn ▸ hk) hne hunit
    refine ⟨_, caller.resume (k.mem c), cs', ls, ds, ?_, hok'.perm (hperm.symm.append_right rest),
      howns, hkeep, fun hco _ => hstep.coalesced hco⟩
    simp [advance, hadd, hn, hassert1, hassert2, hassert3, heval, hfill]

theorem advance_fill {ret alignsize : Nat} (hp : (fill ret alignsize caller).Owns c h.mem ks) :
    Advances c ctx h cs rest (fill ret alignsize caller) True := by
  obtain ⟨size, k, js, hsize, rfl, rfl, rfl, hk, hcaller⟩ := hp
  obtain ⟨ha, hf, hmm, hp, hmin⟩ := c.layout
  obtain ⟨-, hle, hge, -, hlt⟩ := alignsize_spec hsize
  have hmem : k ∈ k :: js ++ rest := by simp
  have hchg : ChangesOnly (k.payload c) h.mem (memset h.mem (k.mem c) 0xaa
      (c.sub (c.mmAlignUp (size + c.sizeofMmAllocnode)) c.sizeofMmAllocnode)) := by
    refine (ChangesOnly.refl _ _).memset _ fun x hx => ?_
    rw [c.sub_eq (by omega) hlt, mem_span, Chunk.mem] at hx
    rw [Chunk.mem_payload]
    omega
  obtain ⟨hok', hkeep⟩ := hok.write hmem hchg
  have hunit : ∀ j ∈ js, 2 * c.sizeofMmAllocnode ∣ j.size := fun j hj =>
    (hok.size_ok (by simp [hj])).2
  obtain ⟨ls, hperm, howns⟩ := hcaller.resume hsize hk
    (hok.mem_ne_zero (mem_append_left ds hmem)) hunit
  have hsub : rest ⊆ others k.addr (k :: js ++ rest) := fun j hj =>
    hok.others_perm.symm.subset (mem_append_right js hj)
  exact ⟨_, _, cs, ls, ds, rfl, hok'.perm (hperm.symm.append_right rest), howns, hkeep.subset hsub,
    fun hco _ => hco⟩

theorem advance_copy {newmem oldmem oldsize : Nat}
    (hp : (copy newmem oldmem oldsize).Owns c h.mem ks) :
    Advances c ctx h cs rest (copy newmem oldmem oldsize) True := by
  obtain ⟨k, k', rfl, rfl, rfl, rfl, hroom⟩ := hp
  have hk' : k' ∈ [k, k'] ++ rest := by simp
  have hchg : ChangesOnly (k'.payload c) h.mem (memcpy h.mem (k'.mem c) (k.mem c) k.size) := by
    refine (ChangesOnly.refl _ _).memcpy fun x hx => ?_
    rw [mem_span, Chunk.mem] at hx
    rw [Chunk.mem_payload]
    omega
  obtain ⟨hok', hkeep⟩ := hok.write hk' hchg
  have hne := hok.mem_ne_zero (mem_append_left ds hk')
  have hsub : rest ⊆ others k'.addr ([k, k'] ++ rest) := fun j hj =>
    (((hok.perm_others hk').symm.trans (List.Perm.swap k' k rest)).cons_inv).symm.subset
      (mem_cons_of_mem _ hj)
  exact ⟨_, _, cs, [k, k'], ds, rfl, hok', ⟨k, [k'], rfl, rfl, by simp [Sys.hold, hne]⟩,
    hkeep.subset hsub, fun hco _ => hco⟩

theorem advance_free {mem ret : Nat}
    (hp : (free mem ret).Owns c h.mem ks) : Advances c ctx h cs rest (free mem ret) True := by
  obtain ⟨k, js, rfl, rfl, hret⟩ := hp
  obtain ⟨m', dl, cs', ds', heval, hok', hco, hkeep, -⟩ :=
    hok.mmFree (show k ∈ k :: js ++ rest by simp) ctx
  have hperm := HeapOk.others_perm (show HeapOk c h cs (k :: (js ++ rest)) ds from hok)
  refine ⟨_, .done (Sys.hold ret []), cs', js, ds', ?_, hok'.perm hperm, hret,
    hkeep.subset fun j hj => hperm.symm.subset (mem_append_right js hj), fun h _ => hco h⟩
  simp [advance, heval]

theorem advance_realloc {oldmem : Nat} (hp : (realloc oldmem size).Owns c h.mem ks)
    (hgrow : (realloc oldmem size).Clean c h.mem) :
    Advances c ctx h cs rest (realloc oldmem size) True := by
  obtain ⟨hpos, hsize, k, rfl, rfl⟩ := hp
  obtain ⟨ha, hf, hmm, hp, hmin⟩ := c.layout
  obtain ⟨hadd, hle, hge, hdvd, hlt⟩ := alignsize_spec hsize
  have hk : k ∈ [k] ++ rest := by simp
  obtain ⟨hmem, -⟩ := hok.mem_cs (mem_append_left ds hk)
  have hksize : nodeSize c h.mem (k.mem c - c.sizeofMmAllocnode) = k.size := by
    rw [Chunk.mem, Nat.add_sub_cancel]
    exact hok.rep.nodeSize_eq hmem
  have hclean : GrowsCleanly c (c.mmAlignUp (size + c.sizeofMmAllocnode)) k.addr cs := by
    by_cases hunit : 2 * c.sizeofMmAllocnode < c.sizeofMmFreenode
    · exact hok.growsCleanly (hgrow hunit)
    · exact hok.growsCleanly (hok.growOk_of_unit (by omega) (mem_append_left ds hk)
        (c.unit_dvd_mmMinChunk.trans hdvd))
  rcases hok.mmReallocLocked hk (hmin.trans hge) hdvd hclean
    with ⟨heval, hsmall⟩ | ⟨k', cs', m', heval, hok', -, hco, hkeep⟩
  · refine ⟨h, .next (.delaylist size (.realloc (k.mem c) k.size)), cs, [k], ds, ?_, hok,
      ⟨hsize, k, rfl, rfl, rfl, hsmall⟩, .refl _ _ _, fun hco _ => hco⟩
    simp only [advance, hadd, hksize, heval, Result.ok_bind, Result.pure_eq_ok]
  · have hperm := HeapOk.others_perm (show HeapOk c h cs (k :: rest) ds from hok)
    refine ⟨_, .done [k'.mem c], cs', [k'], ds, ?_, hok'.perm (hperm.cons k'), rfl,
      hkeep.subset hperm.symm.subset, fun h _ => hco h⟩
    simp only [advance, hadd, heval, Result.ok_bind, Result.pure_eq_ok]

theorem advance_trim {alignment allocsize rawchunk : Nat}
    (hp : (trim alignment size allocsize rawchunk).Owns c h.mem ks) :
    Advances c ctx h cs rest (trim alignment size allocsize rawchunk)
      (memalignPoint c alignment rawchunk = rawchunk ∨
        isAllocated c h.mem (rawchunk - c.sizeofMmAllocnode -
          c.clearAllocBit (nodePreceding c h.mem (rawchunk - c.sizeofMmAllocnode))) = true) := by
  obtain ⟨k, e, rfl, rfl, rfl, he, rfl, hroom⟩ := hp
  have hk : k ∈ [k] ++ rest := by simp
  obtain ⟨k', cs', m', heval, hok', -, -, hco, hkeep⟩ := hok.mmMemalignLocked hk he hroom
  have hperm := HeapOk.others_perm (show HeapOk c h cs (k :: rest) ds from hok)
  refine ⟨_, .done [k'.mem c], cs', [k'], ds, ?_, hok'.perm (hperm.cons k'), rfl,
    hkeep.subset hperm.symm.subset, fun hcs hcalm => hco hcs (hcalm.imp_right fun hprev => ?_)⟩
  · simp [advance, heval]
  · rw [Chunk.mem, Nat.add_sub_cancel] at hprev
    exact hok.prevUsed (mem_append_left ds hk) hprev

theorem advance_extend {mem : Nat}
    (hp : (extend mem size).Owns c h.mem ks) (hext : ExtendOk c h mem size) :
    Advances c ctx h cs rest (extend mem size) True := by
  obtain rfl : ks = [] := hp
  obtain rfl := hext.adjoins
  obtain ⟨ha, hf, hmm, hp, hmin⟩ := c.layout
  obtain ⟨m', cs', heval, hok', hstep, hkeep⟩ := hok.mmExtendLocked hext
  refine ⟨_, .next (.free (h.mmHeapend + c.sizeofMmAllocnode) 0), cs',
    [⟨h.mmHeapend, size, true⟩], ds, ?_, hok', ⟨_, [], rfl, rfl, rfl⟩, hkeep,
    fun hco _ => hstep.coalesced hco⟩
  obtain ⟨hassert, hup, hdown⟩ := hext.asserts
  simp only [advance, hassert, hup, hdown, beq_self_eq_true, debugassert_true, heval, Result.ok_bind,
    Result.pure_eq_ok]

theorem advance_spec (hp : p.Owns c h.mem ks) (hext : p.Extends c h) (hgrow : p.Clean c h.mem)
    (hcalm : p.Undisturbed c h.mem) :
    Advances c ctx h cs rest p True := by
  cases p with
  | delaylist size caller => exact advance_delaylist hok hp
  | drain tmp size caller => exact advance_drain hok hp
  | malloc size caller => exact advance_malloc hok hp
  | fill ret alignsize caller => exact advance_fill hok hp
  | copy newmem oldmem oldsize => exact advance_copy hok hp
  | free mem ret => exact advance_free hok hp
  | realloc oldmem size => exact advance_realloc hok hp hgrow
  | trim alignment size allocsize rawchunk =>
    obtain ⟨h', out, cs', ks', ds', heval, hok', howns, hkeep, hco⟩ := advance_trim hok hp
    exact ⟨h', out, cs', ks', ds', heval, hok', howns, hkeep,
      fun hcs _ => hco hcs hcalm⟩
  | extend mem size => exact advance_extend hok hp hext

end Pending

namespace Outcome

def kept (ks : List Chunk) : Outcome → List (List Chunk)
  | next _ => [ks]
  | done _ => []

def given (ks : List Chunk) : Outcome → List Chunk
  | next _ => []
  | done _ => ks

theorem given_append_kept (out : Outcome) (ks : List Chunk) :
    out.given ks ++ (out.kept ks).flatten = ks := by
  cases out <;> simp [given, kept]

theorem Owns.pending {out : Outcome} (howns : out.Owns c m ks) :
    List.Forall₂ (Pending.Owns c m) out.pending (out.kept ks) := by
  cases out with
  | next p => exact .cons howns .nil
  | done ret => exact .nil

theorem Owns.returned {out : Outcome} (howns : out.Owns c m ks) :
    out.returned = (out.given ks).map (Chunk.mem c) := by
  cases out with
  | next p => rfl
  | done ret => exact howns

end Outcome

/-- The heap is in order, callers hold the chunks `own`, and the calls in progress own the chunks
`helds`, call by call. -/
structure TasksOk (c : HeapConfig) (ts : Tasks) (cs own : List Chunk) (helds : List (List Chunk))
    (ds : List Chunk) : Prop where
  heap : HeapOk c ts.heap cs (own ++ helds.flatten) ds
  live : ts.live = own.map (Chunk.mem c)
  calls : List.Forall₂ (Pending.Owns c ts.heap.mem) ts.calls helds
  coalesced : Coalesced cs

variable {ts : Tasks} {calls : List Pending} {helds : List (List Chunk)}

theorem forall2_congr_mem (hcalls : List.Forall₂ (Pending.Owns c m) calls helds)
    (hsize : ∀ k ∈ helds.flatten, c.sizeofMmFreenode ≤ k.size) (hkeep : Keeps c helds.flatten m m') :
    List.Forall₂ (Pending.Owns c m') calls helds := by
  induction hcalls with
  | nil => exact .nil
  | @cons p ks calls helds hp hrest ih =>
    simp only [flatten_cons, mem_append] at hsize
    rw [flatten_cons] at hkeep
    exact .cons
      (hp.congr (fun k hk => hsize k (.inl hk)) (hkeep.subset (subset_append_left _ _)))
      (ih (fun k hk => hsize k (.inr hk)) (hkeep.subset (subset_append_right _ _)))

theorem forall2_split {i : Nat} (hcalls : List.Forall₂ (Pending.Owns c m) calls helds)
    (hp : calls[i]? = some p) :
    ∃ ks, p.Owns c m ks ∧ helds = helds.take i ++ ks :: helds.drop (i + 1) ∧
      List.Forall₂ (Pending.Owns c m) (calls.take i) (helds.take i) ∧
      List.Forall₂ (Pending.Owns c m) (calls.drop (i + 1)) (helds.drop (i + 1)) := by
  obtain ⟨hi, rfl⟩ := List.getElem?_eq_some_iff.mp hp
  have hi' : i < helds.length := hcalls.length_eq ▸ hi
  refine ⟨helds[i], ?_, ?_, forall₂_take i hcalls, forall₂_drop (i + 1) hcalls⟩
  · have hget := (forall₂_iff_get.mp hcalls).2 i hi hi'
    simpa using hget
  · rw [← drop_eq_getElem_cons hi', take_append_drop]

namespace TasksOk

variable {out : Outcome}

variable (hts : TasksOk c ts cs own helds ds)
include hts

theorem accept {own' : List Chunk} {live : List Nat} (howns : out.Owns c ts.heap.mem ks)
    (hperm : own.Perm (ks ++ own')) (hlive : live = own'.map (Chunk.mem c)) :
    TasksOk c ⟨ts.heap, out.returned ++ live, out.pending ++ ts.calls⟩ cs (out.given ks ++ own')
      (out.kept ks ++ helds) ds := by
  refine ⟨hts.heap.perm ?_, ?_, rel_append howns.pending hts.calls, hts.coalesced⟩
  · have hks := out.given_append_kept ks
    rw [perm_iff_count] at hperm ⊢
    intro k
    have hcount := hperm k
    rw [← hks] at hcount
    simp only [flatten_append, count_append] at hcount ⊢
    omega
  · rw [howns.returned, hlive, map_append]

theorem exists_mem {mem : Nat} (hmem : mem ∈ ts.live) : ∃ k ∈ own, k.mem c = mem := by
  rw [hts.live] at hmem
  exact mem_map.mp hmem

theorem mem_ne_zero (hk : k ∈ own) : k.mem c ≠ 0 :=
  hts.heap.mem_ne_zero (mem_append_left ds (mem_append_left _ hk))

theorem accept_none (howns : out.Owns c ts.heap.mem []) :
    ∃ own' helds', TasksOk c ⟨ts.heap, out.returned ++ Sys.release 0 ts.live, out.pending ++ ts.calls⟩
      cs own' helds' ds := by
  refine ⟨_, _, hts.accept howns (List.Perm.refl own) ?_⟩
  rw [hts.live, release_map_zero fun k hk => hts.mem_ne_zero hk]

theorem accept_some (hk : k ∈ own) (howns : out.Owns c ts.heap.mem [k]) :
    ∃ own' helds', TasksOk c
      ⟨ts.heap, out.returned ++ Sys.release (k.mem c) ts.live, out.pending ++ ts.calls⟩ cs own' helds' ds := by
  refine ⟨_, _, hts.accept howns
    (hts.heap.perm_others_of_sublist (sublist_append_left own _) hk) ?_⟩
  rw [hts.live]
  exact release_map c own k

theorem enter {x : Call} (hallow : ts.Allows c (.call x)) :
    ∃ own' helds', TasksOk c ⟨ts.heap, (x.enter c).returned ++ Sys.release x.argument ts.live,
      (x.enter c).pending ++ ts.calls⟩ cs own' helds' ds := by
  cases x with
  | malloc size => exact hts.accept_none ⟨hallow, rfl⟩
  | free mem ctx =>
    rcases hallow with rfl | hmem
    · exact hts.accept_none rfl
    obtain ⟨k, hk, rfl⟩ := hts.exists_mem hmem
    refine hts.accept_some hk ?_
    rw [Call.enter, if_neg (hts.mem_ne_zero hk)]
    exact ⟨k, [], rfl, rfl, rfl⟩
  | realloc oldmem size =>
    obtain ⟨rfl | hmem, hsize⟩ := hallow
    · exact hts.accept_none ⟨hsize, rfl⟩
    obtain ⟨k, hk, rfl⟩ := hts.exists_mem hmem
    refine hts.accept_some hk ?_
    rw [Call.enter, if_neg (hts.mem_ne_zero hk)]
    split
    · exact ⟨k, [], rfl, rfl, rfl⟩
    · exact ⟨by omega, hsize, k, rfl, rfl⟩
  | memalign alignment size =>
    obtain ⟨⟨e, rfl⟩, hsize⟩ := hallow
    refine hts.accept_none ?_
    rw [Call.enter]
    split
    · rename_i hle
      rw [AlignOk, if_pos hle] at hsize
      exact ⟨hsize, rfl⟩
    rename_i hle
    rw [AlignOk, if_neg hle] at hsize
    have hlt := hsize.2
    unfold SizeOk at hlt
    have hadd : c.add (c.mmAlignUp size) (c.add (2 ^ e) (2 ^ e))
        = c.mmAlignUp size + (2 ^ e + 2 ^ e) := by
      rw [c.add_eq (a := 2 ^ e) (by omega), c.add_eq (by omega)]
    refine ⟨hadd ▸ hsize.2, rfl, e, rfl, by omega, hadd, rfl⟩
  | extend mem size | write addr byte => exact hts.accept_none rfl

theorem write {addr : Nat} (byte : UInt8)
    (haddr : ∃ p ∈ ts.live, p ≤ addr ∧ addr < p + mallocUsableSize c ts.heap p) :
    TasksOk c { ts with heap := { ts.heap with mem := store ts.heap.mem 1 addr byte.toNat } } cs own helds
      ds := by
  obtain ⟨p, hp, hlow, hhigh⟩ := haddr
  obtain ⟨k, hk, rfl⟩ := hts.exists_mem hp
  have hk' : k ∈ own ++ helds.flatten := mem_append_left _ hk
  rw [hts.heap.mallocUsableSize_eq (mem_append_left ds hk')] at hhigh
  have hchg : ChangesOnly (k.payload c) ts.heap.mem (store ts.heap.mem 1 addr byte.toNat) := by
    refine (ChangesOnly.refl _ _).store _ fun x hx => ?_
    rw [mem_span] at hx
    rw [Chunk.mem] at hlow hhigh
    rw [Chunk.mem_payload]
    omega
  obtain ⟨hok, hkeep⟩ := hts.heap.write hk' hchg
  refine ⟨hok, hts.live, forall2_congr_mem hts.calls (fun j hj => ?_) (hkeep.subset fun j hj => ?_),
    hts.coalesced⟩
  · exact (hts.heap.size_ok (mem_append_left ds (mem_append_right _ hj))).1
  refine mem_others.mpr ⟨mem_append_right _ hj, fun heq => ?_⟩
  have hjk := hts.heap.eq_of_addr_eq (mem_append_left ds (mem_append_right _ hj))
    (mem_append_left ds hk') heq
  have hdup := (nodup_append.mp hts.heap.nodup).1
  exact (nodup_append.mp hdup).2.2 k hk j hj hjk.symm

theorem step_run {i : Nat} (hallow : ts.Allows c (.run i ctx))
    (hclean : ts.Clean c (.run i ctx)) (hcalm : ts.Undisturbed c (.run i ctx)) :
    ∃ ts' cs' own' helds' ds', ts.step c (.run i ctx) = .ok ts' ∧
      TasksOk c ts' cs' own' helds' ds' := by
  cases hp : ts.calls[i]? with
  | none =>
    refine ⟨ts, cs, own, helds, ds, ?_, hts⟩
    simp only [Tasks.step, hp]
  | some p =>
    obtain ⟨ks, howns, hsplit, htake, hdrop⟩ := forall2_split hts.calls hp
    have hok : HeapOk c ts.heap cs
        (ks ++ (own ++ (helds.take i).flatten ++ (helds.drop (i + 1)).flatten)) ds := by
      refine hts.heap.perm ?_
      rw [perm_iff_count]
      intro k
      conv_lhs => rw [hsplit]
      simp only [flatten_append, flatten_cons, count_append]
      omega
    obtain ⟨h', out, cs', ks', ds', heval, hok', howns', hkeep, hco⟩ :
        Advances c ctx ts.heap cs
          (own ++ (helds.take i).flatten ++ (helds.drop (i + 1)).flatten) p True :=
      Pending.advance_spec hok howns (hallow p hp) (hclean p hp) (hcalm p hp)
    have hsub : ∀ {ls}, ls ⊆ (helds.take i).flatten ++ (helds.drop (i + 1)).flatten →
        (∀ k ∈ ls, c.sizeofMmFreenode ≤ k.size) ∧ Keeps c ls ts.heap.mem h'.mem := by
      intro ls hls
      refine ⟨fun k hk => (hok.size_ok ?_).1, hkeep.subset fun k hk => ?_⟩
      all_goals
        have hk' := mem_append.mp (hls hk)
        simp only [mem_append]
        tauto
    obtain ⟨htsize, htkeep⟩ := hsub (subset_append_left _ _)
    obtain ⟨hdsize, hdkeep⟩ := hsub (subset_append_right _ _)
    refine ⟨⟨h', out.returned ++ ts.live, ts.calls.take i ++ (out.pending ++ ts.calls.drop (i + 1))⟩,
      cs', out.given ks' ++ own, (helds.take i) ++ (out.kept ks' ++ helds.drop (i + 1)), ds',
      ?_, ⟨hok'.perm ?_, ?_, ?_, hco hts.coalesced trivial⟩⟩
    · simp [Tasks.step, hp, heval]
    · have hks := out.given_append_kept ks'
      rw [perm_iff_count]
      intro k
      conv_lhs => rw [← hks]
      simp only [flatten_append, count_append]
      omega
    · rw [howns'.returned, hts.live, map_append]
    · exact rel_append (forall2_congr_mem htake htsize htkeep)
        (rel_append howns'.pending (forall2_congr_mem hdrop hdsize hdkeep))

theorem step {e : Event} (hallow : ts.Allows c e)
    (hclean : ts.Clean c e) (hcalm : ts.Undisturbed c e) :
    ∃ ts' cs' own' helds' ds', ts.step c e = .ok ts' ∧ TasksOk c ts' cs' own' helds' ds' := by
  cases e with
  | run i ctx => exact hts.step_run hallow hclean hcalm
  | call x =>
    cases x with
    | write addr byte =>
      obtain ⟨own', helds', hts'⟩ := (hts.write byte hallow).accept_none
        (show (Outcome.done []).Owns c _ [] from rfl)
      exact ⟨_, cs, own', helds', ds, rfl, hts'⟩
    | _ =>
      obtain ⟨own', helds', hts'⟩ := hts.enter hallow
      exact ⟨_, cs, own', helds', ds, rfl, hts'⟩

theorem run {es : List Event}
    (hall : ts.Along c (fun ts e => ts.Allows c e ∧ ts.Clean c e ∧ ts.Undisturbed c e) es) :
    ∃ ts' cs' own' helds' ds', ts.run c es = .ok ts' ∧ TasksOk c ts' cs' own' helds' ds' := by
  induction es generalizing ts cs own helds ds with
  | nil => exact ⟨ts, cs, own, helds, ds, rfl, hts⟩
  | cons e es ih =>
    obtain ⟨⟨hallow, hclean, hcalm⟩, hrest⟩ := hall
    obtain ⟨ts1, cs1, own1, helds1, ds1, hstep, hts1⟩ := hts.step hallow hclean hcalm
    obtain ⟨ts', cs', own', helds', ds', hrun, hts'⟩ := ih hts1 (hrest ts1 hstep)
    refine ⟨ts', cs', own', helds', ds', ?_, hts'⟩
    simp only [Tasks.run, foldlM_cons, hstep, Result.ok_bind]
    exact hrun

end TasksOk

/-- **Coalescing under interleaving.** In every interleaving of heap calls in which no `mm_memalign`
finds the chunk before the one it trims freed meanwhile, no two adjacent chunks are free between two
steps. -/
theorem coalesced_of_undisturbed (c : HeapConfig) (m : Mem) {nodelist heapstart heapsize : Nat}
    (hinit : InitOk c nodelist heapstart heapsize) :
    ∃ h, mmInitialize c m nodelist heapstart heapsize = .ok h ∧
      ∀ es, (Tasks.mk h [] []).Along c
          (fun ts e => ts.Allows c e ∧ ts.Clean c e ∧ ts.Undisturbed c e) es →
        ∃ ts cs, (Tasks.mk h [] []).run c es = .ok ts ∧ ts.heap.chunks c = some cs ∧ Coalesced cs := by
  obtain ⟨h, cs, heval, hst, -⟩ := sysOk_init hinit m
  have hts : TasksOk c ⟨h, [], []⟩ cs [] [] [] := ⟨hst.heap, rfl, .nil, hst.coalesced⟩
  refine ⟨h, heval, fun es hall => ?_⟩
  obtain ⟨ts, cs', own', helds', ds', hrun, hts'⟩ := hts.run hall
  exact ⟨ts, cs', hrun, (HeapInv.chunks_eq hts'.heap.rep).1, hts'.coalesced⟩

/-- One task has allocated; another one begins a `mm_memalign`; a third one allocates and frees before the
second section. -/
def memalignCut : List Event :=
  [.call (.malloc 24), .run 0 .task, .run 0 .task, .run 0 .task,
    .call (.memalign 64 16), .run 0 .task, .run 0 .task, .run 0 .task,
    .call (.malloc 24), .run 0 .task, .run 0 .task, .run 0 .task, .call (.free 8400 .task), .run 0 .task,
    .run 0 .task]

theorem memalignCut_along : ∃ h, mmInitialize (.bits32 true true) ⟨fun _ => 0⟩ 4096 8192 4096 = .ok h ∧
    (Tasks.mk h [] []).Along (.bits32 true true)
      (fun ts e => ts.Allows (.bits32 true true) e ∧ ts.Clean (.bits32 true true) e ∧
        ts.Undisturbed (.bits32 true true) e) memalignCut := by
  decide +kernel

theorem coalesced_of_undisturbed_page : InitOk (.bits32 true true) 4096 8192 4096 ∧ ∃ h ts cs,
    mmInitialize (.bits32 true true) ⟨fun _ => 0⟩ 4096 8192 4096 = .ok h ∧
    (Tasks.mk h [] []).run (.bits32 true true) memalignCut = .ok ts ∧
    ts.heap.chunks (.bits32 true true) = some cs ∧ Coalesced cs := by
  obtain ⟨h, heval, hruns⟩ := coalesced_of_undisturbed (.bits32 true true) ⟨fun _ => 0⟩
    (initOk_page true true)
  obtain ⟨h', heval', hall⟩ := memalignCut_along
  cases heval.symm.trans heval'
  obtain ⟨ts, cs, hrun, hchunks, hco⟩ := hruns _ hall
  exact ⟨initOk_page true true, h, ts, cs, heval, hrun, hchunks, hco⟩

theorem memalign_beside_free :
    ((mmInitialize (.bits32 true false) ⟨fun _ => 0⟩ 4096 8192 4096).bind fun h =>
      ((Tasks.mk h [] []).run (.bits32 true false)
        [.call (.malloc 24), .run 0 .task, .run 0 .task, .call (.memalign 64 16), .run 0 .task,
          .run 0 .task, .call (.free 8208 .task), .run 0 .task, .run 0 .task]).map fun ts =>
      (ts.calls.length, ts.heap.chunks (.bits32 true false)))
      = .ok (0, some [⟨8192, 8, true⟩, ⟨8200, 32, false⟩, ⟨8232, 16, false⟩, ⟨8248, 32, true⟩,
        ⟨8280, 4000, false⟩, ⟨12280, 8, true⟩]) ∧
    ¬ Coalesced [⟨8192, 8, true⟩, ⟨8200, 32, false⟩, ⟨8232, 16, false⟩, ⟨8248, 32, true⟩,
      ⟨8280, 4000, false⟩, ⟨12280, 8, true⟩] := by
  refine ⟨by decide +kernel, by simp [Coalesced]⟩

/-- **Callers do not disturb each other.** In the same interleavings the heap is well formed between two
steps, and no two callers hold the same chunk. -/
theorem interleaved_wellFormed (c : HeapConfig) (m : Mem) {nodelist heapstart heapsize : Nat}
    (hinit : InitOk c nodelist heapstart heapsize) :
    ∃ h, mmInitialize c m nodelist heapstart heapsize = .ok h ∧
      ∀ es, (Tasks.mk h [] []).Along c
          (fun ts e => ts.Allows c e ∧ ts.Clean c e ∧ ts.Undisturbed c e) es →
        ∃ ts cs ns, (Tasks.mk h [] []).run c es = .ok ts ∧ WellFormed c ts.heap cs ns ∧ ts.live.Nodup ∧
          ∀ mem ∈ ts.live, ∃ k ∈ cs, k.used = true ∧ k.mem c = mem := by
  obtain ⟨h, cs, heval, hst, -⟩ := sysOk_init hinit m
  have hts : TasksOk c ⟨h, [], []⟩ cs [] [] [] := ⟨hst.heap, rfl, .nil, hst.coalesced⟩
  refine ⟨h, heval, fun es hall => ?_⟩
  obtain ⟨ts, cs', own, helds, ds, hrun, hts'⟩ := hts.run hall
  obtain ⟨ns, hwf⟩ := hts'.heap.wellFormed hts'.coalesced
  have hsub : own ⊆ own ++ helds.flatten ++ ds := fun k hk => by simp [hk]
  refine ⟨ts, cs', ns, hrun, hwf, ?_, fun mem hmem => ?_⟩
  · rw [hts'.live]
    refine hts'.heap.nodup.of_append_left.of_append_left.map_on fun j hj k hk heq => ?_
    exact hts'.heap.eq_of_addr_eq (hsub hj) (hsub hk) (Nat.add_right_cancel heq)
  · obtain ⟨k, hk, rfl⟩ := hts'.exists_mem hmem
    obtain ⟨hcs, hused, -⟩ := (hts'.heap.owned k).mp (hsub hk)
    exact ⟨k, hcs, hused, rfl⟩

theorem interleaved_wellFormed_page : ∃ h ts cs ns,
    mmInitialize (.bits32 true true) ⟨fun _ => 0⟩ 4096 8192 4096 = .ok h ∧
    (Tasks.mk h [] []).run (.bits32 true true) memalignCut = .ok ts ∧
    WellFormed (.bits32 true true) ts.heap cs ns ∧ ts.live.Nodup ∧
    ∀ mem ∈ ts.live, ∃ k ∈ cs, k.used = true ∧ k.mem (.bits32 true true) = mem := by
  obtain ⟨h, heval, hruns⟩ := interleaved_wellFormed (.bits32 true true) ⟨fun _ => 0⟩
    (initOk_page true true)
  obtain ⟨h', heval', hall⟩ := memalignCut_along
  cases heval.symm.trans heval'
  obtain ⟨ts, cs, ns, hrun, hwf, hdistinct, hheld⟩ := hruns _ hall
  exact ⟨h, ts, cs, ns, heval, hrun, hwf, hdistinct, hheld⟩

end Nuttx.Mm

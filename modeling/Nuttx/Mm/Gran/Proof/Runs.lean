import Nuttx.Library.Runs
import Nuttx.Mm.Gran.Proof.Search
import Mathlib.Data.List.Pairwise

/-!
# Runs of the granule allocator

The flags that are set are those of the granules that callers hold, at every point of every run.
-/

open List

namespace Nuttx.Mm.Gran

open Result

structure Heap.Ok (h : Heap) : Prop where
  start : 0 < h.ngranules → 0 < h.heapstart
  addr : h.heapstart + h.ngranules * 2 ^ h.log2gran ≤ addrMod
  len : h.ngranules ≤ 32 * h.gat.length

section

variable {h h' : Heap} {n p size : Nat} {v : Bool}

section

variable (hok : h.Ok) (hp : p < h.ngranules)
include hok hp

theorem Heap.Ok.lt_addrMod : h.heapstart + p * 2 ^ h.log2gran < addrMod := by
  have hgran : 0 < 2 ^ h.log2gran := Nat.two_pow_pos _
  have hmul : (p + 1) * 2 ^ h.log2gran ≤ h.ngranules * 2 ^ h.log2gran :=
    Nat.mul_le_mul_right _ hp
  have haddr := hok.addr
  rw [Nat.add_mul] at hmul
  omega

theorem Heap.Ok.addrOf_eq : addrOf h p = h.heapstart + p * 2 ^ h.log2gran := by
  rw [addrOf, Nat.shiftLeft_eq, Nat.mod_eq_of_lt (hok.lt_addrMod hp)]

theorem Heap.Ok.addrOf_ne_zero : addrOf h p ≠ 0 := by
  have hstart := hok.start (by omega)
  rw [hok.addrOf_eq hp]
  omega

theorem Heap.Ok.granuleOf_addrOf : granuleOf h (addrOf h p) = p := by
  have hlt := hok.lt_addrMod hp
  rw [granuleOf, hok.addrOf_eq hp, Nat.shiftRight_eq_div_pow,
    show h.heapstart + p * 2 ^ h.log2gran + addrMod - h.heapstart
      = p * 2 ^ h.log2gran + addrMod by omega, Nat.add_mod_right, Nat.mod_eq_of_lt (by omega),
    Nat.mul_div_cancel _ (Nat.two_pow_pos _)]

end

theorem SizeOk.granulesOf {log2gran : Nat} (hsize : SizeOk log2gran size) :
    0 < granulesOf log2gran size ∧ granulesOf log2gran size ≤ 32 := by
  obtain ⟨hpos, hle, hlt⟩ := hsize
  have hgran : 0 < 2 ^ log2gran := Nat.two_pow_pos _
  rw [Gran.granulesOf, Nat.mod_eq_of_lt hlt, Nat.shiftRight_eq_div_pow]
  constructor
  · exact Nat.div_pos (by omega) hgran
  · rw [← Nat.lt_succ_iff, Nat.div_lt_iff_lt_mul hgran]
    omega

structure Marked (h h' : Heap) (p n : Nat) (v : Bool) : Prop where
  frame : h' = { h with gat := h'.gat }
  len : h'.gat.length = h.gat.length
  bits : ∀ i, bit h'.gat i = if p ≤ i ∧ i < p + n then v else bit h.gat i

theorem Marked.ok (hmarked : Marked h h' p n v) (hok : h.Ok) : h'.Ok := by
  have hlen := hok.len
  rw [← hmarked.len] at hlen
  rw [hmarked.frame]
  exact ⟨hok.start, hok.addr, hlen⟩

theorem Marked.range_eq (hmarked : Marked h h' p n v) : Sys.range h' = Sys.range h := by
  rw [hmarked.frame]
  rfl

theorem Marked.addrOf_eq (hmarked : Marked h h' p n v) : addrOf h' = addrOf h := by
  rw [hmarked.frame]
  rfl

theorem Marked.undo {h'' : Heap} (hfits : Fits h n p) (hmark : Marked h h' p n true)
    (hclear : Marked h' h'' p n false) : h'' = h := by
  have hgat : h''.gat = h.gat := by
    apply gat_ext (hclear.len.trans hmark.len)
    intro i
    rw [hclear.bits, hmark.bits]
    split_ifs with hin
    · exact (hfits.2 i hin.1 hin.2).symm
    · rfl
  rw [hclear.frame, hmark.frame, hgat]

theorem granMarkAllocated_spec (debug : Bool) (hok : h.Ok) (hpos : 0 < n) (hn : n ≤ 32) (hfits : Fits h n p) :
    ∃ h', granMarkAllocated debug h (addrOf h p) n = .ok h' ∧ Marked h h' p n true := by
  have hin := hfits.1
  have hlen := hok.len
  obtain ⟨gat', heval, hlen', hbits⟩ := updateGat_spec h.gat debug .markFirst .markSecond
    .markSingle writes_or checks_clear hpos hn (show p + n ≤ 32 * h.gat.length by omega) hfits.2
  have hgran := hok.granuleOf_addrOf (show p < h.ngranules by omega)
  refine ⟨{ h with gat := gat' }, ?_, rfl, hlen', hbits⟩
  rw [granMarkAllocated, hgran, heval]
  rfl

theorem granAlloc_eq (debug : Bool) (hsize : SizeOk h.log2gran size) {enter : Int} (henter : ¬ enter < 0)
    (beyond : BitVec 32) {r : Option Nat}
    (hsearch : searchGat h beyond (granulesOf h.log2gran size)
      (0xffffffff#32 >>> (32 - granulesOf h.log2gran size)) (sizeofGat h.ngranules) 0 = r) :
    granAlloc debug h size enter beyond
      = r.elim (.ok (0, h)) fun alloc => do
          return (alloc, ← granMarkAllocated debug h alloc (granulesOf h.log2gran size)) := by
  have hassert1 : debugAssert debug Assertion.allocSize (decide (size ≤ 32 * 2 ^ h.log2gran)) = .ok () := by
    simp [debugAssert, hsize.2.1]
  have hassert2 : debugAssert debug Assertion.allocGranules (decide (granulesOf h.log2gran size ≤ 32))
      = .ok () := by
    simp [debugAssert, hsize.granulesOf.2]
  unfold granAlloc
  simp only [hassert1, if_pos hsize.1, if_neg henter, hassert2, ok_bind, hsearch]
  cases r with
  | none => rfl
  | some alloc =>
    rw [Option.elim_some]

theorem granAlloc_spec (debug : Bool) (hok : h.Ok) (hsize : SizeOk h.log2gran size) (enter : Int)
    (beyond : BitVec 32) :
    (granAlloc debug h size enter beyond = .ok (0, h) ∧
        (enter < 0 ∨ ∀ p, ¬ Fits h (granulesOf h.log2gran size) p)) ∨
      ∃ p h', granAlloc debug h size enter beyond = .ok (addrOf h p, h') ∧ ¬ enter < 0 ∧
        Fits h (granulesOf h.log2gran size) p ∧
        (∀ p' < p, ¬ Fits h (granulesOf h.log2gran size) p') ∧
        Marked h h' p (granulesOf h.log2gran size) true := by
  obtain ⟨hpos, hn⟩ := hsize.granulesOf
  by_cases henter : enter < 0
  · have hassert : debugAssert debug Assertion.allocSize (decide (size ≤ 32 * 2 ^ h.log2gran)) = .ok () := by
      simp [debugAssert, hsize.2.1]
    refine .inl ⟨?_, .inl henter⟩
    rw [granAlloc, hassert, ok_bind, if_pos hsize.1, if_pos henter]
    rfl
  have hfuel : h.ngranules ≤ 32 * 0 + 32 * sizeofGat h.ngranules := by
    rw [sizeofGat, Nat.shiftRight_eq_div_pow]
    omega
  have hfound := searchGat_found hpos hn (getLsbD_lowMask hn) beyond hok.len hfuel
  have heq := granAlloc_eq debug hsize henter beyond rfl
  rw [Nat.mul_zero] at hfound
  cases hsearch : searchGat h beyond (granulesOf h.log2gran size)
      (0xffffffff#32 >>> (32 - granulesOf h.log2gran size)) (sizeofGat h.ngranules) 0 with
  | none =>
    rw [hsearch] at hfound heq
    refine .inl ⟨heq, .inr fun p hfits => ?_⟩
    have hin := hfits.1
    exact hfound p (Nat.zero_le p) (by omega) hfits
  | some a =>
    rw [hsearch] at hfound heq
    obtain ⟨p, -, hp, hfits, rfl, hfirst⟩ := hfound
    obtain ⟨h', hmark, hmarked⟩ := granMarkAllocated_spec debug hok hpos hn hfits
    refine .inr ⟨p, h', ?_, henter, hfits, fun p' => hfirst p' (Nat.zero_le p'), hmarked⟩
    rw [heq, Option.elim_some, hmark]
    rfl

theorem granFree_spec (debug : Bool) (hok : h.Ok) (hsize : SizeOk h.log2gran size)
    (hin : p + granulesOf h.log2gran size ≤ h.ngranules)
    (hset : ∀ i, p ≤ i → i < p + granulesOf h.log2gran size → bit h.gat i = true) :
    ∃ h', granFree debug h (addrOf h p) size = .ok h' ∧
      Marked h h' p (granulesOf h.log2gran size) false := by
  obtain ⟨hpos, hn⟩ := hsize.granulesOf
  have hlen := hok.len
  have hne := hok.addrOf_ne_zero (show p < h.ngranules by omega)
  obtain ⟨gat', heval, hlen', hbits⟩ := updateGat_spec h.gat debug .freeFirst .freeSecond
    .freeSingle writes_andNot checks_set hpos hn
    (show p + granulesOf h.log2gran size ≤ 32 * h.gat.length by omega) hset
  refine ⟨{ h with gat := gat' }, ?_, rfl, hlen', hbits⟩
  have hassert : debugAssert debug Assertion.freeSize
      (decide (addrOf h p ≠ 0 ∧ size ≤ 32 * 2 ^ h.log2gran)) = .ok () := by
    simp [debugAssert, hne, hsize.2.1]
  have hgran := hok.granuleOf_addrOf (show p < h.ngranules by omega)
  rw [granFree, hassert, ok_bind, hgran, heval]
  rfl

end

def Covers (r : Nat × Nat) (i : Nat) : Prop := r.1 ≤ i ∧ i < r.1 + r.2

def Apart (r r' : Nat × Nat) : Prop := ∀ i, ¬ (Covers r i ∧ Covers r' i)

structure SysOk (st : Sys) : Prop where
  heap : st.heap.Ok
  held : ∀ a ∈ st.held, SizeOk st.heap.log2gran a.2 ∧
    ∃ p, a.1 = addrOf st.heap p ∧ p + granulesOf st.heap.log2gran a.2 ≤ st.heap.ngranules
  apart : (st.held.map (Sys.range st.heap)).Pairwise Apart
  bits : ∀ i, bit st.heap.gat i = true ↔ ∃ r ∈ st.held.map (Sys.range st.heap), Covers r i

namespace SysOk

variable {debug : Bool} {st st' : Sys} {ret : Nat}

variable {a : Nat × Nat}

theorem range_of_mem (hok : SysOk st) (ha : a ∈ st.held) :
    SizeOk st.heap.log2gran a.2 ∧ a.1 = addrOf st.heap (Sys.range st.heap a).1 ∧
      (Sys.range st.heap a).1 + (Sys.range st.heap a).2 ≤ st.heap.ngranules := by
  obtain ⟨hsize, p, haddr, hin⟩ := hok.held a ha
  have hpos := hsize.granulesOf.1
  have hgran : granuleOf st.heap a.1 = p := by
    rw [haddr, hok.heap.granuleOf_addrOf (by omega)]
  rw [Sys.range, hgran]
  exact ⟨hsize, haddr, hin⟩

theorem alloc {size p : Nat} {h' : Heap} (hok : SysOk st) (hsize : SizeOk st.heap.log2gran size)
    (hfits : Fits st.heap (granulesOf st.heap.log2gran size) p)
    (hmarked : Marked st.heap h' p (granulesOf st.heap.log2gran size) true) :
    SysOk ⟨h', (addrOf st.heap p, size) :: st.held⟩ := by
  have hpos := hsize.granulesOf.1
  have hin := hfits.1
  have hrange : Sys.range st.heap (addrOf st.heap p, size)
      = (p, granulesOf st.heap.log2gran size) := by
    rw [Sys.range, hok.heap.granuleOf_addrOf (by omega)]
  have hframe := hmarked.frame
  refine ⟨hmarked.ok hok.heap, fun a ha => ?_, ?_, fun i => ?_⟩
  · rw [hmarked.addrOf_eq, show h'.log2gran = st.heap.log2gran by rw [hframe],
      show h'.ngranules = st.heap.ngranules by rw [hframe]]
    rcases mem_cons.mp ha with rfl | ha
    · exact ⟨hsize, p, rfl, hin⟩
    · exact hok.held a ha
  · simp only [hmarked.range_eq]
    rw [map_cons, pairwise_cons, hrange]
    refine ⟨fun r hr i hcovers => ?_, hok.apart⟩
    have hset := (hok.bits i).mpr ⟨r, hr, hcovers.2⟩
    rw [hfits.2 i hcovers.1.1 hcovers.1.2] at hset
    cases hset
  · simp only [hmarked.range_eq]
    rw [hmarked.bits, map_cons, hrange, exists_mem_cons_iff, ← hok.bits]
    by_cases hnew : p ≤ i ∧ i < p + granulesOf st.heap.log2gran size
    · simp [hnew, Covers]
    · simp [hnew, Covers]

theorem free {h' : Heap} (hok : SysOk st) (ha : a ∈ st.held)
    (hmarked : Marked st.heap h' (Sys.range st.heap a).1 (Sys.range st.heap a).2 false) :
    SysOk ⟨h', st.held.erase a⟩ := by
  have hsymm : ∀ {r r' : Nat × Nat}, Apart r r' → Apart r' r := fun hapart i hboth =>
    hapart i hboth.symm
  obtain ⟨hothers, hapart⟩ := pairwise_cons.mp ((((perm_cons_erase ha).map _).pairwise_iff hsymm).mp hok.apart)
  have hframe := hmarked.frame
  refine ⟨hmarked.ok hok.heap, fun b hb => ?_, ?_, fun i => ?_⟩
  · rw [hmarked.addrOf_eq, show h'.log2gran = st.heap.log2gran by rw [hframe],
      show h'.ngranules = st.heap.ngranules by rw [hframe]]
    exact hok.held b (mem_of_mem_erase hb)
  · simp only [hmarked.range_eq]
    exact hapart
  simp only [hmarked.range_eq]
  rw [hmarked.bits]
  split_ifs with hcovers
  · constructor
    · intro hfalse
      cases hfalse
    · rintro ⟨r, hr, hri⟩
      exact absurd ⟨hcovers, hri⟩ (hothers r hr i)
  · rw [hok.bits]
    simp only [((perm_cons_erase ha).map _).mem_iff, map_cons, exists_mem_cons_iff]
    exact or_iff_right hcovers

theorem call (debug : Bool) (hok : SysOk st) {x : Call} (hallows : st.Allows x) :
    ∃ ret st', st.call debug x = .ok (ret, st') ∧ SysOk st' := by
  cases x with
  | alloc size enter beyond =>
    rcases granAlloc_spec debug hok.heap hallows enter beyond with
      ⟨heval, -⟩ | ⟨p, h', heval, -, hfits, -, hmarked⟩
    · refine ⟨0, st, ?_, hok⟩
      simp [Sys.call, heval]
    have hpos := SizeOk.granulesOf hallows
    have hin := hfits.1
    have hne := hok.heap.addrOf_ne_zero (show p < st.heap.ngranules by omega)
    refine ⟨addrOf st.heap p, ⟨h', (addrOf st.heap p, size) :: st.held⟩, ?_,
      hok.alloc hallows hfits hmarked⟩
    simp [Sys.call, heval, if_neg hne]
  | free memory size =>
    obtain ⟨hsize, haddr, hin⟩ := hok.range_of_mem hallows
    obtain ⟨h', heval, hmarked⟩ := granFree_spec debug hok.heap hsize hin
      fun i hlo hhi => (hok.bits i).mpr
        ⟨Sys.range st.heap (memory, size), mem_map_of_mem hallows, hlo, hhi⟩
    refine ⟨0, ⟨h', st.held.erase (memory, size)⟩, ?_, hok.free hallows hmarked⟩
    rw [← haddr] at heval
    simp [Sys.call, heval]

theorem run (hok : SysOk st) {xs : List Call} (halong : Sys.Along debug Sys.Allows st xs) :
    ∃ st', st.run debug xs = .ok st' ∧ SysOk st' := by
  induction xs generalizing st with
  | nil => exact ⟨st, rfl, hok⟩
  | cons x xs ih =>
    obtain ⟨ret, st1, hcall, hok1⟩ := hok.call debug halong.1
    obtain ⟨st', hrun, hok'⟩ := ih hok1 (halong.2 st1 (Sys.next_eq hcall))
    refine ⟨st', ?_, hok'⟩
    rw [Sys.run, foldlM_cons, Sys.next_eq hcall]
    exact hrun

theorem free_alloc (hok : SysOk st) {size : Nat} {enter : Int} {beyond : BitVec 32}
    (hallows : st.Allows (.alloc size enter beyond)) :
    ∃ ret st', st.call debug (.alloc size enter beyond) = .ok (ret, st') ∧
      (ret ≠ 0 → granFree debug st'.heap ret size = .ok st.heap) := by
  rcases granAlloc_spec debug hok.heap hallows enter beyond with
    ⟨heval, -⟩ | ⟨p, h', heval, -, hfits, -, hmarked⟩
  · refine ⟨0, st, ?_, fun hne => absurd rfl hne⟩
    simp [Sys.call, heval]
  have hframe := hmarked.frame
  have hgran : h'.log2gran = st.heap.log2gran := by rw [hframe]
  have hgranules : h'.ngranules = st.heap.ngranules := by rw [hframe]
  obtain ⟨h'', hfree, hcleared⟩ := granFree_spec debug (p := p) (hmarked.ok hok.heap)
    (show SizeOk h'.log2gran size by rw [hgran]; exact hallows)
    (by rw [hgran, hgranules]; exact hfits.1)
    (fun i hlo hhi => by rw [hgran] at hhi; rw [hmarked.bits, if_pos ⟨hlo, hhi⟩])
  rw [hgran] at hcleared
  rw [hmarked.addrOf_eq, hmarked.undo hfits hcleared] at hfree
  refine ⟨addrOf st.heap p, ⟨h', if addrOf st.heap p = 0 then st.held
    else (addrOf st.heap p, size) :: st.held⟩, ?_, fun _ => hfree⟩
  simp [Sys.call, heval]

end SysOk

theorem and_not_mask {a x : Nat} (ha : a ≤ 32) (hx : x < addrMod) :
    x &&& (addrMod - 1 - (2 ^ a - 1)) = x / 2 ^ a * 2 ^ a := by
  have hpow : 2 ^ a ≤ 2 ^ 32 := Nat.pow_le_pow_right (by omega) ha
  have hmask : addrMod - 1 - (2 ^ a - 1) = 2 ^ 32 - ((2 ^ a - 1) + 1) := by
    unfold addrMod
    omega
  apply Nat.eq_of_testBit_eq
  intro i
  rw [hmask, Nat.testBit_and, Nat.testBit_two_pow_sub_succ (by omega), Nat.testBit_two_pow_sub_one,
    Nat.testBit_mul_two_pow, Nat.testBit_div_two_pow]
  by_cases hi : a ≤ i
  · have hlow : i - a + a = i := by omega
    by_cases h32 : i < 32
    · simp [hi, h32, hlow, show ¬ i < a by omega]
    · have hbit : x.testBit i = false :=
        Nat.testBit_lt_two_pow (hx.trans_le (Nat.pow_le_pow_right (by omega) (by omega)))
      simp [hbit, hlow]
  · simp [hi, show i < a by omega]

/-- The memory given to `gran_initialize`: it lies in the address space, and its first aligned address
is not past its end. -/
def Placed (heapstart heapsize log2gran log2align : Nat) : Prop :=
  0 < heapstart ∧ 0 < heapsize ∧ heapstart + heapsize ≤ addrMod ∧ 0 < log2gran ∧ log2gran < 32 ∧
    log2align ≤ log2gran ∧
    (heapstart + (2 ^ log2align - 1)) / 2 ^ log2align * 2 ^ log2align ≤ heapstart + heapsize

instance (heapstart heapsize log2gran log2align : Nat) :
    Decidable (Placed heapstart heapsize log2gran log2align) :=
  inferInstanceAs (Decidable (_ ∧ _))

theorem aligned_le_addrMod {start size a alignedstart : Nat} (ha : a ≤ 32) (hstart : 0 < start)
    (hend : start + size ≤ addrMod) (halign : (start + (2 ^ a - 1)) / 2 ^ a * 2 ^ a ≤ start + size)
    (hdef : alignedstart = (start + (2 ^ a - 1)) % addrMod / 2 ^ a * 2 ^ a) :
    alignedstart + ((start + size) % addrMod + addrMod - alignedstart) % addrMod ≤ addrMod ∧
      (alignedstart = 0 → ((start + size) % addrMod + addrMod - alignedstart) % addrMod = 0) := by
  have hk : 0 < 2 ^ a := Nat.two_pow_pos a
  have hmul : addrMod = 2 ^ a * 2 ^ (32 - a) := by
    rw [← Nat.pow_add, Nat.add_sub_cancel' ha, addrMod]
  have hM : 0 < addrMod := by decide
  have hkM : 2 ^ a ≤ addrMod := by
    rw [hmul]
    exact Nat.le_mul_of_pos_right _ (Nat.two_pow_pos _)
  generalize 2 ^ a = k at *
  have hdiv := Nat.div_add_mod (start + (k - 1)) k
  have hmod := Nat.mod_lt (start + (k - 1)) hk
  rw [Nat.mul_comm] at hdiv
  by_cases hlt : start + (k - 1) < addrMod
  · rw [Nat.mod_eq_of_lt hlt] at hdef
    rcases Nat.lt_or_eq_of_le hend with hend | hend
    · rw [Nat.mod_eq_of_lt hend, show start + size + addrMod - alignedstart
        = start + size - alignedstart + addrMod by omega, Nat.add_mod_right,
        Nat.mod_eq_of_lt (by omega)]
      omega
    · rw [hend, Nat.mod_self, Nat.zero_add, Nat.mod_eq_of_lt (by omega)]
      omega
  · -- the heap ends with the address space and holds no aligned address
    have hge : addrMod ≤ (start + (k - 1)) / k * k := by
      have hdiv' : 2 ^ (32 - a) ≤ (start + (k - 1)) / k := by
        rw [Nat.le_div_iff_mul_le hk, Nat.mul_comm, ← hmul]
        omega
      rw [hmul, Nat.mul_comm k]
      exact Nat.mul_le_mul_right k hdiv'
    have hfull : start + size = addrMod := by omega
    have hrest : (start + (k - 1)) % addrMod < k := by
      rw [Nat.mod_eq_sub_mod (by omega), Nat.mod_eq_of_lt (by omega)]
      omega
    rw [Nat.div_eq_of_lt hrest, Nat.zero_mul] at hdef
    rw [hdef, hfull, Nat.mod_self, Nat.sub_zero, Nat.zero_add (n := addrMod), Nat.mod_self]
    exact ⟨hM.le, fun _ => rfl⟩

theorem granInitialize_spec (debug : Bool) {heapstart heapsize log2gran log2align : Nat}
    (hplaced : Placed heapstart heapsize log2gran log2align) :
    ∃ h, granInitialize debug heapstart heapsize log2gran log2align = .ok h ∧ SysOk ⟨h, []⟩ := by
  obtain ⟨hstart, hsize, hend, hgran, hgran32, halign, haligned⟩ := hplaced
  have hassert : debugAssert debug Assertion.initializeParameters (decide (heapstart ≠ 0 ∧ 0 < heapsize ∧
      0 < log2gran ∧ log2gran < 32 ∧ log2align ≤ log2gran)) = .ok () := by
    simp [debugAssert, hsize, hgran, hgran32, halign, show heapstart ≠ 0 by omega]
  have hM : 0 < addrMod := by decide
  have hstart' := and_not_mask (show log2align ≤ 32 by omega)
    (Nat.mod_lt (heapstart + (2 ^ log2align - 1)) hM)
  rw [granInitialize, hassert, ok_bind]
  refine ⟨_, rfl, ⟨?_, ?_, ?_⟩, ?_, List.Pairwise.nil, ?_⟩
  all_goals simp only [hstart']
  all_goals
    obtain ⟨hle, hzero⟩ := aligned_le_addrMod (show log2align ≤ 32 by omega) hstart hend haligned rfl
  all_goals
    generalize (heapstart + (2 ^ log2align - 1)) % addrMod / 2 ^ log2align * 2 ^ log2align
      = alignedstart at *
  all_goals
    generalize ((heapstart + heapsize) % addrMod + addrMod - alignedstart) % addrMod = rest at *
  · intro hpos
    by_contra hnot
    rw [hzero (by omega), Nat.zero_and, Nat.zero_shiftRight] at hpos
    omega
  · have hrest : rest &&& (addrMod - 1 - (2 ^ log2gran - 1)) ≤ rest := Nat.and_le_left
    generalize rest &&& (addrMod - 1 - (2 ^ log2gran - 1)) = alignedsize at *
    calc alignedstart + (alignedsize >>> log2gran % 2 ^ 16) * 2 ^ log2gran
        ≤ alignedstart + (alignedsize >>> log2gran) * 2 ^ log2gran :=
          Nat.add_le_add_left (Nat.mul_le_mul_right _ (Nat.mod_le _ _)) _
      _ ≤ alignedstart + alignedsize := by
          rw [Nat.shiftRight_eq_div_pow]
          exact Nat.add_le_add_left (Nat.div_mul_le_self _ _) _
      _ ≤ addrMod := by omega
  · rw [length_replicate, sizeofGat]
    generalize (rest &&& (addrMod - 1 - (2 ^ log2gran - 1))) >>> log2gran = ngranules
    rw [Nat.shiftRight_eq_div_pow]
    omega
  · intro a ha
    cases ha
  · intro i
    simp [bit, getD_eq_getElem?_getD, List.getElem?_replicate]
    split_ifs <;> simp

end Nuttx.Mm.Gran

import Nuttx.Mm.Heap.System
import Nuttx.Mm.Heap.Proof.Resize

/-!
# The locked section of `mm_realloc`

A chunk that must grow takes what it needs from its free neighbours, from the smaller one first.
-/

namespace Nuttx.Mm

open ByteMemory

variable {c : HeapConfig} {h : Heap} {m : Mem} {pre post cs : List Chunk} {p q : Chunk}
  {a s n : Nat} {prevsize nextsize needed : Nat}

theorem reallocTake_le (h : needed ≤ prevsize + nextsize) :
    (reallocTake prevsize nextsize needed).1 ≤ prevsize ∧
      (reallocTake prevsize nextsize needed).2 ≤ nextsize ∧
      (reallocTake prevsize nextsize needed).1 + (reallocTake prevsize nextsize needed).2
        = needed := by
  unfold reallocTake
  split_ifs <;> simp only <;> omega

theorem noSliver_iff (hpos : 0 < needed) (hroom : needed ≤ prevsize + nextsize) :
    NoSliver c prevsize nextsize needed ↔
      ((reallocTake prevsize nextsize needed).1 ≠ 0 →
        prevsize - (reallocTake prevsize nextsize needed).1 = 0 ∨
          c.sizeofMmFreenode ≤ prevsize - (reallocTake prevsize nextsize needed).1) ∧
      ((reallocTake prevsize nextsize needed).2 ≠ 0 →
        nextsize - (reallocTake prevsize nextsize needed).2 = 0 ∨
          c.sizeofMmFreenode ≤ nextsize - (reallocTake prevsize nextsize needed).2) := by
  have hlay := c.layout
  simp only [NoSliver, reallocTake]
  split_ifs <;> simp only <;> omega

theorem reallocTake_dvd {unit : Nat} (hp : unit ∣ prevsize) (hn : unit ∣ nextsize)
    (hd : unit ∣ needed) : unit ∣ (reallocTake prevsize nextsize needed).1 ∧
      unit ∣ (reallocTake prevsize nextsize needed).2 := by
  unfold reallocTake
  split_ifs <;> simp [hp, hn, hd, Nat.dvd_sub]

def Chunk.room (k : Chunk) : Nat := if k.used then 0 else k.size

theorem HeapInv.sizeIfFree_eq (hinv : HeapInv c h m cs []) (hq : q ∈ cs) :
    sizeIfFree c m q.addr = q.room := by
  rw [sizeIfFree, hinv.isAllocated_eq hq, hinv.nodeSize_eq hq, Chunk.room]
  cases q.used <;> rfl

theorem HeapInv.growDown {d : Nat} (hinv : HeapInv c h m (pre ++ p :: ⟨a, s, true⟩ :: post) [])
    (hlo : a ≠ h.mmHeapstart) (hhi : a ≠ h.mmHeapend) (hd : d ≤ p.room)
    (hunit : 2 * c.sizeofMmAllocnode ∣ d)
    (hrest : d ≠ 0 → p.room - d = 0 ∨ c.sizeofMmFreenode ≤ p.room - d) :
    ∃ m' pre', (if d ≠ 0 then reallocTakeprev c h m p.addr a (a + s) p.room s d else .ok (m, a))
        = .ok (m', a - d) ∧
      HeapInv c h m' (pre' ++ ⟨a - d, s + d, true⟩ :: post) [] ∧
      Exchanged a (some ⟨a - d, s + d, true⟩) (pre ++ p :: ⟨a, s, true⟩ :: post)
        (pre' ++ ⟨a - d, s + d, true⟩ :: post) ∧
      (Coalesced (pre ++ p :: ⟨a, s, true⟩ :: post) →
        Coalesced (pre' ++ ⟨a - d, s + d, true⟩ :: post)) ∧
      ChangesOnly (ownBytes c h (others a (pre ++ p :: ⟨a, s, true⟩ :: post))) m m' := by
  have hmem : (⟨a, s, true⟩ : Chunk) ∈ pre ++ p :: ⟨a, s, true⟩ :: post := by simp
  by_cases hzero : d = 0
  · subst hzero
    refine ⟨m, pre ++ [p], rfl, by simpa using hinv, ?_, by simp, .refl _ _⟩
    rw [List.append_assoc, List.singleton_append]
    exact exchanged_self hinv.tiling hmem
  obtain ⟨b, t, used⟩ := p
  cases used with
  | true => exact absurd (Nat.le_zero.mp hd) hzero
  | false =>
    obtain ⟨m', htake, hinv', hchg⟩ := hinv.takeprev hd hunit (hrest hzero) hlo hhi
    have hgrown : GrownDown d a (pre ++ ⟨b, t, false⟩ :: ⟨a, s, true⟩ :: post)
        (pre ++ (remnant b (t - d) ++ ⟨a - d, s + d, true⟩ :: post)) :=
      ⟨pre, b, s, t, post, rfl, hd, rfl⟩
    refine ⟨m', pre ++ remnant b (t - d), ?_, ?_, ?_, ?_, hchg⟩
    · rw [if_pos hzero]
      exact htake
    · rw [List.append_assoc]
      exact hinv'
    · rw [List.append_assoc]
      exact hgrown.exchanged hinv.tiling hinv'.tiling hmem
    · rw [List.append_assoc]
      exact hgrown.coalesced

theorem HeapInv.growUp {d : Nat} (hinv : HeapInv c h m (pre ++ ⟨a, s, true⟩ :: q :: post) [])
    (hlo : a ≠ h.mmHeapstart) (hhi : a ≠ h.mmHeapend) (hd : d ≤ q.room)
    (hunit : 2 * c.sizeofMmAllocnode ∣ d)
    (hrest : d ≠ 0 → q.room - d = 0 ∨ c.sizeofMmFreenode ≤ q.room - d) :
    ∃ m' cs', (if d ≠ 0 then reallocTakenext c h m a q.addr q.room s d else .ok m) = .ok m' ∧
      HeapInv c h m' cs' [] ∧
      Exchanged a (some ⟨a, s + d, true⟩) (pre ++ ⟨a, s, true⟩ :: q :: post) cs' ∧
      (Coalesced (pre ++ ⟨a, s, true⟩ :: q :: post) → Coalesced cs') ∧
      ChangesOnly (ownBytes c h (others a (pre ++ ⟨a, s, true⟩ :: q :: post))) m m' := by
  have hmem : (⟨a, s, true⟩ : Chunk) ∈ pre ++ ⟨a, s, true⟩ :: q :: post := by simp
  by_cases hzero : d = 0
  · subst hzero
    exact ⟨m, _, rfl, hinv, exchanged_self hinv.tiling hmem, id, .refl _ _⟩
  obtain ⟨b, t, used⟩ := q
  cases used with
  | true => exact absurd (Nat.le_zero.mp hd) hzero
  | false =>
    obtain ⟨rfl, m', htake, hinv', hchg⟩ := hinv.takenext hd hunit (hrest hzero) hlo hhi
    have hgrown : GrownUp d a (pre ++ ⟨a, s, true⟩ :: ⟨a + s, t, false⟩ :: post)
        (pre ++ ⟨a, s + d, true⟩ :: (remnant (a + s + d) (t - d) ++ post)) :=
      ⟨pre, s, t, post, rfl, hd, rfl⟩
    refine ⟨m', _, ?_, hinv', hgrown.exchanged hinv.tiling hinv'.tiling hmem,
      hgrown.coalesced, hchg⟩
    rw [if_pos hzero]
    exact htake

def GrowsCleanly (c : HeapConfig) (n a : Nat) (cs : List Chunk) : Prop :=
  ∀ pre p s q post, cs = pre ++ p :: ⟨a, s, true⟩ :: q :: post → s < n →
    n - s ≤ p.room + q.room → NoSliver c p.room q.room (n - s)

theorem Chunk.unit_dvd_room (hrep : Rep c h cs) (hq : q ∈ cs) :
    2 * c.sizeofMmAllocnode ∣ q.room := by
  obtain ⟨b, t, used⟩ := q
  cases used with
  | true => exact Nat.dvd_zero _
  | false => exact (hrep.tiling.ok_of_free hq).2

theorem Rep.neighbours (hrep : Rep c h (pre ++ p :: ⟨a, s, true⟩ :: q :: post)) :
    nodeSize c h.mem a = s ∧ sizeIfFree c h.mem (a + s) = q.room ∧
      a - c.clearAllocBit (nodePreceding c h.mem a) = p.addr ∧
      sizeIfFree c h.mem p.addr = p.room := by
  obtain ⟨⟨hmeets, hsize, hprec⟩, hqaddr, -, -⟩ :=
    isChain_follows_one.mp (HeapInv.window [⟨a, s, true⟩] hrep)
  have hpmem : p ∈ pre ++ p :: ⟨a, s, true⟩ :: q :: post := by simp
  have hqmem : q ∈ pre ++ p :: ⟨a, s, true⟩ :: q :: post := by simp
  refine ⟨hsize, hqaddr ▸ HeapInv.sizeIfFree_eq hrep hqmem, ?_, HeapInv.sizeIfFree_eq hrep hpmem⟩
  rw [hprec, HeapConfig.clearAllocBit_tag (hrep.size_lt hpmem)]
  omega

theorem Rep.grow (hrep : Rep c h (pre ++ p :: ⟨a, s, true⟩ :: q :: post))
    (hlo : a ≠ h.mmHeapstart) (hhi : a ≠ h.mmHeapend) (hunit : 2 * c.sizeofMmAllocnode ∣ n)
    (hgrow : s < n) (hroom : n - s ≤ p.room + q.room) (hsliver : NoSliver c p.room q.room (n - s)) :
    ∃ m1 a' m2 cs', (if (reallocTake p.room q.room (n - s)).1 ≠ 0 then
          reallocTakeprev c h h.mem p.addr a (a + s) p.room s (reallocTake p.room q.room (n - s)).1
        else .ok (h.mem, a)) = .ok (m1, a') ∧
      (if (reallocTake p.room q.room (n - s)).2 ≠ 0 then
          reallocTakenext c h m1 a' (a + s) q.room (nodeSize c m1 a')
            (reallocTake p.room q.room (n - s)).2
        else .ok m1) = .ok m2 ∧
      Rep c { h with mem := m2 } cs' ∧
      Resized n a a' (pre ++ p :: ⟨a, s, true⟩ :: q :: post) cs' ∧
      ChangesOnly (ownBytes c h (others a (pre ++ p :: ⟨a, s, true⟩ :: q :: post))) h.mem m2 := by
  have hmem : (⟨a, s, true⟩ : Chunk) ∈ pre ++ p :: ⟨a, s, true⟩ :: q :: post := by simp
  have hsdvd := (hrep.tiling.ok_of_addr_ne hmem hlo hhi).2
  obtain ⟨htp, htn, hsum⟩ := reallocTake_le hroom
  obtain ⟨hdp, hdn⟩ := reallocTake_dvd (Chunk.unit_dvd_room hrep (q := p) (by simp))
    (Chunk.unit_dvd_room hrep (q := q) (by simp)) (Nat.dvd_sub hunit hsdvd)
  obtain ⟨hleftp, hleftn⟩ := (noSliver_iff (by omega) hroom).mp hsliver
  generalize (reallocTake p.room q.room (n - s)).1 = tp at *
  generalize (reallocTake p.room q.room (n - s)).2 = tn at *
  obtain ⟨m1, pre', hdown, hinv1, hex1, hco1, hchg1⟩ :=
    HeapInv.growDown hrep hlo hhi htp hdp hleftp
  have hmem1 : (⟨a - tp, s + tp, true⟩ : Chunk) ∈ pre' ++ ⟨a - tp, s + tp, true⟩ :: q :: post := by
    simp
  have hne : ∀ b, Chunk.guard c b ∈ pre ++ p :: ⟨a, s, true⟩ :: q :: post → b ≠ a →
      a - tp ≠ b := fun b hb hba heq => hex1.fresh _ hb rfl hba _ rfl heq.symm
  have hlo1 := hne _ hrep.tiling.guard_mem.1 hlo.symm
  have hhi1 := hne _ hrep.tiling.guard_mem.2 hhi.symm
  obtain ⟨m2, cs', hup, hinv2, hex2, hco2, hchg2⟩ := hinv1.growUp hlo1 hhi1 htn hdn hleftn
  have hq : q.addr = a + s := (isChain_follows_one.mp (HeapInv.window [⟨a, s, true⟩] hrep)).2.1
  rw [hq] at hup
  refine ⟨m1, a - tp, m2, cs', hdown, ?_, hinv2.rep, ⟨⟨s + tp + tn, by omega, ?_⟩, ?_⟩, ?_⟩
  · rw [hinv1.nodeSize_eq hmem1]
    exact hup
  · exact hex1.trans hex2
  · exact fun hco => hco2 (hco1 hco)
  · exact hchg1.trans (hchg2.mono (ownBytes_exchanged hex1))

theorem Rep.mmHeapmember_eq (hrep : Rep c h cs) (hmem : ⟨a, s, true⟩ ∈ cs)
    (hlo : a ≠ h.mmHeapstart) (hhi : a ≠ h.mmHeapend) :
    mmHeapmember h (a + c.sizeofMmAllocnode) = true := by
  have hlay := c.layout
  have hge := (hrep.tiling.ok_of_addr_ne hmem hlo hhi).1
  have hinside := hrep.tiling.inside hmem (Tiling.ne_guard_of_addr_ne hlo)
    (Tiling.ne_guard_of_addr_ne hhi)
  simp only [mmHeapmember, Bool.and_eq_true, decide_eq_true_eq]
  omega

theorem Rep.mmReallocLocked_grow (hrep : Rep c h (pre ++ p :: ⟨a, s, true⟩ :: q :: post))
    (hlo : a ≠ h.mmHeapstart) (hhi : a ≠ h.mmHeapend) (hgrow : s < n)
    (hroom : n ≤ q.room + p.room + s) :
    mmReallocLocked c h (a + c.sizeofMmAllocnode) n
      = (if (reallocTake p.room q.room (n - s)).1 ≠ 0 then
          reallocTakeprev c h h.mem p.addr a (a + s) p.room s (reallocTake p.room q.room (n - s)).1
        else .ok (h.mem, a)).bind fun r =>
        (if (reallocTake p.room q.room (n - s)).2 ≠ 0 then
          reallocTakenext c h r.1 r.2 (a + s) q.room (nodeSize c r.1 r.2)
            (reallocTake p.room q.room (n - s)).2
        else .ok r.1).bind fun m =>
        .ok (some (r.2 + c.sizeofMmAllocnode), { h with mem := m }) := by
  have hmem : (⟨a, s, true⟩ : Chunk) ∈ pre ++ p :: ⟨a, s, true⟩ :: q :: post := by simp
  have hmember := hrep.mmHeapmember_eq hmem hlo hhi
  have halloc := hrep.isAllocated_eq hmem
  obtain ⟨hsize, hqroom, hprev, hproom⟩ := hrep.neighbours
  simp only [mmReallocLocked, Nat.add_sub_cancel, hmember, halloc, hsize, Nat.not_le.mpr hgrow, hprev,
    hproom, hqroom, hroom, debugassert_true, bind, Except.bind, pure, Except.pure, if_false, if_true]
  by_cases htp : (reallocTake p.room q.room (n - s)).1 ≠ 0
  · rw [if_pos htp, if_pos htp]
    cases reallocTakeprev c h h.mem p.addr a (a + s) p.room s (reallocTake p.room q.room (n - s)).1 with
    | error e => rfl
    | ok r => by_cases htn : (reallocTake p.room q.room (n - s)).2 = 0 <;> simp [htn]
  · rw [if_neg htp, if_neg htp]
    by_cases htn : (reallocTake p.room q.room (n - s)).2 = 0 <;> simp [htn, hsize]

/-- **The locked section of `mm_realloc`.** Either the chunk cannot have the new size where it is
and nothing changes, or it now has it. -/
theorem Rep.mmReallocLocked_spec (hrep : Rep c h cs) (hmem : ⟨a, s, true⟩ ∈ cs)
    (hlo : a ≠ h.mmHeapstart) (hhi : a ≠ h.mmHeapend) (hn : c.sizeofMmFreenode ≤ n)
    (hgran : c.mmMinChunk ∣ n) (hunit : 2 * c.sizeofMmAllocnode ∣ n) (hclean : GrowsCleanly c n a cs) :
    (mmReallocLocked c h (a + c.sizeofMmAllocnode) n = .ok (none, h) ∧ s < n) ∨
      ∃ a' cs' m', mmReallocLocked c h (a + c.sizeofMmAllocnode) n
          = .ok (some (a' + c.sizeofMmAllocnode), { h with mem := m' }) ∧
        Rep c { h with mem := m' } cs' ∧ Resized n a a' cs cs' ∧
        ChangesOnly (ownBytes c h (others a cs)) h.mem m' := by
  have hmember := hrep.mmHeapmember_eq hmem hlo hhi
  have halloc := hrep.isAllocated_eq hmem
  have hsize := hrep.nodeSize_eq hmem
  by_cases hle : n ≤ s
  · by_cases hlt : n < s
    · obtain ⟨m', cs', hshrink, hinv', hstep, hchg⟩ :=
        HeapInv.mmShrinkchunk_spec hrep hmem hlo hhi hn hgran hunit hle
      refine .inr ⟨a, cs', m', ?_, hinv'.rep, ⟨?_, hstep.coalesced⟩, hchg⟩
      · simp [mmReallocLocked, hmember, halloc, hsize, hle, hlt, hshrink]
      · exact hstep.exchanged hrep.tiling hinv'.tiling
    · refine .inr ⟨a, cs, h.mem, ?_, hrep, ⟨⟨s, hle, exchanged_self hrep.tiling hmem⟩, id⟩,
        .refl _ _⟩
      simp [mmReallocLocked, hmember, halloc, hsize, hle, hlt]
  · obtain ⟨pre, p, q, post, rfl⟩ := hrep.tiling.exists_around hmem
      (Tiling.ne_guard_of_addr_ne hlo) (Tiling.ne_guard_of_addr_ne hhi)
    obtain ⟨-, hqroom, hprev, hproom⟩ := hrep.neighbours
    by_cases hroom : n ≤ q.room + p.room + s
    · obtain ⟨m1, a', m2, cs', hdown, hup, hrep', hres, hchg⟩ := hrep.grow hlo hhi hunit (n := n)
        (by omega) (by omega) (hclean pre p s q post rfl (by omega) (by omega))
      refine .inr ⟨a', cs', m2, ?_, hrep', hres, hchg⟩
      rw [hrep.mmReallocLocked_grow hlo hhi (by omega) hroom, hdown, Except.bind, hup, Except.bind]
    · refine .inl ⟨?_, by omega⟩
      simp [mmReallocLocked, hmember, halloc, hsize, hle, hprev, hproom, hqroom, hroom]

end Nuttx.Mm

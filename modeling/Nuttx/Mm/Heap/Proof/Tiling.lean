import Nuttx.Mm.Heap.Proof.Layout

/-!
# The chunks of a region

What the memory of a region stands for: a list of chunks that follow each other from the guard at
`mm_heapstart` to the guard at `mm_heapend`.
-/

open List

namespace Nuttx.Mm

structure Chunk where
  addr : Nat
  size : Nat
  used : Bool
  deriving DecidableEq, Repr

namespace Chunk

def Meets (k k' : Chunk) : Prop := k'.addr = k.addr + k.size

def Before (k k' : Chunk) : Prop := k.addr + k.size ≤ k'.addr

def guard (c : HeapConfig) (addr : Nat) : Chunk := ⟨addr, c.sizeofMmAllocnode, true⟩

end Chunk

/-- The sizes of chunks other than guards: there is room for a free node, and the unit is two
headers. -/
def ChunkSize (c : HeapConfig) (s : Nat) : Prop :=
  c.sizeofMmFreenode ≤ s ∧ 2 * c.sizeofMmAllocnode ∣ s

variable {c : HeapConfig} {lo hi a b s t : Nat} {u v : Bool}
  {cs pre seg seg' post : List Chunk} {k k' p n : Chunk}

structure Tiling (c : HeapConfig) (lo hi : Nat) (cs : List Chunk) : Prop where
  meets : cs.IsChain Chunk.Meets
  head : cs.head? = some (.guard c lo)
  last : cs.getLast? = some (.guard c hi)
  ok : ∀ k ∈ cs, k = .guard c lo ∨ k = .guard c hi ∨ ChunkSize c k.size

theorem mem_of_mem_sides (seg : List Chunk) (hk : k ∈ pre ++ p :: n :: post) :
    k ∈ pre ++ p :: (seg ++ n :: post) := by
  simp only [mem_append, mem_cons] at hk ⊢
  tauto

namespace Tiling

theorem size_ge (h : Tiling c lo hi cs) (hk : ⟨a, s, u⟩ ∈ cs) : c.sizeofMmAllocnode ≤ s := by
  have hlay := c.layout
  rcases h.ok _ hk with heq | heq | hok
  · exact (congrArg Chunk.size heq).ge
  · exact (congrArg Chunk.size heq).ge
  · exact le_trans (by omega) hok.1

theorem ne_guard_of_free (hfree : k.used = false) (a : Nat) : k ≠ .guard c a := by
  rintro rfl
  cases hfree

theorem ne_guard_of_addr_ne (hne : a ≠ b) : (⟨a, s, u⟩ : Chunk) ≠ .guard c b :=
  fun heq => hne (congrArg Chunk.addr heq)

section

variable (h : Tiling c lo hi cs)
include h

theorem ok_of_free (hk : ⟨a, s, false⟩ ∈ cs) : ChunkSize c s := by
  rcases h.ok _ hk with heq | heq | hok
  · exact absurd heq (ne_guard_of_free rfl _)
  · exact absurd heq (ne_guard_of_free rfl _)
  · exact hok

theorem ok_of_addr_ne (hk : ⟨a, s, u⟩ ∈ cs) (hlo : a ≠ lo) (hhi : a ≠ hi) : ChunkSize c s := by
  rcases h.ok _ hk with heq | heq | hok
  · exact absurd heq (ne_guard_of_addr_ne hlo)
  · exact absurd heq (ne_guard_of_addr_ne hhi)
  · exact hok

theorem pairwise_before : cs.Pairwise Chunk.Before := by
  have : IsTrans Chunk Chunk.Before := ⟨fun x y z hxy hyz => by
    unfold Chunk.Before at *
    omega⟩
  have hchain : cs.IsChain Chunk.Before := h.meets.imp fun x y hxy => le_of_eq hxy.symm
  exact hchain.pairwise

theorem disjoint (hk : ⟨a, s, u⟩ ∈ cs) (hk' : ⟨b, t, v⟩ ∈ cs)
    (hne : (⟨a, s, u⟩ : Chunk) ≠ ⟨b, t, v⟩) : a + s ≤ b ∨ b + t ≤ a := by
  have : Std.Symm fun x y : Chunk => x.Before y ∨ y.Before x := ⟨fun _ _ hxy => hxy.symm⟩
  have hpair : cs.Pairwise fun x y => x.Before y ∨ y.Before x :=
    h.pairwise_before.imp fun hxy => .inl hxy
  exact hpair.forall hk hk' hne

theorem eq_of_addr_eq {j : Chunk} (hk : k ∈ cs) (hj : j ∈ cs)
    (heq : k.addr = j.addr) : k = j := by
  have hlay := c.layout
  by_contra hne
  have hsize := h.size_ge hk
  have hsize' := h.size_ge hj
  rcases h.disjoint hk hj hne with hle | hle <;> omega

theorem exists_cons : ∃ rest, cs = .guard c lo :: rest := by
  have hhead := h.head
  cases cs with
  | nil => cases hhead
  | cons x rest => exact ⟨rest, by simpa using hhead⟩

theorem bounds (hk : ⟨a, s, u⟩ ∈ cs) : lo ≤ a ∧ a + s ≤ hi + c.sizeofMmAllocnode := by
  have hpair := h.pairwise_before
  constructor
  · obtain ⟨rest, rfl⟩ := h.exists_cons
    rcases mem_cons.mp hk with heq | hk
    · exact (congrArg Chunk.addr heq).ge
    · have hle := (pairwise_cons.mp hpair).1 _ hk
      simp only [Chunk.Before, Chunk.guard] at hle
      omega
  · obtain ⟨init, rfl⟩ := List.getLast?_eq_some_iff.mp h.last
    rcases mem_append.mp hk with hk | hk
    · have hle := (pairwise_append.mp hpair).2.2 _ hk _ (mem_singleton_self _)
      simp only [Chunk.Before, Chunk.guard] at hle
      omega
    · simp only [Chunk.guard, mem_singleton, Chunk.mk.injEq] at hk
      omega

theorem guard_mem : .guard c lo ∈ cs ∧ .guard c hi ∈ cs :=
  ⟨mem_of_mem_head? h.head, mem_of_mem_getLast? h.last⟩

theorem inside (hk : ⟨a, s, u⟩ ∈ cs) (hlo : (⟨a, s, u⟩ : Chunk) ≠ .guard c lo)
    (hhi : (⟨a, s, u⟩ : Chunk) ≠ .guard c hi) : lo + c.sizeofMmAllocnode ≤ a ∧ a + s ≤ hi := by
  have hbounds := h.bounds hk
  have hsize := h.size_ge hk
  have hleft := h.disjoint hk h.guard_mem.1 hlo
  have hright := h.disjoint hk h.guard_mem.2 hhi
  omega

end

theorem exists_prev (h : Tiling c lo hi (pre ++ k :: post)) (hne : k ≠ .guard c lo) :
    ∃ pre' p, pre = pre' ++ [p] := by
  rcases eq_nil_or_concat pre with rfl | ⟨pre', p, rfl⟩
  · have hhead := h.head
    rw [nil_append, List.head?_cons, Option.some.injEq] at hhead
    exact absurd hhead hne
  · exact ⟨pre', p, concat_eq_append⟩

theorem exists_next (h : Tiling c lo hi (pre ++ k :: post)) (hne : k ≠ .guard c hi) :
    ∃ n post', post = n :: post' := by
  cases post with
  | nil =>
    have hlast := h.last
    rw [List.getLast?_append_cons, List.getLast?_singleton, Option.some.injEq] at hlast
    exact absurd hlast hne
  | cons n post' => exact ⟨n, post', rfl⟩

theorem exists_around (h : Tiling c lo hi cs) (hk : k ∈ cs) (hlo : k ≠ .guard c lo)
    (hhi : k ≠ .guard c hi) : ∃ pre p n post, cs = pre ++ p :: k :: n :: post := by
  obtain ⟨A, B, rfl⟩ := append_of_mem hk
  obtain ⟨pre, p, rfl⟩ := h.exists_prev hlo
  obtain ⟨n, post, rfl⟩ := h.exists_next hhi
  exact ⟨pre, p, n, post, by simp⟩

theorem unit_dvd (h : Tiling c lo hi cs) (hlo : 2 * c.sizeofMmAllocnode ∣ lo)
    (hk : ⟨a, s, u⟩ ∈ cs) (hne : a ≠ lo) : 2 * c.sizeofMmAllocnode ∣ a + c.sizeofMmAllocnode := by
  have hlay := c.layout
  -- by induction on the address: the chunk before ends where this one begins
  induction a using Nat.strong_induction_on generalizing s u with
  | _ a ih =>
    have hksize := h.size_ge hk
    have hkbounds := h.bounds hk
    obtain ⟨A, B, rfl⟩ := append_of_mem hk
    obtain ⟨pre, ⟨b, t, v⟩, rfl⟩ := h.exists_prev (ne_guard_of_addr_ne hne)
    have hmeets : a = b + t := by
      have hchain := h.meets
      rw [append_assoc, singleton_append] at hchain
      exact (isChain_cons_cons.mp (isChain_split.mp hchain).2).1
    have hpmem : (⟨b, t, v⟩ : Chunk) ∈ pre ++ [⟨b, t, v⟩] ++ ⟨a, s, u⟩ :: B := by simp
    have hpsize := h.size_ge hpmem
    by_cases hb : b = lo
    · have heq := h.eq_of_addr_eq hpmem h.guard_mem.1 hb
      have ht : t = c.sizeofMmAllocnode := congrArg Chunk.size heq
      rw [hmeets, hb, ht, Nat.add_assoc, ← Nat.two_mul]
      exact Nat.dvd_add hlo dvd_rfl
    · have hsize := h.ok_of_addr_ne hpmem hb (by omega)
      rw [hmeets, Nat.add_right_comm]
      exact Nat.dvd_add (ih b (by omega) hpmem hb) hsize.2

theorem nodup (h : Tiling c lo hi cs) : cs.Nodup := by
  have hlay := c.layout
  refine h.pairwise_before.imp_of_mem fun {x y} hx hy hxy heq => ?_
  have hsize := h.size_ge hx
  subst heq
  unfold Chunk.Before at hxy
  omega

theorem split_unique {pre' post' : List Chunk} {j : Chunk} (h : Tiling c lo hi (pre ++ k :: post))
    (heq : pre ++ k :: post = pre' ++ j :: post') (haddr : k.addr = j.addr) :
    pre = pre' ∧ k = j ∧ post = post' := by
  have hkj : k = j := h.eq_of_addr_eq (by simp) (by simp [heq]) haddr
  subst hkj
  have hnot := (nodup_cons.mp (perm_middle.nodup_iff.mp h.nodup)).1
  rw [mem_append, not_or] at hnot
  exact (append_cons_inj_of_notMem hnot.1 hnot.2).mp heq

variable (h : Tiling c lo hi (pre ++ p :: (seg ++ n :: post)))
include h

theorem outside (hk : k ∈ pre ++ p :: post) :
    k.addr + k.size ≤ p.addr + p.size ∨ n.addr + n.size ≤ k.addr := by
  obtain ⟨-, hright, hleft⟩ := pairwise_append.mp h.pairwise_before
  rw [mem_append, mem_cons] at hk
  rcases hk with hk | rfl | hk
  · have hle := hleft k hk p mem_cons_self
    unfold Chunk.Before at hle
    omega
  · exact .inl le_rfl
  · have hpost := (pairwise_append.mp (pairwise_cons.mp hright).2).2.1
    exact .inr ((pairwise_cons.mp hpost).1 k hk)

theorem mem_sides_iff :
    k ∈ pre ++ p :: n :: post ↔ k ∈ pre ++ p :: (seg ++ n :: post) ∧ k ∉ seg := by
  have hperm : (pre ++ p :: (seg ++ n :: post)).Perm (seg ++ (pre ++ p :: n :: post)) := by
    rw [show pre ++ p :: (seg ++ n :: post) = (pre ++ [p]) ++ (seg ++ n :: post) by simp,
      show pre ++ p :: n :: post = (pre ++ [p]) ++ n :: post by simp]
    exact perm_append_comm_assoc _ _ _
  have hdisj := (nodup_append.mp (hperm.nodup_iff.mp h.nodup)).2.2
  rw [hperm.mem_iff]
  constructor
  · exact fun hk => ⟨mem_append_right _ hk, fun hseg => hdisj k hseg k hk rfl⟩
  · exact fun hk => (mem_append.mp hk.1).resolve_left hk.2

/-- **Replacement.** A segment strictly inside the region may be exchanged for another one that
covers the same bytes. -/
theorem replace
    (hmeets : (p :: (seg' ++ [n])).IsChain Chunk.Meets) (hok : ∀ k ∈ seg', ChunkSize c k.size) :
    Tiling c lo hi (pre ++ p :: (seg' ++ n :: post)) := by
  refine ⟨?_, ?_, ?_, fun k hk => ?_⟩
  · obtain ⟨hleft, hright⟩ := isChain_split.mp h.meets
    have hright' := (isChain_split.mp (cons_append ▸ hright)).2
    refine isChain_split.mpr ⟨hleft, ?_⟩
    rw [← cons_append]
    exact isChain_split.mpr ⟨hmeets, hright'⟩
  · have hhead := h.head
    cases pre <;> simpa using hhead
  · have hlast := h.last
    rw [← cons_append, ← append_assoc, List.getLast?_append_cons] at hlast ⊢
    exact hlast
  · by_cases hseg : k ∈ seg'
    · exact .inr (.inr (hok k hseg))
    · refine h.ok k ?_
      simp only [mem_append, mem_cons] at hk ⊢
      tauto

end Tiling

end Nuttx.Mm

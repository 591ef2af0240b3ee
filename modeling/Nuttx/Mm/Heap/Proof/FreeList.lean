import Nuttx.Mm.Heap.Proof.Layout
import Mathlib.Order.Interval.Finset.Nat

/-!
# The free list in memory

The list threaded from `mm_nodelist[0]` interleaves the hooks with the free chunks.
-/

open List

namespace Nuttx.Mm

open ByteMemory LinkedList

section Join

variable {c : HeapConfig} {m : Mem} {x y n : Nat}

def joinNodes (c : HeapConfig) (m : Mem) (x y : Nat) : Mem :=
  let m := setFlink c m x y
  if y ≠ 0 then setBlink c m y x else m

def Sep (c : HeapConfig) (x y : Nat) : Prop :=
  x = y ∨ x + c.sizeofMmFreenode ≤ y ∨ y + c.sizeofMmFreenode ≤ x

theorem nodeFlink_joinNodes (hy : y < c.sizeMod) (hsep : y ≠ 0 → Sep c x y) :
    nodeFlink c (joinNodes c m x y) x = y := by
  have hlay := c.layout
  have hself : nodeFlink c (setFlink c m x y) x = y := load_store_eq hy
  unfold joinNodes
  split
  · rename_i hne
    have hxy := hsep hne
    unfold Sep at hxy
    exact (load_store_of_disjoint (by omega)).trans hself
  · exact hself

theorem nodeBlink_joinNodes (hx : x < c.sizeMod) (hy : y ≠ 0) :
    nodeBlink c (joinNodes c m x y) y = x := by
  rw [joinNodes, if_pos hy]
  exact load_store_eq hx

theorem nodeFlink_joinNodes_of_ne (hne : n ≠ x) (hx : Sep c n x) (hy : y ≠ 0 → Sep c n y) :
    nodeFlink c (joinNodes c m x y) n = nodeFlink c m n := by
  have hlay := c.layout
  have hfirst : nodeFlink c (setFlink c m x y) n = nodeFlink c m n := by
    unfold Sep at hx
    exact load_store_of_disjoint (by omega)
  unfold joinNodes
  split
  · rename_i hy0
    have hny := hy hy0
    unfold Sep at hny
    exact (load_store_of_disjoint (by omega)).trans hfirst
  · exact hfirst

theorem nodeBlink_joinNodes_of_ne (hne : n ≠ y) (hx : Sep c n x) (hy : y ≠ 0 → Sep c n y) :
    nodeBlink c (joinNodes c m x y) n = nodeBlink c m n := by
  have hlay := c.layout
  have hfirst : nodeBlink c (setFlink c m x y) n = nodeBlink c m n := by
    unfold Sep at hx
    exact load_store_of_disjoint (by omega)
  unfold joinNodes
  split
  · rename_i hy0
    have hny := hy hy0
    unfold Sep at hny
    exact (load_store_of_disjoint (by omega)).trans hfirst
  · exact hfirst

theorem joinNodes_changesOnly (c : HeapConfig) (m : Mem) (x y : Nat) :
    ChangesOnly {z | x + c.sizeofMmAllocnode ≤ z ∧ z < x + c.sizeofMmFreenode ∨
      y ≠ 0 ∧ y + c.sizeofMmAllocnode ≤ z ∧ z < y + c.sizeofMmFreenode} m (joinNodes c m x y) := by
  have hlay := c.layout
  have hfirst := (ChangesOnly.refl {z | x + c.sizeofMmAllocnode ≤ z ∧ z < x + c.sizeofMmFreenode ∨
      y ≠ 0 ∧ y + c.sizeofMmAllocnode ≤ z ∧ z < y + c.sizeofMmFreenode} m).store y
      (n := c.ptrBytes) (a := x + c.sizeofMmAllocnode) (fun z hz => .inl (by
        simp only [mem_span] at hz
        omega))
  unfold joinNodes
  split
  · rename_i hy0
    refine hfirst.store x fun z hz => .inr ⟨hy0, ?_⟩
    simp only [mem_span] at hz
    omega
  · exact hfirst

theorem nodeSize_joinNodes (hx : Sep c n x) (hy : y ≠ 0 → Sep c n y) :
    nodeSize c (joinNodes c m x y) n = nodeSize c m n := by
  have hlay := c.layout
  refine (joinNodes_changesOnly c m x y).load_eq fun z hz hz' => ?_
  rintro (hlink | ⟨hy0, hlink⟩)
  · unfold Sep at hx
    omega
  · have hny := hy hy0
    unfold Sep at hny
    omega

end Join

inductive FreeNode
  | hook (ndx : Nat)
  | chunk (addr size : Nat)
  deriving DecidableEq

namespace FreeNode

def addr (c : HeapConfig) (nodelist : Nat) : FreeNode → Nat
  | hook ndx => hookAddr c nodelist ndx
  | chunk addr _ => addr

def size : FreeNode → Nat
  | hook _ => 0
  | chunk _ size => size

def ndx (c : HeapConfig) : FreeNode → Nat
  | hook ndx => ndx
  | chunk _ size => c.mmSize2ndx size

@[simp]
theorem addr_hook (c : HeapConfig) (nodelist i : Nat) :
    (hook i).addr c nodelist = hookAddr c nodelist i := rfl

@[simp]
theorem addr_chunk (c : HeapConfig) (nodelist a s : Nat) : (chunk a s).addr c nodelist = a := rfl

@[simp]
theorem size_hook (i : Nat) : (hook i).size = 0 := rfl

@[simp]
theorem size_chunk (a s : Nat) : (chunk a s).size = s := rfl

@[simp]
theorem ndx_hook (c : HeapConfig) (i : Nat) : (hook i).ndx c = i := rfl

@[simp]
theorem ndx_chunk (c : HeapConfig) (a s : Nat) : (chunk a s).ndx c = c.mmSize2ndx s := rfl

def Le (c : HeapConfig) (x y : FreeNode) : Prop :=
  x.ndx c < y.ndx c ∨ x.ndx c = y.ndx c ∧ x.size ≤ y.size

theorem Le.trans {c : HeapConfig} {x y z : FreeNode} (hxy : x.Le c y) (hyz : y.Le c z) :
    x.Le c z := by
  unfold Le at *
  omega

def Apart (c : HeapConfig) (nodelist : Nat) (x y : FreeNode) : Prop :=
  x.addr c nodelist + c.sizeofMmFreenode ≤ y.addr c nodelist ∨
    y.addr c nodelist + c.sizeofMmFreenode ≤ x.addr c nodelist

end FreeNode

open FreeNode

variable {c : HeapConfig} {nodelist : Nat} {m m' : Mem} {ns : List FreeNode}

theorem hookAddr_bounds {i : Nat} (hi : i < c.mmNnodes) : nodelist ≤ hookAddr c nodelist i ∧
    hookAddr c nodelist i + c.sizeofMmFreenode ≤ hookAddr c nodelist c.mmNnodes := by
  have hmul := Nat.mul_le_mul_right c.sizeofMmFreenode hi
  rw [Nat.succ_mul] at hmul
  unfold hookAddr
  omega

def linkBytes (c : HeapConfig) (nodelist : Nat) (ns : List FreeNode) : Set Nat :=
  {x | ∃ n ∈ ns, n.addr c nodelist + c.sizeofMmAllocnode ≤ x ∧
    x < n.addr c nodelist + c.sizeofMmFreenode}

structure FreeList (c : HeapConfig) (nodelist : Nat) (m : Mem) (ns : List FreeNode) : Prop where
  threaded : Threaded 0 (nodeFlink c m) (nodeBlink c m) (ns.map (FreeNode.addr c nodelist))
  sorted : ns.Pairwise (FreeNode.Le c)
  hooks : ∀ i, .hook i ∈ ns ↔ i < c.mmNnodes
  sizes : ∀ n ∈ ns, nodeSize c m (n.addr c nodelist) = n.size
  size_pos : ∀ a s, .chunk a s ∈ ns → 0 < s
  apart : ns.Pairwise (FreeNode.Apart c nodelist)
  addr_pos : ∀ n ∈ ns, 0 < n.addr c nodelist
  addr_le : ∀ n ∈ ns, n.addr c nodelist + c.sizeofMmFreenode ≤ c.sizeMod

namespace FreeList

section

variable (h : FreeList c nodelist m ns)
include h

theorem congr {S : Set Nat} (hchg : ChangesOnly S m m')
    (hsize : ∀ n ∈ ns, nodeSize c m' (n.addr c nodelist) = nodeSize c m (n.addr c nodelist))
    (hlinks : ∀ n ∈ ns, ∀ x ∈ S, ¬ (n.addr c nodelist + c.sizeofMmAllocnode ≤ x ∧
      x < n.addr c nodelist + c.sizeofMmFreenode)) :
    FreeList c nodelist m' ns := by
  have hlay := c.layout
  refine ⟨h.threaded.congr (forall_mem_map.mpr fun n hn => ?_)
    (forall_mem_map.mpr fun n hn => ?_), h.sorted, h.hooks,
    fun n hn => (hsize n hn).trans (h.sizes n hn), h.size_pos, h.apart, h.addr_pos, h.addr_le⟩
  all_goals exact hchg.load_eq fun x hx hx' hmem => hlinks n hn x hmem (by omega)

theorem congr_of_outside {S : Set Nat} (hchg : ChangesOnly S m m')
    (hS : ∀ n ∈ ns, ∀ x ∈ S, ¬ (n.addr c nodelist ≤ x ∧
      x < n.addr c nodelist + c.sizeofMmFreenode)) : FreeList c nodelist m' ns := by
  have hlay := c.layout
  refine h.congr hchg (fun n hn => hchg.load_eq fun x hx hx' hmem => hS n hn x hmem (by omega))
    fun n hn x hx hlink => hS n hn x hx (by omega)

theorem sep {x y : FreeNode} (hx : x ∈ ns) (hy : y ∈ ns) :
    Sep c (x.addr c nodelist) (y.addr c nodelist) := by
  by_cases heq : x = y
  · exact .inl (by rw [heq])
  · have : Std.Symm (Apart c nodelist) := ⟨fun _ _ hxy => Or.symm hxy⟩
    exact .inr (h.apart.forall hx hy heq)

theorem addr_nodup : (ns.map (addr c nodelist)).Nodup := by
  rw [List.Nodup, pairwise_map]
  refine h.apart.imp fun {x y} hxy => ?_
  have hlay := c.layout
  unfold Apart at hxy
  omega

theorem length_lt : ns.length < c.sizeMod := by
  obtain ⟨ha, hf, hmm, hp, -⟩ := c.layout
  have hpos : 0 < c.sizeMod := Nat.pow_pos (by omega)
  have hsub : (ns.map (addr c nodelist)).toFinset ⊆ Finset.Ico 1 c.sizeMod := by
    intro a ha
    simp only [mem_toFinset, mem_map] at ha
    obtain ⟨n, hn, rfl⟩ := ha
    have hlow := h.addr_pos n hn
    have hhigh := h.addr_le n hn
    simp only [Finset.mem_Ico]
    omega
  have hcard := Finset.card_le_card hsub
  rw [toFinset_card_of_nodup h.addr_nodup, length_map, Nat.card_Ico] at hcard
  omega

theorem nodup : ns.Nodup := List.Nodup.of_map _ h.addr_nodup

end

variable {a s : Nat}

section

variable (h : FreeList c nodelist m ns)
include h

theorem exists_split_hook (hmem : .chunk a s ∈ ns) : ∃ A p B, ns = A ++ p :: .chunk a s :: B := by
  obtain ⟨A, B, rfl⟩ := append_of_mem hmem
  have hhook : .hook (c.mmSize2ndx s) ∈ A ++ .chunk a s :: B := (h.hooks _).mpr (c.mmSize2ndx_lt s)
  have hpos := h.size_pos a s hmem
  have hA : A ≠ [] := by
    rintro rfl
    simp only [nil_append, mem_cons, reduceCtorEq, false_or] at hhook
    have hle := (pairwise_cons.mp h.sorted).1 _ hhook
    simp only [Le, ndx_chunk, ndx_hook, size_chunk,
      size_hook] at hle
    omega
  refine ⟨A.dropLast, A.getLast hA, B, ?_⟩
  have hsplit := dropLast_append_getLast hA
  calc A ++ .chunk a s :: B = (A.dropLast ++ [A.getLast hA]) ++ .chunk a s :: B := by rw [hsplit]
    _ = A.dropLast ++ A.getLast hA :: .chunk a s :: B := by simp

theorem blink_ne_zero (hmem : .chunk a s ∈ ns) : nodeBlink c m a ≠ 0 := by
  obtain ⟨A, p, B, rfl⟩ := h.exists_split_hook hmem
  have hthread := h.threaded
  rw [map_append, map_cons, map_cons] at hthread
  have hne : a ≠ 0 := (h.addr_pos _ hmem).ne'
  rw [show nodeBlink c m a = p.addr c nodelist from hthread.bwd_eq hne]
  exact (h.addr_pos p (by simp)).ne'

theorem unlink (hmem : .chunk a s ∈ ns) :
    ∃ ns', FreeList c nodelist (unlinkNode c m a) ns' ∧
      (∀ n, n ∈ ns' ↔ n ∈ ns ∧ n ≠ .chunk a s) ∧
      ChangesOnly (linkBytes c nodelist ns') m (unlinkNode c m a) := by
  obtain ⟨A, p, B, rfl⟩ := h.exists_split_hook hmem
  have hsub : (A ++ p :: B).Sublist (A ++ p :: .chunk a s :: B) :=
    (sublist_append_right [chunk a s] B).cons_cons p |>.append_left A
  have hthread := h.threaded
  have hnodup := h.addr_nodup
  rw [map_append, map_cons, map_cons] at hthread hnodup
  have hnull : 0 ∉ A.map (addr c nodelist) ++ p.addr c nodelist ::
      a :: B.map (addr c nodelist) := by
    have hpos : 0 ∉ (A ++ p :: .chunk a s :: B).map (addr c nodelist) := by
      rw [mem_map]
      rintro ⟨n, hn, hzero⟩
      exact (h.addr_pos n hn).ne' hzero
    simpa using hpos
  have hblink : nodeBlink c m a = p.addr c nodelist := hthread.bwd_eq (h.addr_pos _ hmem).ne'
  -- the successor is a node of the list, or there is none
  have hsucc : nodeFlink c m a ≠ 0 → ∃ z ∈ B, nodeFlink c m a = z.addr c nodelist := by
    have hsplit : Threaded 0 (nodeFlink c m) (nodeBlink c m) ((A.map (addr c nodelist) ++
        [p.addr c nodelist]) ++ a :: B.map (addr c nodelist)) := by
      simpa using hthread
    rw [hsplit.fwd_eq]
    cases B with
    | nil => simp
    | cons z B => exact fun _ => ⟨z, by simp, rfl⟩
  have hpmem : p ∈ A ++ p :: .chunk a s :: B := by simp
  have hjoin : unlinkNode c m a = joinNodes c m (p.addr c nodelist) (nodeFlink c m a) := by
    obtain ⟨ha, hf, hmm, hp, -⟩ := c.layout
    have hne : p.addr c nodelist ≠ a := by
      rintro heq
      have htail := (nodup_append.mp hnodup).2.1
      simp [heq] at htail
    have hsep : Sep c (p.addr c nodelist) a := h.sep hpmem hmem
    unfold Sep at hsep
    have hflink : nodeFlink c (setFlink c m (p.addr c nodelist) (nodeFlink c m a)) a
        = nodeFlink c m a := load_store_of_disjoint (by omega)
    have hblink' : nodeBlink c (setFlink c m (p.addr c nodelist) (nodeFlink c m a)) a
        = p.addr c nodelist := (load_store_of_disjoint (by omega)).trans hblink
    simp only [unlinkNode, joinNodes, hblink, hflink, hblink']
  have hsep : ∀ n ∈ A ++ p :: B, Sep c (n.addr c nodelist) (p.addr c nodelist) := fun n hn =>
    h.sep (hsub.subset hn) hpmem
  have hsep' : ∀ n ∈ A ++ p :: B, nodeFlink c m a ≠ 0 →
      Sep c (n.addr c nodelist) (nodeFlink c m a) := by
    intro n hn hne
    obtain ⟨z, hz, heq⟩ := hsucc hne
    exact heq ▸ h.sep (hsub.subset hn) (by simp [hz])
  have hlt : nodeFlink c m a < c.sizeMod := load_lt _ _ _
  have hplt : p.addr c nodelist < c.sizeMod := by
    have hle := h.addr_le p hpmem
    obtain ⟨ha, hf, hmm, hp, -⟩ := c.layout
    omega
  refine ⟨A ++ p :: B, ?_, ?_, ?_⟩
  · rw [hjoin]
    refine ⟨?_, h.sorted.sublist hsub, fun i => ?_, fun n hn => ?_, fun a' s' hmem' => ?_,
      h.apart.sublist hsub, fun n hn => ?_, fun n hn => ?_⟩
    · rw [map_append, map_cons]
      refine hthread.unlink hnodup hnull
        (nodeFlink_joinNodes hlt (hsep' p (by simp))) (nodeBlink_joinNodes hplt) ?_ ?_
      · intro n hn hne
        rw [← map_cons, ← map_append, mem_map] at hn
        obtain ⟨k, hk, rfl⟩ := hn
        exact nodeFlink_joinNodes_of_ne hne (hsep k hk) (hsep' k hk)
      · intro n hn hne
        rw [← map_cons, ← map_append, mem_map] at hn
        obtain ⟨k, hk, rfl⟩ := hn
        exact nodeBlink_joinNodes_of_ne hne (hsep k hk) (hsep' k hk)
    · rw [← h.hooks i]
      simp
    · rw [nodeSize_joinNodes (hsep n hn) (hsep' n hn)]
      exact h.sizes n (hsub.subset hn)
    · exact h.size_pos a' s' (hsub.subset hmem')
    · exact h.addr_pos n (hsub.subset hn)
    · exact h.addr_le n (hsub.subset hn)
  · intro n
    have hnotMem : chunk a s ∉ A ++ p :: B := by
      have hnodup' := h.nodup
      rw [show A ++ p :: .chunk a s :: B = (A ++ [p]) ++ .chunk a s :: B by simp] at hnodup'
      have hcons := (List.Perm.nodup_iff perm_middle).mp hnodup'
      simpa using (nodup_cons.mp hcons).1
    constructor
    · intro hn
      exact ⟨hsub.subset hn, fun heq => hnotMem (heq ▸ hn)⟩
    · rintro ⟨hn, hne⟩
      simpa [hne] using hn
  · rw [hjoin]
    refine (joinNodes_changesOnly c m _ _).mono ?_
    rintro x (hx | ⟨hne, hx⟩)
    · exact ⟨p, by simp, hx⟩
    · obtain ⟨z, hz, heq⟩ := hsucc hne
      exact ⟨z, by simp [hz], heq ▸ hx⟩

theorem mem_of_le {A R : List FreeNode} {n : Nat}
    (hns : ns = A ++ .hook (c.mmSize2ndx n) :: R) (hmem : .chunk a s ∈ ns) (hle : n ≤ s) :
    .chunk a s ∈ R := by
  subst hns
  have hpos := h.size_pos a s hmem
  have hmono := c.mmSize2ndx_mono hle
  rw [mem_append, mem_cons] at hmem
  rcases hmem with hA | heq | hR
  · have hle' := (pairwise_append.mp h.sorted).2.2 _ hA _ mem_cons_self
    simp only [Le, ndx_chunk, ndx_hook, size_chunk,
      size_hook] at hle'
    omega
  · cases heq
  · exact hR

theorem seek_hook (n : Nat) (go : Nat → Bool)
    (keep : FreeNode → Bool) (body : Nat → Except Fault Unit)
    (hgo : ∀ x ∈ ns, go (x.addr c nodelist) = keep x)
    (hbody : ∀ x ∈ ns, (∃ y, nodeBlink c m (x.addr c nodelist) = y ∧
      nodeFlink c m y = x.addr c nodelist) → body (x.addr c nodelist) = .ok ()) :
    ∃ A R, ns = A ++ .hook (c.mmSize2ndx n) :: R ∧
      seek Fault.endless 0 (nodeFlink c m) go body c.sizeMod (hookAddr c nodelist (c.mmSize2ndx n))
          (nodeFlink c m (hookAddr c nodelist (c.mmSize2ndx n)))
        = .ok (((R.takeWhile keep).getLastD (.hook (c.mmSize2ndx n))).addr c nodelist,
            ((R.dropWhile keep).map (addr c nodelist)).headD 0) := by
  obtain ⟨A, R, rfl⟩ := append_of_mem ((h.hooks _).mpr (c.mmSize2ndx_lt n))
  refine ⟨A, R, rfl, ?_⟩
  have hlength := h.length_lt
  rw [length_append, length_cons] at hlength
  refine seek_threaded h.threaded
    (fun x hx => (h.addr_pos x (by simp [hx])).ne') (fun x hx => hgo x (by simp [hx]))
    (fun x hx => hbody x (by simp [hx]) ?_) (by omega)
  obtain ⟨B, C, rfl⟩ := append_of_mem hx
  obtain ⟨D, y, hy⟩ : ∃ D y, A ++ .hook (c.mmSize2ndx n) :: B = D ++ [y] :=
    ⟨_, _, (dropLast_append_getLast (by simp)).symm⟩
  have hthread := h.threaded
  rw [show A ++ .hook (c.mmSize2ndx n) :: (B ++ x :: C) = D ++ y :: x :: C by
    rw [← cons_append, ← append_assoc, hy]
    simp] at hthread
  rw [map_append, map_cons, map_cons] at hthread
  exact ⟨_, hthread.bwd_eq (h.addr_pos x (by simp)).ne', hthread.fwd_eq⟩

/-- **The search of `mm_malloc`.** It ends at a smallest chunk of at least `n` bytes, or at zero
when there is none. -/
theorem search {n : Nat} (hn : 0 < n) :
    ∃ prev node, seek Fault.endless 0 (nodeFlink c m) (fun node => nodeSize c m node < n)
        (fun node => debugassert c .mallocSearchLink (nodeFlink c m (nodeBlink c m node) == node))
        c.sizeMod (hookAddr c nodelist (c.mmSize2ndx n))
        (nodeFlink c m (hookAddr c nodelist (c.mmSize2ndx n))) = .ok (prev, node) ∧
      ((node = 0 ∧ ∀ a s, .chunk a s ∈ ns → s < n) ∨
        ∃ s, .chunk node s ∈ ns ∧ n ≤ s ∧ ∀ a s', .chunk a s' ∈ ns → n ≤ s' → s ≤ s') := by
  obtain ⟨A, R, hns, hseek⟩ := h.seek_hook n (fun node => nodeSize c m node < n)
    (fun x => x.size < n)
    (fun node => debugassert c .mallocSearchLink (nodeFlink c m (nodeBlink c m node) == node))
    (fun x hx => by rw [h.sizes x hx]) (by
      rintro x - ⟨y, hy, hxy⟩
      simp [hy, hxy])
  refine ⟨_, _, hseek, ?_⟩
  have hdrop : ∀ a s, .chunk a s ∈ ns → n ≤ s →
      .chunk a s ∈ R.dropWhile fun x => decide (x.size < n) := by
    intro a s hmem hle
    have hR := h.mem_of_le hns hmem hle
    rw [← takeWhile_append_dropWhile (p := fun x => decide (x.size < n)) (l := R), mem_append] at hR
    refine hR.resolve_left fun htake => ?_
    have hkeep := mem_takeWhile_imp (p := fun x : FreeNode => decide (x.size < n)) htake
    have hlt : s < n := of_decide_eq_true hkeep
    omega
  cases hD : R.dropWhile fun x => decide (x.size < n) with
  | nil =>
    refine .inl ⟨by simp, fun a s hmem => ?_⟩
    by_contra hlt
    have hmem' := hdrop a s hmem (by omega)
    rw [hD] at hmem'
    cases hmem'
  | cons x D =>
    have hx : n ≤ x.size := by
      have hhead := head_dropWhile_not (fun x : FreeNode => decide (x.size < n)) (by
        rw [hD]
        simp)
      simp only [hD, head_cons, decide_eq_false_iff_not] at hhead
      omega
    cases x with
    | hook i =>
      simp only [size_hook] at hx
      omega
    | chunk a s =>
      have hsuffix : (chunk a s :: D).Sublist ns := by
        rw [hns, ← hD]
        exact ((dropWhile_sublist _).cons _).trans (sublist_append_right A _)
      refine .inr ⟨s, hsuffix.subset (by simp), hx, fun a' s' hmem hle => ?_⟩
      have hmem' := hdrop a' s' hmem hle
      rw [hD, mem_cons] at hmem'
      rcases hmem' with heq | htail
      · cases heq
        exact le_rfl
      have hle' := (pairwise_cons.mp (h.sorted.sublist hsuffix)).1 _ htail
      simp only [Le, ndx_chunk, size_chunk] at hle'
      by_contra hlt
      have hmono := c.mmSize2ndx_mono (show s' ≤ s by omega)
      omega

end

private theorem pairwise_insert {R : FreeNode → FreeNode → Prop} {L D : List FreeNode}
    {x : FreeNode} (h : (L ++ D).Pairwise R) (hL : ∀ y ∈ L, R y x) (hD : ∀ y ∈ D, R x y) :
    (L ++ x :: D).Pairwise R := by
  obtain ⟨hL', hD', hLD⟩ := pairwise_append.mp h
  refine pairwise_append.mpr ⟨hL', pairwise_cons.mpr ⟨hD, hD'⟩, fun y hy z hz => ?_⟩
  rcases mem_cons.mp hz with rfl | hz
  · exact hL y hy
  · exact hLD y hy z hz

theorem seek_place (h : FreeList c nodelist m ns) (a s : Nat) :
    ∃ A p D, ns = A ++ p :: D ∧
      seek Fault.endless 0 (nodeFlink c m)
          (fun next => nodeSize c m next != 0 && nodeSize c m next < s) (fun _ => .ok ()) c.sizeMod
          (hookAddr c nodelist (c.mmSize2ndx s))
          (nodeFlink c m (hookAddr c nodelist (c.mmSize2ndx s)))
        = .ok (p.addr c nodelist, (D.map (addr c nodelist)).headD 0) ∧
      (∀ x ∈ A ++ [p], x.Le c (.chunk a s)) ∧ ∀ x ∈ D, Le c (.chunk a s) x := by
  obtain ⟨A, R, hns, hseek⟩ := h.seek_hook s
    (fun next => nodeSize c m next != 0 && nodeSize c m next < s)
    (fun x => x.size != 0 && x.size < s) (fun _ => .ok ())
    (fun x hx => by rw [h.sizes x hx]) (fun _ _ _ => rfl)
  generalize hkeep : (fun x : FreeNode => x.size != 0 && decide (x.size < s)) = keep at hseek
  have hkeep' : ∀ x, keep x = true ↔ x.size ≠ 0 ∧ x.size < s := by simp [← hkeep]
  obtain ⟨A', p, hsplit, hlast⟩ : ∃ A' p, A ++ .hook (c.mmSize2ndx s) :: R.takeWhile keep
      = A' ++ [p] ∧ (R.takeWhile keep).getLastD (.hook (c.mmSize2ndx s)) = p := by
    refine ⟨A ++ (.hook (c.mmSize2ndx s) :: R.takeWhile keep).dropLast, _, ?_, rfl⟩
    rw [append_assoc, ← getLast_eq_getLastD (cons_ne_nil _ _), dropLast_append_getLast]
  have hRsplit := takeWhile_append_dropWhile (p := keep) (l := R)
  refine ⟨A', p, R.dropWhile keep, ?_, hlast ▸ hseek, ?_, ?_⟩
  · rw [hns, append_cons A', ← hsplit, append_assoc, cons_append, hRsplit]
  · intro x hx
    rw [← hsplit, mem_append, mem_cons] at hx
    have hhook : Le c (.hook (c.mmSize2ndx s)) (.chunk a s) :=
      .inr ⟨rfl, Nat.zero_le _⟩
    rcases hx with hA | rfl | hT
    · subst hns
      exact ((pairwise_append.mp h.sorted).2.2 x hA _ mem_cons_self).trans hhook
    · exact hhook
    obtain ⟨hne, hlt⟩ := (hkeep' x).mp (mem_takeWhile_imp hT)
    cases x with
    | hook i => exact absurd rfl hne
    | chunk a' s' =>
      have hmono := c.mmSize2ndx_mono (le_of_lt hlt)
      simp only [size_chunk] at hlt hmono
      simp only [Le, ndx_chunk, size_chunk]
      omega
  · -- the walk stopped at a later hook or at a chunk that is not smaller
    cases hD : R.dropWhile keep with
    | nil => simp
    | cons d D =>
      have hsuffix : (hook (c.mmSize2ndx s) :: d :: D).Sublist ns := by
        rw [hns, ← hD]
        exact ((dropWhile_sublist _).cons_cons _).trans (sublist_append_right A _)
      have hsorted := h.sorted.sublist hsuffix
      have hd : Le c (.chunk a s) d := by
        have hstop : ¬ (d.size ≠ 0 ∧ d.size < s) := by
          rw [← hkeep']
          have hhead := head_dropWhile_not keep (l := R) (by simp [hD])
          simpa [hD] using hhead
        cases d with
        | hook i =>
          have hle := (pairwise_cons.mp hsorted).1 _ mem_cons_self
          have hne : c.mmSize2ndx s ≠ i := by
            rintro rfl
            simpa using h.nodup.sublist hsuffix
          simp only [Le, ndx_hook, ndx_chunk] at hle ⊢
          omega
        | chunk a' s' =>
          have hpos := h.size_pos a' s' (hsuffix.subset (by simp))
          simp only [size_chunk] at hstop
          have hmono := c.mmSize2ndx_mono (show s ≤ s' by omega)
          simp only [Le, ndx_chunk, size_chunk]
          omega
      intro x hx
      rcases mem_cons.mp hx with rfl | hx
      · exact hd
      · exact hd.trans ((pairwise_cons.mp (pairwise_cons.mp hsorted).2).1 x hx)

theorem insert {A D : List FreeNode} {p : FreeNode} (h : FreeList c nodelist m (A ++ p :: D))
    {next : Nat} (hnext : next = (D.map (addr c nodelist)).headD 0)
    (hsize : nodeSize c m a = s) (hs : 0 < s)
    (hbefore : ∀ x ∈ A ++ [p], x.Le c (.chunk a s)) (hafter : ∀ x ∈ D, Le c (.chunk a s) x)
    (hapart : ∀ n ∈ A ++ p :: D, n.Apart c nodelist (.chunk a s)) (hpos : 0 < a)
    (hle : a + c.sizeofMmFreenode ≤ c.sizeMod) :
    FreeList c nodelist (joinNodes c (joinNodes c m (p.addr c nodelist) a) a next)
        (A ++ p :: .chunk a s :: D) ∧
      ChangesOnly (linkBytes c nodelist (A ++ p :: .chunk a s :: D)) m
        (joinNodes c (joinNodes c m (p.addr c nodelist) a) a next) := by
  have hlay := c.layout
  have hpmem : p ∈ A ++ p :: D := by simp
  have hmem : ∀ n, n ∈ A ++ p :: .chunk a s :: D → n = .chunk a s ∨ n ∈ A ++ p :: D := by
    intro n hn
    simp only [mem_append, mem_cons] at hn ⊢
    tauto
  have hne : ∀ n ∈ A ++ p :: D, n.addr c nodelist ≠ a := by
    intro n hn heq
    have hna := hapart n hn
    simp only [Apart, addr_chunk] at hna
    omega
  have hsepA : ∀ n ∈ A ++ p :: D, Sep c (n.addr c nodelist) a := fun n hn => .inr (hapart n hn)
  have hsepP : ∀ n ∈ A ++ p :: D, Sep c (n.addr c nodelist) (p.addr c nodelist) :=
    fun n hn => h.sep hn hpmem
  have hsucc : next ≠ 0 → ∃ z ∈ D, next = z.addr c nodelist := by
    subst hnext
    cases D with
    | nil => simp
    | cons z D => exact fun _ => ⟨z, by simp, rfl⟩
  have hsepN : ∀ n ∈ A ++ p :: D, next ≠ 0 → Sep c (n.addr c nodelist) next := by
    intro n hn hne0
    obtain ⟨z, hz, rfl⟩ := hsucc hne0
    exact h.sep hn (by simp [hz])
  have hsepAN : next ≠ 0 → Sep c a next := by
    intro hne0
    obtain ⟨z, hz, rfl⟩ := hsucc hne0
    exact .inr (Or.symm (hapart z (by simp [hz])))
  have hnextA : a ≠ next := by
    rintro rfl
    obtain ⟨z, hz, heq⟩ := hsucc hpos.ne'
    exact hne z (by simp [hz]) heq.symm
  have hlt : ∀ n ∈ A ++ p :: D, n.addr c nodelist < c.sizeMod := by
    intro n hn
    have hn' := h.addr_le n hn
    omega
  have hnextlt : next < c.sizeMod := by
    by_cases hne0 : next = 0
    · omega
    · obtain ⟨z, hz, rfl⟩ := hsucc hne0
      exact hlt z (by simp [hz])
  refine ⟨⟨?_, ?_, fun i => ?_, ?_, ?_, ?_, ?_, ?_⟩, ?_⟩
  · have hthread := h.threaded
    have hnodup := h.addr_nodup
    rw [map_append, map_cons] at hthread hnodup
    rw [map_append, map_cons, map_cons]
    have hfwd : nodeFlink c m (p.addr c nodelist) = next := hthread.fwd_eq.trans hnext.symm
    refine hthread.insert hnodup ?_ ?_ ?_ ?_ ?_ ?_ ?_
    · rw [← map_cons, ← map_append, mem_map]
      rintro ⟨n, hn, hzero⟩
      exact (h.addr_pos n hn).ne' hzero
    · rw [nodeFlink_joinNodes_of_ne (hne p hpmem) (hsepA p hpmem) (hsepN p hpmem)]
      exact nodeFlink_joinNodes (by omega) fun _ => hsepA p hpmem
    · rw [addr_chunk, nodeBlink_joinNodes_of_ne hnextA (.inl rfl) hsepAN]
      exact nodeBlink_joinNodes (hlt p hpmem) hpos.ne'
    · rw [addr_chunk, hfwd]
      exact nodeFlink_joinNodes hnextlt hsepAN
    · rw [hfwd]
      exact nodeBlink_joinNodes (by omega)
    · intro n hn hnp
      rw [← map_cons, ← map_append, mem_map] at hn
      obtain ⟨k, hk, rfl⟩ := hn
      rw [nodeFlink_joinNodes_of_ne (hne k hk) (hsepA k hk) (hsepN k hk),
        nodeFlink_joinNodes_of_ne hnp (hsepP k hk) fun _ => hsepA k hk]
    · intro n hn hnn
      rw [← map_cons, ← map_append, mem_map] at hn
      obtain ⟨k, hk, rfl⟩ := hn
      rw [hfwd] at hnn
      rw [nodeBlink_joinNodes_of_ne hnn (hsepA k hk) (hsepN k hk),
        nodeBlink_joinNodes_of_ne (hne k hk) (hsepP k hk) fun _ => hsepA k hk]
  · rw [append_cons]
    exact pairwise_insert (by simpa using h.sorted) hbefore hafter
  · rw [← h.hooks i]
    simp
  · intro n hn
    rcases hmem n hn with rfl | hn
    · have hsepP' : Sep c a (p.addr c nodelist) := .inr (Or.symm (hapart p hpmem))
      rw [addr_chunk, nodeSize_joinNodes (.inl rfl) hsepAN,
        nodeSize_joinNodes hsepP' fun _ => .inl rfl]
      exact hsize
    · rw [nodeSize_joinNodes (hsepA n hn) (hsepN n hn),
        nodeSize_joinNodes (hsepP n hn) fun _ => hsepA n hn]
      exact h.sizes n hn
  · intro a' s' hn
    rcases hmem _ hn with heq | hn
    · cases heq
      exact hs
    · exact h.size_pos a' s' hn
  · rw [append_cons]
    exact pairwise_insert (by simpa using h.apart) (fun n hn => hapart n (by simp at hn ⊢; tauto))
      fun n hn => Or.symm (hapart n (by simp [hn]))
  · intro n hn
    rcases hmem n hn with rfl | hn
    · exact hpos
    · exact h.addr_pos n hn
  · intro n hn
    rcases hmem n hn with rfl | hn
    · exact hle
    · exact h.addr_le n hn
  · refine ((joinNodes_changesOnly c m _ _).mono ?_).trans ((joinNodes_changesOnly c _ _ _).mono ?_)
    · rintro x (hx | ⟨-, hx⟩)
      · exact ⟨p, by simp, hx⟩
      · exact ⟨.chunk a s, by simp, hx⟩
    · rintro x (hx | ⟨hne0, hx⟩)
      · exact ⟨.chunk a s, by simp, hx⟩
      · obtain ⟨z, hz, rfl⟩ := hsucc hne0
        exact ⟨z, by simp [hz], hx⟩

/-- **Listing a chunk.** `mm_addfreechunk` puts a chunk that overlaps no listed node on the list
and writes nothing but links. -/
theorem mmAddfreechunk_spec {h : Heap} (hlist : FreeList c h.mmNodelist m ns)
    (hsize : nodeSize c m a = s) (hs : c.sizeofMmFreenode ≤ s) (hfree : isAllocated c m a = false)
    (hapart : ∀ n ∈ ns, n.Apart c h.mmNodelist (.chunk a s)) (hpos : 0 < a)
    (hle : a + c.sizeofMmFreenode ≤ c.sizeMod) :
    ∃ m' ns', mmAddfreechunk c h m a = .ok m' ∧ FreeList c h.mmNodelist m' ns' ∧
      (∀ n, n ∈ ns' ↔ n = .chunk a s ∨ n ∈ ns) ∧
      ChangesOnly (linkBytes c h.mmNodelist ns') m m' := by
  obtain ⟨A, p, D, rfl, hseek, hbefore, hafter⟩ := hlist.seek_place a s
  have hlay := c.layout
  obtain ⟨hlist', hchanges⟩ := hlist.insert rfl hsize (by omega) hbefore hafter hapart hpos hle
  refine ⟨_, _, ?_, hlist', fun n => ?_, hchanges⟩
  · simp [mmAddfreechunk, hsize, hfree, hs, hseek, joinNodes, hpos.ne']
  · simp only [mem_append, mem_cons]
    tauto

end FreeList

end Nuttx.Mm

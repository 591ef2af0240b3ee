import Nuttx.Mm.Heap.Proof.FreeList
import Nuttx.Mm.Heap.Proof.Steps

/-!
# The heap invariant

`HeapInv` connects a memory with a list of chunks: the headers in memory are those of the chunks,
and the free list holds the free chunks.
-/

open List

namespace Nuttx.Mm

open ByteMemory LinkedList FreeNode

variable {c : HeapConfig} {q : Chunk}

section Fields

variable {m m' : Mem} {x y v s s' : Nat} {u : Bool}

theorem nodeSize_setSize (hv : v < 2 * c.mmAllocBit) : nodeSize c (setSize c m x v) x = v :=
  load_store_eq (by rw [c.pow_mmBytes]; exact hv)

theorem nodeSize_setSize_of_ne (h : x + c.sizeofMmAllocnode ≤ y ∨ y + c.sizeofMmAllocnode ≤ x) :
    nodeSize c (setSize c m x v) y = nodeSize c m y := by
  have hlay := c.layout
  exact load_store_of_disjoint (by omega)

theorem nodeSize_setPreceding (h : x = y ∨ x + c.sizeofMmAllocnode ≤ y ∨
    y + c.sizeofMmAllocnode ≤ x) : nodeSize c (setPreceding c m x v) y = nodeSize c m y := by
  have hlay := c.layout
  exact load_store_of_disjoint (by omega)

theorem nodePreceding_setPreceding (hv : v < 2 * c.mmAllocBit) :
    nodePreceding c (setPreceding c m x v) x = v :=
  load_store_eq (by rw [c.pow_mmBytes]; exact hv)

theorem nodePreceding_setPreceding_of_ne
    (h : x + c.sizeofMmAllocnode ≤ y ∨ y + c.sizeofMmAllocnode ≤ x) :
    nodePreceding c (setPreceding c m x v) y = nodePreceding c m y := by
  have hlay := c.layout
  exact load_store_of_disjoint (by omega)

theorem nodePreceding_setSize (h : x = y ∨ x + c.sizeofMmAllocnode ≤ y ∨
    y + c.sizeofMmAllocnode ≤ x) : nodePreceding c (setSize c m x v) y = nodePreceding c m y := by
  have hlay := c.layout
  exact load_store_of_disjoint (by omega)

theorem isAllocated_eq (h : nodePreceding c m x = c.tag s u) (hs : s < c.mmAllocBit) :
    isAllocated c m x = u := by
  have hbit : c.mmAllocBit ≠ 0 := (Nat.two_pow_pos _).ne'
  rw [isAllocated, h, HeapConfig.tag_and_mmAllocBit hs]
  cases u <;> simp [hbit]

theorem updatePreceding_eq (h : nodePreceding c m x = c.tag s u) (hs : s < c.mmAllocBit)
    (hs' : s' < c.mmAllocBit) : updatePreceding c m x s' = setPreceding c m x (c.tag s' u) := by
  rw [updatePreceding, h, HeapConfig.tag_and_mmAllocBit hs, HeapConfig.tag]
  cases u with
  | false => simp
  | true => simp [HeapConfig.or_mmAllocBit hs']

theorem tag_lt_two_mul (hs : s < c.mmAllocBit) : c.tag s u < 2 * c.mmAllocBit :=
  c.pow_mmBytes ▸ HeapConfig.tag_lt hs

end Fields

def Header (c : HeapConfig) (m : Mem) (k k' : Chunk) : Prop :=
  nodeSize c m k'.addr = k'.size ∧ nodePreceding c m k'.addr = c.tag k.size k'.used

def Follows (c : HeapConfig) (m : Mem) (k k' : Chunk) : Prop := k.Meets k' ∧ Header c m k k'

variable {m : Mem} {p n : Chunk} {a x : Nat} {h : Heap} {cs : List Chunk}

theorem isChain_follows_one {s : Nat} {u : Bool} :
    (p :: ([⟨a, s, u⟩] ++ [q])).IsChain (Follows c m) ↔
      (a = p.addr + p.size ∧ nodeSize c m a = s ∧ nodePreceding c m a = c.tag p.size u) ∧
        q.addr = a + s ∧ nodeSize c m q.addr = q.size ∧
          nodePreceding c m q.addr = c.tag s q.used := by
  simp [isChain_cons_cons, Follows, Header, Chunk.Meets]

theorem isChain_follows_two {b s t : Nat} {u v : Bool} :
    (p :: ([⟨a, s, u⟩, ⟨b, t, v⟩] ++ [q])).IsChain (Follows c m) ↔
      (a = p.addr + p.size ∧ nodeSize c m a = s ∧ nodePreceding c m a = c.tag p.size u) ∧
        (b = a + s ∧ nodeSize c m b = t ∧ nodePreceding c m b = c.tag s v) ∧
          q.addr = b + t ∧ nodeSize c m q.addr = q.size ∧
            nodePreceding c m q.addr = c.tag t q.used := by
  simp [isChain_cons_cons, Follows, Header, Chunk.Meets]

structure Region (c : HeapConfig) (h : Heap) : Prop where
  start_pos : 0 < h.mmHeapstart
  start_dvd : c.mmMinChunk ∣ h.mmHeapstart
  start_lt : h.mmHeapstart < h.mmHeapend
  size_lt : h.mmHeapend + c.sizeofMmAllocnode < h.mmHeapstart + c.mmAllocBit
  end_lt : h.mmHeapend + c.sizeofMmAllocnode < c.sizeMod
  nodelist_pos : 0 < h.mmNodelist
  nodelist_le : hookAddr c h.mmNodelist c.mmNnodes ≤ c.sizeMod
  apart : hookAddr c h.mmNodelist c.mmNnodes ≤ h.mmHeapstart ∨
    h.mmHeapend + c.sizeofMmAllocnode ≤ h.mmNodelist

structure HeapInv (c : HeapConfig) (h : Heap) (m : Mem) (cs hid : List Chunk) : Prop where
  region : Region c h
  tiling : Tiling c h.mmHeapstart h.mmHeapend cs
  first : Header c m ⟨0, 0, true⟩ (.guard c h.mmHeapstart)
  headers : cs.IsChain (Follows c m)
  list : ∃ ns, FreeList c h.mmNodelist m ns ∧
    ∀ a s, .chunk a s ∈ ns ↔ ⟨a, s, false⟩ ∈ cs ∧ ⟨a, s, false⟩ ∉ hid

def Chunk.payload (c : HeapConfig) (k : Chunk) : Set Nat :=
  {x | k.addr + c.sizeofMmAllocnode ≤ x ∧ x < k.addr + k.size}

@[simp]
theorem Chunk.mem_payload {k : Chunk} :
    x ∈ k.payload c ↔ k.addr + c.sizeofMmAllocnode ≤ x ∧ x < k.addr + k.size := Iff.rfl

def segBytes (c : HeapConfig) (p n : Chunk) : Set Nat :=
  {x | p.addr + p.size ≤ x ∧ x < n.addr + c.sizeofMmAllocnode}

@[simp]
theorem mem_segBytes :
    x ∈ segBytes c p n ↔ p.addr + p.size ≤ x ∧ x < n.addr + c.sizeofMmAllocnode := Iff.rfl

theorem setSize_changesOnly {m' : Mem} {v : Nat}
    (h : ChangesOnly (segBytes c p n) m m') (hlow : p.addr + p.size ≤ x) (hhigh : x ≤ n.addr) :
    ChangesOnly (segBytes c p n) m (setSize c m' x v) := by
  have hlay := c.layout
  refine h.store v fun z hz => ?_
  simp only [mem_span, mem_segBytes] at hz ⊢
  omega

theorem setPreceding_changesOnly {m' : Mem} {v : Nat}
    (h : ChangesOnly (segBytes c p n) m m') (hlow : p.addr + p.size ≤ x) (hhigh : x ≤ n.addr) :
    ChangesOnly (segBytes c p n) m (setPreceding c m' x v) := by
  have hlay := c.layout
  refine h.store v fun z hz => ?_
  simp only [mem_span, mem_segBytes] at hz ⊢
  omega

def ownBytes (c : HeapConfig) (h : Heap) (ks : List Chunk) : Set Nat :=
  {x | (h.mmHeapstart ≤ x ∧ x < h.mmHeapend + c.sizeofMmAllocnode ∨
      h.mmNodelist ≤ x ∧ x < hookAddr c h.mmNodelist c.mmNnodes) ∧
    ∀ k ∈ ks, k.used = true → x ∉ k.payload c}

theorem ownBytes_anti {ks ks' : List Chunk}
    (hsub : ∀ k ∈ ks, k.used = true → k ∈ ks') : ownBytes c h ks' ⊆ ownBytes c h ks :=
  fun _ hx => ⟨hx.1, fun k hk hused => hx.2 k (hsub k hk hused) hused⟩

theorem ownBytes_around {pre post : List Chunk} (seg : List Chunk) :
    ownBytes c h (pre ++ p :: (seg ++ n :: post)) ⊆ ownBytes c h (pre ++ p :: n :: post) :=
  ownBytes_anti fun _ hk _ => mem_of_mem_sides seg hk

def others (a : Nat) (cs : List Chunk) : List Chunk := cs.filter fun k => k.addr != a

@[simp]
theorem mem_others {k : Chunk} : k ∈ others a cs ↔ k ∈ cs ∧ k.addr ≠ a := by
  simp [others]

theorem ownBytes_exchanged {y : Chunk} {cs' : List Chunk} (hex : Exchanged a (some y) cs cs') :
    ownBytes c h (others y.addr cs') ⊆ ownBytes c h (others a cs) := by
  refine ownBytes_anti fun k hk hused => mem_others.mpr ?_
  obtain ⟨hk, hne⟩ := mem_others.mp hk
  exact ⟨(hex.used k hused).mpr (.inl ⟨hk, hne⟩), hex.fresh k hk hused hne y rfl⟩

theorem ownBytes_sides {pre post : List Chunk}
    (seg : List Chunk) (hseg : ∀ k ∈ seg, k.used = true → k.addr = a) :
    ownBytes c h (pre ++ p :: n :: post)
      ⊆ ownBytes c h (others a (pre ++ p :: (seg ++ n :: post))) := by
  refine ownBytes_anti fun k hk hused => ?_
  obtain ⟨hk, hne⟩ := mem_others.mp hk
  simp only [mem_append, mem_cons] at hk ⊢
  tauto

namespace HeapInv

variable {h : Heap} {m m' : Mem} {cs hid hid' pre seg seg' post : List Chunk} {k p n : Chunk}
  {a s : Nat} {u : Bool}

theorem size_lt (hinv : HeapInv c h m cs hid) (hk : ⟨a, s, u⟩ ∈ cs) : s < c.mmAllocBit := by
  have hbounds := hinv.tiling.bounds hk
  have hlt := hinv.region.size_lt
  omega

theorem nodeSize_eq (hinv : HeapInv c h m cs hid) (hk : ⟨a, s, u⟩ ∈ cs) : nodeSize c m a = s := by
  obtain ⟨A, B, rfl⟩ := append_of_mem hk
  rcases eq_nil_or_concat A with rfl | ⟨A, p, rfl⟩
  · have hhead := hinv.tiling.head
    rw [nil_append, List.head?_cons, Option.some.injEq, Chunk.guard, Chunk.mk.injEq] at hhead
    obtain ⟨rfl, rfl, -⟩ := hhead
    exact hinv.first.1
  · have hchain := hinv.headers
    rw [concat_eq_append, append_assoc, singleton_append, isChain_split] at hchain
    exact (isChain_cons_cons.mp hchain.2).1.2.1

theorem preceding_eq (hinv : HeapInv c h m (pre ++ p :: ⟨a, s, u⟩ :: post) hid) :
    nodePreceding c m a = c.tag p.size u :=
  (isChain_cons_cons.mp (isChain_split.mp hinv.headers).2).1.2.2

theorem isAllocated_eq (hinv : HeapInv c h m cs hid) (hk : ⟨a, s, u⟩ ∈ cs) :
    isAllocated c m a = u := by
  obtain ⟨A, B, rfl⟩ := append_of_mem hk
  rcases eq_nil_or_concat A with rfl | ⟨A, p, rfl⟩
  · have hhead := hinv.tiling.head
    rw [nil_append, List.head?_cons, Option.some.injEq, Chunk.guard, Chunk.mk.injEq] at hhead
    obtain ⟨rfl, -, rfl⟩ := hhead
    exact Mm.isAllocated_eq hinv.first.2 (Nat.two_pow_pos _)
  · rw [concat_eq_append, append_assoc, singleton_append] at hinv hk
    have hpmem : p ∈ A ++ p :: ⟨a, s, u⟩ :: B := by simp
    exact Mm.isAllocated_eq hinv.preceding_eq (hinv.size_lt hpmem)

theorem meets (hinv : HeapInv c h m (pre ++ p :: k :: post) hid) : k.addr = p.addr + p.size :=
  (isChain_cons_cons.mp (isChain_split.mp hinv.tiling.meets).2).1

theorem linkBytes_subset (hinv : HeapInv c h m cs hid) {ns : List FreeNode}
    (hhooks : ∀ i, .hook i ∈ ns → i < c.mmNnodes)
    (hchunks : ∀ a s, .chunk a s ∈ ns → ⟨a, s, false⟩ ∈ cs) {x : Nat}
    (hx : x ∈ linkBytes c h.mmNodelist ns) :
    x ∈ ownBytes c h cs ∧ ∀ k ∈ cs, ¬ (k.addr ≤ x ∧ x < k.addr + c.sizeofMmAllocnode) := by
  obtain ⟨node, hnode, hlow, hhigh⟩ := hx
  cases node with
  | hook i =>
    have hi := Nat.mul_le_mul_right c.sizeofMmFreenode (hhooks i hnode)
    have hapart := hinv.region.apart
    simp only [addr_hook, hookAddr] at hlow hhigh hapart
    rw [Nat.succ_mul] at hi
    have hin : h.mmNodelist ≤ x ∧ x < hookAddr c h.mmNodelist c.mmNnodes := by
      unfold hookAddr
      omega
    refine ⟨⟨.inr hin, fun k hk _ hpay => ?_⟩, fun k hk hhead => ?_⟩
    · have hbounds := hinv.tiling.bounds hk
      rw [Chunk.mem_payload] at hpay
      omega
    · have hbounds := hinv.tiling.bounds hk
      omega
  | chunk a s =>
    have hmem := hchunks a s hnode
    have hbounds := hinv.tiling.bounds hmem
    have hok := (hinv.tiling.ok_of_free hmem).1
    simp only [addr_chunk] at hlow hhigh
    refine ⟨⟨.inl ⟨by omega, by omega⟩, fun k hk hused hpay => ?_⟩, fun k hk hhead => ?_⟩
    · have hne : k ≠ ⟨a, s, false⟩ := by
        rintro rfl
        cases hused
      have hdisj := hinv.tiling.disjoint hk hmem hne
      rw [Chunk.mem_payload] at hpay
      omega
    · by_cases heq : k = ⟨a, s, false⟩
      · subst heq
        simp only at hhead
        omega
      · have hdisj := hinv.tiling.disjoint hk hmem heq
        omega

theorem headers_congr (hinv : HeapInv c h m cs hid) {S : Set Nat} (hchg : ChangesOnly S m m')
    (hS : ∀ k ∈ cs, ∀ x ∈ S, ¬ (k.addr ≤ x ∧ x < k.addr + c.sizeofMmAllocnode)) :
    Header c m' ⟨0, 0, true⟩ (.guard c h.mmHeapstart) ∧ cs.IsChain (Follows c m') := by
  have hlay := c.layout
  have hkeep : ∀ k ∈ cs, ∀ q, Header c m q k → Header c m' q k := by
    rintro k hk q ⟨hsize, hprec⟩
    refine ⟨(hchg.load_eq fun x hx hx' hmem => hS k hk x hmem ⟨?_, ?_⟩).trans hsize,
      (hchg.load_eq fun x hx hx' hmem => hS k hk x hmem ⟨?_, ?_⟩).trans hprec⟩ <;> omega
  have hguard : Chunk.guard c h.mmHeapstart ∈ cs := mem_of_mem_head? hinv.tiling.head
  refine ⟨hkeep _ hguard _ hinv.first, ?_⟩
  exact hinv.headers.imp_of_mem_imp fun q k _ hk hqk => ⟨hqk.1, hkeep k hk q hqk.2⟩

theorem unlink (hinv : HeapInv c h m cs hid) (hk : ⟨a, s, false⟩ ∈ cs)
    (hnot : ⟨a, s, false⟩ ∉ hid) :
    (nodeBlink c m a != 0) = true ∧ HeapInv c h (unlinkNode c m a) cs (⟨a, s, false⟩ :: hid) ∧
      ChangesOnly (ownBytes c h cs) m (unlinkNode c m a) := by
  obtain ⟨ns, hlist, hlisted⟩ := hinv.list
  have hmem : .chunk a s ∈ ns := (hlisted a s).mpr ⟨hk, hnot⟩
  obtain ⟨ns', hlist', hmem', hchg⟩ := hlist.unlink hmem
  have hlinks := @linkBytes_subset c h m cs hid hinv ns' (fun i hi => (hlist'.hooks i).mp hi)
    fun a' s' hn => ((hlisted a' s').mp ((hmem' _).mp hn).1).1
  obtain ⟨hfirst, hheaders⟩ := hinv.headers_congr hchg fun k hk x hx => (hlinks hx).2 k hk
  refine ⟨bne_iff_ne.mpr (hlist.blink_ne_zero hmem), ⟨hinv.region, hinv.tiling, hfirst, hheaders, ns', hlist', ?_⟩,
    hchg.mono fun x hx => (hlinks hx).1⟩
  intro a' s'
  rw [hmem', hlisted]
  simp only [ne_eq, chunk.injEq, mem_cons, Chunk.mk.injEq, and_true]
  tauto

theorem list_chunk (hinv : HeapInv c h m cs (⟨a, s, false⟩ :: hid)) (hk : ⟨a, s, false⟩ ∈ cs)
    (hnot : ⟨a, s, false⟩ ∉ hid) :
    ∃ m', mmAddfreechunk c h m a = .ok m' ∧ HeapInv c h m' cs hid ∧
      ChangesOnly (ownBytes c h cs) m m' := by
  obtain ⟨ns, hlist, hlisted⟩ := hinv.list
  have hbounds := hinv.tiling.bounds hk
  have hok := (hinv.tiling.ok_of_free hk).1
  have hstart := hinv.region.start_pos
  have hend := hinv.region.end_lt
  have hsize : nodeSize c m a = s := hinv.nodeSize_eq hk
  have hapart : ∀ node ∈ ns, node.Apart c h.mmNodelist (.chunk a s) := by
    intro node hnode
    cases node with
    | hook i =>
      have hi := Nat.mul_le_mul_right c.sizeofMmFreenode ((hlist.hooks i).mp hnode)
      have hregion := hinv.region.apart
      rw [Nat.succ_mul] at hi
      simp only [Apart, addr_hook, addr_chunk, hookAddr] at hregion ⊢
      omega
    | chunk a' s' =>
      obtain ⟨hmem', hnot'⟩ := (hlisted a' s').mp hnode
      have hne : (⟨a', s', false⟩ : Chunk) ≠ ⟨a, s, false⟩ := fun heq =>
        hnot' (heq ▸ mem_cons_self)
      have hdisj := hinv.tiling.disjoint hmem' hk hne
      have hok' := (hinv.tiling.ok_of_free hmem').1
      simp only [Apart, addr_chunk]
      omega
  obtain ⟨m', ns', hadd, hlist', hmem', hchg⟩ := hlist.mmAddfreechunk_spec
    hsize hok (hinv.isAllocated_eq hk) hapart (by omega) (by omega)
  have hlisted' : ∀ a' s', .chunk a' s' ∈ ns' ↔ (⟨a', s', false⟩ : Chunk) ∈ cs ∧
      (⟨a', s', false⟩ : Chunk) ∉ hid := by
    intro a' s'
    rw [hmem', hlisted]
    simp only [chunk.injEq, mem_cons, Chunk.mk.injEq, and_true]
    constructor
    · rintro (⟨rfl, rfl⟩ | ⟨hin, hout⟩)
      · exact ⟨hk, hnot⟩
      · exact ⟨hin, fun hmem => hout (.inr hmem)⟩
    · tauto
  have hlinks := @linkBytes_subset c h m cs _ hinv ns' (fun i hi => (hlist'.hooks i).mp hi)
    fun a' s' hn => ((hlisted' a' s').mp hn).1
  obtain ⟨hfirst, hheaders⟩ := hinv.headers_congr hchg fun k hk x hx => (hlinks hx).2 k hk
  exact ⟨m', hadd, ⟨hinv.region, hinv.tiling, hfirst, hheaders, ns', hlist', hlisted'⟩,
    hchg.mono fun x hx => (hlinks hx).1⟩

section Rewrite

variable (seg) (hinv : HeapInv c h m (pre ++ p :: (seg ++ n :: post)) hid)
  (hchg : ChangesOnly (segBytes c p n) m m')

include hinv

theorem window : (p :: (seg ++ [n])).IsChain (Follows c m) := by
  have hright := (isChain_split.mp hinv.headers).2
  exact (isChain_split.mp (cons_append ▸ hright)).1

theorem segBytes_subset : segBytes c p n ⊆ ownBytes c h (pre ++ p :: n :: post) := by
  have hn : n ∈ pre ++ p :: (seg ++ n :: post) := by simp
  have hnge := hinv.tiling.size_ge hn
  intro x hx
  rw [mem_segBytes] at hx
  refine ⟨.inl ?_, fun k hk hused hpay => ?_⟩
  · have hplo := (hinv.tiling.bounds (a := p.addr) (s := p.size) (u := p.used) (by simp)).1
    have hnhi := (hinv.tiling.bounds hn).2
    omega
  rw [Chunk.mem_payload] at hpay
  by_cases hkn : k = n
  · subst hkn
    omega
  · have hout := hinv.tiling.outside (k := k) (by simp at hk ⊢; tauto)
    omega

theorem hook_keep {i x : Nat} (hi : i < c.mmNnodes) (hx : x ∈ segBytes c p n) :
    ¬ (hookAddr c h.mmNodelist i ≤ x ∧ x < hookAddr c h.mmNodelist i + c.sizeofMmFreenode) := by
  have hplo := (hinv.tiling.bounds (a := p.addr) (s := p.size) (u := p.used) (by simp)).1
  have hnhi := (hinv.tiling.bounds (a := n.addr) (s := n.size) (u := n.used) (by simp)).2
  have hnsize := hinv.tiling.size_ge (a := n.addr) (s := n.size) (u := n.used) (by simp)
  have hapart := hinv.region.apart
  have hmul := Nat.mul_le_mul_right c.sizeofMmFreenode hi
  rw [Nat.succ_mul] at hmul
  rw [mem_segBytes] at hx
  unfold hookAddr at hapart ⊢
  omega

include hchg

theorem header_keep (hk : k ∈ pre ++ p :: post) : nodeSize c m' k.addr = nodeSize c m k.addr ∧
    nodePreceding c m' k.addr = nodePreceding c m k.addr := by
  have hlay := c.layout
  have hout := hinv.tiling.outside hk
  have hksize := hinv.tiling.size_ge (a := k.addr) (s := k.size) (u := k.used) (by
    simp at hk ⊢
    tauto)
  have hnsize := hinv.tiling.size_ge (a := n.addr) (s := n.size) (u := n.used) (by simp)
  refine ⟨hchg.load_eq fun x hx hx' hmem => ?_, hchg.load_eq fun x hx hx' hmem => ?_⟩ <;>
  · rw [mem_segBytes] at hmem
    omega

theorem freeList_keep {ns : List FreeNode} (hlist : FreeList c h.mmNodelist m ns)
    (hlisted : ∀ a s, .chunk a s ∈ ns → (⟨a, s, false⟩ : Chunk) ∈ pre ++ p :: n :: post)
    (hnsize : nodeSize c m' n.addr = n.size) : FreeList c h.mmNodelist m' ns := by
  have hlay := c.layout
  have hcases : ∀ a s, .chunk a s ∈ ns →
      (⟨a, s, false⟩ : Chunk) = n ∨ (⟨a, s, false⟩ : Chunk) ∈ pre ++ p :: post := by
    intro a s hnode
    have hmem := hlisted a s hnode
    simp only [mem_append, mem_cons] at hmem ⊢
    tauto
  refine hlist.congr hchg (fun node hnode => ?_) (fun node hnode x hx hmem => ?_)
  · cases node with
    | hook i =>
      refine hchg.load_eq fun x hx hx' hmem =>
        hinv.hook_keep seg ((hlist.hooks i).mp hnode) hmem ?_
      simp only [addr_hook] at hx hx'
      omega
    | chunk a s =>
      rcases hcases a s hnode with heq | hmem
      · subst heq
        exact hnsize.trans (hinv.nodeSize_eq (s := s) (u := false) (by simp)).symm
      · exact (hinv.header_keep seg hchg hmem).1
  · cases node with
    | hook i =>
      refine hinv.hook_keep seg ((hlist.hooks i).mp hnode) hx ?_
      simp only [addr_hook] at hmem
      omega
    | chunk a s =>
      simp only [addr_chunk, mem_segBytes] at hmem hx
      rcases hcases a s hnode with heq | hmem'
      · subst heq
        simp only at hx
        omega
      · have hout := hinv.tiling.outside hmem'
        have hok := hinv.tiling.ok_of_free (a := a) (s := s) (by simp at hmem' ⊢; tauto)
        have hle := hok.1
        simp only at hout hle
        omega

end Rewrite

/-- **Rewriting a segment.** While the free chunks of a segment are off the list, its bytes and the
header of the chunk after it may be written at will, as long as headers of chunks that cover the
same bytes result. -/
theorem rewrite (seg : List Chunk) (hinv : HeapInv c h m (pre ++ p :: (seg ++ n :: post)) hid)
    (m' : Mem) (seg' hid' : List Chunk) (hchg : ChangesOnly (segBytes c p n) m m')
    (hfollows : (p :: (seg' ++ [n])).IsChain (Follows c m')) (hok : ∀ k ∈ seg', ChunkSize c k.size)
    (hhid : ∀ k, k ∈ hid ↔ k ∈ seg ∧ k.used = false)
    (hhid' : ∀ k, k ∈ hid' ↔ k ∈ seg' ∧ k.used = false) :
    HeapInv c h m' (pre ++ p :: (seg' ++ n :: post)) hid' ∧
      ChangesOnly (ownBytes c h (pre ++ p :: n :: post)) m m' := by
  have htiling := hinv.tiling.replace (hfollows.imp fun _ _ hxy => hxy.1) hok
  have hkeep : ∀ k ∈ pre ++ p :: post, ∀ q, Header c m q k → Header c m' q k := by
    rintro k hk q ⟨hsize, hprec⟩
    obtain ⟨hsize', hprec'⟩ := hinv.header_keep seg hchg hk
    exact ⟨hsize'.trans hsize, hprec'.trans hprec⟩
  have hnsize : nodeSize c m' n.addr = n.size := by
    rw [← cons_append, isChain_append] at hfollows
    exact (hfollows.2.2 _ (List.getLast?_eq_some_getLast (cons_ne_nil _ _)) n rfl).2.1
  refine ⟨⟨hinv.region, htiling, ?_, ?_, ?_⟩, ?_⟩
  · refine hkeep _ ?_ _ hinv.first
    have hhead := hinv.tiling.head
    cases pre with
    | nil => simp [show p = _ by simpa using hhead]
    | cons q pre => simp [show q = _ by simpa using hhead]
  · obtain ⟨hleft, hright⟩ := isChain_split.mp hinv.headers
    have hright' := (isChain_split.mp (cons_append ▸ hright)).2
    refine isChain_split.mpr ⟨?_, ?_⟩
    · exact hleft.imp_of_mem_imp fun q k _ hk hqk =>
        ⟨hqk.1, hkeep k (by simp at hk ⊢; tauto) q hqk.2⟩
    rw [← cons_append]
    refine isChain_split.mpr ⟨hfollows, ?_⟩
    exact hright'.imp_of_mem_tail_imp fun q k _ hk hqk =>
      ⟨hqk.1, hkeep k (by simp at hk ⊢; tauto) q hqk.2⟩
  · -- the listed chunks are those of the two sides, before and after
    obtain ⟨ns, hlist, hlisted⟩ := hinv.list
    have hold : ∀ a s, .chunk a s ∈ ns ↔ (⟨a, s, false⟩ : Chunk) ∈ pre ++ p :: n :: post := by
      intro a s
      rw [hlisted, hhid, hinv.tiling.mem_sides_iff]
      simp
    refine ⟨ns, hinv.freeList_keep seg hchg hlist (fun a s => (hold a s).mp) hnsize, fun a s => ?_⟩
    rw [hold, hhid', htiling.mem_sides_iff]
    simp
  · exact hchg.mono (hinv.segBytes_subset seg)

theorem header_mem_ownBytes (hinv : HeapInv c h m cs hid) (hk : ⟨a, s, u⟩ ∈ cs) {x : Nat}
    (hx : a ≤ x ∧ x < a + c.sizeofMmAllocnode) : x ∈ ownBytes c h cs := by
  have hbounds := hinv.tiling.bounds hk
  have hsize := hinv.tiling.size_ge hk
  refine ⟨.inl (by omega), fun k hk' _ hpay => ?_⟩
  rw [Chunk.mem_payload] at hpay
  by_cases heq : (⟨a, s, u⟩ : Chunk) = k
  · subst heq
    simp only at hpay
    omega
  · have hdisj := hinv.tiling.disjoint hk hk' heq
    omega

/-- **Writing elsewhere.** Bytes outside the heap and in the payload of allocated chunks belong to
others: writing them keeps the heap in order. -/
theorem write (hinv : HeapInv c h m cs hid) {S : Set Nat} (hchg : ChangesOnly S m m')
    (hS : ∀ x ∈ S, x ∉ ownBytes c h cs) : HeapInv c h m' cs hid := by
  have hlay := c.layout
  obtain ⟨ns, hlist, hlisted⟩ := hinv.list
  obtain ⟨hfirst, hheaders⟩ := hinv.headers_congr hchg fun k hk x hx hhead =>
    hS x hx (hinv.header_mem_ownBytes hk hhead)
  have hlinks := @linkBytes_subset c h m cs hid hinv ns (fun i hi => (hlist.hooks i).mp hi)
    fun a' s' hn => ((hlisted a' s').mp hn).1
  refine ⟨hinv.region, hinv.tiling, hfirst, hheaders, ns, hlist.congr hchg (fun node hnode => ?_)
    (fun node hnode x hx hmem => hS x hx (hlinks ⟨node, hnode, hmem⟩).1), hlisted⟩
  cases node with
  | hook i =>
    refine hchg.load_eq fun x hx hx' hmem => hS x hmem ⟨.inr ?_, fun k hk _ hpay => ?_⟩
    · have hi := Nat.mul_le_mul_right c.sizeofMmFreenode ((hlist.hooks i).mp hnode)
      rw [Nat.succ_mul] at hi
      simp only [addr_hook, hookAddr] at hx hx' ⊢
      omega
    · have hi := Nat.mul_le_mul_right c.sizeofMmFreenode ((hlist.hooks i).mp hnode)
      have hbounds := hinv.tiling.bounds hk
      have hapart := hinv.region.apart
      rw [Nat.succ_mul] at hi
      rw [Chunk.mem_payload] at hpay
      simp only [addr_hook, hookAddr] at hx hx' hapart
      omega
  | chunk a s =>
    refine hchg.load_eq fun x hx hx' hmem => hS x hmem
      (hinv.header_mem_ownBytes ((hlisted a s).mp hnode).1 ?_)
    simp only [addr_chunk] at hx hx'
    omega

/-- **Splitting.** The headers that `mm_malloc` and `mm_shrinkchunk` write when they leave a free
chunk of size `t` behind the first `n` bytes of a segment. -/
theorem split (seg : List Chunk) {t b : Nat} {n : Nat}
    (hinv : HeapInv c h m (pre ++ p :: (seg ++ q :: post)) hid) (hid' : List Chunk)
    (hstart : a = p.addr + p.size) (hprec : nodePreceding c m a = c.tag p.size u)
    (hb : q.addr = b) (hstop : b = a + n + t) (hokn : ChunkSize c n)
    (hokt : ChunkSize c t) (hhid : ∀ k, k ∈ hid ↔ k ∈ seg ∧ k.used = false)
    (hhid' : ∀ k, k ∈ hid' ↔ k = ⟨a + n, t, false⟩ ∨ k = ⟨a, n, u⟩ ∧ u = false) :
    HeapInv c h (setPreceding c (setSize c (setPreceding c (setSize c m (a + n) t) (a + n) n) a n)
        b (c.tag t q.used)) (pre ++ p :: ⟨a, n, u⟩ :: ⟨a + n, t, false⟩ :: q :: post) hid' ∧
      ChangesOnly (ownBytes c h (pre ++ p :: q :: post)) m (setPreceding c (setSize c (setPreceding c
        (setSize c m (a + n) t) (a + n) n) a n) b (c.tag t q.used)) := by
  have hlay := c.layout
  subst hb
  have hngea : c.sizeofMmFreenode ≤ n := hokn.1
  have htgea : c.sizeofMmFreenode ≤ t := hokt.1
  have hplow := (hinv.tiling.bounds (a := p.addr) (s := p.size) (u := p.used) (by simp)).1
  have hqhigh := (hinv.tiling.bounds (a := q.addr) (s := q.size) (u := q.used) (by simp)).2
  have hqsize := hinv.nodeSize_eq (a := q.addr) (s := q.size) (u := q.used) (by simp)
  have hregion := hinv.region.size_lt
  have htag := tag_lt_two_mul (c := c) (s := t) (u := q.used) (by omega)
  refine hinv.rewrite seg _ [⟨a, n, u⟩, ⟨a + n, t, false⟩] hid' ?_ ?_ ?_ hhid ?_
  · refine setPreceding_changesOnly (setSize_changesOnly (setPreceding_changesOnly
      (setSize_changesOnly (.refl _ _) ?_ ?_) ?_ ?_) ?_ ?_) ?_ ?_ <;> omega
  · rw [isChain_follows_two]
    simp (disch := omega) only [nodeSize_setSize, nodeSize_setSize_of_ne, nodeSize_setPreceding,
      nodePreceding_setPreceding, nodePreceding_setPreceding_of_ne, nodePreceding_setSize, hprec,
      hqsize, HeapConfig.tag_false, and_true, true_and]
    omega
  · simp only [mem_cons, not_mem_nil, or_false, forall_eq_or_imp, forall_eq]
    exact ⟨hokn, hokt⟩
  · intro k
    rw [hhid']
    grind

theorem merge {b t : Nat}
    (hinv : HeapInv c h m (pre ++ p :: ⟨a, s, u⟩ :: ⟨b, t, false⟩ :: q :: post) hid)
    (hok : ChunkSize c s) (hid' : List Chunk)
    (hhid : ∀ k, k ∈ hid ↔ k = ⟨b, t, false⟩ ∨ k = ⟨a, s, u⟩ ∧ u = false)
    (hhid' : ∀ k, k ∈ hid' ↔ k = ⟨a, s + t, u⟩ ∧ u = false) :
    HeapInv c h (updatePreceding c (setSize c m a (s + t)) (b + t) (s + t))
        (pre ++ p :: ⟨a, s + t, u⟩ :: q :: post) hid' ∧
      nodeSize c (setSize c m a (s + t)) a = s + t ∧
      ChangesOnly (ownBytes c h (pre ++ p :: q :: post)) m
        (updatePreceding c (setSize c m a (s + t)) (b + t) (s + t)) := by
  have hlay := c.layout
  have htmem : (⟨b, t, false⟩ : Chunk) ∈ pre ++ p :: ⟨a, s, u⟩ :: ⟨b, t, false⟩ :: q :: post := by
    simp
  obtain ⟨⟨hmeets, hsize, hprec⟩, ⟨rfl, -, -⟩, hqaddr, hqsize, hqprec⟩ :=
    isChain_follows_two.mp (hinv.window [⟨a, s, u⟩, ⟨b, t, false⟩])
  have hlow := (hinv.tiling.bounds (a := a) (s := s) (u := u) (by simp)).1
  have hhigh := (hinv.tiling.bounds htmem).2
  have hregion := hinv.region.size_lt
  obtain ⟨hsge, hsdvd⟩ := hok
  obtain ⟨htge, htdvd⟩ := hinv.tiling.ok_of_free htmem
  have htag := tag_lt_two_mul (c := c) (s := s + t) (u := q.used) (by omega)
  rw [hqaddr] at hqsize hqprec
  rw [updatePreceding_eq (s := t) (u := q.used) (by
    simp (disch := omega) only [nodePreceding_setSize, hqprec]) (by omega) (by omega)]
  refine and_left_comm.mp ⟨nodeSize_setSize (by omega), ?_⟩
  refine hinv.rewrite [⟨a, s, u⟩, ⟨a + s, t, false⟩] _ [⟨a, s + t, u⟩] hid' ?_ ?_ ?_ ?_ ?_
  · refine setPreceding_changesOnly (setSize_changesOnly (.refl _ _) ?_ ?_) ?_ ?_ <;> omega
  · rw [isChain_follows_one, hqaddr]
    simp (disch := omega) only [nodeSize_setSize, nodeSize_setSize_of_ne, nodeSize_setPreceding,
      nodePreceding_setPreceding, nodePreceding_setPreceding_of_ne, nodePreceding_setSize, hprec,
      hqsize, and_true]
    omega
  · simp only [mem_singleton, forall_eq]
    exact ⟨by omega, Nat.dvd_add hsdvd htdvd⟩
  · intro k
    rw [hhid]
    grind
  · intro k
    rw [hhid']
    grind

/-- **Marking.** The used bit of a chunk is written. -/
theorem mark {x : Nat} (u' : Bool) (hinv : HeapInv c h m (pre ++ p :: ⟨a, s, u⟩ :: q :: post) hid)
    (hok : ChunkSize c s) (hid' : List Chunk) (hhid : ∀ k, k ∈ hid ↔ k ∈ [⟨a, s, u⟩] ∧ k.used = false)
    (hhid' : ∀ k, k ∈ hid' ↔ k ∈ [⟨a, s, u'⟩] ∧ k.used = false)
    (hx : p.size < c.mmAllocBit → nodePreceding c m a = c.tag p.size u → x = c.tag p.size u') :
    HeapInv c h (setPreceding c m a x) (pre ++ p :: ⟨a, s, u'⟩ :: q :: post) hid' ∧
      ChangesOnly (ownBytes c h (pre ++ p :: q :: post)) m (setPreceding c m a x) := by
  have hlay := c.layout
  have hge : c.sizeofMmFreenode ≤ s := hok.1
  have hps : p.size < c.mmAllocBit := hinv.size_lt (mem_append_right pre mem_cons_self)
  have htag := tag_lt_two_mul (c := c) (s := p.size) (u := u') hps
  obtain ⟨⟨hmeets, hsize, hprec⟩, hqaddr, hqsize, hqprec⟩ :=
    isChain_follows_one.mp (hinv.window [⟨a, s, u⟩])
  rw [hqaddr] at hqsize hqprec
  rw [hx hps hprec]
  refine hinv.rewrite [⟨a, s, u⟩] _ [⟨a, s, u'⟩] hid' ?_ ?_ (by simpa using hok) hhid hhid'
  · exact setPreceding_changesOnly (.refl _ _) (by omega) (by omega)
  rw [isChain_follows_one, hqaddr]
  simp (disch := omega) only [nodeSize_setPreceding, nodePreceding_setPreceding,
    nodePreceding_setPreceding_of_ne, hsize, hqsize, hqprec, and_true]
  exact hmeets

theorem with_mem (hinv : HeapInv c h m cs hid) (mem : Mem) (delaylist : Nat) :
    HeapInv c { h with mem := mem, mmDelaylist := delaylist } m cs hid :=
  ⟨⟨hinv.region.start_pos, hinv.region.start_dvd, hinv.region.start_lt, hinv.region.size_lt,
    hinv.region.end_lt, hinv.region.nodelist_pos, hinv.region.nodelist_le, hinv.region.apart⟩,
    hinv.tiling, hinv.first, hinv.headers, hinv.list⟩

end HeapInv

def Rep (c : HeapConfig) (h : Heap) (cs : List Chunk) : Prop := HeapInv c h h.mem cs []

theorem HeapInv.rep (hinv : HeapInv c h m cs []) :
    Rep c { h with mem := m } cs := hinv.with_mem m h.mmDelaylist

end Nuttx.Mm

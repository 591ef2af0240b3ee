import Nuttx.Mm.Heap.Proof.Tiling

/-!
# What an operation does to the chunks

The abstract side of the heap: each operation as a relation between the chunks before and after it.
-/

open List

namespace Nuttx.Mm

def carved (c : HeapConfig) (s n : Nat) : Nat := if c.sizeofMmFreenode ≤ s - n then n else s

def leftover (c : HeapConfig) (a s n : Nat) : List Chunk :=
  if c.sizeofMmFreenode ≤ s - n then [⟨a + n, s - n, false⟩] else []

def Allocated (c : HeapConfig) (n a : Nat) (cs cs' : List Chunk) : Prop :=
  ∃ pre s post, cs = pre ++ ⟨a, s, false⟩ :: post ∧ n ≤ s ∧
    (∀ k ∈ cs, k.used = false → n ≤ k.size → s ≤ k.size) ∧
    cs' = pre ++ ⟨a, carved c s n, true⟩ :: (leftover c a s n ++ post)

def total (ks : List Chunk) : Nat := (ks.map Chunk.size).sum

/-- What a merge takes from one side: nothing when the neighbour there is allocated, else one free
chunk. -/
def Absorbs (ks : List Chunk) (neighbour : Option Chunk) : Prop :=
  ks = [] ∧ (∀ k ∈ neighbour, k.used = true) ∨ ∃ b t, ks = [⟨b, t, false⟩]

def Released (a : Nat) (cs cs' : List Chunk) : Prop :=
  ∃ pre L s R post, cs = pre ++ (L ++ ⟨a, s, true⟩ :: (R ++ post)) ∧ Absorbs L pre.getLast? ∧
    Absorbs R post.head? ∧ cs' = pre ++ ⟨a - total L, total L + s + total R, false⟩ :: post

/-- The allocated chunk at `a` has been cut down to `n` bytes: what it gives up joins the free chunk
after it, or becomes a free chunk when it is large enough. -/
def Shrunk (c : HeapConfig) (n a : Nat) (cs cs' : List Chunk) : Prop :=
  ∃ pre s post, cs = pre ++ ⟨a, s, true⟩ :: post ∧ n ≤ s ∧
    ((∃ b t post', post = ⟨b, t, false⟩ :: post' ∧
        cs' = pre ++ ⟨a, n, true⟩ :: ⟨a + n, s + t - n, false⟩ :: post') ∨
      (∀ k ∈ post.head?, k.used = true) ∧
        cs' = pre ++ ⟨a, carved c s n, true⟩ :: (leftover c a s n ++ post))

def remnant (a s : Nat) : List Chunk := if s = 0 then [] else [⟨a, s, false⟩]

def GrownUp (d a : Nat) (cs cs' : List Chunk) : Prop :=
  ∃ pre s t post, cs = pre ++ ⟨a, s, true⟩ :: ⟨a + s, t, false⟩ :: post ∧ d ≤ t ∧
    cs' = pre ++ ⟨a, s + d, true⟩ :: (remnant (a + s + d) (t - d) ++ post)

def GrownDown (d a : Nat) (cs cs' : List Chunk) : Prop :=
  ∃ pre b s t post, cs = pre ++ ⟨b, t, false⟩ :: ⟨a, s, true⟩ :: post ∧ d ≤ t ∧
    cs' = pre ++ (remnant b (t - d) ++ ⟨a - d, s + d, true⟩ :: post)

def Trimmed (d a : Nat) (cs cs' : List Chunk) : Prop :=
  ∃ pre s post, cs = pre ++ ⟨a, s, true⟩ :: post ∧
    cs' = pre ++ ⟨a, d, false⟩ :: ⟨a + d, s - d, true⟩ :: post

variable {c : HeapConfig} {lo hi a d n : Nat} {cs cs' cs'' pre seg seg' post : List Chunk} {k : Chunk}
  {x : Option Chunk} {s : Nat}

/-- The allocated chunk at `a`, if there is one, has been exchanged for `x`, if that is one, and all
other allocated chunks are as they were. -/
structure Exchanged (a : Nat) (x : Option Chunk) (cs cs' : List Chunk) : Prop where
  used : ∀ k, k.used = true → (k ∈ cs' ↔ k ∈ cs ∧ k.addr ≠ a ∨ some k = x)
  fresh : ∀ k ∈ cs, k.used = true → k.addr ≠ a → ∀ y, x = some y → k.addr ≠ y.addr

theorem exchanged_of_replace (seg seg' : List Chunk) (h : Tiling c lo hi (pre ++ (seg ++ post)))
    (h' : Tiling c lo hi (pre ++ (seg' ++ post))) (hseg : ∀ k ∈ seg, k.used = true → k.addr = a)
    (ha : ∃ k ∈ seg, k.addr = a) (hseg' : ∀ k, k.used = true → (k ∈ seg' ↔ some k = x))
    (hx : ∀ y, x = some y → y.used = true) :
    Exchanged a x (pre ++ (seg ++ post)) (pre ++ (seg' ++ post)) := by
  have hsides : ∀ k, k ∈ pre ∨ k ∈ post → k ∉ seg ∧ k ∉ seg' := by
    intro k hk
    have hdup := h.nodup
    have hdup' := h'.nodup
    simp only [nodup_append, mem_append] at hdup hdup'
    constructor <;> intro hmem <;> rcases hk with hk | hk
    · exact hdup.2.2 k hk k (.inl hmem) rfl
    · exact hdup.2.1.2.2 k hmem k hk rfl
    · exact hdup'.2.2 k hk k (.inl hmem) rfl
    · exact hdup'.2.1.2.2 k hmem k hk rfl
  have hne : ∀ k, k ∈ pre ∨ k ∈ post → k.addr ≠ a := by
    rintro k hk rfl
    obtain ⟨y, hy, heq⟩ := ha
    have hky := h.eq_of_addr_eq (k := y) (j := k) (by simp [hy]) (by simp; tauto) heq
    exact (hsides k hk).1 (hky ▸ hy)
  constructor
  · intro k hused
    simp only [mem_append, ← hseg' k hused]
    constructor
    · rintro (hk | hk | hk)
      · exact .inl ⟨.inl hk, hne k (.inl hk)⟩
      · exact .inr hk
      · exact .inl ⟨.inr (.inr hk), hne k (.inr hk)⟩
    · rintro (⟨hk | hk | hk, hka⟩ | hk)
      · exact .inl hk
      · exact absurd (hseg k hk hused) hka
      · exact .inr (.inr hk)
      · exact .inr (.inl hk)
  · rintro k hk hused hka y rfl heq
    have hy : y ∈ seg' := (hseg' y (hx y rfl)).mpr rfl
    have hk' : k ∈ pre ∨ k ∈ post := by
      simp only [mem_append] at hk
      rcases hk with hk | hk | hk
      · exact .inl hk
      · exact absurd (hseg k hk hused) hka
      · exact .inr hk
    have hky := h'.eq_of_addr_eq (k := k) (j := y) (by simp; tauto) (by simp [hy]) heq
    exact (hsides k hk').2 (hky ▸ hy)

variable {s : Nat}

theorem le_carved (hle : n ≤ s) : n ≤ carved c s n := by
  unfold carved
  split <;> omega

theorem leftover_free (hk : k ∈ leftover c a s n) : k.used = false := by
  unfold leftover at hk
  split at hk
  · rw [mem_singleton.mp hk]
  · cases hk

theorem remnant_free (hk : k ∈ remnant a s) : k.used = false := by
  unfold remnant at hk
  split at hk
  · cases hk
  · rw [mem_singleton.mp hk]

section

variable (h : Tiling c lo hi cs) (h' : Tiling c lo hi cs')

include h h'

theorem Allocated.exchanged (hstep : Allocated c n a cs cs') :
    ∃ s, n ≤ s ∧ Exchanged a (some ⟨a, s, true⟩) cs cs' := by
  obtain ⟨pre, s, post, rfl, hle, -, rfl⟩ := hstep
  refine ⟨carved c s n, le_carved hle, ?_⟩
  refine exchanged_of_replace [_] (_ :: leftover c a s n) h h' (by simp) (by simp)
    (fun k hused => ?_) (by simp)
  have hfree : k ∉ leftover c a s n := fun hk => by simp [leftover_free hk] at hused
  simp [hfree]

theorem Released.exchanged (hstep : Released a cs cs') : Exchanged a none cs cs' := by
  obtain ⟨pre, L, s, R, post, rfl, hL, hR, rfl⟩ := hstep
  have hseg : pre ++ (L ++ ⟨a, s, true⟩ :: (R ++ post))
      = pre ++ ((L ++ ⟨a, s, true⟩ :: R) ++ post) := by simp
  rw [hseg] at h ⊢
  have hfree : ∀ (ks : List Chunk) (o : Option Chunk), Absorbs ks o → ∀ k ∈ ks, k.used = false := by
    rintro ks o (⟨rfl, -⟩ | ⟨b, t, rfl⟩) k hk
    · cases hk
    · rw [mem_singleton.mp hk]
  refine exchanged_of_replace _ [_] h h' (fun k hk hused => ?_)
    ⟨⟨a, s, true⟩, by simp, rfl⟩ (fun k hused => ?_) (by simp)
  · rw [mem_append, mem_cons] at hk
    rcases hk with hk | rfl | hk
    · simp [hfree L _ hL k hk] at hused
    · rfl
    · simp [hfree R _ hR k hk] at hused
  · constructor
    · intro hk
      rw [mem_singleton.mp hk] at hused
      cases hused
    · intro hk
      cases hk

theorem Shrunk.exchanged (hstep : Shrunk c n a cs cs') :
    ∃ s, n ≤ s ∧ Exchanged a (some ⟨a, s, true⟩) cs cs' := by
  obtain ⟨pre, s, post, rfl, hle, ⟨b, t, post, rfl, rfl⟩ | ⟨-, rfl⟩⟩ := hstep
  · refine ⟨n, le_rfl, exchanged_of_replace [_, _] [_, _] h h' (by simp) (by simp)
      (fun k hused => ?_) (by simp)⟩
    simp only [mem_cons, not_mem_nil, or_false, Option.some.injEq]
    refine ⟨fun hk => hk.resolve_right ?_, .inl⟩
    rintro rfl
    cases hused
  · refine ⟨carved c s n, le_carved hle, ?_⟩
    refine exchanged_of_replace [_] (_ :: leftover c a s n) h h' (by simp) (by simp)
      (fun k hused => ?_) (by simp)
    have hfree : k ∉ leftover c a s n := fun hk => by simp [leftover_free hk] at hused
    simp [hfree]

theorem GrownUp.exchanged (hstep : GrownUp d a cs cs') (hmem : ⟨a, s, true⟩ ∈ cs) :
    Exchanged a (some ⟨a, s + d, true⟩) cs cs' := by
  obtain ⟨pre, s', t, post, rfl, hle, rfl⟩ := hstep
  cases h.eq_of_addr_eq hmem (j := ⟨a, s', true⟩) (by simp) rfl
  refine exchanged_of_replace [_, _] (_ :: remnant (a + s + d) (t - d)) h h' (by simp) (by simp)
    (fun k hused => ?_) (by simp)
  have hfree : k ∉ remnant (a + s + d) (t - d) := fun hk => by simp [remnant_free hk] at hused
  simp [hfree]

theorem GrownDown.exchanged (hstep : GrownDown d a cs cs') (hmem : ⟨a, s, true⟩ ∈ cs) :
    Exchanged a (some ⟨a - d, s + d, true⟩) cs cs' := by
  obtain ⟨pre, b, s', t, post, rfl, hle, rfl⟩ := hstep
  cases h.eq_of_addr_eq hmem (j := ⟨a, s', true⟩) (by simp) rfl
  have hseg : pre ++ (remnant b (t - d) ++ ⟨a - d, s + d, true⟩ :: post)
      = pre ++ ((remnant b (t - d) ++ [⟨a - d, s + d, true⟩]) ++ post) := by simp
  rw [hseg] at h' ⊢
  refine exchanged_of_replace [_, _] _ h h' (by simp) (by simp) (fun k hused => ?_) (by simp)
  have hfree : k ∉ remnant b (t - d) := fun hk => by simp [remnant_free hk] at hused
  simp [hfree]

theorem Trimmed.exchanged (hstep : Trimmed d a cs cs') (hmem : ⟨a, s, true⟩ ∈ cs) :
    Exchanged a (some ⟨a + d, s - d, true⟩) cs cs' := by
  obtain ⟨pre, s', post, rfl, rfl⟩ := hstep
  cases h.eq_of_addr_eq hmem (j := ⟨a, s', true⟩) (by simp) rfl
  refine exchanged_of_replace [_] [_, _] h h' (by simp) (by simp) (fun k hused => ?_) (by simp)
  simp only [mem_cons, not_mem_nil, or_false, Option.some.injEq]
  refine ⟨fun hk => hk.resolve_left ?_, .inr⟩
  rintro rfl
  cases hused

omit h' in
theorem exchanged_self (hk : k ∈ cs) : Exchanged k.addr (some k) cs cs := by
  refine ⟨fun k' _ => ⟨fun hk' => ?_, ?_⟩, fun k' _ _ hne y hy => ?_⟩
  · by_cases heq : k'.addr = k.addr
    · exact .inr (congrArg some (h.eq_of_addr_eq hk' hk heq))
    · exact .inl ⟨hk', heq⟩
  · rintro (hk' | hk')
    · exact hk'.1
    · exact Option.some.inj hk' ▸ hk
  · exact Option.some.inj hy ▸ hne

end

theorem Exchanged.trans {y : Chunk} (h : Exchanged a (some y) cs cs')
    (h' : Exchanged y.addr x cs' cs'') : Exchanged a x cs cs'' := by
  constructor
  · intro k hused
    rw [h'.used k hused, h.used k hused, Option.some.injEq]
    constructor
    · rintro (⟨hk | rfl, hka⟩ | hk)
      · exact .inl hk
      · exact absurd rfl hka
      · exact .inr hk
    · rintro (hk | hk)
      · exact .inl ⟨.inl hk, h.fresh k hk.1 hused hk.2 y rfl⟩
      · exact .inr hk
  · intro k hk hused hka z hz
    exact h'.fresh k ((h.used k hused).mpr (.inl ⟨hk, hka⟩)) hused
      (h.fresh k hk hused hka y rfl) z hz

def Coalesced (cs : List Chunk) : Prop := cs.IsChain fun k k' => k.used = true ∨ k'.used = true

theorem Coalesced.neighbours (seg : List Chunk) (h : Coalesced (pre ++ (seg ++ post))) :
    (∀ k ∈ seg.head?, k.used = false → ∀ p ∈ pre.getLast?, p.used = true) ∧
      ∀ k ∈ seg.getLast?, k.used = false → ∀ q ∈ post.head?, q.used = true := by
  obtain ⟨-, hright, hleft⟩ := isChain_append.mp h
  obtain ⟨-, -, hmid⟩ := isChain_append.mp hright
  refine ⟨fun k hk hfree p hp => ?_, fun k hk hfree q hq => ?_⟩
  · have hk' : k ∈ (seg ++ post).head? := by
      rw [List.head?_append, hk]
      rfl
    exact (hleft p hp k hk').resolve_right (by simp [hfree])
  · exact (hmid k hk q hq).resolve_left (by simp [hfree])

theorem Coalesced.replace (seg seg' : List Chunk) (h : Coalesced (pre ++ (seg ++ post)))
    (hseg' : Coalesced seg') (hne : seg' ≠ [])
    (hfirst : ∀ k ∈ seg'.head?, k.used = false → ∀ p ∈ pre.getLast?, p.used = true)
    (hlast : ∀ k ∈ seg'.getLast?, k.used = false → ∀ q ∈ post.head?, q.used = true) :
    Coalesced (pre ++ (seg' ++ post)) := by
  obtain ⟨hpre, hright, -⟩ := isChain_append.mp h
  obtain ⟨-, hpost, -⟩ := isChain_append.mp hright
  refine isChain_append.mpr ⟨hpre, isChain_append.mpr ⟨hseg', hpost, ?_⟩, ?_⟩
  · intro k hk q hq
    cases hused : k.used with
    | true => exact .inl rfl
    | false => exact .inr (hlast k hk hused q hq)
  intro p hp k hk
  have hk' : k ∈ seg'.head? := by
    cases seg' with
    | nil => exact absurd rfl hne
    | cons y seg' => simpa using hk
  cases hused : k.used with
  | true => exact .inr rfl
  | false => exact .inl (hfirst k hk' hused p hp)

theorem coalesced_leftover {t : Nat} : Coalesced (⟨a, t, true⟩ :: leftover c a s n) := by
  unfold leftover
  split <;> simp [Coalesced]

theorem Allocated.coalesced (hstep : Allocated c n a cs cs') (h : Coalesced cs) : Coalesced cs' := by
  obtain ⟨pre, s, post, rfl, -, -, rfl⟩ := hstep
  obtain ⟨-, hpost⟩ := h.neighbours [_]
  exact h.replace [_] (_ :: leftover c a s n) coalesced_leftover (by simp) (by simp)
    fun k _ _ => hpost _ rfl rfl

theorem Released.coalesced (hstep : Released a cs cs') (h : Coalesced cs) : Coalesced cs' := by
  obtain ⟨pre, L, s, R, post, rfl, hL, hR, rfl⟩ := hstep
  have hseg : pre ++ (L ++ ⟨a, s, true⟩ :: (R ++ post))
      = pre ++ ((L ++ ⟨a, s, true⟩ :: R) ++ post) := by simp
  rw [hseg] at h
  obtain ⟨hpre, hpost⟩ := h.neighbours _
  refine h.replace _ [_] (by simp [Coalesced]) (by simp) (fun _ _ _ => ?_) (fun _ _ _ => ?_)
  · rcases hL with ⟨-, hused⟩ | ⟨b, t, rfl⟩
    · exact hused
    · exact hpre ⟨b, t, false⟩ rfl rfl
  · rcases hR with ⟨-, hused⟩ | ⟨b, t, rfl⟩
    · exact hused
    · exact hpost ⟨b, t, false⟩ (by simp) rfl

theorem Shrunk.coalesced (hstep : Shrunk c n a cs cs') (h : Coalesced cs) : Coalesced cs' := by
  obtain ⟨pre, s, post, rfl, -, ⟨b, t, post, rfl, rfl⟩ | ⟨hpost, rfl⟩⟩ := hstep
  · obtain ⟨-, hpost⟩ := h.neighbours [_, _]
    exact h.replace [_, _] [_, _] (by simp [Coalesced]) (by simp) (by simp)
      fun k _ _ => hpost _ rfl rfl
  · exact h.replace [_] (_ :: leftover c a s n) coalesced_leftover (by simp) (by simp)
      fun k _ _ => hpost

theorem GrownUp.coalesced (hstep : GrownUp d a cs cs') (h : Coalesced cs) : Coalesced cs' := by
  obtain ⟨pre, s, t, post, rfl, -, rfl⟩ := hstep
  obtain ⟨-, hpost⟩ := h.neighbours [_, _]
  refine h.replace [_, _] (_ :: remnant (a + s + d) (t - d)) ?_ (by simp) (by simp)
    fun k _ _ => hpost _ rfl rfl
  unfold remnant
  split <;> simp [Coalesced]

theorem GrownDown.coalesced (hstep : GrownDown d a cs cs') (h : Coalesced cs) : Coalesced cs' := by
  obtain ⟨pre, b, s, t, post, rfl, -, rfl⟩ := hstep
  obtain ⟨hpre, -⟩ := h.neighbours [_, _]
  have hseg : pre ++ (remnant b (t - d) ++ ⟨a - d, s + d, true⟩ :: post)
      = pre ++ ((remnant b (t - d) ++ [⟨a - d, s + d, true⟩]) ++ post) := by simp
  rw [hseg]
  refine h.replace [_, _] _ ?_ (by simp) (fun k _ _ => hpre _ rfl rfl) (by simp)
  unfold remnant
  split <;> simp [Coalesced]

def PrevUsed (a : Nat) (cs : List Chunk) : Prop :=
  ∀ pre k post, cs = pre ++ k :: post → k.addr = a → ∀ p ∈ pre.getLast?, p.used = true

theorem Allocated.prevUsed (h' : Tiling c lo hi cs') (hstep : Allocated c n a cs cs')
    (h : Coalesced cs) : PrevUsed a cs' := by
  obtain ⟨pre, s, post, rfl, -, -, rfl⟩ := hstep
  rintro pre' k post' heq haddr
  obtain ⟨rfl, -⟩ := h'.split_unique heq haddr.symm
  exact (h.neighbours [_]).1 _ rfl rfl

theorem Trimmed.coalesced (hstep : Trimmed d a cs cs') (h : Coalesced cs) (hprev : PrevUsed a cs) :
    Coalesced cs' := by
  obtain ⟨pre, s, post, rfl, rfl⟩ := hstep
  exact h.replace [_] [_, _] (by simp [Coalesced]) (by simp)
    (fun k _ _ => hprev pre _ post rfl rfl) (by simp)

/-- The allocated chunk at `a`, if there is one, has given way to one at `a'` of at least `n` bytes,
and no two free chunks have come together. -/
structure Resized (n a a' : Nat) (cs cs' : List Chunk) : Prop where
  exchanged : ∃ s, n ≤ s ∧ Exchanged a (some ⟨a', s, true⟩) cs cs'
  coalesced : Coalesced cs → Coalesced cs'

end Nuttx.Mm

import Mathlib.Data.List.Chain
import Mathlib.Data.List.TakeWhile

/-!
# Doubly linked lists

A null-terminated list threaded through forward and backward pointers. The pointers are given as two
functions, so that a memory, a table of records or an array of structures can all stand behind them.
-/

open List

namespace LinkedList

variable {ν ε : Type} {null : ν} {fwd bwd fwd' bwd' : ν → ν} {post : List ν}

/-- `x` points forward to `y`, and `y`, when it is a node, points back. -/
def Link (null : ν) (fwd bwd : ν → ν) (x y : ν) : Prop := fwd x = y ∧ (y ≠ null → bwd y = x)

/-- The nodes of `l` are linked in order and the last one points to `null`. -/
def Threaded (null : ν) (fwd bwd : ν → ν) (l : List ν) : Prop :=
  (l ++ [null]).IsChain (Link null fwd bwd)

theorem isChain_link_congr {l : List ν} (hf : ∀ n ∈ l.dropLast, fwd' n = fwd n)
    (hb : ∀ n ∈ l.tail, n ≠ null → bwd' n = bwd n) (h : l.IsChain (Link null fwd bwd)) :
    l.IsChain (Link null fwd' bwd') := by
  induction l with
  | nil => exact isChain_nil
  | cons x rest ih =>
    cases rest with
    | nil => exact isChain_singleton x
    | cons y rest =>
      rw [isChain_cons_cons] at h ⊢
      refine ⟨⟨?_, fun hy => ?_⟩, ih ?_ ?_ h.2⟩
      · rw [hf x (by simp), h.1.1]
      · rw [hb y (by simp) hy, h.1.2 hy]
      · exact fun n hn => hf n (by rw [dropLast_cons_cons]; exact mem_cons_of_mem _ hn)
      · exact fun n hn => hb n (by simpa using .inr hn)

theorem Threaded.congr {l : List ν} (h : Threaded null fwd bwd l)
    (hf : ∀ n ∈ l, fwd' n = fwd n) (hb : ∀ n ∈ l, bwd' n = bwd n) : Threaded null fwd' bwd' l := by
  refine isChain_link_congr (fun n hn => hf n (by simpa using hn)) (fun n hn hne => hb n ?_) h
  have hmem := mem_of_mem_tail hn
  rw [mem_append, mem_singleton] at hmem
  exact hmem.resolve_right hne

variable {pre : List ν} {x : ν}

theorem Threaded.fwd_eq (h : Threaded null fwd bwd (pre ++ x :: post)) :
    fwd x = post.headD null := by
  unfold Threaded at h
  rw [append_assoc, cons_append, isChain_split] at h
  cases post with
  | nil | cons y post => exact (isChain_cons_cons.mp h.2).1.1

theorem Threaded.bwd_eq {y : ν}
    (h : Threaded null fwd bwd (pre ++ x :: y :: post)) (hy : y ≠ null) : bwd y = x := by
  unfold Threaded at h
  rw [append_assoc, cons_append, isChain_split] at h
  exact (isChain_cons_cons.mp h.2).1.2 hy

theorem ne_headD_of_mem {n : ν} (hnodup : (pre ++ x :: post).Nodup)
    (hnull : null ∉ pre ++ x :: post) (hn : n ∈ pre ++ x :: post.tail) : n ≠ post.headD null := by
  cases post with
  | nil =>
    rintro rfl
    exact hnull hn
  | cons z post =>
    intro heq
    rw [headD_cons] at heq
    subst heq
    rw [show pre ++ x :: n :: post = (pre ++ [x]) ++ n :: post by simp] at hnodup
    have hcons := (List.Perm.nodup_iff perm_middle).mp hnodup
    exact (nodup_cons.mp hcons).1 (by simpa using hn)

theorem ne_of_mem_around {n : ν} (hnodup : (pre ++ x :: post).Nodup)
    (hn : n ∈ pre ++ post) : n ≠ x := by
  rintro rfl
  exact (nodup_cons.mp ((List.Perm.nodup_iff perm_middle).mp hnodup)).1 hn

private theorem threaded_of_sides {post mid : List ν}
    (hleft : (pre ++ [x]).IsChain (Link null fwd bwd))
    (hright : (post ++ [null]).IsChain (Link null fwd bwd))
    (hnodup : (pre ++ x :: post).Nodup) (hnull : null ∉ pre ++ x :: post)
    (hf : ∀ n ∈ pre ++ x :: post, n ≠ x → fwd' n = fwd n)
    (hb : ∀ n ∈ pre ++ x :: post, n ≠ post.headD null → bwd' n = bwd n)
    (hmid : (x :: mid ++ [post.headD null]).IsChain (Link null fwd' bwd')) :
    Threaded null fwd' bwd' (pre ++ x :: mid ++ post) := by
  have hleft' : (pre ++ [x]).IsChain (Link null fwd' bwd') := by
    refine isChain_link_congr (fun n hn => ?_) (fun n hn _ => ?_) hleft
    · rw [dropLast_concat] at hn
      exact hf n (by simp [hn]) (ne_of_mem_around hnodup (by simp [hn]))
    · have hmem := mem_of_mem_tail hn
      rw [mem_append, mem_singleton] at hmem
      exact hb n (by simp; tauto) (ne_headD_of_mem hnodup hnull (by simp; tauto))
  have hright' : (post ++ [null]).IsChain (Link null fwd' bwd') := by
    refine isChain_link_congr (fun n hn => ?_) (fun n hn hne => ?_) hright
    · rw [dropLast_concat] at hn
      exact hf n (by simp [hn]) (ne_of_mem_around hnodup (by simp [hn]))
    have hmem : n ∈ post.tail := by
      cases post with
      | nil => simp at hn
      | cons z post => simpa [hne] using hn
    exact hb n (by simp [mem_of_mem_tail hmem])
      (ne_headD_of_mem hnodup hnull (by simp [hmem]))
  unfold Threaded
  rw [show pre ++ x :: mid ++ post ++ [null] = pre ++ x :: (mid ++ (post ++ [null])) by simp,
    isChain_split]
  refine ⟨hleft', ?_⟩
  cases post with
  | nil => simpa using hmid
  | cons z post =>
    rw [show x :: (mid ++ (z :: post ++ [null])) = (x :: mid) ++ z :: (post ++ [null]) by simp,
      isChain_split]
    exact ⟨hmid, hright'⟩

/-- **Unlinking.** Taking `y` from between `x` and its successor needs the forward pointer of `x`
and the backward pointer of the successor, and nothing else to change. -/
theorem Threaded.unlink {y : ν}
    (h : Threaded null fwd bwd (pre ++ x :: y :: post)) (hnodup : (pre ++ x :: y :: post).Nodup)
    (hnull : null ∉ pre ++ x :: y :: post)
    (hx : fwd' x = fwd y) (hz : fwd y ≠ null → bwd' (fwd y) = x)
    (hf : ∀ n ∈ pre ++ x :: post, n ≠ x → fwd' n = fwd n)
    (hb : ∀ n ∈ pre ++ x :: post, n ≠ fwd y → bwd' n = bwd n) :
    Threaded null fwd' bwd' (pre ++ x :: post) := by
  have hsplit : Threaded null fwd bwd ((pre ++ [x]) ++ y :: post) := by simpa using h
  rw [hsplit.fwd_eq] at hx hz hb
  unfold Threaded at h
  rw [append_assoc, cons_append, isChain_split] at h
  have hsub : (pre ++ x :: post).Sublist (pre ++ x :: y :: post) :=
    (sublist_append_right [y] post).cons_cons x |>.append_left pre
  have hmid : (x :: [] ++ [post.headD null]).IsChain (Link null fwd' bwd') :=
    isChain_pair.mpr ⟨hx, hz⟩
  simpa using threaded_of_sides h.1 h.2.tail.tail (hnodup.sublist hsub)
    (fun hmem => hnull (hsub.subset hmem)) hf hb hmid

theorem Threaded.insert {y : ν} (h : Threaded null fwd bwd (pre ++ x :: post))
    (hnodup : (pre ++ x :: post).Nodup) (hnull : null ∉ pre ++ x :: post)
    (hxy : fwd' x = y) (hyx : bwd' y = x) (hyz : fwd' y = fwd x)
    (hzy : fwd x ≠ null → bwd' (fwd x) = y) (hf : ∀ n ∈ pre ++ x :: post, n ≠ x → fwd' n = fwd n)
    (hb : ∀ n ∈ pre ++ x :: post, n ≠ fwd x → bwd' n = bwd n) :
    Threaded null fwd' bwd' (pre ++ x :: y :: post) := by
  rw [h.fwd_eq] at hyz hzy hb
  unfold Threaded at h
  rw [append_assoc, cons_append, isChain_split] at h
  have hmid : (x :: [y] ++ [post.headD null]).IsChain (Link null fwd' bwd') :=
    isChain_cons_cons.mpr ⟨⟨hxy, fun _ => hyx⟩, isChain_pair.mpr ⟨hyz, hzy⟩⟩
  simpa using threaded_of_sides h.1 h.2.tail hnodup hnull hf hb hmid

/-- Follow the forward pointers from `cur` while `go` holds, running `body` at every node passed.
Returns the last node passed (`prev` when there is none) and the node stopped at. A walk longer
than `fuel` ends in `oops`. -/
def seek [DecidableEq ν] (oops : ε) (null : ν) (fwd : ν → ν) (go : ν → Bool)
    (body : ν → Except ε Unit) : Nat → ν → ν → Except ε (ν × ν)
  | 0, _, _ => .error oops
  | fuel + 1, prev, cur =>
    if cur ≠ null ∧ go cur = true then do
      body cur
      seek oops null fwd go body fuel cur (fwd cur)
    else
      .ok (prev, cur)

theorem seek_stop [DecidableEq ν] {oops : ε} {go : ν → Bool} {body : ν → Except ε Unit} {fuel : Nat}
    {prev cur : ν} (hfuel : 0 < fuel) (hgo : go cur = false) :
    seek oops null fwd go body fuel prev cur = .ok (prev, cur) := by
  obtain ⟨fuel, rfl⟩ : ∃ k, fuel = k + 1 := ⟨fuel - 1, by omega⟩
  simp [seek, hgo]

theorem seek_threaded [DecidableEq ν] {α : Type} {addr : α → ν} {oops : ε} {go : ν → Bool}
    {keep : α → Bool} {body : ν → Except ε Unit} {pre rest : List α} {x : α} {fuel : Nat}
    (h : Threaded null fwd bwd ((pre ++ x :: rest).map addr))
    (hnull : ∀ n ∈ rest, addr n ≠ null) (hgo : ∀ n ∈ rest, go (addr n) = keep n)
    (hbody : ∀ n ∈ rest, body (addr n) = .ok ()) (hfuel : rest.length < fuel) :
    seek oops null fwd go body fuel (addr x) (fwd (addr x))
      = .ok (addr ((rest.takeWhile keep).getLastD x), ((rest.dropWhile keep).map addr).headD null) := by
  induction rest generalizing pre x fuel with
  | nil =>
    obtain ⟨fuel, rfl⟩ : ∃ k, fuel = k + 1 := ⟨fuel - 1, by simp at hfuel; omega⟩
    rw [map_append, map_cons] at h
    have hx : fwd (addr x) = null := h.fwd_eq
    simp [seek, hx]
  | cons y rest ih =>
    obtain ⟨fuel, rfl⟩ : ∃ k, fuel = k + 1 := ⟨fuel - 1, by simp at hfuel; omega⟩
    have hsplit : Threaded null fwd bwd (pre.map addr ++ addr x :: addr y :: rest.map addr) := by
      simpa using h
    have hx : fwd (addr x) = addr y := hsplit.fwd_eq
    have hy := hnull y (by simp)
    rw [seek, hx, hgo y (by simp)]
    by_cases hkeep : keep y = true
    · have hnext := @ih (pre ++ [x]) y fuel (by simpa using h)
        (fun n hn => hnull n (mem_cons_of_mem _ hn))
        (fun n hn => hgo n (mem_cons_of_mem _ hn))
        (fun n hn => hbody n (mem_cons_of_mem _ hn)) (by simpa using hfuel)
      rw [if_pos ⟨hy, hkeep⟩, hbody y (by simp)]
      simp only [bind, Except.bind, hnext, takeWhile_cons_of_pos hkeep,
        dropWhile_cons_of_pos hkeep, getLastD_cons]
    · rw [if_neg (fun hboth => hkeep hboth.2)]
      simp [hkeep]

end LinkedList

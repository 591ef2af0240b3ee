import Nuttx.Drivers.Pipes.Handles

/-!
# When the counts of readers and writers are exact

The last close resets the counts only together with the buffer, so a pipe under policy 1 that still
holds bytes keeps counting the handle.
-/

open List

namespace Nuttx.Pipe

namespace Dev

theorem counts_close (oflags : Oflags) (dev : Dev) :
    ((dev.closeWriter oflags).closeReader oflags).nwriters =
        (if oflags.wrok then dev.nwriters - 1 else dev.nwriters) ∧
      ((dev.closeWriter oflags).closeReader oflags).nreaders =
        (if oflags.rdok then dev.nreaders - 1 else dev.nreaders) := by
  unfold closeReader closeWriter
  constructor
  · split_ifs <;> rfl
  · split_ifs <;> rfl

theorem counts_open (oflags : Oflags) (dev : Dev) :
    ((dev.openWriter oflags).openReader oflags).nwriters =
        (if oflags.wrok then dev.nwriters + 1 else dev.nwriters) ∧
      ((dev.openWriter oflags).openReader oflags).nreaders =
        (if oflags.rdok then dev.nreaders + 1 else dev.nreaders) := by
  unfold openReader openWriter
  constructor
  · split_ifs <;> rfl
  · split_ifs <;> rfl

end Dev

namespace Table

theorem access_some (access : Access) : access.oflags.wrok = true ∨ access.oflags.rdok = true := by
  cases access with
  | rdonly => exact .inr rfl
  | wronly | rdwr => exact .inl rfl

theorem countP_eraseIdx {p : Handle → Bool} {l : List Handle} {i : Nat} {handle : Handle}
    (h : l[i]? = some handle) : l.countP p = (l.eraseIdx i).countP p + if p handle then 1 else 0 := by
  obtain ⟨hi, hget⟩ := List.getElem?_eq_some_iff.mp h
  have hperm := getElem_cons_eraseIdx_perm hi
  rw [← hperm.countP_eq p, countP_cons, hget]

section

variable {s : Table} {i : Nat} {handle : Handle} {n : UInt8} {k : Nat}

theorem writers_close (hi : s.handles[i]? = some handle) (canceled : Bool) :
    s.writers = (s.close i handle canceled).writers + if handle.access.oflags.wrok then 1 else 0 :=
  countP_eraseIdx hi

theorem readers_close (hi : s.handles[i]? = some handle) (canceled : Bool) :
    s.readers = (s.close i handle canceled).readers + if handle.access.oflags.rdok then 1 else 0 :=
  countP_eraseIdx hi

theorem not_exact_of_dev_eq (h : s.Exact) (hi : s.handles[i]? = some handle) {canceled : Bool}
    (hdev : (s.close i handle canceled).dev = s.dev) : ¬ (s.close i handle canceled).Exact := by
  intro hafter
  unfold Exact at h hafter
  rw [hdev, h.1, h.2, writers_close hi canceled, readers_close hi canceled] at hafter
  rcases access_some handle.access with hwrok | hrdok
  · rw [if_pos hwrok] at hafter
    omega
  · rw [if_pos hrdok] at hafter
    omega

theorem toNat_pred (h : n.toNat = k + 1) : (n - 1).toNat = k := by
  have hle : (1 : UInt8) ≤ n := by
    rw [UInt8.le_iff_toNat_le, h]
    exact Nat.succ_le_succ (Nat.zero_le k)
  rw [UInt8.toNat_sub_of_le n 1 hle, h]
  rfl

theorem exact_of_more (h : s.Exact) (hi : s.handles[i]? = some handle) (hmore : 1 < s.handles.length) :
    (s.close i handle false).Exact := by
  have hdev : (s.close i handle false).dev =
      (s.dev.closeWriter handle.access.oflags).closeReader handle.access.oflags := if_pos hmore
  have hwriters := writers_close hi false
  have hreaders := readers_close hi false
  obtain ⟨hnwriters, hnreaders⟩ := h
  rw [hwriters] at hnwriters
  rw [hreaders] at hnreaders
  unfold Exact
  rw [hdev, (s.dev.counts_close _).1, (s.dev.counts_close _).2]
  constructor
  · split_ifs at hnwriters ⊢
    · exact toNat_pred hnwriters
    · exact hnwriters
  · split_ifs at hnreaders ⊢
    · exact toNat_pred hnreaders
    · exact hnreaders

theorem close_exact_iff (h : s.Exact) (hi : s.handles[i]? = some handle) (canceled : Bool) :
    (s.close i handle canceled).Exact ↔ s.Uncounts canceled := by
  obtain ⟨hlt, _⟩ := List.getElem?_eq_some_iff.mp hi
  cases canceled with
  | true => exact iff_of_false (not_exact_of_dev_eq h hi rfl) fun hkeeps => Bool.noConfusion hkeeps.1
  | false =>
    by_cases hmore : 1 < s.handles.length
    · exact iff_of_true (exact_of_more h hi hmore) ⟨rfl, .inl hmore⟩
    have hlast : (s.close i handle false).dev = s.dev.closeLast := if_neg hmore
    by_cases hempty : s.dev.policy1 = false ∨ s.dev.wrndx = s.dev.rdndx
    · refine iff_of_true ?_ ⟨rfl, .inr hempty⟩
      have hnone : (s.close i handle false).handles = [] := by
        apply eq_nil_of_length_eq_zero
        have hlen : (s.close i handle false).handles.length = s.handles.length - 1 :=
          length_eraseIdx_of_lt hlt
        omega
      unfold Exact writers readers
      rw [hlast, hnone, Dev.closeLast, if_pos hempty]
      exact ⟨rfl, rfl⟩
    · refine iff_of_false (not_exact_of_dev_eq h hi ?_) ?_
      · rw [hlast, Dev.closeLast, if_neg hempty]
      · rintro ⟨_, hmore' | hempty'⟩
        · exact hmore hmore'
        · exact hempty hempty'

theorem toNat_succ_iff (h : n.toNat = k) : (n + 1).toNat = k + 1 ↔ k < 255 := by
  have hlt := n.toNat_lt
  have hsum : (n + 1).toNat = (n.toNat + 1) % 256 := UInt8.toNat_add n 1
  omega

theorem counted_iff (h : n.toNat = k) (b : Bool) :
    (if b then n + 1 else n).toNat = k + (if b then 1 else 0) ↔ (b = true → k < 255) := by
  cases b with
  | false => exact iff_of_true h fun hb => absurd hb Bool.false_ne_true
  | true => exact (toNat_succ_iff h).trans ⟨fun hk _ => hk, fun hk => hk rfl⟩

theorem open_exact_iff (h : s.Exact) (access : Access) (memory : Bool) :
    (s.pipecommonOpen access memory).Exact ↔
      ((s.dev.openAlloc (s.handles.length + 1) memory).isSome = true → s.Counts access) := by
  unfold pipecommonOpen
  cases halloc : s.dev.openAlloc (s.handles.length + 1) memory with
  | none => exact iff_of_true h fun hsome => absurd hsome Bool.false_ne_true
  | some dev =>
    have hsame : dev.nwriters = s.dev.nwriters ∧ dev.nreaders = s.dev.nreaders := by
      unfold Dev.openAlloc at halloc
      split_ifs at halloc
      all_goals
        cases halloc
        exact ⟨rfl, rfl⟩
    have hnwriters : dev.nwriters.toNat = s.writers := by rw [hsame.1, h.1]
    have hnreaders : dev.nreaders.toNat = s.readers := by rw [hsame.2, h.2]
    have hcount : ∀ (p : Handle → Bool) (handle : Handle), (s.handles ++ [handle]).countP p =
        s.handles.countP p + if p handle then 1 else 0 := by
      intro p handle
      rw [countP_append, countP_singleton]
    have hafter : (⟨(dev.openWriter access.oflags).openReader access.oflags, s.handles ++ [⟨access,
        ((dev.openWriter access.oflags).openReader access.oflags).openWaits access.oflags⟩]⟩ : Table).Exact ↔
        s.Counts access := by
      unfold Exact Counts
      rw [(dev.counts_open _).1, (dev.counts_open _).2, writers, readers, hcount, hcount]
      exact and_congr (counted_iff hnwriters _) (counted_iff hnreaders _)
    exact hafter.trans ⟨fun hcounts _ => hcounts, fun hcounts => hcounts rfl⟩

theorem modify_countP {p : Handle → Bool} {f : Handle → Handle} (hf : ∀ handle, p (f handle) = p handle)
    (l : List Handle) (i : Nat) : (l.modify i f).countP p = l.countP p := by
  induction l generalizing i with
  | nil => cases i <;> rfl
  | cons handle l ih =>
    cases i with
    | zero => rw [modify_zero_cons, countP_cons, countP_cons, hf]
    | succ i => rw [modify_succ_cons, countP_cons, countP_cons, ih]

end

theorem step_exact_iff (s : Table) (event : HandleEvent) (h : s.Exact) :
    (s.step event).Exact ↔ s.Keeps event := by
  cases event with
  | openFile access memory => exact open_exact_iff h access memory
  | openInterrupted access => exact iff_of_true h trivial
  | opened i =>
    refine iff_of_true ?_ trivial
    have hcount : ∀ p : Handle → Bool, (∀ handle : Handle, p { handle with waiting := false } = p handle) →
        (s.step (.opened i)).handles.countP p = s.handles.countP p := fun p hp => modify_countP hp _ _
    unfold Exact writers readers at h ⊢
    rw [hcount _ fun _ => rfl, hcount _ fun _ => rfl]
    exact h
  | interrupted i canceled =>
    unfold step Keeps
    dsimp only
    cases hi : s.handles[i]? with
    | none => exact iff_of_true h fun handle hsome => absurd hsome.symm (Option.some_ne_none _)
    | some handle =>
      dsimp only
      split_ifs with hwaiting
      · rw [close_exact_iff h hi]
        exact ⟨fun hun _ hsome _ => by cases hsome; exact hun, fun hall => hall handle rfl hwaiting⟩
      · refine iff_of_true h fun handle' hsome hwaiting' => ?_
        cases hsome
        exact absurd hwaiting' hwaiting
  | closeFile i canceled =>
    unfold step Keeps
    dsimp only
    cases hi : s.handles[i]? with
    | none => exact iff_of_true h fun handle hsome => absurd hsome.symm (Option.some_ne_none _)
    | some handle =>
      dsimp only
      split_ifs with hwaiting
      · refine iff_of_true h fun handle' hsome hwaiting' => ?_
        cases hsome
        exact absurd (hwaiting'.symm.trans hwaiting) Bool.false_ne_true
      · rw [close_exact_iff h hi]
        exact ⟨fun hun _ hsome _ => by cases hsome; exact hun,
          fun hall => hall handle rfl (Bool.eq_false_of_not_eq_true hwaiting)⟩
  | traffic wrndx rdndx buffer | policy policy1 => exact iff_of_true h trivial

/-- **The counts are exact in every state** of a run from a new pipe exactly if every step of the run
meets the condition. -/
theorem counts_exact_iff (bufsize : Nat) (events : List HandleEvent) :
    Runs.Always step Exact (pipecommonAllocdev bufsize) events ↔
      Runs.Along step Keeps (pipecommonAllocdev bufsize) events :=
  Runs.always_iff_along step_exact_iff ⟨rfl, rfl⟩ events

theorem leftover_byte_keeps_writer :
    let events := [.openFile .rdwr true, .policy true, .traffic 1 0 (fun _ => 0), .closeFile 0 false,
      .openFile .rdonly true]
    (events.foldl step (pipecommonAllocdev 1024)).dev.nwriters = 1 ∧
      (events.foldl step (pipecommonAllocdev 1024)).handles = [⟨.rdonly, false⟩] ∧
      ¬ Runs.Always step Exact (pipecommonAllocdev 1024) events := by
  refine ⟨rfl, rfl, fun h => ?_⟩
  obtain ⟨_, _, _, _, hclosed, _⟩ := h
  exact absurd hclosed.1 (by decide)

end Table

end Nuttx.Pipe

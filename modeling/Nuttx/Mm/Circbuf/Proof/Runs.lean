import Nuttx.Library.Runs
import Nuttx.Mm.Circbuf.Proof.Stores

/-!
# Circular buffers refine bounded queues

Every call on a buffer that stores the bytes of a queue returns what the call on the queue returns, and
leaves a buffer that stores the bytes of the new queue.
-/

open List

namespace Nuttx.Mm.Circbuf

open Ring Result

variable {w : Nat} {c : Circbuf} {t : Nat} {q : Queue}

theorem ssize_zero : ssize w 0 = 0 := by simp [ssize]

theorem Stores.contents_eq {items : List UInt8} (hs : Stores w c t items) :
    c.contents w = items.map some := by
  apply ext_getElem
  · rw [contents, length_map, length_range, hs.used, length_map]
  intro i hi hi'
  rw [length_map] at hi'
  simp only [contents, getElem_map, getElem_range]
  rw [Nat.add_mod, hs.tail_off, ← Nat.add_mod, hs.slots i hi', List.getElem?_eq_getElem hi']

theorem Stores.resize (debug : Bool) {items : List UInt8} (hs : Stores w c t items)
    {bytes : Nat} {tmp : Option (List UInt8)} (hallow : Allows w c.external (.resize bytes tmp)) :
    ∃ c', circbufResize debug w c bytes tmp = .ok (0, c') ∧
      Stores w c' 0 (Queue.newest bytes items) ∧ c'.size = bytes ∧ c'.external = c.external := by
  obtain ⟨hbytes, hexternal, htmp⟩ := hallow
  have hassert : debugAssert debug Assertion.resizeExternal (!c.external) = .ok () := by
    simp [debugAssert, hexternal]
  unfold circbufResize
  rw [hassert, ok_bind]
  by_cases hzero : bytes = 0
  · refine ⟨{ c with base := [], size := bytes, head := 0, tail := 0 }, ?_, ?_, rfl, rfl⟩
    · rw [if_neg (by omega)]
      rfl
    · rw [Queue.newest, hzero, Nat.sub_zero, drop_length]
      exact Stores.init (Nat.two_pow_pos w) rfl rfl rfl
  obtain ⟨mem, rfl, hmem⟩ := htmp hzero
  -- what is left to read, and where
  obtain ⟨c1, t1, hskip, hs1, hexternal1⟩ : ∃ c1 t1,
      (if bytes < items.length then (circbufSkip w c (items.length - bytes)).2 else c) = c1 ∧
      Stores w c1 t1 (Queue.newest bytes items) ∧ c1.external = c.external := by
    split_ifs with hlong
    · obtain ⟨c1, hskip, hs1, hframe⟩ := hs.skip (items.length - bytes)
      refine ⟨c1, _, by rw [hskip], hs1, ?_⟩
      rw [hframe]
    · rw [Queue.newest, show items.length - bytes = 0 by omega, drop_zero]
      exact ⟨c, t, rfl, hs, rfl⟩
  have hlen : (Queue.newest bytes items).length
      = if bytes < items.length then bytes else items.length := by
    rw [Queue.newest, length_drop]
    split_ifs <;> omega
  have hle := Queue.length_newest_le bytes items
  obtain ⟨c2, hskip2, -, hframe⟩ := hs1.skip (Queue.newest bytes items).length
  have hread := hs1.read_eq (Queue.newest bytes items).length
  rw [hskip2, hs1.peek, Nat.min_self, take_length] at hread
  generalize hkeep : Queue.newest bytes items = keep at *
  refine ⟨{ c2 with base := overlay mem 0 keep, size := bytes, head := keep.length, tail := 0 },
    ?_, ⟨?_, hle, hbytes, (Nat.zero_mod _).symm, ?_, ?_, fun i hi => ?_⟩, rfl, ?_⟩
  · simp only [if_pos hzero, hs.used, hskip, ← hlen, hread]
    rfl
  · show (overlay mem 0 keep).length = bytes
    rw [length_overlay (by omega), hmem]
  · show keep.length = (0 + keep.length) % 2 ^ w
    rw [Nat.zero_add, Nat.mod_eq_of_lt (by omega)]
  · exact .inr (by omega)
  · show (overlay mem 0 keep)[(0 + i) % bytes]? = keep[i]?
    rw [Nat.zero_add, Nat.mod_eq_of_lt (by omega), getElem?_overlay (by omega), if_pos (by omega),
      Nat.sub_zero]
  · rw [hframe]
    exact hexternal1

theorem Stores.call (debug : Bool) (hs : Stores w c t q.items) (hsize : c.size = q.cap) {x : Call}
    (hallow : Allows w c.external x)
    (hwraps : c.size ∣ 2 ^ w ∨ t + q.items.length + q.passes x < 2 ^ w) :
    ∃ c' t', c.call debug w x = .ok (outOf w (q.call x).1, c') ∧
      Stores w c' t' (q.call x).2.items ∧ c'.size = (q.call x).2.cap ∧ c'.external = c.external ∧
      t' + (q.call x).2.items.length ≤ t + q.items.length + q.passes x := by
  have hfits := q.fits
  cases x with
  | write src =>
    rw [Queue.passes, ← hsize] at hwraps
    obtain ⟨c', heval, hs', hsize', hexternal⟩ := hs.write src hwraps
    refine ⟨c', t, ?_, ?_, hsize'.trans hsize, hexternal, ?_⟩
    · rw [Circbuf.call, heval, hsize]
      rfl
    · rw [hsize] at hs'
      exact hs'
    · simp only [Queue.call, Queue.write, Queue.passes, length_append, length_take]
      omega
  | overwrite src =>
    rw [Queue.passes, ← hsize] at hwraps
    obtain ⟨c', heval, hs', hsize', hexternal⟩ := hs.overwrite src hwraps
    rw [hsize] at heval hs'
    refine ⟨c', _, ?_, hs', hsize'.trans hsize, hexternal, ?_⟩
    · rw [Circbuf.call, heval]
      rfl
    · simp only [Queue.call, Queue.overwrite, Queue.newest, Queue.passes, length_append,
        length_drop]
      omega
  | read bytes =>
    obtain ⟨c', hskip, hs', hframe⟩ := hs.skip bytes
    have hread := hs.read_eq bytes
    rw [hs.peek, hskip] at hread
    refine ⟨c', _, ?_, hs', ?_, ?_, ?_⟩
    · rw [Circbuf.call, hread]
      rfl
    · rw [hframe]
      exact hsize
    · rw [hframe]
    · simp only [Queue.call, Queue.skip, Queue.passes, length_drop]
      omega
  | peek bytes =>
    refine ⟨c, t, ?_, hs, hsize, rfl, Nat.le_add_right _ _⟩
    rw [Circbuf.call, hs.peek]
    rfl
  | skip bytes =>
    obtain ⟨c', hskip, hs', hframe⟩ := hs.skip bytes
    refine ⟨c', _, ?_, hs', ?_, ?_, ?_⟩
    · rw [Circbuf.call, hskip]
      rfl
    · rw [hframe]
      exact hsize
    · rw [hframe]
    · simp only [Queue.call, Queue.skip, Queue.passes, length_drop]
      omega
  | reset =>
    refine ⟨circbufReset c, 0, ?_, Stores.init hs.size hs.base rfl rfl, hsize, rfl, Nat.zero_le _⟩
    rw [Circbuf.call, Queue.call, outOf, ssize_zero]
    rfl
  | resize bytes tmp =>
    obtain ⟨c', heval, hs', hsize', hexternal⟩ := hs.resize debug hallow
    refine ⟨c', 0, ?_, hs', hsize', hexternal, ?_⟩
    · rw [Circbuf.call, heval, ok_bind, Queue.call, outOf, ssize_zero]
      rfl
    · simp only [Queue.call, Queue.resize, Queue.newest, Queue.passes, length_drop]
      omega

theorem Stores.run (debug : Bool) (hs : Stores w c t q.items) (hsize : c.size = q.cap) {xs : List Call}
    (hallow : ∀ x ∈ xs, Allows w c.external x)
    (htraffic : t + q.items.length + q.traffic xs < 2 ^ w) :
    ∃ c' t', c.run debug w xs = .ok ((q.run xs).1.map (outOf w), c') ∧
      Stores w c' t' (q.run xs).2.items ∧ c'.size = (q.run xs).2.cap := by
  induction xs generalizing c t q with
  | nil => exact ⟨c, t, rfl, hs, hsize⟩
  | cons x xs ih =>
    rw [Queue.traffic] at htraffic
    obtain ⟨c1, t1, hcall, hs1, hsize1, hexternal, hle⟩ :=
      hs.call debug hsize (hallow x mem_cons_self) (.inr (by omega))
    obtain ⟨c', t', hrun, hs', hsize'⟩ := ih hs1 hsize1
      (fun y hy => by rw [hexternal]; exact hallow y (mem_cons_of_mem x hy)) (by omega)
    refine ⟨c', t', ?_, hs', hsize'⟩
    simp only [Circbuf.run, hcall, ok_bind, hrun]
    rfl

theorem circbufInit_stores (debug : Bool) (circ : Circbuf) {base tmp : Option (List UInt8)} {bytes : Nat}
    (hinit : InitOk w base bytes tmp) :
    ∃ c, circbufInit debug circ base bytes tmp = .ok (0, c) ∧ Stores w c 0 [] ∧ c.size = bytes ∧
      c.external = base.isSome := by
  obtain ⟨hbytes, hbase, htmp⟩ := hinit
  cases base with
  | some mem =>
    obtain ⟨hne, hmem⟩ := hbase mem rfl
    refine ⟨⟨mem, bytes, 0, 0, true⟩, ?_, Stores.init hbytes hmem rfl rfl, rfl, rfl⟩
    simp [circbufInit, debugAssert, hne, pure, Except.pure]
  | none =>
    by_cases hzero : bytes = 0
    · refine ⟨⟨[], bytes, 0, 0, false⟩, ?_, Stores.init hbytes hzero.symm rfl rfl, rfl, rfl⟩
      simp [circbufInit, debugAssert, hzero, pure, Except.pure]
    · obtain ⟨mem, rfl, hmem⟩ := htmp rfl hzero
      refine ⟨⟨mem, bytes, 0, 0, false⟩, ?_, Stores.init hbytes hmem rfl rfl, rfl, rfl⟩
      simp [circbufInit, debugAssert, hzero, pure, Except.pure]

/-- **A circular buffer is a bounded queue** as long as its counters do not wrap: every call returns
what it returns for the queue, and the bytes between `tail` and `head` are those of the queue. -/
theorem circbuf_refines_queue (debug : Bool) (circ : Circbuf) {base tmp : Option (List UInt8)}
    {bytes : Nat} (hinit : InitOk w base bytes tmp) {xs : List Call}
    (hallow : ∀ x ∈ xs, Allows w base.isSome x)
    (htraffic : (Queue.empty bytes).traffic xs < 2 ^ w) :
    ∃ c0 c, circbufInit debug circ base bytes tmp = .ok (0, c0) ∧
      c0.run debug w xs = .ok (((Queue.empty bytes).run xs).1.map (outOf w), c) ∧
      c.contents w = ((Queue.empty bytes).run xs).2.items.map some ∧
      c.size = ((Queue.empty bytes).run xs).2.cap ∧ circbufUsed w c ≤ c.size := by
  obtain ⟨c0, heval, hs, hsize, hexternal⟩ := circbufInit_stores debug circ hinit
  obtain ⟨c, t, hrun, hs', hsize'⟩ := Stores.run debug (q := Queue.empty bytes) hs hsize
    (by rw [hexternal]; exact hallow)
    (show 0 + 0 + (Queue.empty bytes).traffic xs < 2 ^ w by omega)
  have hused := hs'.used
  have hfits := hs'.fits
  exact ⟨c0, c, heval, hrun, hs'.contents_eq, hsize', by omega⟩

theorem circbuf_refines_queue_three : ∃ c0 c,
    circbufInit true ⟨[], 0, 0, 0, false⟩ (some [9, 9, 9]) 3 none = .ok (0, c0) ∧
    c0.run true 32 [.write [1, 2, 3, 4], .read 2, .overwrite [5, 6, 7], .peek 9]
      = .ok ([(3, []), (2, [1, 2]), (1, []), (3, [5, 6, 7])], c) ∧
    c.contents 32 = [some 5, some 6, some 7] := by
  have hok : InitOk 32 (some [9, 9, 9]) 3 none :=
    ⟨by decide, fun mem hmem => by cases hmem; decide, fun hnone => by cases hnone⟩
  have hallow : ∀ x ∈ [Call.write [1, 2, 3, 4], .read 2, .overwrite [5, 6, 7], .peek 9],
      Allows 32 true x := by simp [Allows]
  have hrun : (Queue.empty 3).run [.write [1, 2, 3, 4], .read 2, .overwrite [5, 6, 7], .peek 9]
      = ([(3, []), (2, [1, 2]), (1, []), (3, [5, 6, 7])], ⟨3, [5, 6, 7], by decide⟩) := rfl
  obtain ⟨c0, c, hinit, heval, hcontents, -⟩ :=
    circbuf_refines_queue true ⟨[], 0, 0, 0, false⟩ hok hallow (by decide)
  have houts : [(3, []), (2, [1, 2]), (1, []), (3, [5, 6, 7])].map (outOf 32)
      = [(3, []), (2, [1, 2]), (1, []), (3, [5, 6, 7])] := by decide
  rw [hrun] at heval hcontents
  rw [houts] at heval
  exact ⟨c0, c, hinit, heval, hcontents⟩

end Nuttx.Mm.Circbuf

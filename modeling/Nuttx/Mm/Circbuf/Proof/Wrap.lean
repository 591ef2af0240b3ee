import Nuttx.Mm.Circbuf.Proof.Runs

/-!
# When the counters wrap

The number of bytes stored is right also after `head` and `tail` have wrapped, but the offsets go on
from where they were only if the size divides `2 ^ w`.
-/

open List

namespace Nuttx.Mm.Circbuf

open Ring Result

variable {w : Nat} {c : Circbuf} {t : Nat} {q : Queue} {size : Nat}

def Call.IsIo (w : Nat) : Call → Prop
  | .write src => src.length < 2 ^ w
  | .read bytes => bytes < 2 ^ w
  | _ => False

theorem Call.IsIo.allows {x : Call} (hx : x.IsIo w) (external : Bool) : Allows w external x := by
  cases x with
  | write src => exact hx
  | read bytes => exact hx
  | _ => exact hx.elim

theorem Call.IsIo.cap_eq {x : Call} (hx : x.IsIo w) (q : Queue) : (q.call x).2.cap = q.cap := by
  cases x with
  | write src => rfl
  | read bytes => rfl
  | _ => exact hx.elim

theorem Stores.run_of_dvd (debug : Bool) (hs : Stores w c t q.items) (hsize : c.size = q.cap)
    (hdvd : c.size ∣ 2 ^ w) {xs : List Call} (hio : ∀ x ∈ xs, x.IsIo w) :
    ∃ c', c.run debug w xs = .ok ((q.run xs).1.map (outOf w), c') := by
  induction xs generalizing c t q with
  | nil => exact ⟨c, rfl⟩
  | cons x xs ih =>
    have hx := hio x mem_cons_self
    obtain ⟨c1, t1, hcall, hs1, hsize1, -, -⟩ :=
      hs.call debug hsize (hx.allows c.external) (.inl hdvd)
    rw [hx.cap_eq, ← hsize] at hsize1
    obtain ⟨c', hrun⟩ := ih hs1 (by rw [hsize1, hsize, hx.cap_eq]) (by rwa [hsize1])
      (fun y hy => hio y (mem_cons_of_mem x hy))
    refine ⟨c', ?_⟩
    simp only [Circbuf.run, hcall, ok_bind, hrun]
    rfl

def cycles : Nat → List Call
  | 0 => []
  | n + 1 => .write [0] :: .read 1 :: cycles n

theorem cycles_isIo (hw : 1 < 2 ^ w) (n : Nat) : ∀ x ∈ cycles n, x.IsIo w := by
  induction n with
  | zero =>
    intro x hx
    cases hx
  | succ n ih =>
    intro x hx
    rw [cycles, mem_cons, mem_cons] at hx
    rcases hx with rfl | rfl | hx
    · exact hw
    · exact hw
    · exact ih x hx

theorem Queue.run_cycles {cap : Nat} (hcap : 0 < cap) (xs : List Call) (n : Nat) :
    ∃ outs, (Queue.empty cap).run (cycles n ++ xs)
      = (outs ++ ((Queue.empty cap).run xs).1, ((Queue.empty cap).run xs).2) := by
  induction n with
  | zero => exact ⟨[], rfl⟩
  | succ n ih =>
    obtain ⟨outs, houts⟩ := ih
    have hwrite : ((Queue.empty cap).write [0]).skip 1 = Queue.empty cap := by
      have htake : ([0] : List UInt8).take cap = [0] := take_of_length_le hcap
      simp [Queue.write, Queue.skip, Queue.empty, htake]
    refine ⟨((Queue.empty cap).call (.write [0])).1 ::
      (((Queue.empty cap).write [0]).call (.read 1)).1 :: outs, ?_⟩
    simp [cycles, Queue.run, Queue.call, hwrite, houts]

theorem Stores.run_cycles (debug : Bool) (hs : Stores w c t []) (hpos : 0 < c.size) (xs : List Call)
    {n : Nat} (hn : t + n < 2 ^ w) :
    ∃ c' outs, Stores w c' (t + n) [] ∧ c'.size = c.size ∧
      ∀ outs' c'', c'.run debug w xs = .ok (outs', c'') →
        c.run debug w (cycles n ++ xs) = .ok (outs ++ outs', c'') := by
  induction n generalizing c t with
  | zero => exact ⟨c, [], hs, rfl, fun outs' c'' hrun => hrun⟩
  | succ n ih =>
    have hmin : min 1 c.size = 1 := by omega
    obtain ⟨c1, hwrite, hs1, hsize1, -⟩ := hs.write [0] (.inr (by
      simp only [length_nil, length_singleton, Nat.sub_zero, hmin]
      omega))
    rw [length_nil, Nat.sub_zero, nil_append,
      take_of_length_le (show ([0] : List UInt8).length ≤ c.size from hpos)] at hs1
    obtain ⟨c2, hskip, hs2, hframe⟩ := hs1.skip 1
    have hread := hs1.read_eq 1
    rw [hs1.peek, hskip] at hread
    have hsize2 : c2.size = c.size := by rw [hframe, hsize1]
    obtain ⟨c', outs, hs', hsize', hrun⟩ := ih (c := c2) (t := t + 1) hs2 (by omega) (by omega)
    rw [show t + 1 + n = t + (n + 1) by omega] at hs'
    generalize ssize w (min ([0] : List UInt8).length (c.size - ([] : List UInt8).length)) = ret1 at hwrite
    generalize (ssize w (min 1 ([0] : List UInt8).length), ([0] : List UInt8).take 1) = out2 at hread
    refine ⟨c', (ret1, []) :: out2 :: outs, hs', hsize'.trans hsize2, fun outs' c'' hrest => ?_⟩
    simp [cycles, Circbuf.run, Circbuf.call, hwrite, hread, hrun outs' c'' hrest]

def marked (size : Nat) : List UInt8 := 0 :: 1 :: List.replicate (size - 2) 0

theorem length_marked (hsize : 2 ≤ size) : (marked size).length = size := by
  simp only [marked, length_cons, length_replicate]
  omega

theorem getElem?_marked {size i : Nat} (hi : i < size) (hne : i ≠ 1) : (marked size)[i]? = some 0 := by
  rcases i with _ | _ | i
  · rfl
  · exact absurd rfl hne
  · rw [marked, List.getElem?_cons_succ, List.getElem?_cons_succ, List.getElem?_replicate,
      if_pos (by omega)]

theorem Queue.run_marked {cap : Nat} (hcap : 2 ≤ cap) :
    ((Queue.empty cap).run [.write (marked cap), .read 1, .read 1]).1
      = [(cap, []), (1, [0]), (1, [1])] := by
  have hlen := length_marked hcap
  have hitems : ((Queue.empty cap).write (marked cap)).items = marked cap := by
    simp only [Queue.write, Queue.empty, length_nil, Nat.sub_zero, nil_append]
    exact take_of_length_le (by omega)
  have hdrop : (marked cap).drop 1 = 1 :: List.replicate (cap - 2) 0 := rfl
  simp only [Queue.run, Queue.call, Queue.skip, hitems, hdrop, hlen]
  simp [Queue.empty, marked]
  omega

theorem circbufRead_one (hw : 1 < 2 ^ w) (hpos : 0 < c.size) (hused : 0 < circbufUsed w c) {b : UInt8}
    (hb : c.base[c.tail % c.size]? = some b) :
    circbufRead w c 1 = ((ssize w 1, [b]), { c with tail := (c.tail + 1) % 2 ^ w }) := by
  have hoff := Nat.mod_lt c.tail hpos
  have hone : ¬ 1 > circbufUsed w c := by omega
  have hlen : (if 1 < c.size - c.tail % c.size then 1 else c.size - c.tail % c.size) = 1 := by
    split_ifs <;> omega
  obtain ⟨hlt, hget⟩ := List.getElem?_eq_some_iff.mp hb
  have htake : (c.base.drop (c.tail % c.size)).take 1 = [b] := by
    rw [drop_eq_getElem_cons hlt, hget]
    rfl
  have hpeek : circbufPeek w c 1 = (ssize w 1, [b]) := by
    simp only [circbufPeek, if_neg (show ¬ c.size = 0 by omega), if_neg hone, hlen, htake, Nat.sub_self,
      take_zero, append_nil]
  simp only [circbufRead, hpeek, usize_ssize hw]

/-- **The failing step.** The counters of an empty buffer are about to wrap when a buffer's worth of
bytes is written. The first byte is read back; the second one is looked for at the start of the buffer,
where another byte stands. -/
theorem Stores.run_marked (debug : Bool) (hs : Stores w c (2 ^ w - 1) []) (hdvd : ¬ c.size ∣ 2 ^ w)
    (h3 : 3 ≤ c.size) :
    ∃ c', c.run debug w [.write (marked c.size), .read 1, .read 1]
      = .ok ([(ssize w c.size, []), (ssize w 1, [0]), (ssize w 1, [0])], c') := by
  have hsize := hs.size
  have hbase := hs.base
  have hlen := length_marked (show 2 ≤ c.size by omega)
  have htail : c.tail = 2 ^ w - 1 := by
    rw [hs.tail, Nat.mod_eq_of_lt (by omega)]
  have hhead : c.head = 2 ^ w - 1 := by
    rw [hs.head, length_nil, Nat.add_zero, Nat.mod_eq_of_lt (by omega)]
  have hoff := Nat.mod_lt c.head (show 0 < c.size by omega)
  generalize hbase' : fill c.base (c.head % c.size) (marked c.size) = base'
  have hslot : ∀ i < c.size, base'[(c.head % c.size + i) % c.size]? = (marked c.size)[i]? := by
    intro i hi
    have hfill := getElem?_fill (i := i) (show c.head % c.size < c.base.length by omega)
      (show (marked c.size).length ≤ c.base.length by omega) (by omega)
    rwa [hbase', hbase, if_pos (by omega)] at hfill
  -- the offset of the first byte, and how far from it the buffer starts over
  have hne : c.head % c.size ≠ c.size - 1 := by
    intro heq
    have hdiv := Nat.div_add_mod c.head c.size
    refine hdvd ⟨c.head / c.size + 1, ?_⟩
    rw [Nat.mul_add, Nat.mul_one]
    omega
  have hfirst : base'[(2 ^ w - 1) % c.size]? = some 0 := by
    have hzero := hslot 0 (by omega)
    rw [Nat.add_zero, Nat.mod_mod, hhead] at hzero
    exact hzero
  have hstart : base'[0 % c.size]? = some 0 := by
    rw [Nat.zero_mod]
    by_cases hzero : c.head % c.size = 0
    · rw [hhead] at hzero
      rwa [hzero] at hfirst
    have hlast := hslot (c.size - c.head % c.size) (by omega)
    rw [show c.head % c.size + (c.size - c.head % c.size) = c.size by omega, Nat.mod_self] at hlast
    rw [hlast]
    exact getElem?_marked (by omega) (by omega)
  have hwrite : circbufWrite w c (marked c.size)
      = (ssize w c.size, ⟨base', c.size, c.size - 1, 2 ^ w - 1, c.external⟩) := by
    have hspace := hs.space
    rw [length_nil, Nat.sub_zero] at hspace
    simp only [circbufWrite, if_neg (show ¬ c.size = 0 by omega), hlen, hspace, gt_iff_lt, Nat.lt_irrefl,
      if_false]
    rw [hs.overlay_overlay_eq (by omega) rfl, take_of_length_le (by omega), hbase', htail, hhead,
      show 2 ^ w - 1 + c.size = c.size - 1 + 2 ^ w by omega, Nat.add_mod_right,
      Nat.mod_eq_of_lt (by omega)]
  have hread1 := circbufRead_one (c := ⟨base', c.size, c.size - 1, 2 ^ w - 1, c.external⟩)
    (show 1 < 2 ^ w by omega) (show 0 < c.size by omega)
    (show 0 < (c.size - 1 + 2 ^ w - (2 ^ w - 1)) % 2 ^ w by
      rw [show c.size - 1 + 2 ^ w - (2 ^ w - 1) = c.size by omega, Nat.mod_eq_of_lt hsize]
      omega) hfirst
  have hread2 := circbufRead_one (c := ⟨base', c.size, c.size - 1, 0, c.external⟩)
    (show 1 < 2 ^ w by omega) (show 0 < c.size by omega)
    (show 0 < (c.size - 1 + 2 ^ w - 0) % 2 ^ w by
      rw [Nat.sub_zero, Nat.add_mod_right, Nat.mod_eq_of_lt (by omega)]
      omega) hstart
  rw [show 2 ^ w - 1 + 1 = 2 ^ w by omega, Nat.mod_self] at hread1
  refine ⟨⟨base', c.size, c.size - 1, (0 + 1) % 2 ^ w, c.external⟩, ?_⟩
  simp [Circbuf.run, Circbuf.call, hwrite, hread1, hread2]

def wrapRun (w size : Nat) : List Call :=
  cycles (2 ^ w - 1) ++ [.write (marked size), .read 1, .read 1]

theorem wrapRun_isIo (hsize : size < 2 ^ w) (h3 : 3 ≤ size) : ∀ x ∈ wrapRun w size, x.IsIo w := by
  intro x hx
  rw [wrapRun, mem_append] at hx
  rcases hx with hx | hx
  · exact cycles_isIo (by omega) _ x hx
  simp only [mem_cons, not_mem_nil, or_false] at hx
  rcases hx with rfl | rfl | rfl
  · show (marked size).length < 2 ^ w
    rwa [length_marked (by omega)]
  · show 1 < 2 ^ w
    omega
  · show 1 < 2 ^ w
    omega

theorem wrapRun_wrong (debug : Bool) (hs : Stores w c 0 []) (h3 : 3 ≤ c.size)
    (hdvd : ¬ c.size ∣ 2 ^ w) :
    ∃ outs c', c.run debug w (wrapRun w c.size) = .ok (outs, c') ∧
      (outs.map Prod.snd).getLast? = some [0] ∧
      (((Queue.empty c.size).run (wrapRun w c.size)).1.map Prod.snd).getLast? = some [1] := by
  have hpow := Nat.two_pow_pos w
  obtain ⟨c1, outs, hs1, hsize1, hrun⟩ := hs.run_cycles debug (by omega)
    [.write (marked c.size), .read 1, .read 1] (show 0 + (2 ^ w - 1) < 2 ^ w by omega)
  rw [Nat.zero_add] at hs1
  obtain ⟨c2, hrun2⟩ := hs1.run_marked debug (by rwa [hsize1]) (by omega)
  rw [hsize1] at hrun2
  obtain ⟨outs', houts'⟩ := Queue.run_cycles (show 0 < c.size by omega)
    [.write (marked c.size), .read 1, .read 1] (2 ^ w - 1)
  refine ⟨_, c2, hrun _ c2 hrun2, by simp, ?_⟩
  rw [wrapRun, houts', Queue.run_marked (by omega)]
  simp

/-- **Reading back.** On a buffer of any size, every read in every run of writes and reads gets the bytes
written and not yet read, in order, if and only if the size divides `2 ^ w`. -/
theorem reads_back_iff_dvd (debug : Bool) (circ : Circbuf) {base tmp : Option (List UInt8)}
    {size : Nat} (hpos : 0 < size) (hinit : InitOk w base size tmp) :
    ∃ c0, circbufInit debug circ base size tmp = .ok (0, c0) ∧
      ((∀ xs : List Call, (∀ x ∈ xs, x.IsIo w) → ∃ outs c, c0.run debug w xs = .ok (outs, c) ∧
          outs.map Prod.snd = ((Queue.empty size).run xs).1.map Prod.snd) ↔
        size ∣ 2 ^ w) := by
  obtain ⟨c0, heval, hs, hsize, -⟩ := circbufInit_stores debug circ hinit
  subst hsize
  refine ⟨c0, heval, ⟨fun hreads => ?_, fun hdvd xs hio => ?_⟩⟩
  · by_contra hdvd
    have h3 : 3 ≤ c0.size := by
      by_contra hlt
      rcases (show c0.size = 1 ∨ c0.size = 2 by omega) with hone | htwo
      · exact hdvd (hone ▸ one_dvd _)
      · have hw := hs.size
        rw [htwo] at hdvd hw
        refine hdvd (dvd_pow_self 2 ?_)
        rintro rfl
        omega
    obtain ⟨outs, c, hrun, hlast, hlast'⟩ := wrapRun_wrong debug hs h3 hdvd
    obtain ⟨outs', c', hrun', heq⟩ := hreads _ (wrapRun_isIo hs.size h3)
    rw [hrun] at hrun'
    cases hrun'
    rw [heq, hlast'] at hlast
    cases hlast
  · obtain ⟨c, hrun⟩ := Stores.run_of_dvd debug (q := Queue.empty c0.size) hs rfl hdvd hio
    refine ⟨_, c, hrun, ?_⟩
    rw [map_map]
    rfl

theorem wrap_reads_stale_byte : ∃ c0 outs c,
    circbufInit true ⟨[], 0, 0, 0, false⟩ (some [0, 0, 0]) 3 none = .ok (0, c0) ∧
    (∀ x ∈ wrapRun 32 3, x.IsIo 32) ∧ c0.run true 32 (wrapRun 32 3) = .ok (outs, c) ∧
    outs.map Prod.snd ≠ ((Queue.empty 3).run (wrapRun 32 3)).1.map Prod.snd := by
  have hok : InitOk 32 (some [0, 0, 0]) 3 none :=
    ⟨by decide, fun mem hmem => by cases hmem; decide, fun hnone => by cases hnone⟩
  obtain ⟨c0, heval, hs, hsize, -⟩ := circbufInit_stores true ⟨[], 0, 0, 0, false⟩ hok
  obtain ⟨outs, c, hrun, hlast, hlast'⟩ := wrapRun_wrong true hs (by omega) (by rw [hsize]; decide)
  rw [hsize] at hrun hlast'
  refine ⟨c0, outs, c, heval, wrapRun_isIo (by decide) le_rfl, hrun, fun heq => ?_⟩
  rw [heq, hlast'] at hlast
  cases hlast

theorem reads_back_four : ∃ c0,
    circbufInit true ⟨[], 0, 0, 0, false⟩ (some [0, 0, 0, 0]) 4 none = .ok (0, c0) ∧
    ∀ xs : List Call, (∀ x ∈ xs, x.IsIo 32) → ∃ outs c, c0.run true 32 xs = .ok (outs, c) ∧
      outs.map Prod.snd = ((Queue.empty 4).run xs).1.map Prod.snd := by
  have hok : InitOk 32 (some [0, 0, 0, 0]) 4 none :=
    ⟨by decide, fun mem hmem => by cases hmem; decide, fun hnone => by cases hnone⟩
  obtain ⟨c0, heval, hiff⟩ := reads_back_iff_dvd true ⟨[], 0, 0, 0, false⟩ (by decide) hok
  exact ⟨c0, heval, hiff.mpr (by decide)⟩

end Nuttx.Mm.Circbuf

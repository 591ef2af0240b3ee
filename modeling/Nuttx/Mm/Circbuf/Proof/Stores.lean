import Nuttx.Mm.Circbuf.Spec
import Mathlib.Algebra.Order.Group.Int
import Mathlib.Data.Nat.ModEq

/-!
# What the buffer stores

The bytes of a queue stand in the buffer from the offset of `tail` on. The relation `Stores` counts
with counters that do not wrap; those of the buffer are their residues.
-/

open List

namespace Nuttx.Mm.Circbuf

open Ring

variable {w : Nat} {c : Circbuf} {t : Nat} {items : List UInt8} {n : Nat}

theorem usize_ssize (hn : n < 2 ^ w) : usize w (ssize w n) = n := by
  rw [usize, ssize, show ((2 : Int) ^ w) = ((2 ^ w : Nat) : Int) by simp, Int.bmod_emod]
  rw [← Int.natCast_emod, Int.toNat_natCast, Nat.mod_eq_of_lt hn]

theorem ite_gt_eq_min (a b : Nat) : (if a > b then b else a) = min a b := by
  split_ifs <;> omega

theorem counter_sub {m r n : Nat} (hr : r < m) (hn : n < m) : ((r + n) % m + m - r) % m = n := by
  by_cases hlt : r + n < m
  · rw [Nat.mod_eq_of_lt hlt, show r + n + m - r = n + m by omega, Nat.add_mod_right,
      Nat.mod_eq_of_lt hn]
  · have hmod : (r + n) % m = r + n - m := by
      rw [Nat.mod_eq_sub_mod (by omega), Nat.mod_eq_of_lt (by omega)]
    rw [hmod, show r + n - m + m - r = n by omega, Nat.mod_eq_of_lt hn]

structure Stores (w : Nat) (c : Circbuf) (t : Nat) (items : List UInt8) : Prop where
  base : c.base.length = c.size
  fits : items.length ≤ c.size
  size : c.size < 2 ^ w
  tail : c.tail = t % 2 ^ w
  head : c.head = (t + items.length) % 2 ^ w
  wraps : c.size ∣ 2 ^ w ∨ t + items.length < 2 ^ w
  slots : ∀ i < items.length, c.base[(t + i) % c.size]? = items[i]?

theorem mod_mod_size (hwraps : c.size ∣ 2 ^ w ∨ n < 2 ^ w) : n % 2 ^ w % c.size = n % c.size := by
  rcases hwraps with hdvd | hlt
  · exact Nat.mod_mod_of_dvd n hdvd
  · rw [Nat.mod_eq_of_lt hlt]

namespace Stores

section

variable (hs : Stores w c t items)
include hs

theorem used : circbufUsed w c = items.length := by
  have hfits := hs.fits
  have hsize := hs.size
  have hmod := counter_sub (Nat.mod_lt t (Nat.two_pow_pos w)) (show items.length < 2 ^ w by omega)
  rwa [Nat.mod_add_mod, ← hs.head, ← hs.tail] at hmod

theorem space : circbufSpace w c = c.size - items.length := by
  have hfits := hs.fits
  have hsize := hs.size
  rw [circbufSpace, hs.used, show c.size + 2 ^ w - items.length
    = c.size - items.length + 2 ^ w by omega, Nat.add_mod_right, Nat.mod_eq_of_lt (by omega)]

theorem tail_off : c.tail % c.size = t % c.size := by
  have hwraps := hs.wraps
  rw [hs.tail]
  exact mod_mod_size (by omega)

theorem head_off : c.head % c.size = (t + items.length) % c.size := by
  rw [hs.head]
  exact mod_mod_size hs.wraps

theorem eq_nil (hzero : c.size = 0) : items = [] := by
  have hfits := hs.fits
  exact length_eq_zero_iff.mp (by omega)

theorem window_eq (hpos : 0 < c.size) (hn : n ≤ items.length) :
    window c.base (c.tail % c.size) n = items.take n := by
  have hfits := hs.fits
  have hbase := hs.base
  have hoff := Nat.mod_lt c.tail hpos
  apply ext_getElem?
  intro i
  by_cases hi : i < n
  · rw [getElem?_window (by omega) (by omega) hi, hbase, hs.tail_off, Nat.mod_add_mod,
      hs.slots i (by omega), getElem?_take_of_lt hi]
  · rw [getElem?_eq_none (by rw [length_window (by omega)]; omega),
      getElem?_eq_none (by rw [length_take]; omega)]

theorem peek (bytes : Nat) :
    circbufPeek w c bytes = (ssize w (min bytes items.length), items.take bytes) := by
  have hbase := hs.base
  rw [circbufPeek]
  by_cases hzero : c.size = 0
  · rw [if_pos hzero, hs.eq_nil hzero]
    simp [ssize]
  have hwindow := hs.window_eq (by omega) (Nat.min_le_right bytes items.length)
  have hmin' : (if min bytes items.length < c.size - c.tail % c.size then min bytes items.length
      else c.size - c.tail % c.size)
      = min (min bytes items.length) (c.base.length - c.tail % c.size) := by
    split_ifs <;> omega
  have htake : items.take (min bytes items.length) = items.take bytes := by
    rw [← take_take, take_length]
  simp only [if_neg hzero, hs.used, ite_gt_eq_min, hmin']
  rw [← htake, ← hwindow, window]

theorem drop (hn : n ≤ items.length) :
    Stores w { c with tail := (c.tail + n) % 2 ^ w } (t + n) (items.drop n) := by
  have hlen : (items.drop n).length = items.length - n := length_drop
  have hfits := hs.fits
  have hsum : t + n + (items.length - n) = t + items.length := by omega
  refine ⟨hs.base, ?_, hs.size, ?_, ?_, ?_, fun i hi => ?_⟩
  · show (items.drop n).length ≤ c.size
    omega
  · show (c.tail + n) % 2 ^ w = (t + n) % 2 ^ w
    rw [hs.tail, Nat.mod_add_mod]
  · rw [hlen, hsum]
    exact hs.head
  · rw [hlen, hsum]
    exact hs.wraps
  · show c.base[(t + n + i) % c.size]? = (items.drop n)[i]?
    rw [getElem?_drop, Nat.add_assoc]
    exact hs.slots (n + i) (by omega)

theorem skip (bytes : Nat) :
    ∃ c', circbufSkip w c bytes = (ssize w (min bytes items.length), c') ∧
      Stores w c' (t + min bytes items.length) (items.drop bytes) ∧
      c' = { c with tail := c'.tail } := by
  have hdrop : items.drop (min bytes items.length) = items.drop bytes := by
    rcases Nat.le_total bytes items.length with hle | hle
    · rw [Nat.min_eq_left hle]
    · rw [Nat.min_eq_right hle, drop_length, drop_of_length_le hle]
  have hs' := hs.drop (Nat.min_le_right bytes items.length)
  rw [hdrop] at hs'
  refine ⟨{ c with tail := (c.tail + min bytes items.length) % 2 ^ w }, ?_, hs', rfl⟩
  simp only [circbufSkip, hs.used, ite_gt_eq_min]

theorem read_eq (bytes : Nat) :
    circbufRead w c bytes = (circbufPeek w c bytes, (circbufSkip w c bytes).2) := by
  have hfits := hs.fits
  have hsize := hs.size
  obtain ⟨c', hskip, -⟩ := hs.skip bytes
  have husize : usize w (ssize w (min bytes items.length)) = min bytes items.length :=
    usize_ssize (by omega)
  simp only [circbufRead, circbufSkip, hs.peek, hs.used, ite_gt_eq_min, husize]

end

def pushed (w : Nat) (c : Circbuf) (src : List UInt8) (overwrite : Nat) : Circbuf :=
  { c with
    base := fill c.base (c.head % c.size) src
    head := (c.head + src.length) % 2 ^ w
    tail := (c.tail + overwrite) % 2 ^ w }

/-- **Adding bytes.** The new bytes stand behind the old ones, of which as many are lost as there was
no room for. -/
theorem push (hs : Stores w c t items) (src : List UInt8) (hpos : 0 < c.size)
    (hsrc : src.length ≤ c.size) (hwraps : c.size ∣ 2 ^ w ∨ t + items.length + src.length < 2 ^ w) :
    Stores w (pushed w c src (src.length - (c.size - items.length)))
      (t + (src.length - (c.size - items.length)))
      ((items ++ src).drop (src.length - (c.size - items.length))) := by
  have hfits := hs.fits
  have hbase := hs.base
  have hoff := Nat.mod_lt c.head hpos
  generalize hover : src.length - (c.size - items.length) = excess
  have hlen : ((items ++ src).drop excess).length = items.length + src.length - excess := by
    rw [length_drop, length_append]
  have hsum : t + excess + (items.length + src.length - excess) = t + items.length + src.length := by
    omega
  refine ⟨?_, ?_, hs.size, ?_, ?_, ?_, fun i hi => ?_⟩
  · show (fill c.base (c.head % c.size) src).length = c.size
    rw [length_fill (by omega) (by omega), hbase]
  · show ((items ++ src).drop excess).length ≤ c.size
    omega
  · show (c.tail + excess) % 2 ^ w = (t + excess) % 2 ^ w
    rw [hs.tail, Nat.mod_add_mod]
  · show (c.head + src.length) % 2 ^ w = _
    rw [hlen, hsum, hs.head, Nat.mod_add_mod]
  · rw [hlen, hsum]
    exact hwraps
  show (fill c.base (c.head % c.size) src)[(t + excess + i) % c.size]? = _
  rw [hlen] at hi
  rw [getElem?_drop]
  by_cases hold : excess + i < items.length
  · -- an old byte: it lies behind the new ones, seen from `head`
    have hpos' : (t + excess + i) % c.size
        = (c.head % c.size + (c.size - items.length + (excess + i))) % c.base.length := by
      rw [hs.head_off, hbase, Nat.mod_add_mod,
        show t + items.length + (c.size - items.length + (excess + i)) = t + excess + i + c.size by omega,
        Nat.add_mod_right]
    rw [hpos', getElem?_fill (by omega) (by omega) (by omega), if_neg (by omega), ← hpos',
      Nat.add_assoc, getElem?_append_left hold]
    exact hs.slots (excess + i) hold
  · have hpos' : (t + excess + i) % c.size
        = (c.head % c.size + (excess + i - items.length)) % c.base.length := by
      rw [hs.head_off, hbase, Nat.mod_add_mod]
      congr 1
      omega
    rw [hpos', getElem?_fill (by omega) (by omega) (by omega), if_pos (by omega),
      getElem?_append_right (by omega)]

theorem overlay_overlay_eq (hs : Stores w c t items) {src : List UInt8} {bytes : Nat}
    (hbytes : bytes ≤ src.length) {space : Nat} (hspace : space = c.size - c.head % c.size) :
    overlay (overlay c.base (c.head % c.size) (src.take (if bytes < space then bytes else space))) 0
        ((src.drop (if bytes < space then bytes else space)).take
          (bytes - if bytes < space then bytes else space))
      = fill c.base (c.head % c.size) (src.take bytes) := by
  have hlen : (src.take bytes).length = bytes := length_take_of_le hbytes
  have hmin : (if bytes < space then bytes else space)
      = min bytes (c.base.length - c.head % c.size) := by
    rw [hs.base, hspace]
    split_ifs <;> omega
  rw [hmin, fill, hlen, take_take, drop_take,
    Nat.min_eq_left (Nat.min_le_left bytes (c.base.length - c.head % c.size))]

theorem write (hs : Stores w c t items) (src : List UInt8)
    (hwraps : c.size ∣ 2 ^ w ∨
      t + items.length + min src.length (c.size - items.length) < 2 ^ w) :
    ∃ c', circbufWrite w c src = (ssize w (min src.length (c.size - items.length)), c') ∧
      Stores w c' t (items ++ src.take (c.size - items.length)) ∧ c'.size = c.size ∧
      c'.external = c.external := by
  have hfits := hs.fits
  rw [circbufWrite]
  by_cases hzero : c.size = 0
  · refine ⟨c, ?_, ?_, rfl, rfl⟩
    · simp [hzero, ssize]
    · rw [show c.size - items.length = 0 by omega, take_zero, append_nil]
      exact hs
  have htake : src.take (min src.length (c.size - items.length))
      = src.take (c.size - items.length) := by
    rw [Nat.min_comm, ← take_take, take_length]
  have hlen : (src.take (c.size - items.length)).length = min src.length (c.size - items.length) := by
    rw [length_take, Nat.min_comm]
  have hs' := hs.push (src.take (c.size - items.length)) (by omega) (by omega)
    (by rw [hlen]; exact hwraps)
  rw [show (src.take (c.size - items.length)).length - (c.size - items.length) = 0 by omega,
    Nat.add_zero, drop_zero] at hs'
  refine ⟨_, ?_, hs', rfl, rfl⟩
  simp only [if_neg hzero, hs.space, ite_gt_eq_min src.length]
  rw [hs.overlay_overlay_eq (by omega) rfl, htake, pushed, hlen, Nat.add_zero]
  have htail : c.tail % 2 ^ w = c.tail := by rw [hs.tail, Nat.mod_mod]
  rw [htail]

theorem drop_append_clipped {src : List UInt8} {cap : Nat} (hfits : items.length ≤ cap) :
    (items ++ src.drop (src.length - cap)).drop (min src.length cap - (cap - items.length))
      = Queue.newest cap (items ++ src) := by
  apply ext_getElem?
  intro i
  rw [Queue.newest, length_append, getElem?_drop, getElem?_drop, getElem?_append,
    getElem?_append, getElem?_drop]
  split_ifs with hold hold' hold'
  · congr 1
    omega
  · omega
  · omega
  · congr 1
    omega

theorem overwrite (hs : Stores w c t items) (src : List UInt8)
    (hwraps : c.size ∣ 2 ^ w ∨ t + items.length + min src.length c.size < 2 ^ w) :
    ∃ c', circbufOverwrite w c src
        = (ssize w (min src.length c.size - (c.size - items.length)), c') ∧
      Stores w c' (t + (min src.length c.size - (c.size - items.length)))
        (Queue.newest c.size (items ++ src)) ∧ c'.size = c.size ∧ c'.external = c.external := by
  have hfits := hs.fits
  rw [circbufOverwrite]
  by_cases hzero : c.size = 0
  · refine ⟨c, ?_, ?_, rfl, rfl⟩
    · simp [hzero, ssize]
    have hnil := hs.eq_nil hzero
    subst hnil
    rw [Queue.newest, hzero, Nat.sub_zero, drop_length, Nat.min_zero, Nat.zero_sub, Nat.add_zero]
    exact hs
  -- the bytes of the source that are used
  have hclip : (if src.length > c.size then src.drop (src.length - c.size) else src)
      = src.drop (src.length - c.size) := by
    split_ifs with hlong
    · rfl
    · rw [show src.length - c.size = 0 by omega, drop_zero]
  generalize hsrc' : src.drop (src.length - c.size) = src'
  have hlen : src'.length = min src.length c.size := by
    rw [← hsrc', length_drop]
    omega
  have hover : (if min src.length c.size > c.size - items.length
      then min src.length c.size - (c.size - items.length) else 0)
      = min src.length c.size - (c.size - items.length) := by
    split_ifs <;> omega
  have hs' := hs.push src' (by omega) (by omega) (by rw [hlen]; exact hwraps)
  have hitems : (items ++ src').drop (src'.length - (c.size - items.length))
      = Queue.newest c.size (items ++ src) := by
    rw [hlen, ← hsrc']
    exact drop_append_clipped hfits
  rw [hitems, hlen] at hs'
  refine ⟨_, ?_, hs', rfl, rfl⟩
  simp only [if_neg hzero, hclip, ite_gt_eq_min src.length, hs.space, hover]
  rw [hsrc', hs.overlay_overlay_eq (by omega) rfl, ← hlen, take_length, pushed, hlen]

theorem init (hsize : c.size < 2 ^ w) (hbase : c.base.length = c.size)
    (hhead : c.head = 0) (htail : c.tail = 0) : Stores w c 0 [] := by
  have hpow := Nat.two_pow_pos w
  exact ⟨hbase, Nat.zero_le _, hsize, by rw [htail, Nat.zero_mod], by rw [hhead]; simp,
    .inr hpow, fun i hi => absurd hi (Nat.not_lt_zero i)⟩

end Stores

end Nuttx.Mm.Circbuf

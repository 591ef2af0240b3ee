import Mathlib.Data.List.Basic

/-!
# Lists used as rings

Copying into and out of a list in two pieces around its end.
-/

open List

namespace Ring

variable {α : Type} {i : Nat}

/-- `src` copied over the elements of `dst` from position `off` on. -/
def overlay (dst : List α) (off : Nat) (src : List α) : List α :=
  dst.take off ++ src ++ dst.drop (off + src.length)

variable {dst src base : List α} {off n : Nat}

theorem length_overlay (hfits : off + src.length ≤ dst.length) :
    (overlay dst off src).length = dst.length := by
  simp only [overlay, length_append, length_take, length_drop]
  omega

theorem getElem?_overlay (hoff : off ≤ dst.length) (i : Nat) :
    (overlay dst off src)[i]? = if off ≤ i ∧ i < off + src.length then src[i - off]? else dst[i]? := by
  have htake : (dst.take off).length = off := length_take_of_le hoff
  rw [overlay, append_assoc]
  by_cases hlow : i < off
  · rw [getElem?_append_left (by omega), getElem?_take_of_lt hlow, if_neg (by omega)]
  rw [getElem?_append_right (by omega), htake]
  by_cases hhigh : i < off + src.length
  · rw [getElem?_append_left (by omega), if_pos (by omega)]
  · rw [getElem?_append_right (by omega), getElem?_drop, if_neg (by omega)]
    congr 1
    omega

@[simp]
theorem overlay_nil_right (dst : List α) (off : Nat) : overlay dst off [] = dst := by
  simp [overlay]

@[simp]
theorem overlay_nil_left (src : List α) : overlay [] 0 src = src := by
  simp [overlay]

theorem overlay_append {fst snd : List α} (hoff : off ≤ fst.length) :
    overlay (fst ++ snd) off src
      = overlay fst off (src.take (fst.length - off)) ++ overlay snd 0 (src.drop (fst.length - off)) := by
  rw [overlay, overlay, overlay, take_append_of_le_length hoff, drop_append, length_take,
    length_drop, take_zero, nil_append]
  by_cases hlen : src.length ≤ fst.length - off
  · rw [take_of_length_le hlen, drop_of_length_le hlen, Nat.min_eq_right hlen,
      Nat.sub_eq_zero_of_le (show off + src.length ≤ fst.length by omega)]
    simp [Nat.sub_eq_zero_of_le hlen]
  · rw [Nat.min_eq_left (by omega), drop_of_length_le (show fst.length ≤ off + src.length by omega),
      drop_of_length_le (show fst.length ≤ off + (fst.length - off) by omega),
      show off + src.length - fst.length = 0 + (src.length - (fst.length - off)) by omega]
    simp only [Nat.zero_add, append_nil, nil_append, append_assoc]
    rw [← append_assoc (src.take _), take_append_drop]

theorem overlay_split {k : Nat} (hk : dst.length ≤ off + k) :
    overlay dst off src = overlay dst off (src.take k) ++ src.drop k := by
  by_cases hlen : src.length ≤ k
  · rw [take_of_length_le hlen, drop_of_length_le hlen, append_nil]
  · rw [overlay, overlay, length_take, drop_of_length_le (by omega),
      drop_of_length_le (by omega), append_nil, append_nil, append_assoc,
      take_append_drop]

theorem slice_overlay {a m : Nat} (hslice : a + m ≤ dst.length)
    (hoff : off ≤ m) (hn : n = max m (off + src.length)) :
    ((overlay dst (a + off) src).drop a).take n = overlay ((dst.drop a).take m) off src := by
  have hlen : ((dst.drop a).take m).length = m := by
    rw [length_take, length_drop]
    omega
  apply ext_getElem?
  intro i
  rw [getElem?_overlay (by omega), getElem?_take, getElem?_drop,
    getElem?_overlay (by omega), getElem?_take, getElem?_drop]
  by_cases hin : off ≤ i ∧ i < off + src.length
  · rw [if_pos (show i < n by omega), if_pos (by omega), if_pos hin]
    congr 1
    omega
  · rw [if_neg (show ¬ (a + off ≤ a + i ∧ a + i < a + off + src.length) by omega), if_neg hin]
    by_cases him : i < m
    · rw [if_pos (show i < n by omega), if_pos him]
    · rw [if_neg (show ¬ i < n by omega), if_neg him]

theorem add_mod_eq (hoff : off < n) (hi : i ≤ n) :
    (off + i) % n = if off + i < n then off + i else off + i - n := by
  split_ifs with hlt
  · exact Nat.mod_eq_of_lt hlt
  · rw [Nat.mod_eq_sub_mod (by omega), Nat.mod_eq_of_lt (by omega)]

/-- `n` elements from `off` on, going on at the front. -/
def window (base : List α) (off n : Nat) : List α :=
  (base.drop off).take (min n (base.length - off)) ++ base.take (n - min n (base.length - off))

theorem length_window (hn : n ≤ base.length) : (window base off n).length = n := by
  simp only [window, length_append, length_take, length_drop]
  omega

theorem getElem?_window (hoff : off < base.length) (hn : n ≤ base.length) (hi : i < n) :
    (window base off n)[i]? = base[(off + i) % base.length]? := by
  have hfirst : ((base.drop off).take (min n (base.length - off))).length
      = min n (base.length - off) := by
    rw [length_take, length_drop]
    omega
  rw [window, add_mod_eq hoff (by omega)]
  split_ifs with hlt
  · rw [getElem?_append_left (by omega), getElem?_take_of_lt (by omega),
      getElem?_drop]
  · rw [getElem?_append_right (by omega), hfirst, getElem?_take_of_lt (by omega)]
    congr 1
    omega

/-- `src` copied over the elements from `off` on, going on at the front. -/
def fill (base : List α) (off : Nat) (src : List α) : List α :=
  overlay (overlay base off (src.take (min src.length (base.length - off)))) 0
    (src.drop (min src.length (base.length - off)))

theorem length_fill (hoff : off < base.length)
    (hn : src.length ≤ base.length) : (fill base off src).length = base.length := by
  have hfirst : (overlay base off (src.take (min src.length (base.length - off)))).length
      = base.length := by
    apply length_overlay
    rw [length_take]
    omega
  rw [fill, length_overlay, hfirst]
  rw [hfirst, length_drop]
  omega

theorem getElem?_fill (hoff : off < base.length)
    (hn : src.length ≤ base.length) (hi : i < base.length) :
    (fill base off src)[(off + i) % base.length]?
      = if i < src.length then src[i]? else base[(off + i) % base.length]? := by
  have hpos := add_mod_eq hoff (Nat.le_of_lt hi)
  rw [fill, getElem?_overlay (Nat.zero_le _), getElem?_overlay (Nat.le_of_lt hoff), length_take,
    length_drop, hpos]
  by_cases hlt : off + i < base.length
  · -- the position lies in the first piece
    rw [if_pos hlt, if_neg (by omega)]
    by_cases hi' : i < src.length
    · rw [if_pos (by omega), if_pos hi', getElem?_take_of_lt (by omega)]
      congr 1
      omega
    · rw [if_neg (by omega), if_neg hi']
  · rw [if_neg hlt]
    by_cases hi' : i < src.length
    · rw [if_pos (by omega), if_pos hi', getElem?_drop]
      congr 1
      omega
    · rw [if_neg (by omega), if_neg (by omega), if_neg hi']

end Ring

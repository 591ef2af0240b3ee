import Nuttx.Mm.Circbuf.Model

/-!
# A bounded queue of bytes

What a circular buffer is for. The queue never holds more than its capacity.
-/

namespace Nuttx.Mm

structure Queue where
  cap : Nat
  items : List UInt8
  fits : items.length ≤ cap

namespace Queue

open Circbuf (Call)

def newest (n : Nat) (l : List UInt8) : List UInt8 := l.drop (l.length - n)

theorem length_newest_le (n : Nat) (l : List UInt8) : (newest n l).length ≤ n := by
  rw [newest, List.length_drop]
  omega

def write (q : Queue) (src : List UInt8) : Queue where
  cap := q.cap
  items := q.items ++ src.take (q.cap - q.items.length)
  fits := by
    have hfits := q.fits
    rw [List.length_append, List.length_take]
    omega

def overwrite (q : Queue) (src : List UInt8) : Queue where
  cap := q.cap
  items := newest q.cap (q.items ++ src)
  fits := length_newest_le _ _

def skip (q : Queue) (bytes : Nat) : Queue where
  cap := q.cap
  items := q.items.drop bytes
  fits := by
    have hfits := q.fits
    rw [List.length_drop]
    omega

def empty (cap : Nat) : Queue := ⟨cap, [], Nat.zero_le cap⟩

def resize (q : Queue) (cap : Nat) : Queue := ⟨cap, newest cap q.items, length_newest_le _ _⟩

def call (q : Queue) : Call → (Nat × List UInt8) × Queue
  | .write src => ((min src.length (q.cap - q.items.length), []), q.write src)
  | .overwrite src => ((min src.length q.cap - (q.cap - q.items.length), []), q.overwrite src)
  | .read bytes => ((min bytes q.items.length, q.items.take bytes), q.skip bytes)
  | .peek bytes => ((min bytes q.items.length, q.items.take bytes), q)
  | .skip bytes => ((min bytes q.items.length, []), q.skip bytes)
  | .reset => ((0, []), empty q.cap)
  | .resize bytes _ => ((0, []), q.resize bytes)

def run (q : Queue) : List Call → List (Nat × List UInt8) × Queue
  | [] => ([], q)
  | x :: xs =>
    let (out, q) := q.call x
    let (outs, q) := run q xs
    (out :: outs, q)

def passes (q : Queue) : Call → Nat
  | .write src => min src.length (q.cap - q.items.length)
  | .overwrite src => min src.length q.cap
  | _ => 0

def traffic (q : Queue) : List Call → Nat
  | [] => 0
  | x :: xs => q.passes x + traffic (q.call x).2 xs

end Queue

namespace Circbuf

def contents (w : Nat) (circ : Circbuf) : List (Option UInt8) :=
  (List.range (circbufUsed w circ)).map fun i => circ.base[(circ.tail + i) % circ.size]?

def outOf (w : Nat) (out : Nat × List UInt8) : Int × List UInt8 := (ssize w out.1, out.2)

end Circbuf

end Nuttx.Mm

import Nuttx.Include.Assert
import Nuttx.Library.Ring
import Mathlib.Algebra.Ring.Int.Defs
import Mathlib.Algebra.Ring.Nat

/-!
# Circular buffers

The functions of `mm/circbuf` for a `size_t` of `w` bits. The counters `head` and `tail` run freely:
they are taken modulo `2 ^ w` where they are stored and modulo the size of the buffer where they are
used as offsets.
-/

namespace Nuttx.Mm

open Ring

namespace Circbuf

inductive Assertion
  | initBase
  | resizeExternal
  deriving DecidableEq, Repr

def enomem : Int := 12

def ssize (w n : Nat) : Int := Int.bmod n (2 ^ w)

def usize (w : Nat) (x : Int) : Nat := (x % 2 ^ w).toNat

end Circbuf

structure Circbuf where
  base : List UInt8
  size : Nat
  head : Nat
  tail : Nat
  external : Bool
  deriving DecidableEq, Repr

variable (w : Nat) (circ : Circbuf)

namespace Circbuf

def circbufInit (debug : Bool) (circ : Circbuf) (base : Option (List UInt8)) (bytes : Nat)
    (tmp : Option (List UInt8)) : Except Assertion (Int × Circbuf) := do
  debugAssert debug .initBase (base.isNone ∨ bytes ≠ 0)
  let circ := { circ with external := base.isSome }
  if base.isNone ∧ bytes ≠ 0 then
    match tmp with
    | none => return (-enomem, circ)
    | some tmp => return (0, { circ with base := tmp, size := bytes, head := 0, tail := 0 })
  else
    return (0, { circ with base := base.getD [], size := bytes, head := 0, tail := 0 })

def circbufReset (circ : Circbuf) : Circbuf := { circ with head := 0, tail := 0 }

def circbufUsed : Nat := (circ.head + 2 ^ w - circ.tail) % 2 ^ w

def circbufSpace : Nat := (circ.size + 2 ^ w - circbufUsed w circ) % 2 ^ w

def circbufPeek (bytes : Nat) : Int × List UInt8 :=
  if circ.size = 0 then
    (0, [])
  else
    let len := circbufUsed w circ
    let off := circ.tail % circ.size
    let bytes := if bytes > len then len else bytes
    let len := circ.size - off
    let len := if bytes < len then bytes else len
    (ssize w bytes, (circ.base.drop off).take len ++ circ.base.take (bytes - len))

def circbufRead (bytes : Nat) : (Int × List UInt8) × Circbuf :=
  let (ret, dst) := circbufPeek w circ bytes
  let bytes := usize w ret
  ((ssize w bytes, dst), { circ with tail := (circ.tail + bytes) % 2 ^ w })

def circbufSkip (bytes : Nat) : Int × Circbuf :=
  let len := circbufUsed w circ
  let bytes := if bytes > len then len else bytes
  (ssize w bytes, { circ with tail := (circ.tail + bytes) % 2 ^ w })

def circbufWrite (src : List UInt8) : Int × Circbuf :=
  if circ.size = 0 then
    (0, circ)
  else
    let bytes := src.length
    let space := circbufSpace w circ
    let off := circ.head % circ.size
    let bytes := if bytes > space then space else bytes
    let space := circ.size - off
    let space := if bytes < space then bytes else space
    let base := overlay circ.base off (src.take space)
    let base := overlay base 0 ((src.drop space).take (bytes - space))
    (ssize w bytes, { circ with base := base, head := (circ.head + bytes) % 2 ^ w })

def circbufOverwrite (src : List UInt8) : Int × Circbuf :=
  if circ.size = 0 then
    (0, circ)
  else
    let bytes := src.length
    let src := if bytes > circ.size then src.drop (bytes - circ.size) else src
    let bytes := if bytes > circ.size then circ.size else bytes
    let space := circbufSpace w circ
    let overwrite := if bytes > space then bytes - space else 0
    let off := circ.head % circ.size
    let space := circ.size - off
    let space := if bytes < space then bytes else space
    let base := overlay circ.base off (src.take space)
    let base := overlay base 0 ((src.drop space).take (bytes - space))
    (ssize w overwrite, { circ with
      base := base
      head := (circ.head + bytes) % 2 ^ w
      tail := (circ.tail + overwrite) % 2 ^ w })

def circbufResize (debug : Bool) (w : Nat) (circ : Circbuf) (bytes : Nat) (tmp : Option (List UInt8)) :
    Except Assertion (Int × Circbuf) := do
  debugAssert debug .resizeExternal (!circ.external)
  if bytes ≠ 0 then
    match tmp with
    | none => return (-enomem, circ)
    | some tmp =>
      let len := circbufUsed w circ
      let circ := if bytes < len then (circbufSkip w circ (len - bytes)).2 else circ
      let len := if bytes < len then bytes else len
      let ((_, dst), circ) := circbufRead w circ len
      return (0, { circ with base := overlay tmp 0 dst, size := bytes, head := len, tail := 0 })
  else
    return (0, { circ with base := [], size := bytes, head := 0, tail := 0 })

inductive Call
  | write (src : List UInt8)
  | overwrite (src : List UInt8)
  | read (bytes : Nat)
  | peek (bytes : Nat)
  | skip (bytes : Nat)
  | reset
  | resize (bytes : Nat) (tmp : Option (List UInt8))

def call (debug : Bool) (w : Nat) (circ : Circbuf) : Call →
    Except Assertion ((Int × List UInt8) × Circbuf)
  | .write src =>
    let (ret, circ) := circbufWrite w circ src
    return ((ret, []), circ)
  | .overwrite src =>
    let (ret, circ) := circbufOverwrite w circ src
    return ((ret, []), circ)
  | .read bytes => return circbufRead w circ bytes
  | .peek bytes => return (circbufPeek w circ bytes, circ)
  | .skip bytes =>
    let (ret, circ) := circbufSkip w circ bytes
    return ((ret, []), circ)
  | .reset => return ((0, []), circbufReset circ)
  | .resize bytes tmp => do
      let (ret, circ) ← circbufResize debug w circ bytes tmp
      return ((ret, []), circ)

/-- The memory that a buffer gets from its caller or from `kmm_malloc` has the size it is said to
have. -/
def InitOk (w : Nat) (base : Option (List UInt8)) (bytes : Nat) (tmp : Option (List UInt8)) : Prop :=
  bytes < 2 ^ w ∧ (∀ mem, base = some mem → bytes ≠ 0 ∧ mem.length = bytes) ∧
    (base = none → bytes ≠ 0 → ∃ mem, tmp = some mem ∧ mem.length = bytes)

def run (debug : Bool) (w : Nat) (circ : Circbuf) : List Call →
    Except Assertion (List (Int × List UInt8) × Circbuf)
  | [] => .ok ([], circ)
  | x :: xs => do
      let (out, circ) ← circ.call debug w x
      let (outs, circ) ← run debug w circ xs
      return (out :: outs, circ)

/-- The arguments of a call are values of `size_t`. An allocation that is asked for succeeds, and only
a buffer with memory of its own is resized. -/
def Allows (w : Nat) (external : Bool) : Call → Prop
  | .write src => src.length < 2 ^ w
  | .overwrite src => src.length < 2 ^ w
  | .read bytes => bytes < 2 ^ w
  | .peek bytes => bytes < 2 ^ w
  | .skip bytes => bytes < 2 ^ w
  | .reset => True
  | .resize bytes tmp => bytes < 2 ^ w ∧ external = false ∧
      (bytes ≠ 0 → ∃ mem, tmp = some mem ∧ mem.length = bytes)

end Circbuf

end Nuttx.Mm

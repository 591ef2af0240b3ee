import Nuttx.Library.Machine

/-!
# Character classes and strings

A string is the list of its bytes before the terminator, and a pointer into it the list of the bytes
from there on: reading at the end of the list reads the terminator.
-/

namespace Nuttx.Libc

def isspace (c : UInt8) : Bool :=
  c = ' '.toUInt8 ∨ c = '\t'.toUInt8 ∨ c = '\n'.toUInt8 ∨ c = '\r'.toUInt8 ∨ c = 0x0c ∨ c = 0x0b

def isxdigit (c : UInt8) : Bool :=
  ('0'.toUInt8 ≤ c ∧ c ≤ '9'.toUInt8) ∨ ('a'.toUInt8 ≤ c ∧ c ≤ 'f'.toUInt8) ∨
    ('A'.toUInt8 ≤ c ∧ c ≤ 'F'.toUInt8)

structure CString where
  bytes : List UInt8
  noNul : 0 ∉ bytes

def deref (p : List UInt8) : UInt8 := p.headD 0

@[simp]
theorem deref_cons (c : UInt8) (p : List UInt8) : deref (c :: p) = c := rfl

@[simp]
theorem deref_nil : deref [] = 0 := rfl

def back (s p : List UInt8) : List UInt8 := s.drop (s.length - p.length - 1)

theorem back_append (a : List UInt8) (c : UInt8) (p : List UInt8) :
    back (a ++ c :: p) p = c :: p := by
  have hlen : (a ++ c :: p).length - p.length - 1 = a.length := by
    simp only [List.length_append, List.length_cons]
    omega
  rw [back, hlen, List.drop_left]

end Nuttx.Libc

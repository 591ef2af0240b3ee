import Nuttx.Libc.Ctype

/-!
# String to integer

`strtoul`, `strtol` and what they are made of, for a 32-bit `long`. `strtol` takes white space and a
sign off the string and hands the rest to `strtoul`, which does the same once more.
-/

namespace Nuttx.Libc

def ULONG_MAX : Nat := 4294967295
def LONG_MAX : Int := 2147483647
def LONG_MIN : Int := -LONG_MAX - 1

inductive Errno where
  | EINVAL
  | ERANGE
  deriving DecidableEq, Repr

structure Conversion (α : Type) where
  value : α
  endptr : List UInt8
  errno : Option Errno
  deriving DecidableEq, Repr

def libSkipspace (ptr : List UInt8) : List UInt8 := ptr.dropWhile isspace

def libIsbasedigit (ch : UInt8) (base : Nat) : Option Nat :=
  let ch := ch.toNat
  if base ≤ 10 then
    if '0'.toNat ≤ ch ∧ ch + 1 ≤ base + '0'.toNat then some (ch - '0'.toNat) else none
  else if base ≤ 36 then
    if '0'.toNat ≤ ch ∧ ch ≤ '9'.toNat then some (ch - '0'.toNat)
    else if 'a'.toNat ≤ ch ∧ ch ≤ 'a'.toNat + base - 11 then some (ch - 'a'.toNat + 10)
    else if 'A'.toNat ≤ ch ∧ ch ≤ 'A'.toNat + base - 11 then some (ch - 'A'.toNat + 10)
    else none
  else none

def isX (ch : UInt8) : Bool := ch = 'X'.toUInt8 ∨ ch = 'x'.toUInt8

def libCheckbase (base : Int) (ptr : List UInt8) : Option (Nat × List UInt8) :=
  if base = 0 then
    if deref ptr = '0'.toUInt8 then
      let ptr := ptr.tail
      if isX (deref ptr) ∧ (libIsbasedigit (deref ptr.tail) 16).isSome then some (16, ptr.tail)
      else some (8, ptr)
    else some (10, ptr)
  else if base = 16 then
    if deref ptr = '0'.toUInt8 ∧ isX (deref ptr.tail) then some (16, ptr.tail.tail)
    else some (16, ptr)
  else if base < 2 ∨ base > 26 then none
  else some (base.toNat, ptr)

@[grind =] def accumulate (base : Nat) : Nat → List UInt8 → Conversion Nat
  | accum, [] => ⟨accum, [], none⟩
  | accum, ch :: nptr =>
    match libIsbasedigit ch base with
    | none => ⟨accum, ch :: nptr, none⟩
    | some value =>
      if accum > ULONG_MAX / base ∨ (accum = ULONG_MAX / base ∧ value > ULONG_MAX % base) then
        ⟨ULONG_MAX, ch :: nptr, some .ERANGE⟩
      else accumulate base ((accum * base + value) % 2 ^ 32) nptr

def isSign (ch : UInt8) : Bool := ch = '-'.toUInt8 ∨ ch = '+'.toUInt8

def takeSign (nptr : List UInt8) : UInt8 × List UInt8 :=
  if isSign (deref nptr) then (deref nptr, nptr.tail) else (0, nptr)

variable (s : List UInt8)

def ungetSign (sign : UInt8) (nptr : List UInt8) : List UInt8 :=
  if sign ≠ 0 ∧ deref (back s nptr) = sign then back s nptr else nptr

def strtoul (base : Int) : Conversion Nat :=
  let (sign, nptr) := takeSign (libSkipspace s)
  match libCheckbase base nptr with
  | none => ⟨0, ungetSign s sign nptr, some .EINVAL⟩
  | some (base, nptr) =>
    let digits := accumulate base 0 nptr
    -- ~accum + 1
    let accum :=
      if sign = '-'.toUInt8 then (2 ^ 32 - digits.value) % 2 ^ 32 else digits.value
    ⟨accum, ungetSign s sign digits.endptr, digits.errno⟩

def limit : Nat := 2147483648

def strtol (base : Int) : Conversion Int :=
  let (sign, nptr) := takeSign (libSkipspace s)
  let unsigned := strtoul nptr base
  let accum := unsigned.value
  let endptr := ungetSign s sign unsigned.endptr
  if sign = '-'.toUInt8 then
    if accum > limit then ⟨LONG_MIN, endptr, some .ERANGE⟩
    else ⟨if accum = limit then LONG_MIN else -accum, endptr, unsigned.errno⟩
  else if (accum : Int) > LONG_MAX then ⟨LONG_MAX, endptr, some .ERANGE⟩
  else ⟨accum, endptr, unsigned.errno⟩

def atoi : Int := (strtol s 10).value

end Nuttx.Libc

import Nuttx.Libc.Ctype

/-!
# Network address to text

`inet_ipv6_ntop`: the first of the longest runs of zero words is printed as `::`. A string is built in
`dest` by calls of `snprintf` that each append to it; `size` counts down with them.
-/

namespace Nuttx.Libc

def INET6_ADDRSTRLEN : Nat := 46

def enospc : Int := 28

structure In6Addr where
  bytes : List UInt8
  size : bytes.length = 16

def In6Addr.warray (addr : In6Addr) (offset : Nat) : Nat :=
  (addr.bytes.getD (2 * offset) 0).toNat * 2 ^ 8 + (addr.bytes.getD (2 * offset + 1) 0).toNat

def hexDigit (n : Nat) : UInt8 :=
  UInt8.ofNat (if n < 10 then '0'.toNat + n else 'a'.toNat + (n - 10))

def printHex (n : Nat) : List UInt8 :=
  if n < 16 then [hexDigit n] else printHex (n / 16) ++ [hexDigit (n % 16)]

structure Dest where
  text : List UInt8
  size : Nat

/-- `size -= snprintf(&dest[strlen(dest)], size, …)`, with `text` the formatted text: at most
`size - 1` characters of it are stored; `size` is a `socklen_t` of 32 bits. -/
def Dest.snprintf (dest : Dest) (text : List UInt8) : Dest :=
  ⟨dest.text ++ text.take (dest.size - 1), (dest.size + 2 ^ 32 - text.length) % 2 ^ 32⟩

structure ZeroRun where
  entry : Nat
  count : Nat
  pos : 0 < count

def maxcount (run : Option ZeroRun) : Nat := (run.map ZeroRun.count).getD 0

def runEnd (warray : Nat → Nat) (offset count : Nat) : Nat × Nat :=
  if offset < 8 then
    if warray offset ≠ 0 then (offset, count) else runEnd warray (offset + 1) (count + 1)
  else (offset, count)
termination_by 8 - offset

theorem le_runEnd (warray : Nat → Nat) (offset count : Nat) :
    offset ≤ (runEnd warray offset count).1 := by
  fun_induction runEnd warray offset count <;> omega

def longestRun (warray : Nat → Nat) (offset : Nat) (max : Option ZeroRun) : Option ZeroRun :=
  if offset < 8 then
    if warray offset = 0 then
      let stop := runEnd warray (offset + 1) 1
      longestRun warray (stop.1 + 1)
        (if h : stop.2 > maxcount max then some ⟨offset, stop.2, Nat.zero_lt_of_lt h⟩ else max)
    else longestRun warray (offset + 1) max
  else max
termination_by 8 - offset
decreasing_by
  · have hstop := le_runEnd warray (offset + 1) 1
    omega
  · omega

def printWords (warray : Nat → Nat) (max : Option ZeroRun) (offset : Nat) (dest : Dest) : Dest :=
  if offset < 8 then
    match max.filter fun run => offset = run.entry with
    | some run =>
      let dest := dest.snprintf [':'.toUInt8]
      let dest := if offset + run.count ≥ 8 then dest.snprintf [':'.toUInt8] else dest
      printWords warray max (offset + run.count) dest
    | none =>
      let dest := if offset > 0 then dest.snprintf [':'.toUInt8] else dest
      printWords warray max (offset + 1) (dest.snprintf (printHex (warray offset)))
  else dest
termination_by 8 - offset
decreasing_by
  · have hpos := run.pos
    omega
  · omega

def inetIpv6Ntop (addr : In6Addr) (size : Nat) : Except Int (List UInt8) :=
  if size < INET6_ADDRSTRLEN then .error (-enospc)
  else .ok (printWords addr.warray (longestRun addr.warray 0 none) 0 ⟨[], size⟩).text

end Nuttx.Libc

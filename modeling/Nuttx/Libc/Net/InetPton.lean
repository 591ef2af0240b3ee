import Nuttx.Libc.Stdlib.Strtol
import Nuttx.Library.WriteLog

/-!
# Text to network address

`inet_ipv4_pton` and `inet_ipv6_pton`. The writes to the result and to the local buffers are kept as
logs, so that a write behind the end of a buffer can be seen.
-/

namespace Nuttx.Libc

/-- The local buffer `char numstr[size]` with `numoffset` characters in it: there is always room for
one more character, or for the terminator. -/
structure Numstr (size : Nat) where
  chars : List UInt8
  fits : chars.length < size

def Numstr.empty {size : Nat} (h : 0 < size) : Numstr size := ⟨[], h⟩

def Numstr.push? {size : Nat} (numstr : Numstr size) (ch : UInt8) : Option (Numstr size) :=
  if h : numstr.chars.length + 1 < size then
    some ⟨numstr.chars ++ [ch], by rw [List.length_append]; exact h⟩
  else none

structure Ipv4Out where
  ret : Nat
  dest : List (Nat × UInt8)
  deriving DecidableEq, Repr

def ipv4Number (numstr : Numstr 4) (ndots : Nat) (dest : List (Nat × UInt8)) :
    Option (List (Nat × UInt8)) :=
  if numstr.chars.length < 1 then none
  else
    let value := atoi numstr.chars
    if value < 0 ∨ value > 255 then none else some (dest ++ [(ndots, UInt8.ofNat value.toNat)])

def ipv4End (numstr : Numstr 4) (ndots : Nat) (dest : List (Nat × UInt8)) : Ipv4Out :=
  match ipv4Number numstr ndots dest with
  | none => ⟨0, dest⟩
  | some dest => if ndots ≠ 3 then ⟨0, dest⟩ else ⟨1, dest⟩

@[grind =] def ipv4Loop : List UInt8 → Numstr 4 → Nat → List (Nat × UInt8) → Ipv4Out
  | [], numstr, ndots, dest => ipv4End numstr ndots dest
  | ch :: src, numstr, ndots, dest =>
    if ch = 0 then ipv4End numstr ndots dest
    else if ch = '.'.toUInt8 then
      if ndots ≥ 4 then ⟨0, dest⟩
      else
        match ipv4Number numstr ndots dest with
        | none => ⟨0, dest⟩
        | some dest => ipv4Loop src (.empty (by decide)) (ndots + 1) dest
    else if '0'.toUInt8 ≤ ch ∧ ch ≤ '9'.toUInt8 then
      match numstr.push? ch with
      | none => ⟨0, dest⟩
      | some numstr => ipv4Loop src numstr ndots dest
    else ⟨0, dest⟩

def inetIpv4Pton (src : List UInt8) : Ipv4Out :=
  ipv4Loop src (.empty (by decide)) 0 (WriteLog.row 0 [0, 0, 0, 0])

/-- The local state of `inet_ipv6_pton`: groups go to `ip` until a `::` was seen and to `rip` from
then on. -/
structure Ipv6State where
  numstr : Numstr 5
  ip : List (Nat × UInt8)
  rip : List (Nat × UInt8)
  nsep : Nat
  nrsep : Nat
  rtime : Bool

structure Ipv6Out where
  ret : Nat
  dest : List (Nat × UInt8)
  ip : List (Nat × UInt8)
  rip : List (Nat × UInt8)
  deriving DecidableEq, Repr

def ipv6Cleared : List (Nat × UInt8) := WriteLog.row 0 (List.replicate 16 0)

def Ipv6State.fail (st : Ipv6State) : Ipv6Out := ⟨0, ipv6Cleared, st.ip, st.rip⟩

def groupBytes (value : Nat) : List UInt8 :=
  [UInt8.ofNat (value / 2 ^ 8 % 256), UInt8.ofNat (value % 256)]

def Ipv6State.store? (st : Ipv6State) : Option Ipv6State :=
  let value := (strtol st.numstr.chars 16).value
  if value < 0 ∨ value > 0xffff then none
  else if ! st.rtime then
    some { st with
      numstr := .empty (by decide)
      ip := st.ip ++ WriteLog.row (2 * st.nsep) (groupBytes value.toNat)
      nsep := st.nsep + 1 }
  else
    some { st with
      numstr := .empty (by decide)
      rip := st.rip ++ WriteLog.row (2 * st.nrsep) (groupBytes value.toNat)
      nrsep := st.nrsep + 1 }

def bufferBytes (log : List (Nat × UInt8)) (n : Nat) : List UInt8 :=
  (List.range n).map fun i => (WriteLog.last? log i).getD 0

def Ipv6State.finish (st : Ipv6State) : Ipv6Out :=
  match st.store? with
  | none => st.fail
  | some st =>
    if (st.nsep ≤ 1 ∧ st.nrsep = 0) ∨ st.nsep + st.nrsep < 1 ∨ st.nsep + st.nrsep > 8 then st.fail
    else
      ⟨1, ipv6Cleared ++ WriteLog.row 0 (bufferBytes st.ip (2 * st.nsep)) ++
        WriteLog.row (16 - 2 * st.nrsep) (bufferBytes st.rip (2 * st.nrsep)), st.ip, st.rip⟩

@[grind =] def ipv6Loop : List UInt8 → Ipv6State → Ipv6Out
  | [], st => st.finish
  | ch :: src, st =>
    if ch = 0 then st.finish
    else if ch = ':'.toUInt8 then
      if st.nsep + st.nrsep ≥ 8 then st.fail
      else if st.numstr.chars.length < 1 then
        if st.rtime ∧ st.nrsep > 1 then st.fail
        else ipv6Loop src { st with numstr := .empty (by decide), rtime := true }
      else
        match st.store? with
        | none => st.fail
        | some st => ipv6Loop src st
    else if isxdigit ch then
      match st.numstr.push? ch with
      | none => st.fail
      | some numstr => ipv6Loop src { st with numstr := numstr }
    else st.fail

def inetIpv6Pton (src : List UInt8) : Ipv6Out :=
  ipv6Loop src ⟨.empty (by decide), [], [], 0, 0, false⟩

end Nuttx.Libc

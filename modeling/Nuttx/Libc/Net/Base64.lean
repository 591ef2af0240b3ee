import Nuttx.Libc.Ctype
import Nuttx.Library.WriteLog

/-!
# Base64

`b64_ntop` and `b64_pton`, for a `size_t` of `w` bits and an `int` of 32 bits. The writes to the
target are kept as a log.
-/

namespace Nuttx.Libc.Base64

open WriteLog

def gBase64 : List UInt8 :=
  "ABCDEFGHIJKLMNOPQRSTUVWXYZabcdefghijklmnopqrstuvwxyz0123456789+/".toList.map Char.toUInt8

abbrev gPad64 : UInt8 := '='.toUInt8

def digit (n : Nat) : UInt8 := gBase64.getD n 0

@[irreducible]
def toInt (n : Nat) : Int := (n : Int).bmod (2 ^ 32)

structure NtopOut where
  ret : Int
  target : List (Nat × UInt8)

def block (a b c : UInt8) : List UInt8 :=
  [digit (a.toNat >>> 2), digit (((a.toNat &&& 0x03) <<< 4) + (b.toNat >>> 4)),
    digit (((b.toNat &&& 0x0f) <<< 2) + (c.toNat >>> 6)), digit (c.toNat &&& 0x3f)]

def block1 (a : UInt8) : List UInt8 :=
  [digit (a.toNat >>> 2), digit ((a.toNat &&& 0x03) <<< 4), gPad64, gPad64]

def block2 (a b : UInt8) : List UInt8 :=
  [digit (a.toNat >>> 2), digit (((a.toNat &&& 0x03) <<< 4) + (b.toNat >>> 4)),
    digit ((b.toNat &&& 0x0f) <<< 2), gPad64]

def ntopLast (w targsize : Nat) (chars : List UInt8) (target datalen : Nat)
    (log : List (Nat × UInt8)) : NtopOut :=
  let datalen := (datalen + 4) % 2 ^ w
  if datalen ≥ targsize then ⟨-1, log⟩
  else ⟨toInt datalen, log ++ row target chars ++ [(target + 4, 0)]⟩

def ntopLoop (w targsize : Nat) : List UInt8 → Nat → Nat → List (Nat × UInt8) → NtopOut
  | a :: b :: c :: src, target, datalen, log =>
    let datalen := (datalen + 4) % 2 ^ w
    if datalen ≥ targsize then ⟨-1, log⟩
    else ntopLoop w targsize src (target + 4) datalen (log ++ row target (block a b c))
  | [a, b], target, datalen, log => ntopLast w targsize (block2 a b) target datalen log
  | [a], target, datalen, log => ntopLast w targsize (block1 a) target datalen log
  | [], target, datalen, log => ⟨toInt datalen, log ++ [(target, 0)]⟩

def b64Ntop (w : Nat) (src : List UInt8) (targsize : Nat) : NtopOut :=
  ntopLoop w targsize src 0 0 []

structure PtonOut where
  ret : Int
  target : List (Nat × UInt8)

inductive State
  | zero
  | one
  | two
  | three
  deriving DecidableEq, Repr

structure Pton where
  state : State
  target : Nat
  datalen : Nat
  log : List (Nat × UInt8)

def strchr (ch : UInt8) : Option Nat := gBase64.findIdx? fun c => c = ch

def Pton.deref (memory : Nat → UInt8) (st : Pton) : UInt8 :=
  (last? st.log st.target).getD (memory st.target)

/-- The `switch` for a character with the index `pos`; `none` if the function returns -1 there. A
target that is `NULL` is not written, and counts in state 3 only. -/
def Pton.next? (w : Nat) (target : Option (Nat → UInt8)) (targsize pos : Nat) (st : Pton) :
    Option Pton :=
  match st.state, target with
  | .zero, some _ =>
    if st.datalen ≥ targsize then none
    else some { st with state := .one, log := st.log ++ [(st.target, UInt8.ofNat (pos <<< 2))] }
  | .zero, none => some { st with state := .one }
  | .one, some memory =>
    let datalen := (st.datalen + 1) % 2 ^ w
    if datalen ≥ targsize then none
    else some ⟨.two, st.target + 1, datalen, st.log ++
      [(st.target, st.deref memory ||| UInt8.ofNat (pos >>> 4)),
        (st.target + 1, UInt8.ofNat ((pos &&& 0x0f) <<< 4))]⟩
  | .one, none => some { st with state := .two }
  | .two, some memory =>
    let datalen := (st.datalen + 1) % 2 ^ w
    if datalen ≥ targsize then none
    else some ⟨.three, st.target + 1, datalen, st.log ++
      [(st.target, st.deref memory ||| UInt8.ofNat (pos >>> 2)),
        (st.target + 1, UInt8.ofNat ((pos &&& 0x03) <<< 6))]⟩
  | .two, none => some { st with state := .three }
  | .three, some memory =>
    some ⟨.zero, st.target + 1, (st.datalen + 1) % 2 ^ w,
      st.log ++ [(st.target, st.deref memory ||| UInt8.ofNat pos)]⟩
  | .three, none => some { st with state := .zero, datalen := (st.datalen + 1) % 2 ^ w }

def skipSpace (src : List UInt8) : List UInt8 := src.dropWhile isspace

def Pton.padded (target : Option (Nat → UInt8)) (src : List UInt8) (st : Pton) : PtonOut :=
  if Libc.deref (skipSpace src) ≠ 0 then ⟨-1, st.log⟩
  else if (target.map fun memory => st.deref memory).getD 0 ≠ 0 then ⟨-1, st.log⟩
  else ⟨toInt st.datalen, st.log⟩

def Pton.pad (target : Option (Nat → UInt8)) (src : List UInt8) (st : Pton) : PtonOut :=
  match st.state with
  | .zero | .one => ⟨-1, st.log⟩
  | .two =>
    if Libc.deref (skipSpace src) ≠ gPad64 then ⟨-1, st.log⟩
    else st.padded target (skipSpace src).tail
  | .three => st.padded target src

def Pton.unpadded (st : Pton) : PtonOut :=
  if st.state ≠ .zero then ⟨-1, st.log⟩ else ⟨toInt st.datalen, st.log⟩

def ptonLoop (w : Nat) (target : Option (Nat → UInt8)) (targsize : Nat) : List UInt8 → Pton → PtonOut
  | [], st => st.unpadded
  | ch :: src, st =>
    if ch = 0 then st.unpadded
    else if isspace ch then ptonLoop w target targsize src st
    else if ch = gPad64 then st.pad target src
    else
      match (strchr ch).bind fun pos => st.next? w target targsize pos with
      | none => ⟨-1, st.log⟩
      | some st => ptonLoop w target targsize src st

def b64Pton (w : Nat) (src : List UInt8) (target : Option (Nat → UInt8)) (targsize : Nat) : PtonOut :=
  ptonLoop w target targsize src ⟨.zero, 0, 0, []⟩

end Nuttx.Libc.Base64

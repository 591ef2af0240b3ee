import Nuttx.Include.Assert
import Nuttx.Library.Ring
import Mathlib.Algebra.Ring.Int.Defs
import Mathlib.Algebra.Ring.Nat

/-!
# Chains of I/O buffers

The functions of `mm/iob` that read, write and edit a chain of buffers of `bufsize` bytes each
(`CONFIG_IOB_BUFSIZE`). A chain is the list of its buffers, head first, and a `memcpy` is
`Ring.overlay`. The editing functions return the buffers they gave to `iob_free` next to the chain.
-/

namespace Nuttx.Mm

open Ring

structure Iob where
  id : Nat
  ioLen : Nat
  ioOffset : Nat
  ioPktlen : Nat
  ioData : List UInt8
  deriving DecidableEq, Repr

namespace Iob

/-- The `DEBUGASSERT`s that do not only say that the arguments are there. -/
inductive Assertion
  | freePktlen
  | trimheadPktlen
  | contigLen
  | contigNext
  deriving DecidableEq, Repr

def enomem : Int := 12

def enospc : Int := 28

def espipe : Int := 29

def lenMod (bufsize : Nat) : Nat := if bufsize < 256 then 2 ^ 8 else 2 ^ 16

def bytes (iob : Iob) : List UInt8 := (iob.ioData.drop iob.ioOffset).take iob.ioLen

def payload (chain : List Iob) : List UInt8 := chain.flatMap bytes

def allocated (iob : Nat × List UInt8) : Iob := ⟨iob.1, 0, 0, 0, iob.2⟩

/-- One round of the loop of `iob_copyin_internal`: the buffer, what the packet length of the head
grows by, and what is left of `src`. -/
def copyinBuffer (bufsize : Nat) (iob : Iob) (next : Bool) (src : List UInt8) (offset : Nat) :
    Iob × Nat × List UInt8 :=
  let len := src.length
  let avail := iob.ioLen - offset
  let (iob, grown, ncopy) :=
    if len > avail then
      if next then
        (iob, 0, avail)
      else
        let maxlen := bufsize - iob.ioOffset
        let newlen := len + offset
        let newlen := if newlen > maxlen then maxlen else newlen
        ({ iob with ioLen := newlen % lenMod bufsize }, newlen - iob.ioLen, newlen - offset)
    else
      (iob, 0, len)
  ({ iob with ioData := overlay iob.ioData (iob.ioOffset + offset) (src.take ncopy) }, grown,
    src.drop ncopy)

/-- The loop from the last buffer of the chain on. `pool` are the buffers that the allocations return
before one of them returns `NULL`. The flag says that all of `src` was copied. -/
def copyinLast (bufsize : Nat) :
    Iob → List UInt8 → Nat → List (Nat × List UInt8) → List Iob × Nat × Bool
  | iob, src, offset, pool =>
    if src.length > 0 then
      let (iob, grown, src) := copyinBuffer bufsize iob false src offset
      if src.length > 0 then
        match pool with
        | [] => ([iob], grown, false)
        | next :: pool =>
          let (chain, more, done) := copyinLast bufsize (allocated next) src 0 pool
          (iob :: chain, grown + more, done)
      else
        ([iob], grown, true)
    else
      ([iob], 0, true)

def copyinLoop (bufsize : Nat) (pool : List (Nat × List UInt8)) :
    Iob → List Iob → List UInt8 → Nat → List Iob × Nat × Bool
  | iob, [], src, offset => copyinLast bufsize iob src offset pool
  | iob, next :: rest, src, offset =>
    if src.length > 0 then
      let (iob, grown, src) := copyinBuffer bufsize iob true src offset
      let (chain, more, done) := copyinLoop bufsize pool next rest src 0
      (iob :: chain, grown + more, done)
    else
      (iob :: next :: rest, 0, true)

def copyinSkip (bufsize : Nat) (pool : List (Nat × List UInt8)) :
    Iob → List Iob → List UInt8 → Nat → List Iob × Nat × Bool
  | iob, [], src, offset => copyinLoop bufsize pool iob [] src offset
  | iob, next :: rest, src, offset =>
    if offset > iob.ioLen then
      let (chain, grown, done) := copyinSkip bufsize pool next rest src (offset - iob.ioLen)
      (iob :: chain, grown, done)
    else
      copyinLoop bufsize pool iob (next :: rest) src offset

def growPktlen (grown : Nat) : List Iob → List Iob
  | [] => []
  | head :: rest => { head with ioPktlen := (head.ioPktlen + grown) % 2 ^ 16 } :: rest

/-- `iob_copyin_internal`. Whether it may block decides only which buffers `pool` the allocations
return. -/
def iobCopyinInternal (bufsize : Nat) (iob : Iob) (rest : List Iob) (src : List UInt8) (offset : Nat)
    (pool : List (Nat × List UInt8)) : Int × List Iob :=
  if offset > iob.ioPktlen then
    (-espipe, iob :: rest)
  else
    let (chain, grown, done) := copyinSkip bufsize pool iob rest src offset
    (if done then src.length else -enomem, growPktlen grown chain)

def iobCopyin (bufsize : Nat) (iob : Iob) (rest : List Iob) (src : List UInt8) (offset : Nat)
    (pool : List (Nat × List UInt8)) : Int × List Iob :=
  iobCopyinInternal bufsize iob rest src offset pool

def copyoutLoop : List Iob → Nat → Nat → List UInt8
  | [], _, _ => []
  | iob :: rest, remaining, offset =>
    if remaining > 0 then
      let avail := iob.ioLen - offset
      let ncopy := min avail remaining
      (iob.ioData.drop (iob.ioOffset + offset)).take ncopy ++ copyoutLoop rest (remaining - ncopy) 0
    else
      []

def iobCopyout : List Iob → Nat → Nat → Nat × List UInt8
  | [], _, _ => (0, [])
  | iob :: rest, len, offset =>
    if offset ≥ iob.ioLen then
      iobCopyout rest len (offset - iob.ioLen)
    else
      let dest := copyoutLoop (iob :: rest) len offset
      (dest.length, dest)

def iobFree (debug : Bool) (iob next : Iob) : Except Assertion Iob := do
  if iob.ioPktlen > iob.ioLen then
    let next := { next with ioPktlen := iob.ioPktlen - iob.ioLen }
    debugAssert debug .freePktlen (next.ioPktlen ≥ next.ioLen)
    return next
  else
    return { next with ioPktlen := 0 }

def trimheadLoop (debug : Bool) (bufsize : Nat) :
    Nat → Nat → Iob → List Iob → Except Assertion (List Iob × List Nat)
  | pktlen, trimlen, iob, rest =>
    if trimlen > 0 then
      if iob.ioLen ≤ trimlen then
        let pktlen := (pktlen + 2 ^ 16 - iob.ioLen) % 2 ^ 16
        let trimlen := trimlen - iob.ioLen
        match rest with
        | [] => do
            debugAssert debug .trimheadPktlen (pktlen = 0)
            return ([{ iob with ioLen := 0, ioOffset := 0, ioPktlen := pktlen }], [])
        | next :: rest => do
            let next ← iobFree debug iob next
            let (chain, freed) ← trimheadLoop debug bufsize pktlen trimlen next rest
            return (chain, iob.id :: freed)
      else
        return ({ iob with
          ioLen := iob.ioLen - trimlen
          ioOffset := (iob.ioOffset + trimlen) % lenMod bufsize
          ioPktlen := (pktlen + 2 ^ 16 - trimlen) % 2 ^ 16 } :: rest, [])
    else
      return ({ iob with ioPktlen := pktlen } :: rest, [])

def iobTrimhead (debug : Bool) (bufsize : Nat) (chain : List Iob) (trimlen : Nat) :
    Except Assertion (List Iob × List Nat) :=
  match chain with
  | [] => return ([], [])
  | iob :: rest =>
    if trimlen > 0 then
      trimheadLoop debug bufsize iob.ioPktlen trimlen iob rest
    else
      return (iob :: rest, [])

/-- The loop of `iob_trimtail` over the chain from its last buffer on: what is left of the chain, the
packet length and the buffers freed. -/
def trimtailLoop : Nat → Nat → List Iob → List Iob × Nat × List Nat
  | pktlen, _, [] => ([], pktlen, [])
  | pktlen, len, last :: before =>
    if len > 0 then
      if last.ioLen ≤ len then
        let (chain, pktlen, freed) :=
          trimtailLoop ((pktlen + 2 ^ 16 - last.ioLen) % 2 ^ 16) (len - last.ioLen) before
        (chain, pktlen, last.id :: freed)
      else
        ({ last with ioLen := last.ioLen - len } :: before, (pktlen + 2 ^ 16 - len) % 2 ^ 16, [])
    else
      (last :: before, pktlen, [])

def setPktlen (pktlen : Nat) : List Iob → List Iob
  | [] => []
  | head :: rest => { head with ioPktlen := pktlen } :: rest

def iobTrimtail (chain : List Iob) (trimlen : Nat) : List Iob × List Nat :=
  match chain with
  | [] => ([], [])
  | iob :: rest =>
    if trimlen > 0 then
      -- the length is kept in an `int`
      let len := (Int.bmod trimlen (2 ^ 32)).toNat
      let (chain, pktlen, freed) := trimtailLoop iob.ioPktlen len (iob :: rest).reverse
      (setPktlen pktlen chain.reverse, freed)
    else
      (iob :: rest, [])

def compact (iob : Iob) : Iob :=
  if iob.ioOffset > 0 then
    { iob with
      ioData := overlay iob.ioData 0 ((iob.ioData.drop iob.ioOffset).take iob.ioLen)
      ioOffset := 0 }
  else
    iob

def moveBytes (bufsize : Nat) (iob next : Iob) (ncopy : Nat) : Iob × Iob :=
  ({ iob with
      ioData := overlay iob.ioData iob.ioLen ((next.ioData.drop next.ioOffset).take ncopy)
      ioLen := (iob.ioLen + ncopy) % lenMod bufsize },
    { next with
      ioOffset := (next.ioOffset + ncopy) % lenMod bufsize
      ioLen := next.ioLen - ncopy })

def contigLoop (debug : Bool) (bufsize len : Nat) :
    Iob → Iob → List Iob → Except Assertion (List Iob × List Nat)
  | iob, next, rest =>
    let ncopy := min (len - iob.ioLen) next.ioLen
    let (iob, next) := moveBytes bufsize iob next ncopy
    if next.ioLen = 0 then
      match rest with
      | [] =>
        if len > iob.ioLen then
          -- the buffer after `NULL` is asked for
          .error .contigNext
        else
          return ([iob], [next.id])
      | after :: rest => do
          let after ← iobFree debug next after
          if len > iob.ioLen then
            let (chain, freed) ← contigLoop debug bufsize len iob after rest
            return (chain, next.id :: freed)
          else
            return (iob :: after :: rest, [next.id])
    else
      -- bytes are left in the next buffer only if no more were needed
      return (iob :: next :: rest, [])

def iobContig (debug : Bool) (bufsize : Nat) (iob : Iob) (rest : List Iob) (len : Nat) :
    Except Assertion (Int × List Iob × List Nat) := do
  debugAssert debug .contigLen (len ≤ bufsize)
  if len ≤ iob.ioLen then
    return (0, iob :: rest, [])
  else if len ≤ iob.ioPktlen then
    match rest with
    | [] => .error .contigNext
    | next :: rest =>
      let (chain, freed) ← contigLoop debug bufsize len (compact iob) next rest
      return (0, chain, freed)
  else
    return (-enospc, iob :: rest, [])

def packHead (debug : Bool) : Iob → List Iob → Except Assertion (Option (Iob × List Iob) × List Nat)
  | iob, rest =>
    if iob.ioLen ≤ 0 then
      match rest with
      | [] => return (none, [iob.id])
      | next :: rest => do
          let next ← iobFree debug iob next
          let (found, freed) ← packHead debug next rest
          return (found, iob.id :: freed)
    else
      return (some (iob, rest), [])

def packLoop (debug : Bool) (bufsize : Nat) :
    Iob → List Iob → Except Assertion (List Iob × List Nat)
  | iob, [] => return ([compact iob], [])
  | iob, next :: rest =>
    let iob := compact iob
    let ncopy := next.ioLen
    let navail := bufsize - iob.ioLen
    let ncopy := if ncopy > navail then navail else ncopy
    let (iob, next) := if ncopy > 0 then moveBytes bufsize iob next ncopy else (iob, next)
    if next.ioLen ≤ 0 then
      match rest with
      | [] => return ([iob], [next.id])
      | after :: rest => do
          let after ← iobFree debug next after
          let (chain, freed) ← packLoop debug bufsize after rest
          return (iob :: chain, next.id :: freed)
    else do
      let (chain, freed) ← packLoop debug bufsize next rest
      return (iob :: chain, freed)

def iobPack (debug : Bool) (bufsize : Nat) (iob : Iob) (rest : List Iob) :
    Except Assertion (List Iob × List Nat) := do
  let (found, freed) ← packHead debug iob rest
  match found with
  | none => return ([], freed)
  | some (iob, rest) =>
    let (chain, more) ← packLoop debug bufsize iob rest
    return (chain, freed ++ more)

def iobConcat (iob1 : Iob) (rest1 : List Iob) (iob2 : Iob) (rest2 : List Iob) : List Iob :=
  { iob1 with ioPktlen := (iob1.ioPktlen + iob2.ioPktlen) % 2 ^ 16 } :: rest1 ++
    { iob2 with ioPktlen := 0 } :: rest2

/-- The loop of `iob_clone` from a buffer of the source chain on, into `iob2` and the buffers `pool`
allocated after it. A round copies a byte at least, so that `fuel` bounds the bytes to copy. -/
def cloneLoop (bufsize : Nat) : Nat → List Iob → Nat → Iob → Nat → List (Nat × List UInt8) →
    Option (Int × List Iob)
  | 0, _, _, _, _, _ => none
  | _ + 1, [], _, iob2, _, _ => some (0, [iob2])
  | fuel + 1, iob1 :: rest, offset1, iob2, offset2, pool =>
    let ncopy := min (iob1.ioLen - offset1) (bufsize - offset2)
    let src := (iob1.ioData.drop (iob1.ioOffset + offset1)).take ncopy
    let iob2 := { iob2 with ioData := overlay iob2.ioData offset2 src }
    let (chain1, offset1) :=
      if offset1 + ncopy ≥ iob1.ioLen then (rest.dropWhile (·.ioLen ≤ 0), 0)
      else (iob1 :: rest, offset1 + ncopy)
    if offset2 + ncopy ≥ bufsize && !chain1.isEmpty then
      match pool with
      | [] => some (-enomem, [iob2])
      | next :: pool => do
          let (ret, chain) ← cloneLoop bufsize fuel chain1 offset1 (allocated next) 0 pool
          return (ret, iob2 :: chain)
    else
      cloneLoop bufsize fuel chain1 offset1 iob2 (offset2 + ncopy) pool

/-- `iob_clone` into the empty buffer `iob2`. It is `none` when a `NULL` pointer is read. -/
def iobClone (bufsize : Nat) (iob1 : Iob) (rest : List Iob) (iob2 : Iob)
    (pool : List (Nat × List UInt8)) : Option (Int × List Iob) :=
  let iob2 := { iob2 with ioPktlen := iob1.ioPktlen }
  -- the search for data does not look for the end of the chain
  match (iob1 :: rest).dropWhile (·.ioLen ≤ 0) with
  | [] => none
  | iob1 :: rest =>
    cloneLoop bufsize (((iob1 :: rest).map ioLen).sum + 1) (iob1 :: rest) 0 iob2 0 pool

structure Fits (bufsize : Nat) (iob : Iob) : Prop where
  fits : iob.ioOffset + iob.ioLen ≤ bufsize
  sized : iob.ioData.length = bufsize

/-- The head holds the length of the packet, in a `uint16_t`, and the data of each buffer lies in the
buffer. -/
def WellFormed (bufsize : Nat) : List Iob → Prop
  | [] => False
  | iob :: rest =>
    iob.ioPktlen = ((iob :: rest).map ioLen).sum ∧ iob.ioPktlen < 2 ^ 16 ∧
      ∀ b ∈ iob :: rest, b.Fits bufsize

def Quiet (chain : List Iob) : Prop := ∀ b ∈ chain.tail, b.ioPktlen = 0

instance (bufsize : Nat) (iob : Iob) : Decidable (Fits bufsize iob) :=
  decidable_of_iff (iob.ioOffset + iob.ioLen ≤ bufsize ∧ iob.ioData.length = bufsize)
    ⟨fun h => ⟨h.1, h.2⟩, fun h => ⟨h.1, h.2⟩⟩

instance (bufsize : Nat) : (chain : List Iob) → Decidable (WellFormed bufsize chain)
  | [] => inferInstanceAs (Decidable False)
  | iob :: rest => inferInstanceAs (Decidable (iob.ioPktlen = ((iob :: rest).map ioLen).sum ∧
      iob.ioPktlen < 2 ^ 16 ∧ ∀ b ∈ iob :: rest, b.Fits bufsize))

end Iob

end Nuttx.Mm

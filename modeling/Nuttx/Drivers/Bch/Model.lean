import Nuttx.Library.Stretch
import Nuttx.Library.Runs
import Mathlib.Data.BitVec

/-!
# Block devices as character devices

`drivers/bch` reads and writes a block device at any offset. One sector is kept in a buffer: bytes that
do not make up a whole sector go through it, whole sectors go to the device and from it directly. With
`CONFIG_BCH_ENCRYPTION` the buffer is encrypted while it is written and decrypted after it was read.
-/

namespace Nuttx.Bch

open Stretch

inductive Request
  | read (sector count : Nat)
  | write (sector count : Nat)
  deriving DecidableEq, Repr

/-- The geometry of the block device, the requests it fails, with the error number, and the cypher if
there is one: for the key of the device a permutation of the contents of every sector. -/
structure Config where
  sectsize : Nat
  nsectors : Nat
  sectsize_pos : 0 < sectsize
  nsectors_lt : nsectors < 2 ^ 32
  fault : Request → Option Int
  cypher : Option (Nat → Equiv.Perm (Fin sectsize → UInt8))

structure Bchlib where
  media : Nat → UInt8
  sector : Nat
  dirty : Bool
  buffer : Nat → UInt8

def noSector : Nat := 2 ^ 32 - 1

def efbig : Int := 27

def permute {n : Nat} (perm : Equiv.Perm (Fin n → UInt8)) (buffer : Nat → UInt8) : Nat → UInt8 := fun i =>
  if h : i < n then perm (fun k => buffer k) ⟨i, h⟩ else buffer i

variable (cfg : Config)

def Config.perm (sector : Nat) : Equiv.Perm (Fin cfg.sectsize → UInt8) :=
  match cfg.cypher with
  | none => Equiv.refl _
  | some cypher => cypher sector

variable (bch : Bchlib)

def encrypt : Bchlib := { bch with buffer := permute (cfg.perm bch.sector) bch.buffer }

def decrypt : Bchlib := { bch with buffer := permute (cfg.perm bch.sector).symm bch.buffer }

def mediaWrite (sector count : Nat) (data : Nat → UInt8) : Int × Bchlib :=
  match cfg.fault (.write sector count) with
  | some ret => (ret, bch)
  | none => (count, { bch with media := blit bch.media (sector * cfg.sectsize) (count * cfg.sectsize) data })

def flushsector : Int × Bchlib :=
  if bch.dirty then
    let encrypted := encrypt cfg bch
    let (ret, written) := mediaWrite cfg encrypted encrypted.sector 1 encrypted.buffer
    (ret, { decrypt cfg written with dirty := false })
  else (0, bch)

def readsector (sector : Nat) : Bchlib :=
  if bch.sector ≠ sector then
    let bch := (flushsector cfg bch).2
    let buffer := match cfg.fault (.read sector 1) with
      | some _ => bch.buffer
      | none => blit bch.buffer 0 cfg.sectsize (drop bch.media (sector * cfg.sectsize))
    decrypt cfg { bch with sector := sector, buffer := buffer }
  else bch

def sectoffset (offset : Nat) : Nat := (offset - offset / cfg.sectsize * cfg.sectsize) % 2 ^ 16

def headBytes (offset len : Nat) : Nat :=
  if (sectoffset cfg offset + len) % 2 ^ 32 > cfg.sectsize then cfg.sectsize - sectoffset cfg offset else len

def wholeSectors (sector len : Nat) : Nat :=
  if sector + len / cfg.sectsize > cfg.nsectors then cfg.nsectors - sector else len / cfg.sectsize

def readTail (sector len bytesread : Nat) (bytes : List UInt8) : (Int × List UInt8) × Bchlib :=
  if 0 < len then
    let bch := readsector cfg bch sector
    (((bytesread + len : Nat), bytes ++ slice bch.buffer 0 len), bch)
  else ((bytesread, bytes), bch)

def readWhole (sector len bytesread : Nat) (bytes : List UInt8) : (Int × List UInt8) × Bchlib :=
  if cfg.sectsize ≤ len then
    let count := wholeSectors cfg sector len
    match cfg.fault (.read sector count) with
    | some ret => ((ret, bytes), bch)
    | none =>
      let nbytes := count * cfg.sectsize
      let bytes := bytes ++ slice bch.media (sector * cfg.sectsize) nbytes
      if cfg.nsectors ≤ sector + count then (((bytesread + nbytes : Nat), bytes), bch)
      else readTail cfg bch (sector + count) (len - nbytes) (bytesread + nbytes) bytes
  else readTail cfg bch sector len bytesread bytes

def bchlibRead (offset len : Nat) : (Int × List UInt8) × Bchlib :=
  let sector := offset / cfg.sectsize
  if len < 1 then ((0, []), bch)
  else if cfg.nsectors ≤ sector then ((0, []), bch)
  else if 0 < sectoffset cfg offset then
    let bch := readsector cfg bch sector
    let nbytes := headBytes cfg offset len
    let bytes := slice bch.buffer (sectoffset cfg offset) nbytes
    if cfg.nsectors ≤ sector + 1 then ((nbytes, bytes), bch)
    else readWhole cfg bch (sector + 1) (len - nbytes) nbytes bytes
  else readWhole cfg bch sector len 0 []

def store (off len : Nat) (data : Nat → UInt8) : Bchlib :=
  { bch with buffer := blit bch.buffer off len data, dirty := true }

def writeTail (sector len byteswritten : Nat) (data : Nat → UInt8) : (Int × List UInt8) × Bchlib :=
  if 0 < len then
    (((byteswritten + len : Nat), []), store (readsector cfg bch sector) 0 len data)
  else ((byteswritten, []), bch)

def writeWhole (sector len byteswritten : Nat) (data : Nat → UInt8) : (Int × List UInt8) × Bchlib :=
  if cfg.sectsize ≤ len then
    let count := wholeSectors cfg sector len
    let (ret, bch) := flushsector cfg bch
    if ret < 0 then ((ret, []), bch)
    else
      let (ret, bch) := mediaWrite cfg bch sector count data
      if ret < 0 then ((ret, []), bch)
      else
        let nbytes := count * cfg.sectsize
        if cfg.nsectors ≤ sector + count then (((byteswritten + nbytes : Nat), []), bch)
        else
          writeTail cfg bch (sector + count) (len - nbytes) (byteswritten + nbytes) (drop data nbytes)
  else writeTail cfg bch sector len byteswritten data

def bchlibWrite (offset len : Nat) (data : Nat → UInt8) : (Int × List UInt8) × Bchlib :=
  let sector := offset / cfg.sectsize
  if len < 1 then ((0, []), bch)
  else if cfg.nsectors ≤ sector then ((-efbig, []), bch)
  else if 0 < sectoffset cfg offset then
    let nbytes := headBytes cfg offset len
    let bch := store (readsector cfg bch sector) (sectoffset cfg offset) nbytes data
    if cfg.nsectors ≤ sector + 1 then ((nbytes, []), bch)
    else writeWhole cfg bch (sector + 1) (len - nbytes) nbytes (drop data nbytes)
  else writeWhole cfg bch sector len 0 data

inductive Call
  | read (offset len : Nat)
  | write (offset len : Nat) (data : Nat → UInt8)

def call : Call → (Int × List UInt8) × Bchlib
  | .read offset len => bchlibRead cfg bch offset len
  | .write offset len data => bchlibWrite cfg bch offset len data

def setup (media buffer : Nat → UInt8) : Bchlib := ⟨media, noSector, false, buffer⟩

def plain (media : Nat → UInt8) : Nat → UInt8 := fun i =>
  permute (cfg.perm (i / cfg.sectsize)).symm (drop media (i / cfg.sectsize * cfg.sectsize)) (i % cfg.sectsize)

/-- **An array of bytes.** -/
def arrayCall (content : Nat → UInt8) : Call → (Int × List UInt8) × (Nat → UInt8)
  | .read offset len => ((len, slice content offset len), content)
  | .write offset len data => ((len, []), blit content offset len data)

def Call.Within : Call → Prop
  | .read offset len | .write offset len _ => offset + len ≤ cfg.nsectors * cfg.sectsize

def Call.Exact : Call → Prop
  | .read offset len | .write offset len _ =>
    offset % cfg.sectsize < 2 ^ 16 ∧ offset % cfg.sectsize + len < 2 ^ 32

def Call.Whole : Call → Prop
  | .read offset len | .write offset len _ =>
    if offset % cfg.sectsize = 0 then cfg.sectsize ≤ len
    else 2 * cfg.sectsize ≤ offset % cfg.sectsize + len

def Covers (sector offset len : Nat) : Prop :=
  offset % cfg.sectsize = 0 ∧ offset / cfg.sectsize ≤ sector ∧
    sector < offset / cfg.sectsize + len / cfg.sectsize

/-- **The two routes do not meet**: a read of whole sectors does not pass over a dirty sector in the
buffer, and a write of whole sectors does not leave in the buffer a sector that it has written. -/
def Call.Coherent : Call → Prop
  | .read offset len => ¬ (bch.dirty = true ∧ Covers cfg bch.sector offset len)
  | .write offset len _ => ¬ (Covers cfg bch.sector offset len ∧ len % cfg.sectsize = 0)

structure Fit (bch : Bchlib) (c : Call) : Prop where
  within : c.Within cfg
  exact : c.Exact cfg
  plain : cfg.cypher ≠ none → ¬ c.Whole cfg
  coherent : c.Coherent cfg bch

end Nuttx.Bch

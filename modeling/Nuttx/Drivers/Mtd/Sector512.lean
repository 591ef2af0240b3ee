import Nuttx.Library.Flash
import Nuttx.Library.Runs
import Mathlib.Data.BitVec

/-!
# The 512-byte sector layer

`drivers/mtd/sector512.c` gives a memory technology device with large erase blocks sectors of 512 bytes
that can be erased and written one by one. One erase block is kept in memory; what is written goes to
the copy, and the erase block is programmed when another one is needed or the call ends.
-/

namespace Nuttx.Mtd.S512

open Stretch

/-- `struct mtd_geometry_s` of a device that `s512_initialize` accepts: `erasesize` is more than 512
and a multiple of it. The functions below do not look at the number of erase blocks. -/
structure Geometry where
  blocksize : Nat
  erasesize : Nat
  blocksize_dvd : blocksize ∣ erasesize
  sector_lt : 512 < erasesize
  sector_dvd : 512 ∣ erasesize

def Geometry.sectperblock (geo : Geometry) : Nat := geo.erasesize / geo.blocksize

def Geometry.stdperblock (geo : Geometry) : Nat := geo.erasesize / 512 % 2 ^ 16

inductive Request
  | bread (sector count : Nat)
  | bwrite (sector count : Nat)
  | erase (eblockno : Nat)
  deriving DecidableEq, Repr

/-- The cells of the device below, the requests it fails, with the error number, and
`CONFIG_MTD_SECT512_ERASED_STATE`. -/
structure Env where
  cell : Flash.Cell UInt8
  fault : Request → Option Int
  erasedState : UInt8

structure Priv where
  chip : Flash.Chip UInt8
  valid : Bool
  dirty : Bool
  eblockno : Nat
  eblock : Nat → UInt8

def eio : Int := 5

namespace Priv

def isErased (priv : Priv) : Bool := priv.dirty

def setErased (priv : Priv) : Priv := { priv with dirty := true }

def clrErased (priv : Priv) : Priv := { priv with dirty := false }

end Priv

variable (geo : Geometry) (env : Env)

def cacheflush (priv : Priv) : Priv :=
  if priv.dirty || priv.isErased then
    let sector := priv.eblockno * geo.sectperblock
    match env.fault (.bwrite sector geo.sectperblock) with
    | some _ => priv
    | none =>
      { priv with
        chip := priv.chip.program env.cell geo.blocksize sector geo.sectperblock priv.eblock
        dirty := false }.clrErased
  else priv

def cacheread (priv : Priv) (sector512 : Nat) : Option Nat × Priv :=
  let eblockno := sector512 / geo.stdperblock
  let address := (sector512 % geo.stdperblock) <<< 9
  if !priv.valid || eblockno != priv.eblockno then
    let priv := cacheflush geo env priv
    let sector := eblockno * geo.sectperblock
    match env.fault (.bread sector geo.sectperblock) with
    | some _ => (none, priv)
    | none =>
      let read := drop priv.chip.cells (sector * geo.blocksize)
      (some address, { priv with
        eblock := blit priv.eblock 0 (geo.sectperblock * geo.blocksize) read
        eblockno := eblockno
        valid := true
        dirty := false }.clrErased)
  else (some address, priv)

/-- What `s512_erase` and `s512_bwrite` do before they change a sector in memory: its erase block is
read into memory, and erased if it is not erased yet. There is an error without a number if it cannot
be read. -/
def prepare (priv : Priv) (sector512 : Nat) : Except (Option Int) Nat × Priv :=
  match cacheread geo env priv sector512 with
  | (none, priv) => (.error none, priv)
  | (some dest, priv) =>
    if priv.isErased then (.ok dest, priv)
    else
      let eblockno := sector512 / geo.stdperblock
      match env.fault (.erase eblockno) with
      | some ret => (.error (some ret), priv)
      | none => (.ok dest, { priv with chip := priv.chip.erase env.cell geo.erasesize eblockno }.setErased)

def store (priv : Priv) (dest : Nat) (data : Nat → UInt8) : Priv :=
  { priv with eblock := blit priv.eblock dest 512 data, dirty := true }

def eraseLoop (priv : Priv) (sector512 : Nat) : Nat → Except Int Unit × Priv
  | 0 => (.ok (), priv)
  | sectorsleft + 1 =>
    match prepare geo env priv sector512 with
    | (.error ret, priv) => (.error (ret.getD (-eio)), priv)
    | (.ok dest, priv) => eraseLoop (store priv dest fun _ => env.erasedState) (sector512 + 1) sectorsleft

variable (priv : Priv) (sector512 nsectors : Nat)

def s512Erase : Int × Priv :=
  match eraseLoop geo env priv sector512 nsectors with
  | (.error ret, priv) => (ret, priv)
  | (.ok (), priv) => (nsectors, cacheflush geo env priv)

def breadLoop (priv : Priv) (sector512 : Nat) : Nat → Nat × List UInt8 × Priv
  | 0 => (0, [], priv)
  | remaining + 1 =>
    match cacheread geo env priv sector512 with
    | (none, priv) => (0, [], priv)
    | (some src, priv) =>
      let (count, bytes, priv') := breadLoop priv (sector512 + 1) remaining
      (count + 1, slice priv.eblock src 512 ++ bytes, priv')

def s512Bread : Int × List UInt8 × Priv :=
  let (count, bytes, priv) := breadLoop geo env priv sector512 nsectors
  (if count = 0 ∧ nsectors ≠ 0 then -eio else count, bytes, priv)

/-- The loop of `s512_bwrite`. A sector that cannot be read makes it return the number of sectors
before it, an erase block that cannot be erased the error. -/
def bwriteLoop (priv : Priv) (sector512 done : Nat) (buffer : Nat → UInt8) : Nat → Except Int Unit × Priv
  | 0 => (.ok (), priv)
  | remaining + 1 =>
    match prepare geo env priv sector512 with
    | (.error ret, priv) => (.error (ret.getD (if done = 0 then -eio else done)), priv)
    | (.ok dest, priv) =>
      bwriteLoop (store priv dest buffer) (sector512 + 1) (done + 1) (drop buffer 512) remaining

def s512Bwrite (buffer : Nat → UInt8) : Int × Priv :=
  match bwriteLoop geo env priv sector512 0 buffer nsectors with
  | (.error ret, priv) => (ret, priv)
  | (.ok (), priv) => (nsectors, cacheflush geo env priv)

/-- The loop of `s512_read`: neither `sector` nor `sectoffset` changes in it. Each time round at least
one byte is read, so that it ends before the fuel does if there is as much as bytes remain. -/
def readLoop (priv : Priv) (sector sectoffset : Nat) : Nat → Nat → Nat × List UInt8 × Priv
  | 0, _ => (0, [], priv)
  | fuel + 1, remaining =>
    if remaining = 0 then (0, [], priv)
    else
      match cacheread geo env priv sector with
      | (none, priv) => (0, [], priv)
      | (some src, priv) =>
        let xfrsize := if sectoffset + remaining > 512 then 512 - sectoffset else remaining
        let (count, bytes, priv') := readLoop priv sector sectoffset fuel (remaining - xfrsize)
        (xfrsize + count, slice priv.eblock (src + sectoffset) xfrsize ++ bytes, priv')

def s512Read (priv : Priv) (offset nbytes : Nat) : Int × List UInt8 × Priv :=
  let (count, bytes, priv) := readLoop geo env priv (offset / 512) (offset % 512) nbytes nbytes
  (if count = 0 ∧ nbytes ≠ 0 then -eio else count, bytes, priv)

inductive Call
  | erase (sector512 nsectors : Nat)
  | bread (sector512 nsectors : Nat)
  | bwrite (sector512 nsectors : Nat) (buffer : Nat → UInt8)
  | read (offset nbytes : Nat)

abbrev Answer := Int × List UInt8

def call (priv : Priv) : Call → Answer × Priv
  | .erase sector512 nsectors =>
    let (ret, priv) := s512Erase geo env priv sector512 nsectors
    ((ret, []), priv)
  | .bread sector512 nsectors =>
    let (ret, bytes, priv) := s512Bread geo env priv sector512 nsectors
    ((ret, bytes), priv)
  | .bwrite sector512 nsectors buffer =>
    let (ret, priv) := s512Bwrite geo env priv sector512 nsectors buffer
    ((ret, []), priv)
  | .read offset nbytes =>
    let (ret, bytes, priv) := s512Read geo env priv offset nbytes
    ((ret, bytes), priv)

def initial (cells eblock : Nat → UInt8) : Priv := ⟨⟨cells, []⟩, false, false, 0, eblock⟩

/-- **An array of bytes**: `content` before a call, the answer and the array after it. -/
def arrayCall (content : Nat → UInt8) : Call → Answer × (Nat → UInt8)
  | .erase sector512 nsectors =>
    ((nsectors, []), fill content (512 * sector512) (512 * nsectors) env.erasedState)
  | .bread sector512 nsectors =>
    ((nsectors, slice content (512 * sector512) (512 * nsectors)), content)
  | .bwrite sector512 nsectors buffer =>
    ((nsectors, []), blit content (512 * sector512) (512 * nsectors) buffer)
  | .read offset nbytes => ((nbytes, slice content offset nbytes), content)

def Call.OneSector : Call → Prop
  | .read offset nbytes => offset % 512 + nbytes ≤ 512
  | _ => True

end Nuttx.Mtd.S512

import Nuttx.Library.Extent
import Nuttx.Library.Runs

/-!
# Read-ahead and write buffering

`drivers/rwbuffer.c` keeps two runs of blocks of a device in memory: those that were written and not
flushed yet, and those that were read ahead. Blocks are copied whole, so that the buffers are counted
in blocks. A copy that leaves its buffer has no result.
-/

namespace Nuttx.Rwbuffer

open Stretch

variable {Block : Type}

inductive Request
  | rhreload (startblock nblocks : Nat)
  | wrflush (startblock nblocks : Nat)
  deriving DecidableEq, Repr

/-- What is set up before `rwb_initialize`, with its assertions, and the requests that the device
fails, with the error number. -/
structure Config where
  nblocks : Nat
  wrmaxblocks : Nat
  wralignblocks : Nat
  rhmaxblocks : Nat
  wrmaxblocks_pos : 0 < wrmaxblocks
  wralignblocks_dvd : wralignblocks ∣ wrmaxblocks
  rhmaxblocks_pos : 0 < rhmaxblocks
  fault : Request → Option Int

structure Rwb (Block : Type) where
  media : Nat → Block
  wrblockstart : Int
  wrnblocks : Nat
  wrbuffer : Nat → Block
  rhblockstart : Int
  rhnblocks : Nat
  rhbuffer : Nat → Block

def eio : Int := 5

def espipe : Int := 29

def inside (size : Nat) (offset : Int) (count : Nat) : Option Unit :=
  if 0 ≤ offset ∧ offset + count ≤ size then some () else none

def overlap (blockstart1 : Int) (nblocks1 : Nat) (blockstart2 : Int) (nblocks2 : Nat) : Bool :=
  let blockend1 := blockstart1 + nblocks1 - 1
  let blockend2 := blockstart2 + nblocks2 - 1
  !(blockend1 < blockstart2 || blockstart1 > blockend2)

def Rwb.resetwrbuffer (rwb : Rwb Block) : Rwb Block := { rwb with wrnblocks := 0, wrblockstart := -1 }

def Rwb.resetrhbuffer (rwb : Rwb Block) : Rwb Block := { rwb with rhnblocks := 0, rhblockstart := -1 }

variable (cfg : Config)

variable (rwb : Rwb Block) (startblock nblocks : Nat)

def bufferread (rdbuffer : Nat → Block) (pos : Nat) :
    Option (Nat → Block) := do
  let blockoffset := startblock - rwb.rhblockstart
  inside cfg.rhmaxblocks blockoffset nblocks
  some (blit rdbuffer pos nblocks (drop rwb.rhbuffer blockoffset.toNat))

def rhreload (rwb : Rwb Block) (startblock : Nat) : Option (Int × Rwb Block) :=
  if cfg.nblocks ≤ startblock then some (-espipe, rwb)
  else
    let endblock :=
      if startblock + cfg.rhmaxblocks > cfg.nblocks then cfg.nblocks else startblock + cfg.rhmaxblocks
    let nblocks := endblock - startblock
    let rwb := rwb.resetrhbuffer
    match cfg.fault (.rhreload startblock nblocks) with
    | some _ => some (-eio, rwb)
    | none => do
      inside cfg.rhmaxblocks 0 nblocks
      some (nblocks, { rwb with
        rhbuffer := blit rwb.rhbuffer 0 nblocks (drop rwb.media startblock)
        rhnblocks := nblocks
        rhblockstart := startblock })

/-- The first half of the loop of `rwb_read_`: what the read-ahead buffer has of the blocks at
`startblock`, and how many. -/
def readAhead (rwb : Rwb Block) (startblock remaining : Nat) (rdbuffer : Nat → Block) (pos : Nat) :
    Option (Nat × (Nat → Block)) :=
  if 0 < rwb.rhnblocks then
    let bufferend := rwb.rhblockstart + rwb.rhnblocks
    if rwb.rhblockstart ≤ startblock ∧ startblock < bufferend then do
      let rdblocks := if (bufferend - startblock).toNat > remaining then remaining
        else (bufferend - startblock).toNat
      let rdbuffer ← bufferread cfg rwb startblock rdblocks rdbuffer pos
      some (rdblocks, rdbuffer)
    else some (0, rdbuffer)
  else some (0, rdbuffer)

/-- The loop of `rwb_read_`. After a reload the buffer has the next block, so that the loop ends before
the fuel does if there is more of it than blocks. -/
def readLoop (rwb : Rwb Block) (startblock : Nat) (rdbuffer : Nat → Block) (pos : Nat) :
    Nat → Nat → Option ((Int × (Nat → Block)) × Rwb Block)
  | 0, _ => some ((0, rdbuffer), rwb)
  | fuel + 1, remaining =>
    if remaining = 0 then some ((0, rdbuffer), rwb)
    else do
      let (rdblocks, rdbuffer) ← readAhead cfg rwb startblock remaining rdbuffer pos
      if remaining - rdblocks = 0 then some ((0, rdbuffer), rwb)
      else
        let (ret, rwb) ← rhreload cfg rwb (startblock + rdblocks)
        if ret < 0 then some ((ret, rdbuffer), rwb)
        else readLoop rwb (startblock + rdblocks) rdbuffer (pos + rdblocks) fuel (remaining - rdblocks)

def rwbRead_ (rdbuffer : Nat → Block) (pos : Nat) :
    Option ((Int × (Nat → Block)) × Rwb Block) := do
  let ((ret, rdbuffer), rwb) ← readLoop cfg rwb startblock rdbuffer pos (nblocks + 1) nblocks
  some ((if ret < 0 then ret else nblocks, rdbuffer), rwb)

def deviceWrite (rwb : Rwb Block) (buffer : Nat → Block) (startblock nblocks : Nat) : Int × Rwb Block :=
  match cfg.fault (.wrflush startblock nblocks) with
  | some ret => (ret, rwb)
  | none => (nblocks, { rwb with media := blit rwb.media startblock nblocks buffer })

def readBehind (rwb : Rwb Block) (padblocks : Nat) : Option (Rwb Block) := do
  inside cfg.wrmaxblocks rwb.wrnblocks padblocks
  let ((_, wrbuffer), rwb) ←
    rwbRead_ cfg rwb (rwb.wrblockstart + rwb.wrnblocks).toNat padblocks rwb.wrbuffer rwb.wrnblocks
  some { rwb with wrbuffer := wrbuffer, wrnblocks := rwb.wrnblocks + padblocks }

def pad (rwb : Rwb Block) : Option (Rwb Block) :=
  let padblocks := rwb.wrnblocks % cfg.wralignblocks
  if padblocks ≠ 0 then readBehind cfg rwb (cfg.wralignblocks - padblocks) else some rwb

def wrflush (rwb : Rwb Block) : Option (Rwb Block) :=
  if 0 < rwb.wrnblocks then do
    let rwb ← pad cfg rwb
    inside cfg.wrmaxblocks 0 rwb.wrnblocks
    some (deviceWrite cfg rwb rwb.wrbuffer rwb.wrblockstart.toNat rwb.wrnblocks).2.resetwrbuffer
  else some rwb

def copyIn (rwb : Rwb Block) (offset : Int) (count : Nat) (src : Nat → Block) : Option (Rwb Block) := do
  inside cfg.wrmaxblocks offset count
  some { rwb with wrbuffer := blit rwb.wrbuffer offset.toNat count src }

structure Rest (Block : Type) where
  startblock : Nat
  nblocks : Nat
  data : Nat → Block

/-- The fourth case of `rwb_writebuffer`: the end of the write buffer is updated. `offset` and `ncopy`
are of type `size_t`; the address of an `offset` below zero is before the buffer. -/
def updateEnd (rwb : Rwb Block) (w : Rest Block) : Option (Rwb Block × Rest Block) := do
  let offset : Int := rwb.wrnblocks - (rwb.wrblockstart + rwb.wrnblocks - w.startblock)
  let ncopy := if cfg.wrmaxblocks - offset > w.nblocks then w.nblocks else (cfg.wrmaxblocks - offset).toNat
  let rwb ← copyIn cfg rwb offset ncopy w.data
  some ({ rwb with wrnblocks := (offset + ncopy).toNat },
    ⟨w.startblock + ncopy, w.nblocks - ncopy, drop w.data ncopy⟩)

/-- By how many blocks the run in the write buffer is moved up for a write that meets its start: those
before it, as far as there is room for them. -/
def room (rwb : Rwb Block) (startblock : Nat) : Nat :=
  min (rwb.wrblockstart - startblock).toNat (cfg.wrmaxblocks - rwb.wrnblocks)

/-- The fifth case: the start of the write buffer is updated. As many blocks are moved as the run is
moved up by. -/
def updateStart (rwb : Rwb Block) (w : Rest Block) : Option (Rwb Block × Rest Block) := do
  let newend : Int := w.startblock + w.nblocks
  let ncopy := room cfg rwb w.startblock
  let rwb ← copyIn cfg rwb ncopy ncopy rwb.wrbuffer
  let rwb := { rwb with wrblockstart := rwb.wrblockstart - ncopy, wrnblocks := rwb.wrnblocks + ncopy }
  let ncopy := (newend - rwb.wrblockstart).toNat
  let rwb ← copyIn cfg rwb 0 ncopy (drop w.data (w.nblocks - ncopy))
  some (rwb, ⟨w.startblock, w.nblocks - ncopy, w.data⟩)

/-- The five cases of `rwb_writebuffer`, with blocks in the write buffer: the part of the write that it
takes. -/
def updateCases (rwb : Rwb Block) (w : Rest Block) : Option (Rwb Block × Rest Block) :=
  let wrbend := rwb.wrblockstart + rwb.wrnblocks
  let newend : Int := w.startblock + w.nblocks
  if wrbend < w.startblock ∨ rwb.wrblockstart > newend then some (rwb, w)
  else if rwb.wrblockstart > w.startblock ∧ wrbend < newend then some ({ rwb with wrnblocks := 0 }, w)
  else if rwb.wrblockstart ≤ w.startblock ∧ newend ≤ wrbend then do
    let rwb ← copyIn cfg rwb (w.startblock - rwb.wrblockstart) w.nblocks w.data
    some (rwb, ⟨w.startblock, 0, w.data⟩)
  else if w.startblock ≤ wrbend ∧ wrbend ≤ newend then updateEnd cfg rwb w
  else updateStart cfg rwb w

def update (rwb : Rwb Block) (w : Rest Block) : Option (Rwb Block × Rest Block) :=
  if 0 < rwb.wrnblocks then updateCases cfg rwb w else some (rwb, w)

def writebuffer (data : Nat → Block) :
    Option (Int × Rwb Block) := do
  let (rwb, w) ← update cfg rwb ⟨startblock, nblocks, data⟩
  if cfg.wrmaxblocks < w.nblocks then
    let (ret, rwb) := deviceWrite cfg rwb w.data w.startblock w.nblocks
    some (if ret < 0 then ret else nblocks, rwb)
  else if w.nblocks ≠ 0 then
    let rwb ← wrflush cfg rwb
    let rwb ← copyIn cfg rwb 0 w.nblocks w.data
    some (nblocks, { rwb with wrblockstart := w.startblock, wrnblocks := w.nblocks })
  else some (nblocks, rwb)

def readRest (rdbuffer : Nat → Block) (readblocks : Nat) :
    Option ((Int × (Nat → Block)) × Rwb Block) := do
  let ((ret, rdbuffer), rwb) ←
    rwbRead_ cfg rwb (startblock + readblocks) (nblocks - readblocks) rdbuffer readblocks
  some ((if ret < 0 then ret else readblocks + ret, rdbuffer), rwb)

def readBefore (rwb : Rwb Block) (startblock : Nat) (rdbuffer : Nat → Block) :
    Option ((Int × (Nat → Block)) × Rwb Block) :=
  if rwb.wrblockstart > startblock then
    rwbRead_ cfg rwb startblock (rwb.wrblockstart - startblock).toNat rdbuffer 0
  else some ((0, rdbuffer), rwb)

def rwbRead (rdbuffer : Nat → Block) : Option ((Int × (Nat → Block)) × Rwb Block) :=
  if overlap rwb.wrblockstart rwb.wrnblocks startblock nblocks then do
    let ((ret, rdbuffer), rwb) ← readBefore cfg rwb startblock rdbuffer
    if ret < 0 then some ((ret, rdbuffer), rwb)
    else
      let wrnpass := (startblock + ret - rwb.wrblockstart).toNat
      let rdblocks := min (nblocks - ret.toNat) (rwb.wrnblocks - wrnpass)
      inside cfg.wrmaxblocks wrnpass rdblocks
      readRest cfg rwb startblock nblocks
        (blit rdbuffer ret.toNat rdblocks (drop rwb.wrbuffer wrnpass)) (ret.toNat + rdblocks)
  else readRest cfg rwb startblock nblocks rdbuffer 0

def rwbWrite (data : Nat → Block) : Option (Int × Rwb Block) :=
  let rwb := if overlap rwb.rhblockstart rwb.rhnblocks startblock nblocks then rwb.resetrhbuffer else rwb
  writebuffer cfg rwb startblock nblocks data

def rwbFlush (rwb : Rwb Block) : Option (Int × Rwb Block) := do
  let rwb ← wrflush cfg rwb
  some (0, rwb)

def rwbInitialize (media wrbuffer rhbuffer : Nat → Block) : Rwb Block :=
  ⟨media, -1, 0, wrbuffer, -1, 0, rhbuffer⟩

inductive Call (Block : Type)
  | read (startblock nblocks : Nat) (rdbuffer : Nat → Block)
  | write (startblock nblocks : Nat) (data : Nat → Block)
  | flush
  | wrtimeout

abbrev Answer (Block : Type) := Int × List Block

def call (rwb : Rwb Block) : Call Block → Option (Answer Block × Rwb Block)
  | .read startblock nblocks rdbuffer => do
    let ((ret, rdbuffer), rwb) ← rwbRead cfg rwb startblock nblocks rdbuffer
    some ((ret, slice rdbuffer 0 nblocks), rwb)
  | .write startblock nblocks data => do
    let (ret, rwb) ← rwbWrite cfg rwb startblock nblocks data
    some ((ret, []), rwb)
  | .flush => do
    let (ret, rwb) ← rwbFlush cfg rwb
    some ((ret, []), rwb)
  | .wrtimeout => do
    let rwb ← wrflush cfg rwb
    some ((0, []), rwb)

def step (state : Option (Rwb Block)) (c : Call Block) : Option (Answer Block) × Option (Rwb Block) :=
  let result := state.bind fun rwb => call cfg rwb c
  (result.map Prod.fst, result.map Prod.snd)

/-- **An array of blocks.** -/
def arrayCall (content : Nat → Block) : Call Block → Option (Answer Block) × (Nat → Block)
  | .read startblock nblocks _ => (some (nblocks, slice content startblock nblocks), content)
  | .write startblock nblocks data => (some (nblocks, []), blit content startblock nblocks data)
  | .flush | .wrtimeout => (some (0, []), content)

def Apart (rwb : Rwb Block) : Prop :=
  overlap rwb.rhblockstart rwb.rhnblocks rwb.wrblockstart rwb.wrnblocks = false

def Padded (rwb : Rwb Block) : Prop :=
  let padblocks := (cfg.wralignblocks - rwb.wrnblocks % cfg.wralignblocks) % cfg.wralignblocks
  rwb.wrblockstart + rwb.wrnblocks + padblocks ≤ cfg.nblocks

def Away : Prop :=
  rwb.wrblockstart + rwb.wrnblocks < startblock ∨ rwb.wrblockstart > startblock + nblocks

def Around : Prop :=
  rwb.wrblockstart > startblock ∧ rwb.wrblockstart + rwb.wrnblocks < startblock + nblocks

def excess : Nat :=
  (max (rwb.wrblockstart + rwb.wrnblocks) (startblock + nblocks) - min rwb.wrblockstart startblock -
    cfg.wrmaxblocks).toNat

def Displaces : Prop :=
  Away rwb startblock nblocks ∧ 0 < nblocks ∧ nblocks ≤ cfg.wrmaxblocks ∨
    ¬ Away rwb startblock nblocks ∧ ¬ Around rwb startblock nblocks ∧
      0 < excess cfg rwb startblock nblocks ∧ excess cfg rwb startblock nblocks ≤ cfg.wrmaxblocks

structure WriteFit (rwb : Rwb Block) (startblock nblocks : Nat) : Prop where
  end_ne : rwb.wrblockstart > startblock → rwb.wrblockstart + rwb.wrnblocks ≠ startblock + nblocks
  moves : rwb.wrblockstart > startblock → rwb.wrblockstart ≤ startblock + nblocks →
    startblock + nblocks < rwb.wrblockstart + rwb.wrnblocks →
    room cfg rwb startblock = 0 ∨
      rwb.wrnblocks ≤ room cfg rwb startblock ∧ 2 * room cfg rwb startblock ≤ cfg.wrmaxblocks
  fresh : Displaces cfg rwb startblock nblocks →
    overlap rwb.rhblockstart rwb.rhnblocks startblock nblocks = true ∨ Apart rwb
  padded : Away rwb startblock nblocks → Displaces cfg rwb startblock nblocks → Padded cfg rwb

def Fit (rwb : Rwb Block) : Call Block → Prop
  | .read startblock nblocks _ => startblock + nblocks ≤ cfg.nblocks
  | .write startblock nblocks _ =>
    startblock + nblocks ≤ cfg.nblocks ∧ (0 < rwb.wrnblocks → WriteFit cfg rwb startblock nblocks)
  | .flush | .wrtimeout => 0 < rwb.wrnblocks → Apart rwb ∧ Padded cfg rwb

end Nuttx.Rwbuffer

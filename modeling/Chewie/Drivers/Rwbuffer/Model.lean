import Chewie.Lib.Blocks

/-!
# Buffered block devices

A block device is read through a read-ahead buffer and written through a write buffer. Blocks are
copied as a whole, so that a block is one value here and a buffer is a function of the index of the
block in it. Block numbers are integers that do not overflow `off_t`. The semaphores of the two
buffers make each call one step. The device never fails. What the code does not keep is recorded
beside its state: the last data that was written to each block, and what the reads returned.
-/

namespace Chewie.Drivers.Rwbuffer

open Chewie.Blocks

variable {β : Type}

/-- `struct rwbuffer_s`, with the device. -/
structure Rwb (β : Type) where
  nblocks : Nat
  wrmaxblocks : Nat
  rhmaxblocks : Nat
  wrbuffer : Int → β
  wrnblocks : Nat
  wrblockstart : Int
  wrexpectedblock : Int
  rhbuffer : Int → β
  rhnblocks : Nat
  rhblockstart : Int
  device : Int → β

def espipe : Int := 29

def rwbOverlap (blockstart1 : Int) (nblocks1 : Nat) (blockstart2 : Int) (nblocks2 : Nat) : Bool :=
  let blockend1 := blockstart1 + nblocks1 - 1
  let blockend2 := blockstart2 + nblocks2 - 1
  !(blockend1 < blockstart2 || blockend2 < blockstart1)

/-- The `wrflush` method of the device. -/
def Rwb.flushTo (rwb : Rwb β) (buffer : Int → β) (startblock : Int) (nblocks : Nat) : Rwb β :=
  { rwb with device := copyTo rwb.device startblock buffer nblocks }

def rwbResetwrbuffer (rwb : Rwb β) : Rwb β :=
  { rwb with wrnblocks := 0, wrblockstart := -1, wrexpectedblock := -1 }

def rwbWrflush (rwb : Rwb β) : Rwb β :=
  if 0 < rwb.wrnblocks then
    rwbResetwrbuffer (rwb.flushTo rwb.wrbuffer rwb.wrblockstart rwb.wrnblocks)
  else rwb

/-- The write buffer is flushed before blocks are added to it. -/
def Rwb.misses (rwb : Rwb β) (startblock : Int) (nblocks : Nat) : Prop :=
  (startblock ≠ rwb.wrexpectedblock ∧ rwb.wrnblocks ≠ 0) ∨
    rwb.wrmaxblocks < rwb.wrnblocks + nblocks

instance decidableMisses (rwb : Rwb β) (startblock : Int) (nblocks : Nat) :
    Decidable (rwb.misses startblock nblocks) :=
  inferInstanceAs (Decidable ((_ ∧ _) ∨ _))

def rwbWritebuffer (rwb : Rwb β) (startblock : Int) (nblocks : Nat) (wrbuffer : Int → β) : Rwb β :=
  let rwb :=
    if rwb.misses startblock nblocks then
      rwbResetwrbuffer (rwb.flushTo rwb.wrbuffer rwb.wrblockstart rwb.wrnblocks)
    else rwb
  let rwb := if rwb.wrnblocks = 0 then { rwb with wrblockstart := startblock } else rwb
  let wrnblocks := rwb.wrnblocks + nblocks
  { rwb with
    wrbuffer := copyTo rwb.wrbuffer rwb.wrnblocks wrbuffer nblocks
    wrnblocks := wrnblocks
    wrexpectedblock := rwb.wrblockstart + wrnblocks }

def rwbResetrhbuffer (rwb : Rwb β) : Rwb β := { rwb with rhnblocks := 0, rhblockstart := -1 }

/-- `rwb_rhreload`. There is no result for a block behind the end of the device. -/
def rwbRhreload (rwb : Rwb β) (startblock : Int) : Option (Rwb β) :=
  if rwb.nblocks ≤ startblock then none
  else
    let endblock := startblock + rwb.rhmaxblocks
    let endblock := if (rwb.nblocks : Int) < endblock then (rwb.nblocks : Int) else endblock
    let nblocks := (endblock - startblock).toNat
    some { rwbResetrhbuffer rwb with
      rhbuffer := fun index => rwb.device (startblock + index)
      rhnblocks := nblocks
      rhblockstart := startblock }

/-- The blocks that a read can take from the read-ahead buffer. -/
def Rwb.available (rwb : Rwb β) (startblock : Int) (remaining : Nat) : Nat :=
  let bufferend := rwb.rhblockstart + rwb.rhnblocks
  if 0 < rwb.rhnblocks ∧ rwb.rhblockstart ≤ startblock ∧ startblock < bufferend then
    min (bufferend - startblock).toNat remaining
  else 0

/-- The loop of `rwb_read_`. There is no result when it runs out of fuel; the error of
`rwb_rhreload` ends it. -/
def readLoop : Nat → Rwb β → Int → Nat → Option (Rwb β × Except Int (List β))
  | 0, _, _, _ => none
  | fuel + 1, rwb, startblock, remaining =>
    let rdblocks := rwb.available startblock remaining
    let copied := blocks rwb.rhbuffer (startblock - rwb.rhblockstart) rdblocks
    let startblock := startblock + rdblocks
    let remaining := remaining - rdblocks
    if remaining = 0 then some (rwb, .ok copied)
    else
      match rwbRhreload rwb startblock with
      | none => some (rwb, .error (-espipe))
      | some rwb => (readLoop fuel rwb startblock remaining).map fun (rwb, rest) =>
          (rwb, rest.map fun data => copied ++ data)

/-- `rwb_read_`. Without a read-ahead buffer the blocks are loaded from the device. -/
def rwbReadAhead (rwb : Rwb β) (startblock : Int) (nblocks : Nat) :
    Option (Rwb β × Except Int (List β)) :=
  if 0 < rwb.rhmaxblocks then
    if nblocks = 0 then some (rwb, .ok []) else readLoop (nblocks + 1) rwb startblock nblocks
  else some (rwb, .ok (blocks rwb.device startblock nblocks))

/-- `rwb_read`. The number of blocks that it returns is the length of the result. -/
def rwbRead (rwb : Rwb β) (startblock : Int) (nblocks : Nat) :
    Option (Rwb β × Except Int (List β)) :=
  if 0 < rwb.wrmaxblocks ∧
      rwbOverlap rwb.wrblockstart rwb.wrnblocks startblock nblocks then
    let below := if startblock < rwb.wrblockstart then (rwb.wrblockstart - startblock).toNat else 0
    let first :=
      if startblock < rwb.wrblockstart then rwbReadAhead rwb startblock below
      else some (rwb, .ok [])
    match first with
    | none => none
    | some (rwb, .error errcode) => some (rwb, .error errcode)
    | some (rwb, .ok head) =>
      let startblock := startblock + head.length
      let nblocks := nblocks - head.length
      let wrnpass := if rwb.wrblockstart < startblock then
        (startblock - rwb.wrblockstart).toNat else 0
      let rdblocks := min (rwb.wrnblocks - wrnpass) nblocks
      let middle := blocks rwb.wrbuffer wrnpass rdblocks
      (rwbReadAhead rwb (startblock + rdblocks) (nblocks - rdblocks)).map fun (rwb, rest) =>
        (rwb, rest.map fun data => head ++ middle ++ data)
  else rwbReadAhead rwb startblock nblocks

def rwbWrite (rwb : Rwb β) (startblock : Int) (nblocks : Nat) (wrbuffer : Int → β) : Rwb β :=
  let rwb :=
    if 0 < rwb.rhmaxblocks ∧ rwbOverlap rwb.rhblockstart rwb.rhnblocks startblock nblocks then
      rwbResetrhbuffer rwb
    else rwb
  if 0 < rwb.wrmaxblocks then
    if rwb.wrmaxblocks < nblocks then (rwbWrflush rwb).flushTo wrbuffer startblock nblocks
    else rwbWritebuffer rwb startblock nblocks wrbuffer
  else rwb.flushTo wrbuffer startblock nblocks

/-- A finished call of `rwb_read`. -/
structure Reading (β : Type) where
  written : List β
  returned : Except Int (List β)

/-- The buffered device with its record. -/
structure Sys (β : Type) where
  rwb : Rwb β
  /-- The last data that was written to each block, or what the device held at first. -/
  latest : Int → β
  reads : List (Reading β)

/-- The calls, and the timeout of the write buffer. -/
inductive Op (β : Type) where
  | read (startblock nblocks : Nat)
  | write (startblock nblocks : Nat) (wrbuffer : Int → β)
  | flush
  | timeout

def step (sys : Sys β) : Op β → Option (Sys β)
  | .read startblock nblocks =>
    (rwbRead sys.rwb startblock nblocks).map fun (rwb, returned) =>
      { sys with
        rwb := rwb
        reads := sys.reads ++ [⟨blocks sys.latest startblock nblocks, returned⟩] }
  | .write startblock nblocks wrbuffer =>
    some { sys with
      rwb := rwbWrite sys.rwb startblock nblocks wrbuffer
      latest := copyTo sys.latest startblock wrbuffer nblocks }
  | .flush => some { sys with rwb := rwbWrflush sys.rwb }
  | .timeout => some { sys with rwb := rwbWrflush sys.rwb }

/-- `rwb_initialize`: both buffers are empty. -/
def start (nblocks wrmaxblocks rhmaxblocks : Nat) (wrbuffer rhbuffer device : Int → β) : Sys β where
  rwb := ⟨nblocks, wrmaxblocks, rhmaxblocks, wrbuffer, 0, -1, -1, rhbuffer, 0, -1, device⟩
  latest := device
  reads := []

end Chewie.Drivers.Rwbuffer

import Chewie.Lib.Bitmap
import Chewie.Lib.Word

/-!
# The granule allocator

A granule heap is cut into `2 ^ log2gran` byte granules, and the granule allocation table has one
bit for each of them, thirty-two to a word. The search of `gran_alloc` slides a window of two table
words over the table and moves an address along with it. The window's position and the address are
advanced by separate statements.
-/

namespace Chewie.Mm.Gran

open Chewie

/-- The state of one granule heap, `struct gran_s`. -/
structure GranS where
  log2gran : Nat
  ngranules : Nat
  heapstart : Nat
  /-- The table, and behind its last entry the memory that follows the structure. -/
  gat : Nat → BitVec 32

/-- The number of table entries for `n` granules, `SIZEOF_GAT`. -/
def sizeofGat (n : Nat) : Nat := (n + 31) >>> 5

/-- A table entry without a free granule. -/
def full : BitVec 32 := 0xffffffff

/-- The number of granules that hold `size` bytes. -/
def granules (log2gran size : Nat) : Nat := Word.add 32 size (2 ^ log2gran - 1) >>> log2gran

/-- The granule number of an address. -/
def GranS.granno (priv : GranS) (memory : Nat) : Nat :=
  Word.sub 32 memory priv.heapstart >>> priv.log2gran

/-- Set up a granule heap. `zalloc` is the memory that `kmm_zalloc` finds for the structure, from
the table on; it clears the entries of the table. -/
def granInitialize (zalloc : Option (Nat → BitVec 32))
    (heapstart heapsize log2gran log2align : Nat) : Option GranS :=
  let mask := 2 ^ log2align - 1
  let alignedstart := Word.andNot 32 (Word.add 32 heapstart mask) mask
  let mask := 2 ^ log2gran - 1
  let heapend := Word.add 32 heapstart heapsize
  let alignedsize := Word.andNot 32 (Word.sub 32 heapend alignedstart) mask
  let ngranules := alignedsize >>> log2gran
  match zalloc with
  | none => none
  | some memory =>
    some { log2gran := log2gran
           ngranules := Word.wrap 16 ngranules
           heapstart := alignedstart
           gat := fun index => if index < sizeofGat ngranules then 0 else memory index }

/-- Set the table bits of an allocation. -/
def granMarkAllocated (priv : GranS) (alloc ngranules : Nat) : GranS :=
  { priv with gat := Bitmap.editRange (· ||| ·) priv.gat (priv.granno alloc) ngranules }

/-- Clear the table bits of an allocation. -/
def granFree (priv : GranS) (memory size : Nat) : GranS :=
  { priv with
    gat := Bitmap.editRange (fun entry gatmask => entry &&& ~~~gatmask) priv.gat
      (priv.granno memory) (granules priv.log2gran size) }

/-- How far the window moves: over sixteen, eight, four or two granules in use, or by one granule.
`none` means that the granules of the request are free at the window's position. -/
def granShift (curr mask : BitVec 32) : Option Nat :=
  if curr &&& 0x0000ffff = 0x0000ffff then some 16
  else if curr &&& 0x000000ff = 0x000000ff then some 8
  else if curr &&& 0x0000000f = 0x0000000f then some 4
  else if curr &&& 0x00000003 = 0x00000003 then some 2
  else if curr &&& mask = 0 then none
  else some 1

theorem granShift_pos {curr mask : BitVec 32} {shift : Nat}
    (found : granShift curr mask = some shift) : 0 < shift := by
  unfold granShift at found
  grind

/-- How the search leaves one table entry. -/
inductive Scan where
  | found (alloc : Nat)
  | passed (alloc : Nat)
deriving DecidableEq

/-- The loop over the granules of one table entry. -/
def granScan (priv : GranS) (granidx ngranules : Nat) (mask : BitVec 32)
    (alloc : Nat) (curr next : BitVec 32) (bitidx : Nat) : Scan :=
  if bitidx < 32 ∧ granidx + bitidx + ngranules ≤ priv.ngranules then
    if curr = full then .passed alloc
    else
      match _ : granShift curr mask with
      | none => .found alloc
      | some shift =>
        granScan priv granidx ngranules mask (Word.add 32 alloc (shift <<< priv.log2gran))
          ((curr >>> shift) ||| (next <<< (32 - shift))) (next >>> shift) (bitidx + shift)
  else .passed alloc
termination_by 32 - bitidx
decreasing_by
  have := granShift_pos ‹_›
  omega

/-- The loop over the table entries. -/
def granSearch (priv : GranS) (ngranules : Nat) (mask : BitVec 32) (granidx alloc : Nat) :
    Option Nat :=
  if granidx < priv.ngranules then
    let gatidx := granidx >>> 5
    let curr := priv.gat gatidx
    if curr = full then
      granSearch priv ngranules mask (granidx + 32) (Word.add 32 alloc (32 <<< priv.log2gran))
    else
      let next := if granidx < priv.ngranules then priv.gat (gatidx + 1) else full
      match granScan priv granidx ngranules mask alloc curr next 0 with
      | .found alloc => some alloc
      | .passed alloc => granSearch priv ngranules mask (granidx + 32) alloc
  else none
termination_by priv.ngranules - granidx

/-- Allocate `size` bytes. The result is the address, with zero for `NULL`. -/
def granAlloc (priv : GranS) (size : Nat) : GranS × Nat :=
  if 0 < size then
    let ngranules := granules priv.log2gran size
    let mask := Bitmap.ones 32 ngranules
    match granSearch priv ngranules mask 0 priv.heapstart with
    | some alloc => (granMarkAllocated priv alloc ngranules, alloc)
    | none => (priv, 0)
  else (priv, 0)

end Chewie.Mm.Gran

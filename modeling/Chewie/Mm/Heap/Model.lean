import Chewie.Lib.Links
import Chewie.Lib.Word

/-!
# The heap of `mm/mm_heap`

The functions of `mm_heap` over an explicit heap state. Memory is kept one header field at
a time: `size`, `preceding`, `flink` and `blink` are functions of the node. Nothing here depends on
payload bytes, so they are left out, and with them the `memset` of `mm_zalloc` and the `memcpy` of
`mm_realloc`. Nodes are either the bucket headers of `mm_nodelist`
inside `struct mm_heap_s` or chunks named by their address. A code region between
`mm_takesemaphore` and `mm_givesemaphore` is one function; `mm_realloc`, `mm_memalign` and
`mm_extend`, which take the semaphore more than once, are composed from theirs.

A result `none` has no counterpart in C: it stands for a NULL dereference or for a list walk
that visits more nodes than the address space holds. `DEBUGASSERT` is compiled out.
-/

namespace Chewie.Mm

/-- What `mm.h` fixes at build time. -/
structure Geometry where
  wordBits : Nat
  /-- Position of `MM_ALLOC_BIT`, the top bit of `mmsize_t`. -/
  allocShift : Nat
  allocNode : Nat
  ptrSize : Nat
  minShift : Nat
  maxShift : Nat
  allocNode_pos : 0 < allocNode
  /-- `MM_MIN_CHUNK` is at least as large as `struct mm_freenode_s`. -/
  freeNode_le : allocNode + 2 * ptrSize ≤ 2 ^ minShift
  /-- Two guard headers keep the granule's alignment up to a multiple of their own size. -/
  unit_dvd : 2 * allocNode ∣ 2 ^ minShift
  shift_le : minShift ≤ maxShift
  minShift_lt : minShift < allocShift
  allocShift_lt : allocShift < wordBits

namespace Geometry

/-- `CONFIG_MM_SMALL` on a 32-bit machine: 16-bit sizes, 4-byte headers. -/
def mmSmall : Geometry :=
  ⟨32, 15, 4, 4, 4, 15, by decide, by decide, by decide, by decide, by decide, by decide⟩

/-- The firmware's 32-bit geometry: 32-bit sizes, 8-byte headers. -/
def standard : Geometry :=
  ⟨32, 31, 8, 4, 4, 22, by decide, by decide, by decide, by decide, by decide, by decide⟩

/-- A 64-bit machine: 32-bit sizes, 8-byte headers, 8-byte links. -/
def wide : Geometry :=
  ⟨64, 31, 8, 8, 5, 22, by decide, by decide, by decide, by decide, by decide, by decide⟩

variable (g : Geometry)

/-- `SIZEOF_MM_FREENODE`. -/
def freeNode : Nat := g.allocNode + 2 * g.ptrSize

/-- `MM_MIN_CHUNK`. -/
def minChunk : Nat := 2 ^ g.minShift

/-- `MM_MAX_CHUNK`. -/
def maxChunk : Nat := 2 ^ g.maxShift

/-- `MM_NNODES`. -/
def nnodes : Nat := g.maxShift - g.minShift + 1

/-- `MM_GRAN_MASK`. -/
def granMask : Nat := g.minChunk - 1

/-- `MM_ALLOC_BIT`. -/
def allocBit : Nat := 2 ^ g.allocShift

/-- Assignment to an `mmsize_t` field. -/
def mmsize (value : Nat) : Nat := Word.wrap (g.allocShift + 1) value

/-- `size_t` and address addition. -/
def add (left right : Nat) : Nat := Word.add g.wordBits left right

/-- `size_t` and address subtraction. -/
def sub (left right : Nat) : Nat := Word.sub g.wordBits left right

/-- `MM_ALIGN_UP`. -/
def alignUp (value : Nat) : Nat := Word.andNot g.wordBits (g.add value g.granMask) g.granMask

/-- `MM_ALIGN_DOWN`. -/
def alignDown (value : Nat) : Nat := Word.andNot g.wordBits value g.granMask

/-- `(preceding & MM_ALLOC_BIT) != 0`. -/
def allocated (preceding : Nat) : Bool := preceding &&& g.allocBit != 0

/-- `preceding & ~MM_ALLOC_BIT`. -/
def clearAlloc (preceding : Nat) : Nat :=
  Word.andNot (g.allocShift + 1) preceding g.allocBit

/-- `size | (preceding & MM_ALLOC_BIT)`, as stored in a `preceding` field. -/
def keepAlloc (size preceding : Nat) : Nat := g.mmsize (size ||| (preceding &&& g.allocBit))

/-- No list of distinct nodes is longer than the address space and the bucket headers. -/
def fuel : Nat := 2 ^ g.wordBits + g.nnodes + 1

/-- The shift loop of `mm_size2ndx`. -/
def ndxLoop (size ndx : Nat) : Nat :=
  if 1 < size then ndxLoop (size >>> 1) (ndx + 1) else ndx
termination_by size
decreasing_by
  rw [Nat.shiftRight_eq_div_pow]
  omega

def mmSize2ndx (size : Nat) : Nat :=
  if g.maxChunk ≤ size then g.nnodes - 1 else ndxLoop (size >>> g.minShift) 0

end Geometry

/-- A node of the free list or of a region. -/
inductive Node where
  | head (index : Nat)
  | chunk (address : Nat)
deriving DecidableEq

/-- `mm_heapstart` and `mm_heapend` of one region: the addresses of its guard nodes. -/
structure Bounds where
  heapstart : Nat
  heapend : Nat
deriving DecidableEq

/-- `struct mm_heap_s` together with the memory of its regions. -/
structure Heap where
  nodelist : Nat
  heapsize : Nat
  /-- The first `mm_nregions` entries of `mm_heapstart` and `mm_heapend`. -/
  regions : List Bounds
  size : Node → Nat
  preceding : Node → Nat
  flink : Node → Option Node
  blink : Node → Option Node
  /-- Record of the sizes `mm_addfreechunk` was called with, the latest first. -/
  inserted : List Nat

namespace Heap

variable (g : Geometry) (h : Heap)

/-- Assign the `size` field of a node. -/
def setSize (node : Node) (value : Nat) : Heap :=
  { h with size := Function.update h.size node (g.mmsize value) }

/-- Assign the `preceding` field of a node. -/
def setPreceding (node : Node) (value : Nat) : Heap :=
  { h with preceding := Function.update h.preceding node (g.mmsize value) }

/-- The address of a node. -/
def addr : Node → Nat
  | .head index => h.nodelist + index * g.freeNode
  | .chunk address => address

/-- The node `offset` bytes behind a node. -/
def after (node : Node) (offset : Nat) : Node := .chunk (g.add (h.addr g node) offset)

/-- The node `offset` bytes in front of a node. -/
def ahead (node : Node) (offset : Nat) : Node := .chunk (g.sub (h.addr g node) offset)

/-- `(node->preceding & MM_ALLOC_BIT) == 0`. -/
def isFree (node : Node) : Bool := !g.allocated (h.preceding node)

/-- The unlink sequence written out in every function that takes a node off the free list:
`node->blink->flink = node->flink`, then the backward link of the successor if there is one. -/
def unlink (node : Node) : Option Heap := do
  let prev ← h.blink node
  let h := { h with flink := Function.update h.flink prev (h.flink node) }
  some { h with blink := Links.setBack h.blink (h.flink node) (h.blink node) }

end Heap

section Functions

variable (g : Geometry)

def mmAddfreechunk (h : Heap) (node : Node) : Option Heap := do
  let ndx := g.mmSize2ndx (h.size node)
  let (prev, next) ← Links.seek h.flink
    (fun next => !(h.size next != 0 && decide (h.size next < h.size node)))
    g.fuel (.head ndx) (h.flink (.head ndx))
  some { h with
    flink := Function.update (Function.update h.flink prev (some node)) node next
    blink := Links.setBack (Function.update h.blink node (some prev)) next (some node)
    inserted := h.size node :: h.inserted }

/-- The split of `mm_malloc`: the bytes behind `alignsize` become a free chunk. -/
def mallocSplit (h : Heap) (node : Node) (alignsize remaining : Nat) : Option Heap :=
  let next := h.after g node (h.size node)
  let remainder := h.after g node alignsize
  let h := h.setSize g remainder remaining
  let h := h.setPreceding g remainder alignsize
  let h := h.setSize g node alignsize
  let h := h.setPreceding g next (g.keepAlloc remaining (h.preceding next))
  mmAddfreechunk g h remainder

/-- The part of `mm_malloc` that takes the found node. -/
def mallocTake (h : Heap) (node : Node) (alignsize : Nat) : Option (Heap × Nat) := do
  let h ← h.unlink node
  let remaining := g.sub (h.size node) alignsize
  let h ← (if g.freeNode ≤ remaining then mallocSplit g h node alignsize remaining else some h)
  let h := h.setPreceding g node (h.preceding node ||| g.allocBit)
  some (h, g.add (h.addr g node) g.allocNode)

/-- `mm_malloc`. The second component is the returned pointer. -/
def mmMalloc (h : Heap) (size : Nat) : Option (Heap × Nat) :=
  if size < 1 then some (h, 0) else do
    let alignsize := g.alignUp (g.add size g.allocNode)
    let ndx := if g.maxChunk ≤ alignsize then g.nnodes - 1 else g.mmSize2ndx alignsize
    let (_, found) ← Links.seek h.flink (fun node => !decide (h.size node < alignsize))
      g.fuel (.head ndx) (h.flink (.head ndx))
    match found with
    | none => some (h, 0)
    | some node => mallocTake g h node alignsize

/-- `mm_zalloc`: `mm_malloc`, and zeroes in the payload. -/
def mmZalloc (h : Heap) (size : Nat) : Option (Heap × Nat) :=
  mmMalloc g h size

def mmCalloc (h : Heap) (n elemSize : Nat) : Option (Heap × Nat) :=
  if 0 < n ∧ 0 < elemSize then
    if n ≤ (2 ^ g.wordBits - 1) / elemSize then mmZalloc g h (n * elemSize) else some (h, 0)
  else some (h, 0)

/-- The first half of `mm_free`: merge the following chunk if it is free. Returns the node
behind the merged chunk. -/
def freeMergeNext (h : Heap) (node : Node) : Option (Heap × Node) :=
  let next := h.after g node (h.size node)
  if h.isFree g next then do
    let andbeyond := h.after g next (h.size next)
    let h ← h.unlink next
    let h := h.setSize g node (g.add (h.size node) (h.size next))
    let h := h.setPreceding g andbeyond (g.keepAlloc (h.size node) (h.preceding andbeyond))
    some (h, andbeyond)
  else some (h, next)

/-- The second half of `mm_free`: merge into the preceding chunk if it is free. Returns the
chunk to put on the free list. -/
def freeMergePrev (h : Heap) (node next : Node) : Option (Heap × Node) :=
  let prev := h.ahead g node (h.preceding node)
  if h.isFree g prev then do
    let h ← h.unlink prev
    let h := h.setSize g prev (g.add (h.size prev) (h.size node))
    let h := h.setPreceding g next (g.keepAlloc (h.size prev) (h.preceding next))
    some (h, prev)
  else some (h, node)

def mmFree (h : Heap) (mem : Nat) : Option Heap :=
  if mem = 0 then some h else do
    let node := Node.chunk (g.sub mem g.allocNode)
    let h := h.setPreceding g node (g.clearAlloc (h.preceding node))
    let (h, next) ← freeMergeNext g h node
    let (h, node) ← freeMergePrev g h node next
    mmAddfreechunk g h node

def mmShrinkchunk (h : Heap) (node : Node) (size : Nat) : Option Heap :=
  let next := h.after g node (h.size node)
  if h.isFree g next then do
    let andbeyond := h.after g next (h.size next)
    let h ← h.unlink next
    let newnode := h.after g node size
    let h := h.setSize g newnode (g.sub (g.add (h.size next) (h.size node)) size)
    let h := h.setPreceding g newnode size
    let h := h.setSize g node size
    let h := h.setPreceding g andbeyond (g.keepAlloc (h.size newnode) (h.preceding andbeyond))
    mmAddfreechunk g h newnode
  else if g.add size g.freeNode ≤ h.size node then
    let newnode := h.after g node size
    let h := h.setSize g newnode (g.sub (h.size node) size)
    let h := h.setPreceding g newnode size
    let h := h.setSize g node size
    let h := h.setPreceding g next (h.size newnode ||| g.allocBit)
    mmAddfreechunk g h newnode
  else some h

/-- How `mm_realloc` shares `needed` bytes between the free neighbours: the bytes it takes
from the previous and from the next chunk. -/
def reallocTake (prevsize nextsize needed : Nat) : Nat × Nat :=
  let (takeprev, takenext, needed) :=
    if 0 < prevsize ∧ (prevsize ≤ nextsize ∨ nextsize < 1) then
      if prevsize < needed then (prevsize, needed - prevsize, 0) else (needed, 0, 0)
    else (0, 0, needed)
  if 0 < nextsize ∧ needed ≠ 0 then
    if nextsize < needed then (needed - nextsize, nextsize) else (0, needed)
  else (takeprev, takenext)

/-- `mm_realloc`: write the headers of the allocation extended into the previous free chunk. -/
def extendPrevHeaders (h : Heap) (prev newnode next : Node) (oldsize prevsize takeprev : Nat) :
    Option Heap :=
  if takeprev < prevsize then
    let h := h.setSize g prev (g.sub (h.size prev) takeprev)
    let h := h.setSize g newnode (g.add oldsize takeprev)
    let h := h.setPreceding g newnode (h.size prev ||| g.allocBit)
    let h := h.setPreceding g next (g.keepAlloc (h.size newnode) (h.preceding next))
    mmAddfreechunk g h prev
  else
    let h := h.setSize g newnode (g.add (h.size newnode) oldsize)
    let h := h.setPreceding g newnode (h.preceding newnode ||| g.allocBit)
    some (h.setPreceding g next (g.keepAlloc (h.size newnode) (h.preceding next)))

/-- `mm_realloc`: extend the allocation into the previous free chunk. Returns the new node. -/
def reallocExtendPrev (h : Heap) (oldnode prev next : Node) (oldsize prevsize takeprev : Nat) :
    Option (Heap × Node) := do
  let h ← h.unlink prev
  let newnode := h.ahead g oldnode takeprev
  let h ← extendPrevHeaders g h prev newnode next oldsize prevsize takeprev
  some (h, newnode)

/-- `mm_realloc`: extend the allocation into the next free chunk. -/
def reallocExtendNext (h : Heap) (oldnode next : Node) (oldsize nextsize takenext : Nat) :
    Option Heap := do
  let andbeyond := h.after g next nextsize
  let h ← h.unlink next
  let h := h.setSize g oldnode (g.add oldsize takenext)
  let newnode := h.after g oldnode (h.size oldnode)
  if takenext < nextsize then
    let h := h.setSize g newnode (g.sub nextsize takenext)
    let h := h.setPreceding g newnode (h.size oldnode)
    let h := h.setPreceding g andbeyond (g.keepAlloc (h.size newnode) (h.preceding andbeyond))
    mmAddfreechunk g h newnode
  else
    some (h.setPreceding g andbeyond (g.keepAlloc (h.size oldnode) (h.preceding andbeyond)))

/-- `mm_realloc`: enlarge the allocation inside its free neighbours. Returns the new
pointer. -/
def reallocGrow (h : Heap) (oldnode prev next : Node) (oldsize prevsize nextsize needed : Nat) :
    Option (Heap × Nat) := do
  let (takeprev, takenext) := reallocTake prevsize nextsize needed
  let (h, oldnode) ← (if takeprev ≠ 0 then
      reallocExtendPrev g h oldnode prev next oldsize prevsize takeprev
    else some (h, oldnode))
  let oldsize := h.size oldnode
  let h ← (if takenext ≠ 0 then reallocExtendNext g h oldnode next oldsize nextsize takenext
    else some h)
  some (h, g.add (h.addr g oldnode) g.allocNode)

/-- The part of `mm_realloc` that holds the semaphore. The second component is the returned
pointer, or `none` when the chunk cannot be extended and the data must be copied. -/
def reallocInPlace (h : Heap) (oldmem size : Nat) : Option (Heap × Option Nat) :=
  let newsize := g.alignUp (g.add size g.allocNode)
  let oldnode := Node.chunk (g.sub oldmem g.allocNode)
  let oldsize := h.size oldnode
  if newsize ≤ oldsize then do
    let h ← (if newsize < oldsize then mmShrinkchunk g h oldnode newsize else some h)
    some (h, some oldmem)
  else do
    let next := h.after g oldnode (h.size oldnode)
    let nextsize := if h.isFree g next then h.size next else 0
    let prev := h.ahead g oldnode (g.clearAlloc (h.preceding oldnode))
    let prevsize := if h.isFree g prev then h.size prev else 0
    if newsize ≤ g.add (g.add nextsize prevsize) oldsize then do
      let (h, newmem) ← reallocGrow g h oldnode prev next oldsize prevsize nextsize
        (g.sub newsize oldsize)
      some (h, some newmem)
    else some (h, none)

def mmRealloc (h : Heap) (oldmem size : Nat) : Option (Heap × Nat) :=
  if oldmem = 0 then mmMalloc g h size
  else if size < 1 then do
    let h ← mmFree g h oldmem
    some (h, 0)
  else do
    let (h, result) ← reallocInPlace g h oldmem size
    match result with
    | some mem => some (h, mem)
    | none =>
      let (h, newmem) ← mmMalloc g h size
      if newmem = 0 then some (h, 0)
      else
        let h ← mmFree g h oldmem
        some (h, newmem)

/-- The alignment point `mm_memalign` uses: the second one if the first leaves too few bytes in
front for a free node. -/
def memalignPoint (start alignment alignedchunk : Nat) : Nat :=
  if g.sub (g.sub alignedchunk g.allocNode) start < g.freeNode then g.add alignedchunk alignment
  else alignedchunk

/-- The leading cut of `mm_memalign`: the bytes in front of the aligned address become a
free chunk. Returns the new node, its aligned address and its size without the header. -/
def memalignLead (h : Heap) (node : Node) (alignment alignedchunk : Nat) :
    Option (Heap × Node × Nat × Nat) := do
  let next := h.after g node (h.size node)
  let start := h.addr g node
  let alignedchunk := memalignPoint g start alignment alignedchunk
  let newnode := Node.chunk (g.sub alignedchunk g.allocNode)
  let precedingsize := g.sub (h.addr g newnode) start
  let h := h.setSize g newnode (g.sub (h.addr g next) (h.addr g newnode))
  let h := h.setPreceding g newnode (precedingsize ||| g.allocBit)
  let h := h.setSize g node precedingsize
  let h := h.setPreceding g node (g.clearAlloc (h.preceding node))
  let h := h.setPreceding g next (g.keepAlloc (h.size newnode) (h.preceding next))
  let allocsize := g.sub (h.size newnode) g.allocNode
  let h ← mmAddfreechunk g h node
  some (h, newnode, alignedchunk, allocsize)

/-- The part of `mm_memalign` after `mm_malloc`, under the semaphore: cut the aligned chunk
out of the raw chunk. `size` is the rounded request. -/
def memalignCut (h : Heap) (alignment size allocsize rawchunk : Nat) : Option (Heap × Nat) := do
  let mask := g.sub alignment 1
  let node := Node.chunk (g.sub rawchunk g.allocNode)
  let alignedchunk := Word.andNot g.wordBits (g.add rawchunk mask) mask
  let (h, node, alignedchunk, allocsize) ← (if alignedchunk ≠ rawchunk then
      memalignLead g h node alignment alignedchunk
    else some (h, node, alignedchunk, allocsize))
  let size := g.alignUp (g.add size g.allocNode)
  let h ← (if size < allocsize then mmShrinkchunk g h node size else some h)
  some (h, alignedchunk)

/-- The size `mm_memalign` asks `mm_malloc` for, given the rounded request. -/
def memalignAllocsize (alignment size : Nat) : Nat :=
  g.add size (Word.wrap g.wordBits (2 * alignment))

def mmMemalign (h : Heap) (alignment size : Nat) : Option (Heap × Nat) :=
  if alignment ≤ g.minChunk then mmMalloc g h size
  else do
    let size := g.alignUp size
    let allocsize := memalignAllocsize g alignment size
    let (h, rawchunk) ← mmMalloc g h allocsize
    if rawchunk = 0 then some (h, 0) else memalignCut g h alignment size allocsize rawchunk

def mmAddregion (h : Heap) (heapstart heapsize : Nat) : Option Heap :=
  let heapbase := g.alignUp heapstart
  let heapend := g.alignDown (g.add heapstart heapsize)
  let heapsize := g.sub heapend heapbase
  let h := { h with heapsize := g.add h.heapsize heapsize }
  let first := Node.chunk heapbase
  let h := h.setSize g first g.allocNode
  let h := h.setPreceding g first g.allocBit
  let node := Node.chunk (g.add heapbase g.allocNode)
  let h := h.setSize g node (g.sub heapsize (2 * g.allocNode))
  let h := h.setPreceding g node g.allocNode
  let lastAddr := g.sub heapend g.allocNode
  let h := h.setSize g (.chunk lastAddr) g.allocNode
  let h := h.setPreceding g (.chunk lastAddr) (h.size node ||| g.allocBit)
  let h := { h with regions := h.regions ++ [⟨heapbase, lastAddr⟩] }
  mmAddfreechunk g h node

/-- The assignments of `mm_initialize` before the first region: no regions, and the bucket
headers cleared and linked in order. The memory of the regions keeps what it held. -/
def initNodelist (h : Heap) : Heap :=
  { h with
    heapsize := 0
    regions := []
    size := fun node => match node with
      | .head _ => 0
      | .chunk _ => h.size node
    preceding := fun node => match node with
      | .head _ => 0
      | .chunk _ => h.preceding node
    flink := fun node => match node with
      | .head index => if index + 1 < g.nnodes then some (.head (index + 1)) else none
      | .chunk _ => h.flink node
    blink := fun node => match node with
      | .head 0 => none
      | .head (index + 1) => if index + 1 < g.nnodes then some (.head index) else none
      | .chunk _ => h.blink node
    inserted := [] }

def mmInitialize (h : Heap) (heapstart heapsize : Nat) : Option Heap :=
  mmAddregion g (initNodelist g h) heapstart heapsize

/-- The part of `mm_extend` that holds the semaphore: the old terminal node is stretched over
the new block and a new terminal node is written at its end. -/
def extendTail (h : Heap) (mem size region : Nat) : Option Heap := do
  let blockend := g.add mem size
  let bounds ← h.regions[region]?
  let oldnode := Node.chunk bounds.heapend
  let h := h.setSize g oldnode size
  let newnode := Node.chunk (g.sub blockend g.allocNode)
  let h := h.setSize g newnode g.allocNode
  let h := h.setPreceding g newnode (h.size oldnode ||| g.allocBit)
  some { h with
    regions := h.regions.set region { bounds with heapend := g.sub blockend g.allocNode } }

def mmExtend (h : Heap) (mem size region : Nat) : Option Heap := do
  let h ← extendTail g h mem size region
  mmFree g h mem

/-- `struct mallinfo`. -/
structure Mallinfo where
  arena : Nat
  ordblks : Nat
  mxordblk : Nat
  uordblks : Nat
  fordblks : Nat
deriving DecidableEq

/-- The node loop of `mm_mallinfo` over one region. -/
def mallinfoNodes (h : Heap) (heapend : Nat) : Nat → Nat → Mallinfo → Option Mallinfo
  | 0, _, _ => none
  | fuel + 1, node, info =>
    if node < heapend then
      let size := h.size (.chunk node)
      let info :=
        if g.allocated (h.preceding (.chunk node)) then
          { info with uordblks := g.add info.uordblks size }
        else
          { info with
            ordblks := info.ordblks + 1
            fordblks := g.add info.fordblks size
            mxordblk := if info.mxordblk < size then size else info.mxordblk }
      mallinfoNodes h heapend fuel (g.add node size) info
    else some info

/-- The region loop of `mm_mallinfo`. -/
def mallinfoRegions (h : Heap) : List Bounds → Mallinfo → Option Mallinfo
  | [], info => some info
  | bounds :: rest, info => do
    let info ← mallinfoNodes g h bounds.heapend g.fuel bounds.heapstart info
    mallinfoRegions h rest { info with uordblks := g.add info.uordblks g.allocNode }

def mmMallinfo (h : Heap) : Option Mallinfo := do
  let info ← mallinfoRegions g h h.regions ⟨0, 0, 0, 0, 0⟩
  some { info with arena := h.heapsize }

end Functions

end Chewie.Mm

import Chewie.Lib.Overwrite
import Chewie.Lib.Word

/-!
# Chains of I/O buffers

An I/O buffer holds `CONFIG_IOB_BUFSIZE` bytes, of which `io_len` bytes from `io_offset` on are
data. Buffers are linked to chains, and the first buffer of a chain has the length of the whole
packet. `iob_copyin` writes user data into a chain and extends it where it must, and `iob_copyout`
reads data from a chain.
-/

namespace Chewie.Mm.Iob

open Chewie Overwrite List

/-- One I/O buffer, `struct iob_s`, with room for `bufsize` bytes. -/
structure IobS (bufsize : Nat) where
  ioLen : Nat
  ioOffset : Nat
  ioPktlen : Nat
  ioData : List UInt8
  sized : ioData.length = bufsize

/-- A chain, linked by `io_flink`. The empty list is `NULL`. -/
abbrev Chain (bufsize : Nat) := List (IobS bufsize)

/-- The errors that the copy functions return. -/
inductive Errno where
  | espipe
  | enomem
deriving DecidableEq

variable {bufsize : Nat} {σ : Type}

/-- The width of `io_len` and `io_offset`. -/
def lenWidth (bufsize : Nat) : Nat := if bufsize < 256 then 8 else 16

/-- `memcpy` into the payload. Bytes beyond the payload are not stored. -/
def IobS.store (iob : IobS bufsize) (position : Nat) (bytes : List UInt8) : IobS bufsize :=
  { iob with
    ioData := (overwrite iob.ioData position bytes).take bufsize
    sized := by
      have whole := iob.sized
      unfold overwrite
      simp only [length_take, length_append, length_drop]
      omega }

/-- A new buffer in a known state, as the allocation functions return it. -/
def IobS.known (iob : IobS bufsize) : IobS bufsize :=
  { iob with ioLen := 0, ioOffset := 0, ioPktlen := 0 }

/-- Where new buffers come from: the pool's state, and the buffer that an allocation finds in it.
The allocation may wait, and it may fail. -/
structure Source (σ : Type) (bufsize : Nat) where
  alloc : Bool → σ → Option (IobS bufsize) × σ
  tryalloc : Bool → σ → Option (IobS bufsize) × σ

/-- Allocate a buffer, and wait for it if the caller may block. -/
def Source.take (source : Source σ bufsize) (throttled canBlock : Bool) (pool : σ) :
    Option (IobS bufsize) × σ :=
  let taken := if canBlock then source.alloc throttled pool else source.tryalloc throttled pool
  (taken.1.map IobS.known, taken.2)

/-- A place in a chain: the buffers before it, the buffer and those after it, and the offset in the
buffer's data. -/
structure Place (bufsize : Nat) where
  passed : Chain bufsize
  iob : IobS bufsize
  rest : Chain bufsize
  offset : Nat

/-- Skip to the buffer that holds the offset. Without such a buffer the loop runs into `NULL`. -/
def copyinSkip : Chain bufsize → Nat → Option (Place bufsize)
  | [], _ => none
  | iob :: rest, offset =>
    if iob.ioLen < offset then
      (copyinSkip rest (offset - iob.ioLen)).map fun place =>
        { place with passed := iob :: place.passed }
    else some ⟨[], iob, rest, offset⟩

/-- What one turn of the copy loop does to the lengths. -/
structure Clip (bufsize : Nat) where
  iob : IobS bufsize
  pktlen : Nat
  ncopy : Nat

/-- Clip the copy to one buffer. Only the last buffer of a chain is extended. -/
def clip (last : Bool) (pktlen : Nat) (iob : IobS bufsize) (len offset : Nat) : Clip bufsize :=
  let avail := iob.ioLen - offset
  if avail < len then
    if last then
      let maxlen := bufsize - iob.ioOffset
      let newlen := if maxlen < len + offset then maxlen else len + offset
      { iob := { iob with ioLen := Word.wrap (lenWidth bufsize) newlen }
        pktlen := Word.wrap 16 (pktlen + newlen - iob.ioLen)
        ncopy := newlen - offset }
    else ⟨iob, pktlen, avail⟩
  else ⟨iob, pktlen, len⟩

/-- How the copy loop ends. -/
structure Copied (σ : Type) (bufsize : Nat) where
  complete : Bool
  bufs : Chain bufsize
  pktlen : Nat
  pool : σ

theorem Source.take_known {source : Source σ bufsize} {throttled canBlock : Bool} {pool later : σ}
    {iob : IobS bufsize} (taken : source.take throttled canBlock pool = (some iob, later)) :
    iob.ioLen = 0 ∧ iob.ioOffset = 0 := by
  have found := congrArg Prod.fst taken
  obtain ⟨raw, _, same⟩ := Option.map_eq_some_iff.mp found
  rw [← same]
  exact ⟨rfl, rfl⟩

theorem clip_progress {pktlen len offset : Nat} {iob : IobS bufsize} (positive : 0 < len) :
    0 < (clip true pktlen iob len offset).ncopy ∨ bufsize ≤ iob.ioOffset + offset := by
  unfold clip
  dsimp only
  split
  · rw [if_pos rfl]
    dsimp only
    split
    · omega
    · omega
  · exact Or.inl positive

/-- The loop that copies the user data, buffer by buffer. A buffer that is full to its end gets no
bytes, but the buffer allocated behind it does. -/
def copyinLoop [NeZero bufsize] (source : Source σ bufsize) (throttled canBlock : Bool) (pool : σ)
    (pktlen : Nat) (iob : IobS bufsize) (rest : Chain bufsize) (src : List UInt8) (offset : Nat) :
    Copied σ bufsize :=
  if 0 < src.length then
    match rest with
    | next :: rest =>
      let step := clip false pktlen iob src.length offset
      let written := step.iob.store (iob.ioOffset + offset) (src.take step.ncopy)
      let later := copyinLoop source throttled canBlock pool step.pktlen next rest
        (src.drop step.ncopy) 0
      { later with bufs := written :: later.bufs }
    | [] =>
      let step := clip true pktlen iob src.length offset
      let written := step.iob.store (iob.ioOffset + offset) (src.take step.ncopy)
      let left := src.drop step.ncopy
      if 0 < left.length then
        match _ : source.take throttled canBlock pool with
        | (none, pool) => ⟨false, [written], step.pktlen, pool⟩
        | (some next, pool) =>
          let later := copyinLoop source throttled canBlock pool step.pktlen next [] left 0
          { later with bufs := written :: later.bufs }
      else ⟨true, [written], step.pktlen, pool⟩
  else ⟨true, iob :: rest, pktlen, pool⟩
termination_by (src.length, 2 * rest.length + if iob.ioOffset + offset < bufsize then 0 else 1)
decreasing_by
  · apply Prod.Lex.right'
    · rw [length_drop]
      omega
    · rw [length_cons]
      split
      · split
        · omega
        · omega
      · split
        · omega
        · omega
  · have fresh := Source.take_known ‹_›
    have room := Nat.pos_of_ne_zero (NeZero.ne bufsize)
    have progress := @clip_progress bufsize pktlen src.length offset iob ‹_›
    by_cases moved : 0 < (clip true pktlen iob src.length offset).ncopy
    · apply Prod.Lex.left
      rw [length_drop]
      omega
    · apply Prod.Lex.right'
      · rw [length_drop]
        omega
      · rw [fresh.2, if_pos (by omega), if_neg (by omega)]
        omega

/-- Set the packet length in the first buffer of a chain. -/
def setPktlen (pktlen : Nat) : Chain bufsize → Chain bufsize
  | [] => []
  | head :: rest => { head with ioPktlen := pktlen } :: rest

/-- Copy user data into a chain from `offset` on: the returned length or error, the chain and the
pool. The outer `none` is a `NULL` pointer that is followed. -/
def iobCopyinInternal [NeZero bufsize] (source : Source σ bufsize) (pool : σ)
    (chain : Chain bufsize) (src : List UInt8) (offset : Nat) (throttled canBlock : Bool) :
    Option (Except Errno Nat × Chain bufsize × σ) :=
  match chain with
  | [] => none
  | head :: _ =>
    if head.ioPktlen < offset then some (.error .espipe, chain, pool)
    else
      (copyinSkip chain offset).map fun place =>
        let copied := copyinLoop source throttled canBlock pool head.ioPktlen place.iob place.rest
          src place.offset
        (if copied.complete then .ok src.length else .error .enomem,
          setPktlen copied.pktlen (place.passed ++ copied.bufs), copied.pool)

/-- Copy user data into a chain, waiting for buffers if necessary. -/
def iobCopyin [NeZero bufsize] (source : Source σ bufsize) (pool : σ) (chain : Chain bufsize)
    (src : List UInt8) (offset : Nat) (throttled : Bool) :
    Option (Except Errno Nat × Chain bufsize × σ) :=
  iobCopyinInternal source pool chain src offset throttled true

/-- Copy user data into a chain without waiting for buffers. -/
def iobTrycopyin [NeZero bufsize] (source : Source σ bufsize) (pool : σ) (chain : Chain bufsize)
    (src : List UInt8) (offset : Nat) (throttled : Bool) :
    Option (Except Errno Nat × Chain bufsize × σ) :=
  iobCopyinInternal source pool chain src offset throttled false

/-- Skip to the buffer that holds the offset, or to the end of the chain. -/
def copyoutSkip : Chain bufsize → Nat → Chain bufsize × Nat
  | [], offset => ([], offset)
  | iob :: rest, offset =>
    if iob.ioLen ≤ offset then copyoutSkip rest (offset - iob.ioLen) else (iob :: rest, offset)

/-- The loop that copies data to the user: the bytes it writes and the number of bytes that are
still missing. -/
def copyoutLoop : Chain bufsize → Nat → Nat → List UInt8 × Nat
  | [], remaining, _ => ([], remaining)
  | iob :: rest, remaining, offset =>
    if 0 < remaining then
      let avail := iob.ioLen - offset
      let ncopy := min avail remaining
      let later := copyoutLoop rest (remaining - ncopy) 0
      ((iob.ioData.drop (iob.ioOffset + offset)).take ncopy ++ later.1, later.2)
    else ([], remaining)

/-- Copy data from a chain to the user: the bytes and the returned number. -/
def iobCopyout (chain : Chain bufsize) (len offset : Nat) : List UInt8 × Nat :=
  let found := copyoutSkip chain offset
  let copied := copyoutLoop found.1 len found.2
  (copied.1, len - copied.2)

end Chewie.Mm.Iob

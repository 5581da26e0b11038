import Chewie.Lib.Blocks
import Chewie.Lib.Trace
import Chewie.Lib.Word

/-!
# The flash translation layer

`ftl_flush` writes blocks to a flash memory that can only be programmed after it was erased, and
erased only in larger erase blocks. A range is cut into a part up to the next erase block, whole
erase blocks, and a part of the last erase block. The parts at the ends are read, erased, changed in
memory and programmed again. Blocks are transferred as a whole, so that a block is one value. The
operations of the flash memory and the allocation of the buffer succeed. Block numbers are of type
`off_t` and are computed in 32 bits.
-/

namespace Chewie.Drivers.Ftl

open Chewie.Blocks Option List Trace Word

variable {β : Type}

/-- The geometry of a flash memory whose erase blocks hold a power of two of blocks. -/
structure Geometry where
  /-- The binary logarithm of the number of blocks in an erase block. -/
  shift : Nat
  neraseblocks : Nat
  /-- `blkper` is of type `uint16_t`. -/
  narrow : shift < 16
  /-- The number of blocks is a value of type `off_t`. -/
  addressable : neraseblocks * 2 ^ shift < 2 ^ 31

open Ftl.Geometry

/-- The number of blocks in an erase block. -/
def Geometry.blkper (geo : Geometry) : Nat := 2 ^ geo.shift

/-- The number of blocks. -/
def Geometry.nblocks (geo : Geometry) : Nat := geo.neraseblocks * geo.blkper

/-- An operation of the flash memory. -/
inductive Access where
  | bread (startblock nblocks : Nat)
  | erase (eraseblock : Nat)
  | bwrite (startblock nblocks : Nat)

/-- The flash memory. -/
structure Mtd (β : Type) where
  content : Int → β
  blank : β
  /-- The block was erased since it was last programmed. -/
  erased : Int → Bool
  log : List Access

section Operations

variable (geo : Geometry)

/-- `MTD_BREAD`. There is no result outside the device. -/
def mtdBread (mtd : Mtd β) (startblock nblocks : Nat) : Option (Mtd β × (Int → β)) :=
  if startblock + nblocks ≤ geo.nblocks then
    some ({ mtd with log := .bread startblock nblocks :: mtd.log },
      fun index => mtd.content (startblock + index))
  else none

/-- `MTD_ERASE` of one erase block. There is no result outside the device. -/
def mtdErase (mtd : Mtd β) (eraseblock : Nat) : Option (Mtd β) :=
  if eraseblock < geo.neraseblocks then
    some { mtd with
      content := copyTo mtd.content (eraseblock * geo.blkper : Nat) (fun _ => mtd.blank) geo.blkper
      erased := copyTo mtd.erased (eraseblock * geo.blkper : Nat) (fun _ => true) geo.blkper
      log := .erase eraseblock :: mtd.log }
  else none

/-- `MTD_BWRITE`. There is no result outside the device, nor when a block was not erased since it
was last programmed. -/
def mtdBwrite (mtd : Mtd β) (startblock nblocks : Nat) (buffer : Int → β) : Option (Mtd β) :=
  if startblock + nblocks ≤ geo.nblocks ∧ (blocks mtd.erased startblock nblocks).all id then
    some { mtd with
      content := copyTo mtd.content startblock buffer nblocks
      erased := copyTo mtd.erased startblock (fun _ => false) nblocks
      log := .bwrite startblock nblocks :: mtd.log }
  else none

/-- Where `ftl_flush` is: the flash memory, the blocks that remain and the rest of the buffer. -/
structure Flushing (β : Type) where
  mtd : Mtd β
  remaining : Nat
  buffer : Int → β

/-- The part of `ftl_flush` that writes before the first aligned block. -/
def flushHead (mtd : Mtd β) (buffer : Int → β) (startblock nblocks alignedblock : Nat) :
    Option (Flushing β) := do
  let mask := geo.blkper - 1
  if startblock < alignedblock then
    let shortWrite : Bool := nblocks < alignedblock - startblock
    let rwblock := Word.andNot 32 startblock mask
    let (mtd, eblock) ← mtdBread geo mtd rwblock geo.blkper
    let mtd ← mtdErase geo mtd (rwblock / geo.blkper)
    let offset := startblock &&& mask
    let copied := if shortWrite then nblocks else geo.blkper - offset
    let eblock := copyTo eblock offset buffer copied
    let mtd ← mtdBwrite geo mtd rwblock geo.blkper eblock
    return {
      mtd := mtd
      remaining := if shortWrite then 0 else nblocks - (geo.blkper - offset)
      buffer := fun index => buffer (copied + index) }
  else return ⟨mtd, nblocks, buffer⟩

/-- The loop of `ftl_flush` over whole erase blocks, with the aligned block. There is no result when
it runs out of fuel. -/
def flushLoop : Nat → Flushing β → Nat → Option (Flushing β × Nat)
  | 0, _, _ => none
  | fuel + 1, state, alignedblock => do
    if geo.blkper ≤ state.remaining then
      let mtd ← mtdErase geo state.mtd (alignedblock / geo.blkper)
      let mtd ← mtdBwrite geo mtd alignedblock geo.blkper state.buffer
      flushLoop fuel
        { mtd := mtd
          remaining := state.remaining - geo.blkper
          buffer := fun index => state.buffer (geo.blkper + index) }
        (alignedblock + geo.blkper)
    else return (state, alignedblock)

/-- The part of `ftl_flush` that writes behind the last whole erase block. -/
def flushTail (state : Flushing β) (alignedblock : Nat) : Option (Mtd β) := do
  if 0 < state.remaining then
    let (mtd, eblock) ← mtdBread geo state.mtd alignedblock geo.blkper
    let mtd ← mtdErase geo mtd (alignedblock / geo.blkper)
    let eblock := copyTo eblock 0 state.buffer state.remaining
    mtdBwrite geo mtd alignedblock geo.blkper eblock
  else return state.mtd

/-- `ftl_flush`, which returns the number of blocks. -/
def ftlFlush (mtd : Mtd β) (buffer : Int → β) (startblock nblocks : Nat) :
    Option (Mtd β × Nat) := do
  let mask := geo.blkper - 1
  let alignedblock := Word.andNot 32 (Word.add 32 startblock mask) mask
  let state ← flushHead geo mtd buffer startblock nblocks alignedblock
  let (state, alignedblock) ← flushLoop geo (nblocks + 1) state alignedblock
  let mtd ← flushTail geo state alignedblock
  return (mtd, nblocks)

/-- `ftl_reload`, which `ftl_read` calls when there is no buffer. -/
def ftlReload (mtd : Mtd β) (startblock nblocks : Nat) : Option (List β × Nat) := do
  let (_, buffer) ← mtdBread geo mtd startblock nblocks
  return (blocks buffer 0 nblocks, nblocks)

end Operations

/-- Every programmed block was erased, with its erase block, by the operation before. The last
operation comes first. -/
def ErasedBefore (blkper : Nat) : List Access → Prop
  | [] => True
  | .bread _ _ :: rest => ErasedBefore blkper rest
  | .erase _ :: rest => ErasedBefore blkper rest
  | .bwrite startblock nblocks :: rest =>
    (∀ block, startblock ≤ block → block < startblock + nblocks →
      rest.head? = some (.erase (block / blkper))) ∧ ErasedBefore blkper rest

theorem erasedBefore_append {blkper : Nat} {last first : List Access}
    (later : ErasedBefore blkper last) (earlier : ErasedBefore blkper first) :
    ErasedBefore blkper (last ++ first) := by
  induction last with
  | nil => exact earlier
  | cons access rest ih =>
    cases access with
    | bread startblock nblocks => exact ih later
    | erase eraseblock => exact ih later
    | bwrite startblock nblocks =>
      refine ⟨fun block low high => ?_, ih later.2⟩
      change (rest ++ first).head? = _
      rw [head?_append, later.1 block low high]
      rfl

/-- Blocks were written from the buffer, the other ones kept, and every block that was programmed
was erased just before. -/
structure Wrote (geo : Geometry) (mtd after : Mtd β) (startblock : Nat) (buffer : Int → β)
    (nblocks : Nat) : Prop where
  content : after.content = copyTo mtd.content startblock buffer nblocks
  log : ∃ accesses, after.log = accesses ++ mtd.log ∧ ErasedBefore geo.blkper accesses

section Writing

variable {geo : Geometry} {mtd : Mtd β}

theorem wrote_none (geo : Geometry) (mtd : Mtd β) (startblock : Nat) (buffer : Int → β) :
    Wrote geo mtd mtd startblock buffer 0 :=
  ⟨(copyTo_zero mtd.content buffer startblock).symm, [], rfl, trivial⟩

theorem Wrote.append {middle after : Mtd β} {startblock first second : Nat} {buffer : Int → β}
    (one : Wrote geo mtd middle startblock buffer first)
    (two : Wrote geo middle after (startblock + first) (fun index => buffer (first + index))
      second) : Wrote geo mtd after startblock buffer (first + second) := by
  obtain ⟨earlier, earlier_log, earlier_erased⟩ := one.log
  obtain ⟨later, later_log, later_erased⟩ := two.log
  refine ⟨?_, later ++ earlier, ?_, erasedBefore_append later_erased earlier_erased⟩
  · rw [two.content, one.content]
    exact copyTo_append mtd.content buffer startblock first second
  · rw [later_log, earlier_log, append_assoc]

theorem blkper_pos (geo : Geometry) : 0 < geo.blkper := Nat.two_pow_pos geo.shift

theorem rewrite_spec {eraseblock : Nat} (inside : eraseblock < geo.neraseblocks)
    (buffer : Int → β) :
    ∃ after, (mtdErase geo mtd (eraseblock * geo.blkper / geo.blkper)).bind
        (fun mtd => mtdBwrite geo mtd (eraseblock * geo.blkper) geo.blkper buffer) = some after ∧
      after.content = copyTo mtd.content (eraseblock * geo.blkper : Nat) buffer geo.blkper ∧
      after.log = .bwrite (eraseblock * geo.blkper) geo.blkper :: .erase eraseblock :: mtd.log := by
  have whole : eraseblock * geo.blkper + geo.blkper ≤ geo.nblocks := by
    rw [← Nat.succ_mul]
    exact Nat.mul_le_mul_right geo.blkper inside
  have erased : (blocks (copyTo mtd.erased (eraseblock * geo.blkper : Nat) (fun _ => true)
      geo.blkper) (eraseblock * geo.blkper : Nat) geo.blkper).all id := by
    rw [blocks_copyTo, List.all_eq_true]
    intro flag mem
    obtain ⟨index, _, same⟩ := List.mem_map.mp mem
    exact same.symm
  rw [Nat.mul_div_cancel _ (blkper_pos geo), mtdErase, if_pos inside, bind_some, mtdBwrite,
    if_pos ⟨whole, erased⟩]
  refine ⟨_, rfl, ?_, rfl⟩
  dsimp only
  exact copyTo_copyTo _ _ _ _ _

theorem div_blkper {eraseblock block : Nat} (low : eraseblock * geo.blkper ≤ block)
    (high : block < eraseblock * geo.blkper + geo.blkper) : block / geo.blkper = eraseblock := by
  refine Nat.div_eq_of_lt_le low ?_
  rw [Nat.succ_mul]
  exact high

theorem rewrite_part {γ : Type} {eraseblock offset copied : Nat}
    (inside : eraseblock < geo.neraseblocks) (fits : offset + copied ≤ geo.blkper)
    (buffer : Int → β) (rest : Mtd β → Option γ) :
    ∃ after, ((mtdBread geo mtd (eraseblock * geo.blkper) geo.blkper).bind fun read =>
        (mtdErase geo read.1 (eraseblock * geo.blkper / geo.blkper)).bind fun mtd =>
          (mtdBwrite geo mtd (eraseblock * geo.blkper) geo.blkper
            (copyTo read.2 offset buffer copied)).bind rest) = rest after ∧
      Wrote geo mtd after (eraseblock * geo.blkper + offset) buffer copied := by
  have whole : eraseblock * geo.blkper + geo.blkper ≤ geo.nblocks := by
    rw [← Nat.succ_mul]
    exact Nat.mul_le_mul_right geo.blkper inside
  rw [mtdBread, if_pos whole, bind_some]
  obtain ⟨after, done, content, log⟩ := @rewrite_spec β geo
    { mtd with log := .bread (eraseblock * geo.blkper) geo.blkper :: mtd.log } eraseblock inside
    (copyTo (fun index => mtd.content ((eraseblock * geo.blkper : Nat) + index)) offset buffer
      copied)
  refine ⟨after, ?_, ?_, [.bwrite (eraseblock * geo.blkper) geo.blkper, .erase eraseblock,
    .bread (eraseblock * geo.blkper) geo.blkper], log, ?_, trivial⟩
  · rw [← bind_assoc, done, bind_some]
  · rw [content]
    exact copyTo_modified mtd.content buffer _ fits
  · intro block low high
    rw [div_blkper low high]
    rfl

theorem alignedblock_eq {startblock : Nat} (inside : startblock ≤ geo.nblocks) :
    andNot 32 (add 32 startblock (geo.blkper - 1)) (geo.blkper - 1) =
      (startblock + (geo.blkper - 1)) / geo.blkper * geo.blkper := by
  have few : startblock < 2 ^ 31 := Nat.lt_of_le_of_lt inside geo.addressable
  have narrow : geo.blkper ≤ 2 ^ 16 := Nat.pow_le_pow_right (by decide) (Nat.le_of_lt geo.narrow)
  have fits : startblock + (geo.blkper - 1) < 2 ^ 32 := by omega
  rw [add_of_lt fits]
  exact andNot_low geo.shift (by have := geo.narrow; omega) fits

theorem rwblock_eq {startblock : Nat} (inside : startblock ≤ geo.nblocks) :
    andNot 32 startblock (geo.blkper - 1) = startblock / geo.blkper * geo.blkper := by
  have few : startblock < 2 ^ 31 := Nat.lt_of_le_of_lt inside geo.addressable
  exact andNot_low geo.shift (by have := geo.narrow; omega) (by omega)

theorem offset_eq (geo : Geometry) (startblock : Nat) :
    startblock &&& geo.blkper - 1 = startblock % geo.blkper :=
  Nat.and_two_pow_sub_one_eq_mod startblock geo.shift

theorem aligned_above {startblock blkper : Nat} (positive : 0 < blkper)
    (unaligned : startblock % blkper ≠ 0) :
    (startblock + (blkper - 1)) / blkper * blkper =
      startblock + (blkper - startblock % blkper) := by
  have small := Nat.mod_lt startblock positive
  have parts := Nat.div_add_mod' startblock blkper
  have next : (startblock + (blkper - 1)) / blkper = startblock / blkper + 1 := by
    refine Nat.div_eq_of_lt_le ?_ ?_
    · rw [Nat.succ_mul]
      omega
    · rw [Nat.succ_mul, Nat.succ_mul]
      omega
  rw [next, Nat.succ_mul]
  omega

theorem aligned_same {startblock blkper : Nat} (positive : 0 < blkper)
    (aligned : startblock % blkper = 0) :
    (startblock + (blkper - 1)) / blkper * blkper = startblock := by
  have parts := Nat.div_add_mod' startblock blkper
  have same : (startblock + (blkper - 1)) / blkper = startblock / blkper := by
    refine Nat.div_eq_of_lt_le ?_ ?_
    · omega
    · rw [Nat.succ_mul]
      omega
  rw [same]
  omega

/-- The blocks before the first aligned one are written, or all of them when they end before it. -/
theorem flushHead_spec {startblock nblocks : Nat} (inside : startblock + nblocks ≤ geo.nblocks)
    (buffer : Int → β) :
    ∃ after copied, flushHead geo mtd buffer startblock nblocks
        ((startblock + (geo.blkper - 1)) / geo.blkper * geo.blkper) =
          some ⟨after, nblocks - copied, fun index => buffer (copied + index)⟩ ∧
      Wrote geo mtd after startblock buffer copied ∧ copied ≤ nblocks ∧
      (copied = nblocks ∨ startblock + copied =
        (startblock + (geo.blkper - 1)) / geo.blkper * geo.blkper) := by
  have positive := blkper_pos geo
  rw [flushHead]
  by_cases aligned : startblock % geo.blkper = 0
  · rw [aligned_same positive aligned, if_neg (Nat.lt_irrefl _)]
    refine ⟨mtd, 0, ?_, wrote_none geo mtd startblock buffer, Nat.zero_le _, Or.inr rfl⟩
    simp only [Int.natCast_zero, Int.zero_add, Nat.sub_zero]
    rfl
  have small := Nat.mod_lt startblock positive
  have parts := Nat.div_add_mod' startblock geo.blkper
  have found : startblock / geo.blkper < geo.neraseblocks := by
    refine (Nat.div_lt_iff_lt_mul positive).mpr ?_
    refine Nat.lt_of_le_of_ne (by rw [Geometry.nblocks] at inside; omega) fun ending => aligned ?_
    rw [ending, Nat.mul_mod_left]
  rw [aligned_above positive aligned, if_pos (by omega), rwblock_eq (by omega), offset_eq]
  have short_iff : nblocks < startblock + (geo.blkper - startblock % geo.blkper) - startblock ↔
      nblocks < geo.blkper - startblock % geo.blkper := by omega
  rw [decide_eq_decide.mpr short_iff]
  by_cases short : nblocks < geo.blkper - startblock % geo.blkper
  · rw [decide_eq_true short]
    obtain ⟨after, done, wrote⟩ := @rewrite_part β geo mtd _ _ (startblock % geo.blkper) nblocks
      found (by omega) buffer
      (fun mtd => some (⟨mtd, 0, fun index => buffer (nblocks + index)⟩ : Flushing β))
    rw [parts] at wrote
    refine ⟨after, nblocks, ?_, wrote, Nat.le_refl _, Or.inl rfl⟩
    rw [Nat.sub_self]
    exact done
  · rw [decide_eq_false short]
    obtain ⟨after, done, wrote⟩ := @rewrite_part β geo mtd _ _ (startblock % geo.blkper)
      (geo.blkper - startblock % geo.blkper) found (by omega) buffer
      (fun mtd => some (⟨mtd, nblocks - (geo.blkper - startblock % geo.blkper), fun index =>
        buffer ((geo.blkper - startblock % geo.blkper : Nat) + index)⟩ : Flushing β))
    rw [parts] at wrote
    exact ⟨after, _, done, wrote, Nat.le_of_not_lt short, Or.inr rfl⟩

/-- The loop writes whole erase blocks until less than one remains. -/
theorem flushLoop_spec (fuel : Nat) {state : Flushing β} {eraseblock : Nat}
    (enough : state.remaining < fuel)
    (inside : eraseblock * geo.blkper + state.remaining ≤ geo.nblocks) :
    ∃ after written next, flushLoop geo fuel state (eraseblock * geo.blkper) =
        some (⟨after, state.remaining - written, fun index => state.buffer (written + index)⟩,
          next * geo.blkper) ∧
      Wrote geo state.mtd after (eraseblock * geo.blkper) state.buffer written ∧
      written ≤ state.remaining ∧ state.remaining - written < geo.blkper ∧
      eraseblock * geo.blkper + written = next * geo.blkper := by
  have positive := blkper_pos geo
  induction fuel generalizing state eraseblock with
  | zero => omega
  | succ fuel ih =>
    rw [flushLoop]
    by_cases whole : geo.blkper ≤ state.remaining
    · rw [if_pos whole]
      have found : eraseblock < geo.neraseblocks := by
        exact Nat.lt_of_mul_lt_mul_right (Nat.lt_of_lt_of_le (by omega) inside)
      obtain ⟨middle, done, content, log⟩ :=
        @rewrite_spec β geo state.mtd eraseblock found state.buffer
      have wrote : Wrote geo state.mtd middle (eraseblock * geo.blkper) state.buffer geo.blkper := by
        refine ⟨content, [.bwrite (eraseblock * geo.blkper) geo.blkper, .erase eraseblock], log,
          fun block low high => ?_, trivial⟩
        rw [div_blkper low high]
        rfl
      have next_eq : eraseblock * geo.blkper + geo.blkper = (eraseblock + 1) * geo.blkper :=
        (Nat.succ_mul eraseblock geo.blkper).symm
      obtain ⟨after, written, next, later, wrote_later, most, less, ends⟩ :=
        @ih ⟨middle, state.remaining - geo.blkper, fun index => state.buffer (geo.blkper + index)⟩
          (eraseblock + 1) (by dsimp only; omega) (by rw [← next_eq]; dsimp only; omega)
      dsimp only at later wrote_later most less
      refine ⟨after, geo.blkper + written, next, ?_, wrote.append ?_, by omega, by omega, by omega⟩
      · have performed : ((mtdErase geo state.mtd (eraseblock * geo.blkper / geo.blkper)).bind
            fun mtd => mtdBwrite geo mtd (eraseblock * geo.blkper) geo.blkper state.buffer).bind
              (fun mtd => flushLoop geo fuel
                ⟨mtd, state.remaining - geo.blkper, fun index => state.buffer (geo.blkper + index)⟩
                (eraseblock * geo.blkper + geo.blkper)) =
            some (⟨after, state.remaining - geo.blkper - written,
              fun index => state.buffer (geo.blkper + (written + index))⟩, next * geo.blkper) := by
          rw [done, next_eq]
          exact later
        rw [bind_assoc] at performed
        refine Eq.trans performed ?_
        simp [Nat.sub_sub, Int.add_assoc]
      · rw [next_eq]
        exact wrote_later
    · rw [if_neg whole]
      refine ⟨state.mtd, 0, eraseblock, ?_, wrote_none geo state.mtd _ state.buffer,
        Nat.zero_le _, by omega, rfl⟩
      simp only [Int.natCast_zero, Int.zero_add, Nat.sub_zero]
      rfl

theorem flushTail_spec {state : Flushing β} {eraseblock : Nat} (less : state.remaining < geo.blkper)
    (inside : eraseblock * geo.blkper + state.remaining ≤ geo.nblocks) :
    ∃ after, flushTail geo state (eraseblock * geo.blkper) = some after ∧
      Wrote geo state.mtd after (eraseblock * geo.blkper) state.buffer state.remaining := by
  rw [flushTail]
  by_cases nonempty : 0 < state.remaining
  · rw [if_pos nonempty]
    have found : eraseblock < geo.neraseblocks := by
      exact Nat.lt_of_mul_lt_mul_right (Nat.lt_of_lt_of_le (by omega) inside)
    obtain ⟨after, done, wrote⟩ := @rewrite_part β geo state.mtd _ eraseblock 0 state.remaining
      found (by omega) state.buffer some
    refine ⟨after, ?_, wrote⟩
    simp only [bind_fun_some] at done
    exact done
  · have empty : state.remaining = 0 := Nat.eq_zero_of_not_pos nonempty
    rw [empty]
    exact ⟨state.mtd, rfl, wrote_none geo state.mtd _ state.buffer⟩

/-- The device after all parts. -/
theorem ftlFlush_wrote (mtd : Mtd β) (buffer : Int → β) {startblock nblocks : Nat}
    (inside : startblock + nblocks ≤ geo.nblocks) :
    ∃ after, ftlFlush geo mtd buffer startblock nblocks = some (after, nblocks) ∧
      Wrote geo mtd after startblock buffer nblocks := by
  obtain ⟨first, copied, head, wrote, most, meets⟩ := @flushHead_spec β geo mtd _ _ inside buffer
  rw [ftlFlush, alignedblock_eq (by omega)]
  rw [head, bind_eq_bind, bind_some]
  obtain all | meets := meets
  · -- Nothing remains, so that the loop and the last part do nothing.
    rw [all, Nat.sub_self, flushLoop, if_neg (Nat.not_le_of_lt (blkper_pos geo))]
    rw [all] at wrote
    exact ⟨first, rfl, wrote⟩
  obtain ⟨second, written, next, loop, wrote_loop, most_loop, less, ends⟩ :=
    @flushLoop_spec β geo (nblocks + 1)
      ⟨first, nblocks - copied, fun index => buffer (copied + index)⟩ _
      (by dsimp only; omega) (by rw [← meets]; dsimp only; omega)
  dsimp only at loop wrote_loop most_loop less
  rw [loop, bind_eq_bind, bind_some]
  obtain ⟨after, tail, wrote_tail⟩ := @flushTail_spec β geo
    ⟨second, nblocks - copied - written, fun index => buffer (copied + (written + index))⟩ next
    less (by rw [← ends, ← meets]; dsimp only; omega)
  dsimp only at wrote_tail ⊢
  rw [tail]
  refine ⟨after, rfl, ?_⟩
  rw [← meets] at wrote_loop ends
  rw [← ends] at wrote_tail
  have whole := wrote.append (wrote_loop.append wrote_tail)
  rw [show copied + (written + (nblocks - copied - written)) = nblocks by omega] at whole
  exact whole

/-- `ftl_flush` returns the number of blocks and leaves the blocks of the range with the data of the
buffer and all other blocks as they were. Each block that it programs was erased, with its whole
erase block, by the operation before. -/
theorem ftlFlush_writes (geo : Geometry) (mtd : Mtd β) (buffer : Int → β)
    {startblock nblocks : Nat} (inside : startblock + nblocks ≤ geo.nblocks) :
    ∃ after, ftlFlush geo mtd buffer startblock nblocks = some (after, nblocks) ∧
      (∀ index : Nat, index < nblocks → after.content (startblock + index) = buffer index) ∧
      (∀ block : Int, ¬ (startblock ≤ block ∧ block < startblock + nblocks) →
        after.content block = mtd.content block) ∧
      ∃ accesses, after.log = accesses ++ mtd.log ∧ ErasedBefore geo.blkper accesses := by
  obtain ⟨after, done, wrote⟩ := ftlFlush_wrote mtd buffer inside
  refine ⟨after, done, fun index below => ?_, fun block outside => ?_, wrote.log⟩
  · rw [wrote.content, copyTo_inside ⟨by omega, by omega⟩]
    congr 1
    omega
  · rw [wrote.content, copyTo_outside outside]

/-- A flash memory of four erase blocks of four blocks, each of which holds its number. -/
def sampleMtd : Mtd Nat := ⟨Int.toNat, 255, fun _ => false, []⟩

/-- Seven blocks that begin and end inside an erase block. -/
theorem ftlFlush_writes_seven :
    ∃ after, ftlFlush ⟨2, 4, by decide, by decide⟩ sampleMtd (fun index => 100 + index.toNat) 3 7 =
        some (after, 7) ∧
      (∀ index : Nat, index < 7 →
        after.content ((3 : Nat) + index) = 100 + (index : Int).toNat) ∧
      (∀ block : Int, ¬ ((3 : Nat) ≤ block ∧ block < (3 : Nat) + (7 : Nat)) →
        after.content block = sampleMtd.content block) ∧
      ∃ accesses, after.log = accesses ++ sampleMtd.log ∧ ErasedBefore 4 accesses :=
  ftlFlush_writes ⟨2, 4, by decide, by decide⟩ sampleMtd (fun index => 100 + index.toNat)
    (by decide)

end Writing

section Requests

variable (geo : Geometry)

/-- A request to the device, without `FTL_HAVE_RWBUFFER`. -/
inductive Request (β : Type) where
  /-- `ftl_read`. -/
  | read (startSector nsectors : Nat)
  /-- `ftl_write`. -/
  | write (startSector nsectors : Nat) (buffer : Int → β)

/-- The request lies in the device. -/
def Request.Inside : Request β → Prop
  | .read start nsectors | .write start nsectors _ => start + nsectors ≤ geo.nblocks

/-- Serve a request, with the blocks read and the returned number. -/
def serve (mtd : Mtd β) : Request β → Option ((List β × Nat) × Mtd β)
  | .read start nsectors => (ftlReload geo mtd start nsectors).map (·, mtd)
  | .write start nsectors buffer =>
    (ftlFlush geo mtd buffer start nsectors).map fun result => (([], result.2), result.1)

/-- What an array of blocks does. -/
def arrayServe (content : Int → β) : Request β → Option ((List β × Nat) × (Int → β))
  | .read start nsectors => some ((blocks content start nsectors, nsectors), content)
  | .write start nsectors buffer => some (([], nsectors), copyTo content start buffer nsectors)

/-- The device is an array of blocks: every run of requests is answered as by the array, and leaves
its contents. No block is programmed that was not erased just before. -/
theorem ftl_is_array (mtd : Mtd β) (requests : List (Request β))
    (inside : ∀ request ∈ requests, request.Inside geo) :
    ∃ results final, answers (serve geo) mtd requests = some (results, final) ∧
      answers arrayServe mtd.content requests = some (results, final.content) ∧
      ∃ accesses, final.log = accesses ++ mtd.log ∧ ErasedBefore geo.blkper accesses := by
  have simulate : ∀ (state : Mtd β) content (request : Request β),
      (state.content = content ∧ ∃ accesses, state.log = accesses ++ mtd.log ∧
        ErasedBefore geo.blkper accesses) → request.Inside geo →
      ∃ result next content', serve geo state request = some (result, next) ∧
        arrayServe content request = some (result, content') ∧ next.content = content' ∧
          ∃ accesses, next.log = accesses ++ mtd.log ∧ ErasedBefore geo.blkper accesses := by
    rintro state _ request ⟨rfl, accesses, log, erased⟩ fits
    cases request with
    | read start nsectors =>
      refine ⟨_, state, _, ?_, rfl, rfl, accesses, log, erased⟩
      have within : start + nsectors ≤ geo.nblocks := fits
      have same : blocks (fun index => state.content (start + index)) 0 nsectors =
          blocks state.content start nsectors :=
        blocks_congr fun index _ => by rw [Int.zero_add]
      rw [serve, ftlReload, mtdBread, if_pos within, ← same]
      rfl
    | write start nsectors buffer =>
      obtain ⟨after, done, wrote⟩ := ftlFlush_wrote state buffer fits
      obtain ⟨later, grown, erased'⟩ := wrote.log
      refine ⟨_, after, _, by rw [serve, done]; rfl, rfl, wrote.content, later ++ accesses, ?_,
        erasedBefore_append erased' erased⟩
      rw [grown, log, append_assoc]
  obtain ⟨results, final, _, performed, explained, rfl, kept⟩ :=
    simulates simulate ⟨rfl, [], rfl, trivial⟩ (Run.admitted_of_forall mtd inside)
  exact ⟨results, final, performed, answers_of_explains explained, kept⟩

/-- Three blocks are written over an edge of an erase block and read back with a neighbour. -/
theorem ftl_is_array_three :
    ∃ results final, answers (serve ⟨2, 4, by decide, by decide⟩) sampleMtd
        [.write 3 3 (fun index => 100 + index.toNat), .read 2 5] = some (results, final) ∧
      results = [([], 3), ([2, 100, 101, 102, 6], 5)] ∧
      answers arrayServe sampleMtd.content
        [.write 3 3 (fun index => 100 + index.toNat), .read 2 5] =
        some (results, final.content) ∧
      ∃ accesses, final.log = accesses ++ sampleMtd.log ∧ ErasedBefore 4 accesses := by
  obtain ⟨results, final, answered, rest⟩ := ftl_is_array ⟨2, 4, by decide, by decide⟩ sampleMtd
    [.write 3 3 (fun index => 100 + index.toNat), .read 2 5] fun request mem => by
      simp only [mem_cons, not_mem_nil, or_false] at mem
      rcases mem with rfl | rfl
      · exact show 3 + 3 ≤ 16 by decide
      · exact show 2 + 5 ≤ 16 by decide
  exact ⟨results, final, answered, by cases answered; rfl, rest⟩

end Requests

end Chewie.Drivers.Ftl

import Chewie.Lib.Run
import Chewie.Drivers.Rwbuffer.Model

/-!
# What reads of a buffered device return

The write buffer lies over the device: a block that it holds is newer there. A read takes such
blocks from the write buffer and all others through the read-ahead buffer. That is right as long as
the read-ahead buffer agrees with the device, and it does until the write buffer is flushed to
blocks that were read ahead before. In every run without such a flush, reads return what was
written last.
-/

namespace Chewie.Drivers.Rwbuffer

open Chewie.Blocks Rwb

variable {β : Type}

/-- The read-ahead buffer agrees with the device. -/
def Ahead (rwb : Rwb β) : Prop :=
  ∀ index : Int, 0 ≤ index → index < rwb.rhnblocks →
    rwb.rhbuffer index = rwb.device (rwb.rhblockstart + index)

/-- The block is in the write buffer. -/
def Dirty (rwb : Rwb β) (block : Int) : Prop :=
  rwb.wrblockstart ≤ block ∧ block < rwb.wrblockstart + rwb.wrnblocks

instance decidableDirty (rwb : Rwb β) (block : Int) : Decidable (Dirty rwb block) :=
  inferInstanceAs (Decidable (_ ∧ _))

/-- The device with the write buffer over it. -/
def Rwb.content (rwb : Rwb β) : Int → β :=
  fun block =>
    if Dirty rwb block then rwb.wrbuffer (block - rwb.wrblockstart) else rwb.device block

theorem content_of_dirty {rwb : Rwb β} {block : Int} (dirty : Dirty rwb block) :
    rwb.content block = rwb.wrbuffer (block - rwb.wrblockstart) :=
  if_pos dirty

theorem content_of_clean {rwb : Rwb β} {block : Int} (clean : ¬ Dirty rwb block) :
    rwb.content block = rwb.device block :=
  if_neg clean

/-- What every operation keeps of the buffers. -/
structure Sound (rwb : Rwb β) : Prop where
  buffered : 0 < rwb.rhmaxblocks
  room : rwb.wrnblocks ≤ rwb.wrmaxblocks
  expected : rwb.wrnblocks ≠ 0 → rwb.wrexpectedblock = rwb.wrblockstart + rwb.wrnblocks
  ahead : Ahead rwb

structure Coherent (sys : Sys β) : Prop where
  sound : Sound sys.rwb
  latest : sys.latest = sys.rwb.content
  reads : ∀ reading ∈ sys.reads, reading.returned = .ok reading.written

theorem rwbOverlap_iff {blockstart1 blockstart2 : Int} {nblocks1 nblocks2 : Nat} :
    rwbOverlap blockstart1 nblocks1 blockstart2 nblocks2 ↔
      blockstart2 < blockstart1 + nblocks1 ∧ blockstart1 < blockstart2 + nblocks2 := by
  rw [rwbOverlap, Bool.not_eq_true', Bool.or_eq_false_iff, decide_eq_false_iff_not,
    decide_eq_false_iff_not]
  omega

section Reading

variable {rwb : Rwb β}

/-- Change the read-ahead buffer. -/
def Rwb.load (rwb : Rwb β) (rhbuffer : Int → β) (rhnblocks : Nat) (rhblockstart : Int) : Rwb β :=
  { rwb with rhbuffer := rhbuffer, rhnblocks := rhnblocks, rhblockstart := rhblockstart }

/-- The blocks are read, and only the read-ahead buffer changes. -/
def Reads (rwb : Rwb β) (result : Option (Rwb β × Except Int (List β))) (data : List β) : Prop :=
  ∃ rhbuffer rhnblocks rhblockstart,
    result = some (rwb.load rhbuffer rhnblocks rhblockstart, .ok data) ∧
      Ahead (rwb.load rhbuffer rhnblocks rhblockstart)

theorem Reads.same (ahead : Ahead rwb) (data : List β) : Reads rwb (some (rwb, .ok data)) data :=
  ⟨rwb.rhbuffer, rwb.rhnblocks, rwb.rhblockstart, rfl, ahead⟩

theorem available_le (rwb : Rwb β) (startblock : Int) (remaining : Nat) :
    rwb.available startblock remaining ≤ remaining := by
  rw [available]
  split
  · exact Nat.min_le_right _ _
  · exact Nat.zero_le _

theorem rwbRhreload_spec {startblock : Int} (inside : startblock < rwb.nblocks)
    (buffered : 0 < rwb.rhmaxblocks) :
    ∃ rhbuffer rhnblocks, rwbRhreload rwb startblock =
        some (rwb.load rhbuffer rhnblocks startblock) ∧
      Ahead (rwb.load rhbuffer rhnblocks startblock) ∧
      ∀ remaining, 0 < remaining →
        0 < (rwb.load rhbuffer rhnblocks startblock).available startblock remaining := by
  rw [rwbRhreload, if_neg (by omega)]
  refine ⟨_, _, rfl, fun index _ _ => rfl, fun remaining nonempty => ?_⟩
  have positive : 0 < ((if (rwb.nblocks : Int) < startblock + rwb.rhmaxblocks then
      (rwb.nblocks : Int) else startblock + rwb.rhmaxblocks) - startblock).toNat := by
    split <;> omega
  generalize ((if (rwb.nblocks : Int) < startblock + rwb.rhmaxblocks then
      (rwb.nblocks : Int) else startblock + rwb.rhmaxblocks) - startblock).toNat = loaded
    at positive
  rw [available, if_pos]
  · dsimp only [load]
    omega
  · dsimp only [load]
    omega

/-- The loop reads the blocks of the device when it finds the first one in the read-ahead buffer. -/
theorem readLoop_hit (fuel : Nat) {rwb : Rwb β} {startblock : Int} {remaining : Nat}
    (ahead : Ahead rwb) (buffered : 0 < rwb.rhmaxblocks)
    (inside : startblock + remaining ≤ rwb.nblocks) (enough : remaining ≤ fuel)
    (hit : 0 < rwb.available startblock remaining) :
    Reads rwb (readLoop fuel rwb startblock remaining)
      (blocks rwb.device startblock remaining) := by
  induction fuel generalizing rwb startblock remaining with
  | zero =>
    have most := available_le rwb startblock remaining
    omega
  | succ fuel ih =>
    have most := available_le rwb startblock remaining
    rw [readLoop]
    have same : blocks rwb.rhbuffer (startblock - rwb.rhblockstart)
        (rwb.available startblock remaining) =
        blocks rwb.device startblock (rwb.available startblock remaining) := by
      refine blocks_congr fun index below => ?_
      rw [available] at below
      split at below
      · rename_i inside
        rw [ahead _ (by omega) (by omega)]
        congr 1
        omega
      · omega
    rw [same]
    generalize rwb.available startblock remaining = taken at hit most ⊢
    by_cases done : remaining - taken = 0
    · rw [if_pos done]
      have all : taken = remaining := by omega
      rw [all]
      exact .same ahead _
    rw [if_neg done]
    obtain ⟨rhbuffer, rhnblocks, reloads, ahead, next⟩ :=
      @rwbRhreload_spec β rwb (startblock + taken) (by omega) buffered
    rw [reloads]
    obtain ⟨buffer, count, first, reads, last⟩ :=
      @ih _ (startblock + taken) (remaining - taken) ahead buffered
        (show startblock + taken + ((remaining - taken : Nat) : Int) ≤ rwb.nblocks by omega)
        (by omega) (next _ (by omega))
    refine ⟨buffer, count, first, ?_, last⟩
    dsimp only
    rw [reads]
    have divided : blocks rwb.device startblock remaining =
        blocks rwb.device startblock taken ++
          blocks rwb.device (startblock + taken) (remaining - taken) := by
      rw [← blocks_add, Nat.add_sub_cancel' most]
    rw [divided]
    rfl

/-- `rwb_read_` reads the blocks of the device. -/
theorem rwbReadAhead_spec (ahead : Ahead rwb) {startblock : Int} {nblocks : Nat}
    (inside : startblock + nblocks ≤ rwb.nblocks) :
    Reads rwb (rwbReadAhead rwb startblock nblocks) (blocks rwb.device startblock nblocks) := by
  rw [rwbReadAhead]
  by_cases buffered : 0 < rwb.rhmaxblocks
  · rw [if_pos buffered]
    by_cases absent : nblocks = 0
    · rw [absent]
      exact .same ahead _
    rw [if_neg absent]
    by_cases hit : 0 < rwb.available startblock nblocks
    · exact readLoop_hit _ ahead buffered inside (Nat.le_succ _) hit
    -- Nothing is found in the first round, and the second one starts with the block it loads.
    have missed : rwb.available startblock nblocks = 0 := Nat.eq_zero_of_not_pos hit
    obtain ⟨rhbuffer, rhnblocks, reloads, ahead, next⟩ :=
      @rwbRhreload_spec β rwb startblock (by omega) buffered
    obtain ⟨buffer, count, first, reads, last⟩ :=
      @readLoop_hit β nblocks _ startblock nblocks ahead buffered inside (Nat.le_refl _)
        (next _ (Nat.pos_of_ne_zero absent))
    refine ⟨buffer, count, first, ?_, last⟩
    rw [readLoop]
    rw [missed, Nat.sub_zero, if_neg absent, Int.natCast_zero, Int.add_zero, reloads]
    dsimp only
    rw [reads]
    rfl
  · rw [if_neg buffered]
    exact .same ahead _

theorem blocks_clean {startblock : Int} {nblocks : Nat}
    (clean : ∀ index : Nat, index < nblocks → ¬ Dirty rwb (startblock + index)) :
    blocks rwb.device startblock nblocks = blocks rwb.content startblock nblocks :=
  blocks_congr fun index below => (if_neg (clean index below)).symm

/-- A read returns the blocks of the device, with those of the write buffer over them. -/
theorem rwbRead_spec (ahead : Ahead rwb) (room : rwb.wrnblocks ≤ rwb.wrmaxblocks)
    {startblock : Int} {nblocks : Nat} (inside : startblock + nblocks ≤ rwb.nblocks) :
    Reads rwb (rwbRead rwb startblock nblocks) (blocks rwb.content startblock nblocks) := by
  rw [rwbRead]
  by_cases overlap : 0 < rwb.wrmaxblocks ∧
      rwbOverlap rwb.wrblockstart rwb.wrnblocks startblock nblocks
  · rw [if_pos overlap]
    have meets := rwbOverlap_iff.mp overlap.2
    dsimp only
    have below_eq : ((if startblock < rwb.wrblockstart then
        (rwb.wrblockstart - startblock).toNat else 0 : Nat) : Int) =
        max (rwb.wrblockstart - startblock) 0 := by
      split <;> omega
    generalize (if startblock < rwb.wrblockstart then
        (rwb.wrblockstart - startblock).toNat else 0) = below at below_eq ⊢
    obtain ⟨rhbuffer, rhnblocks, rhblockstart, reads, ahead⟩ : Reads rwb
        (if startblock < rwb.wrblockstart then rwbReadAhead rwb startblock below
          else some (rwb, .ok [])) (blocks rwb.device startblock below) := by
      split
      · exact rwbReadAhead_spec ahead (by omega)
      · rw [show below = 0 by omega]
        exact .same ahead _
    rw [reads]
    dsimp only [load]
    rw [length_blocks]
    have pass_eq : ((if rwb.wrblockstart < startblock + below then
        (startblock + below - rwb.wrblockstart).toNat else 0 : Nat) : Int) =
        startblock + below - rwb.wrblockstart := by
      split <;> omega
    generalize (if rwb.wrblockstart < startblock + below then
        (startblock + below - rwb.wrblockstart).toNat else 0) = wrnpass at pass_eq ⊢
    have taken_le : min (rwb.wrnblocks - wrnpass) (nblocks - below) ≤ nblocks - below :=
      Nat.min_le_right _ _
    have taken_fits : min (rwb.wrnblocks - wrnpass) (nblocks - below) ≤ rwb.wrnblocks - wrnpass :=
      Nat.min_le_left _ _
    have taken_all : min (rwb.wrnblocks - wrnpass) (nblocks - below) = nblocks - below ∨
        min (rwb.wrnblocks - wrnpass) (nblocks - below) = rwb.wrnblocks - wrnpass := by omega
    generalize min (rwb.wrnblocks - wrnpass) (nblocks - below) = taken
      at taken_le taken_fits taken_all ⊢
    obtain ⟨buffer, count, first, rest, last⟩ :=
      @rwbReadAhead_spec β _ ahead (startblock + below + taken) (nblocks - below - taken)
        (show startblock + below + taken + ((nblocks - below - taken : Nat) : Int) ≤ rwb.nblocks
          by omega)
    refine ⟨buffer, count, first, ?_, last⟩
    rw [load] at rest
    rw [rest]
    have parts : nblocks = below + taken + (nblocks - below - taken) := by omega
    have head : blocks rwb.device startblock below = blocks rwb.content startblock below :=
      blocks_clean fun index _ dirty => by
        have firstBlock := dirty.1
        omega
    have middle : blocks rwb.wrbuffer wrnpass taken =
        blocks rwb.content (startblock + below) taken :=
      blocks_congr fun index _ => by
        rw [content, if_pos ⟨by omega, by omega⟩]
        congr 1
        omega
    have tail : blocks rwb.device (startblock + below + taken) (nblocks - below - taken) =
        blocks rwb.content (startblock + below + taken) (nblocks - below - taken) :=
      blocks_clean fun index _ dirty => by
        have final := dirty.2
        omega
    have whole : blocks rwb.content startblock nblocks =
        blocks rwb.content startblock below ++ blocks rwb.content (startblock + below) taken ++
          blocks rwb.content (startblock + below + taken) (nblocks - below - taken) := by
      rw [← blocks_add, Int.add_assoc, ← Int.natCast_add, ← blocks_add, ← parts]
    rw [whole, ← head, ← middle, ← tail]
    rfl
  · rw [if_neg overlap]
    rw [← blocks_clean]
    · exact rwbReadAhead_spec ahead inside
    · intro index below dirty
      have firstBlock := dirty.1
      have final := dirty.2
      exact overlap ⟨by omega, rwbOverlap_iff.mpr ⟨by omega, by omega⟩⟩

end Reading

section Writing

variable {rwb : Rwb β}

/-- No block of the write buffer is in the read-ahead buffer. -/
def Apart (rwb : Rwb β) : Prop :=
  rwb.wrnblocks = 0 ∨ rwb.rhnblocks = 0 ∨
    rwb.wrblockstart + rwb.wrnblocks ≤ rwb.rhblockstart ∨
    rwb.rhblockstart + rwb.rhnblocks ≤ rwb.wrblockstart

instance decidableApart (rwb : Rwb β) : Decidable (Apart rwb) :=
  inferInstanceAs (Decidable (_ ∨ _ ∨ _ ∨ _))

/-- The write buffer after it was flushed. -/
def flushed (rwb : Rwb β) : Rwb β :=
  rwbResetwrbuffer (rwb.flushTo rwb.wrbuffer rwb.wrblockstart rwb.wrnblocks)

theorem content_of_empty (empty : rwb.wrnblocks = 0) : rwb.content = rwb.device := by
  funext block
  refine if_neg fun dirty => ?_
  have first := dirty.1
  have last := dirty.2
  omega

theorem content_flushed (rwb : Rwb β) : (flushed rwb).content = rwb.content :=
  content_of_empty rfl

/-- The blocks are not in the read-ahead buffer. -/
def NotAhead (rwb : Rwb β) (startblock : Int) (nblocks : Nat) : Prop :=
  rwb.rhnblocks = 0 ∨ startblock + nblocks ≤ rwb.rhblockstart ∨
    rwb.rhblockstart + rwb.rhnblocks ≤ startblock

theorem ahead_flushTo (ahead : Ahead rwb) (buffer : Int → β) {startblock : Int} {nblocks : Nat}
    (outside : NotAhead rwb startblock nblocks) :
    Ahead (rwb.flushTo buffer startblock nblocks) := by
  intro index low high
  have kept : (rwb.flushTo buffer startblock nblocks).device (rwb.rhblockstart + index) =
      rwb.device (rwb.rhblockstart + index) := by
    refine if_neg fun inside => ?_
    dsimp only [flushTo] at high
    rw [NotAhead] at outside
    omega
  exact (ahead index low high).trans kept.symm

theorem ahead_flushed (ahead : Ahead rwb) (apart : Apart rwb) : Ahead (flushed rwb) := by
  obtain empty | outside := apart
  · intro index low high
    have kept : (flushed rwb).device (rwb.rhblockstart + index) =
        rwb.device (rwb.rhblockstart + index) := by
      refine if_neg fun inside => ?_
      omega
    exact (ahead index low high).trans kept.symm
  · exact ahead_flushTo ahead rwb.wrbuffer outside

theorem sound_flushed (sound : Sound rwb) (apart : Apart rwb) : Sound (flushed rwb) where
  buffered := sound.buffered
  room := Nat.zero_le _
  expected := fun nonempty => absurd rfl nonempty
  ahead := ahead_flushed sound.ahead apart

theorem rwbWrflush_spec (sound : Sound rwb) (apart : Apart rwb) :
    Sound (rwbWrflush rwb) ∧ (rwbWrflush rwb).content = rwb.content := by
  rw [rwbWrflush]
  by_cases nonempty : 0 < rwb.wrnblocks
  · rw [if_pos nonempty]
    exact ⟨sound_flushed sound apart, content_flushed rwb⟩
  · rw [if_neg nonempty]
    exact ⟨sound, rfl⟩

theorem wrnblocks_rwbWrflush (rwb : Rwb β) : (rwbWrflush rwb).wrnblocks = 0 := by
  rw [rwbWrflush]
  by_cases nonempty : 0 < rwb.wrnblocks
  · rw [if_pos nonempty]
    rfl
  · rw [if_neg nonempty]
    exact Nat.eq_zero_of_not_pos nonempty

theorem rh_rwbWrflush (rwb : Rwb β) : (rwbWrflush rwb).rhnblocks = rwb.rhnblocks ∧
    (rwbWrflush rwb).rhblockstart = rwb.rhblockstart := by
  rw [rwbWrflush]
  by_cases nonempty : 0 < rwb.wrnblocks
  · rw [if_pos nonempty]
    exact ⟨rfl, rfl⟩
  · rw [if_neg nonempty]
    exact ⟨rfl, rfl⟩

theorem flushTo_spec (sound : Sound rwb) (empty : rwb.wrnblocks = 0) (buffer : Int → β)
    {startblock : Int} {nblocks : Nat} (outside : NotAhead rwb startblock nblocks) :
    Sound (rwb.flushTo buffer startblock nblocks) ∧
      (rwb.flushTo buffer startblock nblocks).content =
        copyTo rwb.content startblock buffer nblocks := by
  refine ⟨⟨sound.buffered, sound.room, sound.expected,
    ahead_flushTo sound.ahead buffer outside⟩, ?_⟩
  rw [content_of_empty empty]
  exact content_of_empty empty

/-- Add blocks behind those in the write buffer. -/
def append (rwb : Rwb β) (startblock : Int) (nblocks : Nat) (buffer : Int → β) : Rwb β :=
  let rwb := if rwb.wrnblocks = 0 then { rwb with wrblockstart := startblock } else rwb
  { rwb with
    wrbuffer := copyTo rwb.wrbuffer rwb.wrnblocks buffer nblocks
    wrnblocks := rwb.wrnblocks + nblocks
    wrexpectedblock := rwb.wrblockstart + (rwb.wrnblocks + nblocks : Nat) }

theorem content_behind {startblock : Int} {nblocks : Nat} (buffer : Int → β) {next : Rwb β}
    (wrbuffer : next.wrbuffer = copyTo rwb.wrbuffer rwb.wrnblocks buffer nblocks)
    (wrnblocks : next.wrnblocks = rwb.wrnblocks + nblocks)
    (wrblockstart : next.wrblockstart = rwb.wrblockstart) (device : next.device = rwb.device)
    (behind : startblock = rwb.wrblockstart + rwb.wrnblocks) :
    next.content = copyTo rwb.content startblock buffer nblocks := by
  funext block
  by_cases new : startblock ≤ block ∧ block < startblock + nblocks
  · have dirty : Dirty next block := by
      rw [Dirty]
      omega
    rw [content_of_dirty dirty, copyTo_inside new, wrbuffer, copyTo_inside ⟨by omega, by omega⟩]
    congr 1
    omega
  · rw [copyTo_outside new]
    by_cases old : Dirty rwb block
    · have first := old.1
      have last := old.2
      have dirty : Dirty next block := by
        rw [Dirty]
        omega
      rw [content_of_dirty dirty, content_of_dirty old, wrbuffer, wrblockstart,
        copyTo_outside (by omega)]
    · have clean : ¬ Dirty next block := by
        rw [Dirty] at old
        rw [Dirty]
        omega
      rw [content_of_clean clean, content_of_clean old, device]

theorem append_spec (sound : Sound rwb) {startblock : Int} {nblocks : Nat} (buffer : Int → β)
    (fits : rwb.wrnblocks + nblocks ≤ rwb.wrmaxblocks)
    (behind : rwb.wrnblocks ≠ 0 → startblock = rwb.wrexpectedblock) :
    Sound (append rwb startblock nblocks buffer) ∧
      (append rwb startblock nblocks buffer).content =
        copyTo rwb.content startblock buffer nblocks := by
  rw [append]
  by_cases empty : rwb.wrnblocks = 0
  · rw [if_pos empty]
    refine ⟨⟨sound.buffered, fits, fun _ => rfl, sound.ahead⟩, ?_⟩
    have moved : rwb.content = content { rwb with wrblockstart := startblock } := by
      rw [content_of_empty empty]
      exact (@content_of_empty β { rwb with wrblockstart := startblock } empty).symm
    rw [moved]
    refine content_behind buffer rfl rfl rfl rfl ?_
    dsimp only
    omega
  · rw [if_neg empty]
    refine ⟨⟨sound.buffered, fits, fun _ => rfl, sound.ahead⟩, ?_⟩
    exact content_behind buffer rfl rfl rfl rfl ((behind empty).trans (sound.expected empty))

theorem rwbWritebuffer_spec (sound : Sound rwb) {startblock : Int} {nblocks : Nat}
    (buffer : Int → β) (fits : nblocks ≤ rwb.wrmaxblocks)
    (apart : rwb.misses startblock nblocks → Apart rwb) :
    Sound (rwbWritebuffer rwb startblock nblocks buffer) ∧
      (rwbWritebuffer rwb startblock nblocks buffer).content =
        copyTo rwb.content startblock buffer nblocks := by
  have same : rwbWritebuffer rwb startblock nblocks buffer =
      append (if rwb.misses startblock nblocks then flushed rwb else rwb) startblock nblocks
        buffer := rfl
  rw [same]
  by_cases miss : rwb.misses startblock nblocks
  · rw [if_pos miss, ← content_flushed rwb]
    exact append_spec (sound_flushed sound (apart miss)) buffer
      (show 0 + nblocks ≤ rwb.wrmaxblocks by omega) (fun nonempty => absurd rfl nonempty)
  · rw [if_neg miss]
    obtain ⟨in_order, enough⟩ := not_or.mp miss
    refine append_spec sound buffer (Nat.le_of_not_lt enough) fun nonempty => ?_
    by_contra other
    exact in_order ⟨other, nonempty⟩

/-- The part of `rwb_write` behind the read-ahead buffer. -/
def store (rwb : Rwb β) (startblock : Int) (nblocks : Nat) (buffer : Int → β) : Rwb β :=
  if 0 < rwb.wrmaxblocks then
    if rwb.wrmaxblocks < nblocks then (rwbWrflush rwb).flushTo buffer startblock nblocks
    else rwbWritebuffer rwb startblock nblocks buffer
  else rwb.flushTo buffer startblock nblocks

theorem store_spec (sound : Sound rwb) {startblock : Int} {nblocks : Nat} (buffer : Int → β)
    (outside : NotAhead rwb startblock nblocks)
    (apart : rwb.misses startblock nblocks → Apart rwb) :
    Sound (store rwb startblock nblocks buffer) ∧
      (store rwb startblock nblocks buffer).content =
        copyTo rwb.content startblock buffer nblocks := by
  rw [store]
  by_cases writing : 0 < rwb.wrmaxblocks
  · rw [if_pos writing]
    by_cases large : rwb.wrmaxblocks < nblocks
    · rw [if_pos large]
      obtain ⟨kept, same⟩ :=
        rwbWrflush_spec sound (apart (Or.inr (Nat.lt_add_left rwb.wrnblocks large)))
      rw [← same]
      refine flushTo_spec kept (wrnblocks_rwbWrflush rwb) buffer ?_
      rw [NotAhead, (rh_rwbWrflush rwb).1, (rh_rwbWrflush rwb).2]
      exact outside
    · rw [if_neg large]
      exact rwbWritebuffer_spec sound buffer (Nat.le_of_not_lt large) apart
  · rw [if_neg writing]
    have room := sound.room
    exact flushTo_spec sound (by omega) buffer outside

theorem rwbWrite_spec (sound : Sound rwb) {startblock : Int} {nblocks : Nat} (buffer : Int → β)
    (apart : rwb.misses startblock nblocks →
      rwbOverlap rwb.rhblockstart rwb.rhnblocks startblock nblocks ∨ Apart rwb) :
    Sound (rwbWrite rwb startblock nblocks buffer) ∧
      (rwbWrite rwb startblock nblocks buffer).content =
        copyTo rwb.content startblock buffer nblocks := by
  have same : rwbWrite rwb startblock nblocks buffer =
      store (if 0 < rwb.rhmaxblocks ∧
          rwbOverlap rwb.rhblockstart rwb.rhnblocks startblock nblocks then rwbResetrhbuffer rwb
        else rwb) startblock nblocks buffer := rfl
  rw [same]
  by_cases overlap : rwbOverlap rwb.rhblockstart rwb.rhnblocks startblock nblocks
  · rw [if_pos ⟨sound.buffered, overlap⟩]
    have emptied : Sound (rwbResetrhbuffer rwb) :=
      ⟨sound.buffered, sound.room, sound.expected, fun index low high =>
        absurd (Int.lt_of_le_of_lt low high) (Int.lt_irrefl 0)⟩
    exact store_spec emptied buffer (Or.inl rfl) (fun _ => Or.inr (Or.inl rfl))
  · rw [if_neg fun both => overlap both.2]
    refine store_spec sound buffer ?_ (fun miss => (apart miss).resolve_left overlap)
    have outside := mt rwbOverlap_iff.mpr overlap
    rw [NotAhead]
    omega

end Writing

section Runs

variable {sys : Sys β}

/-- The callers stay inside the device. -/
def Allowed (sys : Sys β) : Op β → Prop
  | .read startblock nblocks => startblock + nblocks ≤ sys.rwb.nblocks
  | .write startblock nblocks _ => startblock + nblocks ≤ sys.rwb.nblocks
  | .flush => True
  | .timeout => True

instance decidableAllowed : (sys : Sys β) → (op : Op β) → Decidable (Allowed sys op)
  | _, .read .. | _, .write .. => inferInstanceAs (Decidable (_ ≤ _))
  | _, .flush | _, .timeout => isTrue trivial

/-- The write buffer is not flushed while one of its blocks is in the read-ahead buffer, unless the
write that flushes it empties the read-ahead buffer. -/
def Settled (sys : Sys β) : Op β → Prop
  | .read _ _ => True
  | .write startblock nblocks _ => sys.rwb.misses startblock nblocks →
      rwbOverlap sys.rwb.rhblockstart sys.rwb.rhnblocks startblock nblocks ∨ Apart sys.rwb
  | .flush => Apart sys.rwb
  | .timeout => Apart sys.rwb

instance decidableSettled : (sys : Sys β) → (op : Op β) → Decidable (Settled sys op)
  | _, .write .. | _, .flush | _, .timeout => by dsimp only [Settled]; infer_instance
  | _, .read .. => isTrue trivial

theorem step_read_spec (coherent : Coherent sys) {startblock nblocks : Nat}
    (inside : startblock + nblocks ≤ sys.rwb.nblocks) :
    ∃ next, step sys (.read startblock nblocks) = some next ∧ Coherent next := by
  obtain ⟨rhbuffer, rhnblocks, rhblockstart, reads, ahead⟩ :=
    @rwbRead_spec β sys.rwb coherent.sound.ahead coherent.sound.room startblock nblocks (by omega)
  refine ⟨_, by rw [step, reads]; rfl, ?_⟩
  refine ⟨⟨coherent.sound.buffered, coherent.sound.room, coherent.sound.expected, ahead⟩,
    coherent.latest, fun reading mem => ?_⟩
  obtain earlier | last := List.mem_append.mp mem
  · exact coherent.reads reading earlier
  · rw [List.mem_singleton.mp last, coherent.latest]

theorem coherent_flush (coherent : Coherent sys) (apart : Apart sys.rwb) :
    Coherent { sys with rwb := rwbWrflush sys.rwb } := by
  obtain ⟨sound, same⟩ := rwbWrflush_spec coherent.sound apart
  exact ⟨sound, coherent.latest.trans same.symm, coherent.reads⟩

theorem step_coherent (sys : Sys β) (op : Op β) (coherent : Coherent sys)
    (guarded : Allowed sys op ∧ Settled sys op) :
    ∃ next, step sys op = some next ∧ Coherent next := by
  cases op with
  | read startblock nblocks => exact step_read_spec coherent guarded.1
  | write startblock nblocks wrbuffer =>
    obtain ⟨sound, same⟩ := rwbWrite_spec coherent.sound wrbuffer guarded.2
    refine ⟨_, rfl, sound, ?_, coherent.reads⟩
    rw [coherent.latest]
    exact same.symm
  | flush => exact ⟨_, rfl, coherent_flush coherent guarded.2⟩
  | timeout => exact ⟨_, rfl, coherent_flush coherent guarded.2⟩

/-- In every run whose flushes are settled all calls finish, and every read returns for each block
what was written to it last, or what the device held at first. -/
theorem reads_return_latest {nblocks wrmaxblocks rhmaxblocks : Nat} (buffered : 0 < rhmaxblocks)
    (wrbuffer rhbuffer device : Int → β) {ops : List (Op β)} (allowed : Run.Admitted step Allowed
      (start nblocks wrmaxblocks rhmaxblocks wrbuffer rhbuffer device) ops)
    (settled : Run.Admitted step Settled
      (start nblocks wrmaxblocks rhmaxblocks wrbuffer rhbuffer device) ops) :
    ∃ sys, Run.run step (start nblocks wrmaxblocks rhmaxblocks wrbuffer rhbuffer device) ops =
        some sys ∧ ∀ reading ∈ sys.reads, reading.returned = .ok reading.written := by
  have initial : Coherent (start nblocks wrmaxblocks rhmaxblocks wrbuffer rhbuffer device) := by
    refine ⟨⟨buffered, Nat.zero_le _, fun nonempty => absurd rfl nonempty, fun _ low high => ?_⟩,
      Eq.symm (content_of_empty rfl), fun _ mem => absurd mem List.not_mem_nil⟩
    exact absurd (Int.lt_of_le_of_lt low high) (Int.lt_irrefl 0)
  obtain ⟨sys, performed, coherent⟩ :=
    Run.run_invariant step_coherent initial (Run.admitted_and allowed settled)
  exact ⟨sys, performed, coherent.reads⟩

/-- A device of eight blocks, each of which holds its number. -/
def sampleDevice : Sys Nat := start 8 4 4 (fun _ => 0) (fun _ => 0) Int.toNat

/-- Blocks 5 and 6 are written and read back from the write buffer, flushed and read again. -/
def sampleCalls : List (Op Nat) :=
  [.write 5 2 (fun index => 50 + index.toNat), .read 6 2, .flush, .read 4 3]

/-- A run that reads across the end of the write buffer and again behind the flush. -/
theorem reads_return_latest_settled :
    ∃ sys, Run.run step sampleDevice sampleCalls = some sys ∧
      sys.reads.map Reading.returned = [.ok [51, 7], .ok [4, 50, 51]] ∧
      ∀ reading ∈ sys.reads, reading.returned = .ok reading.written := by
  obtain ⟨sys, reached, latest⟩ := @reads_return_latest Nat 8 4 4 (by decide) (fun _ => 0)
    (fun _ => 0) Int.toNat sampleCalls (by decide) (by decide)
  exact ⟨sys, reached, by cases reached; rfl, latest⟩

/-- Block 5 is written and stays in the write buffer. Reading block 4 reads block 5 ahead from the
device. After the timeout has flushed the write buffer, a read of block 5 returns the old data. -/
theorem read_returns_stale :
    Run.Admitted step Allowed sampleDevice
        [.write 5 1 (fun _ => 50), .read 4 1, .timeout, .read 5 1] ∧
      (Run.run step sampleDevice [.write 5 1 (fun _ => 50), .read 4 1, .timeout, .read 5 1]).map
        Sys.reads = some [⟨[4], .ok [4]⟩, ⟨[50], .ok [5]⟩] :=
  ⟨by decide, rfl⟩

end Runs

end Chewie.Drivers.Rwbuffer

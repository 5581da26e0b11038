import Mathlib.Data.List.Basic
import Mathlib.Algebra.Group.Nat.Defs

/-!
# Stores of blocks

A store is a function from block numbers to contents. `blocks` lists the contents of a range of
blocks, and `copyTo` replaces a range of a store by the first blocks of another one.
-/

namespace Chewie.Blocks

open List

variable {β : Type}

/-- Some blocks in order. -/
def blocks (content : Int → β) (start : Int) (nblocks : Nat) : List β :=
  (List.range nblocks).map fun (index : Nat) => content (start + index)

/-- The first blocks of `src`, copied to `dest` from a block on. -/
def copyTo (dest : Int → β) (offset : Int) (src : Int → β) (nblocks : Nat) : Int → β :=
  fun index =>
    if offset ≤ index ∧ index < offset + nblocks then src (index - offset) else dest index

section Lists

variable {content other : Int → β} {start : Int}

theorem blocks_add (content : Int → β) (start : Int) (first second : Nat) :
    blocks content start (first + second) =
      blocks content start first ++ blocks content (start + first) second := by
  simp only [blocks, range_add, map_append, map_map]
  congr 1
  refine map_congr_left fun index _ => ?_
  rw [Function.comp_apply, Int.natCast_add, Int.add_assoc]

theorem blocks_congr {nblocks : Nat} {lower : Int}
    (same : ∀ index : Nat, index < nblocks → content (start + index) = other (lower + index)) :
    blocks content start nblocks = blocks other lower nblocks :=
  map_congr_left fun index mem => same index (mem_range.mp mem)

@[simp] theorem length_blocks (content : Int → β) (start : Int) (nblocks : Nat) :
    (blocks content start nblocks).length = nblocks := by
  rw [blocks, length_map, length_range]

end Lists

section Copies

variable {dest src : Int → β} {offset index : Int} {nblocks : Nat}

theorem copyTo_inside (inside : offset ≤ index ∧ index < offset + nblocks) :
    copyTo dest offset src nblocks index = src (index - offset) :=
  if_pos inside

theorem copyTo_outside (outside : ¬ (offset ≤ index ∧ index < offset + nblocks)) :
    copyTo dest offset src nblocks index = dest index :=
  if_neg outside

theorem copyTo_copyTo (dest first second : Int → β) (offset : Int) (nblocks : Nat) :
    copyTo (copyTo dest offset first nblocks) offset second nblocks =
      copyTo dest offset second nblocks := by
  funext index
  by_cases inside : offset ≤ index ∧ index < offset + nblocks
  · rw [copyTo_inside inside, copyTo_inside inside]
  · rw [copyTo_outside inside, copyTo_outside inside, copyTo_outside inside]

section

variable (dest src offset)

theorem copyTo_zero : copyTo dest offset src 0 = dest := by
  funext index
  exact copyTo_outside (by omega)

theorem copyTo_append (first second : Nat) :
    copyTo (copyTo dest offset src first) (offset + first) (fun index => src (first + index))
      second = copyTo dest offset src (first + second) := by
  funext index
  by_cases later : offset + first ≤ index ∧ index < offset + first + second
  · rw [copyTo_inside later, copyTo_inside ⟨by omega, by omega⟩]
    congr 1
    omega
  · rw [copyTo_outside later]
    by_cases earlier : offset ≤ index ∧ index < offset + first
    · rw [copyTo_inside earlier, copyTo_inside ⟨by omega, by omega⟩]
    · rw [copyTo_outside earlier, copyTo_outside (by omega)]

theorem copyTo_modified {inner copied nblocks : Nat} (fits : inner + copied ≤ nblocks) :
    copyTo dest offset (copyTo (fun index => dest (offset + index)) inner src copied) nblocks =
      copyTo dest (offset + inner) src copied := by
  funext index
  by_cases changed : offset + inner ≤ index ∧ index < offset + inner + copied
  · rw [copyTo_inside changed, copyTo_inside ⟨by omega, by omega⟩,
      copyTo_inside ⟨by omega, by omega⟩]
    congr 1
    omega
  rw [copyTo_outside changed]
  by_cases read : offset ≤ index ∧ index < offset + nblocks
  · rw [copyTo_inside read, copyTo_outside (by omega)]
    congr 1
    omega
  · rw [copyTo_outside read]

theorem blocks_copyTo (nblocks : Nat) :
    blocks (copyTo dest offset src nblocks) offset nblocks = blocks src 0 nblocks :=
  blocks_congr fun index below => by
    rw [copyTo_inside ⟨by omega, by omega⟩]
    congr 1
    omega

end

end Copies

end Chewie.Blocks

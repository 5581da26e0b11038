import Chewie.Lib.Word
import Mathlib.Algebra.BigOperators.Group.List.Basic

/-!
# Boundary tags

A block of memory is cut into consecutive chunks. Every chunk starts with a header
that stores its own size and, in a second field, the size of the chunk in front of
it together with an in-use flag. `Tagged` says that the two header fields, as
functions of the address, describe a given list of chunks. The main rule is
`tagged_splice`: an edit that replaces some consecutive chunks by others of the same
total size, and rewrites only the headers between them, keeps the description.
-/

namespace Chewie.Tags

open List Word

/-- One chunk of a block: its size with the header, and its in-use flag. -/
structure Chunk where
  size : Nat
  used : Bool
deriving DecidableEq

/-- Bytes covered by consecutive chunks. -/
def total : List Chunk → Nat
  | [] => 0
  | chunk :: rest => chunk.size + total rest

/-- Size of the chunk in front of whatever follows the chunks. -/
def carry (before : Nat) : List Chunk → Nat
  | [] => before
  | chunk :: rest => carry chunk.size rest

/-- The chunks together with their start addresses. -/
def place (address : Nat) : List Chunk → List (Nat × Chunk)
  | [] => []
  | chunk :: rest => (address, chunk) :: place (address + chunk.size) rest

/-- A chunk with this in-use flag is placed at the address. -/
def Marked (flag : Bool) (entries : List (Nat × Chunk)) (address : Nat) : Prop :=
  ∃ chunk, (address, chunk) ∈ entries ∧ chunk.used = flag

/-- The header fields at and after `address` describe the chunks; `before` is the size of the
chunk in front of them. -/
def Tagged (bit : Nat) (size preceding : Nat → Nat) : Nat → Nat → List Chunk → Prop
  | _, _, [] => True
  | address, before, chunk :: rest =>
    size address = chunk.size ∧ preceding address = Word.tag bit before chunk.used ∧
      Tagged bit size preceding (address + chunk.size) chunk.size rest

/-- Every chunk has a header of its own. -/
def Positive (chunks : List Chunk) : Prop := ∀ chunk ∈ chunks, 0 < chunk.size

/-- No two consecutive chunks are both free. -/
def Coalesced (chunks : List Chunk) : Prop :=
  chunks.IsChain fun left right => left.used = true ∨ right.used = true

section Lists

variable {address before : Nat} {chunks front back : List Chunk} {chunk : Chunk}

@[simp] theorem total_append (front back : List Chunk) :
    total (front ++ back) = total front + total back := by
  induction front with
  | nil => simp [total]
  | cons chunk front ih => simp [total, ih, Nat.add_assoc]

@[simp] theorem total_nil : total [] = 0 := rfl

@[simp] theorem total_cons (chunk : Chunk) (rest : List Chunk) :
    total (chunk :: rest) = chunk.size + total rest := rfl

@[simp] theorem carry_nil (before : Nat) : carry before [] = before := rfl

@[simp] theorem carry_cons (before : Nat) (chunk : Chunk) (rest : List Chunk) :
    carry before (chunk :: rest) = carry chunk.size rest := rfl

@[simp] theorem carry_append (before : Nat) (front back : List Chunk) :
    carry before (front ++ back) = carry (carry before front) back := by
  induction front generalizing before with
  | nil => rfl
  | cons chunk front ih => simp [ih]

theorem carry_le (before : Nat) (chunks : List Chunk) :
    carry before chunks ≤ before + total chunks := by
  induction chunks generalizing before with
  | nil => simp
  | cons chunk rest ih =>
    have bound := ih chunk.size
    simp only [carry_cons, total_cons]
    omega

@[simp] theorem place_append (address : Nat) (front back : List Chunk) :
    place address (front ++ back) = place address front ++ place (address + total front) back := by
  induction front generalizing address with
  | nil => simp [place]
  | cons chunk front ih => simp [place, ih, Nat.add_assoc]

@[simp] theorem place_nil (address : Nat) : place address [] = [] := rfl

@[simp] theorem place_cons (address : Nat) (chunk : Chunk) (rest : List Chunk) :
    place address (chunk :: rest) = (address, chunk) :: place (address + chunk.size) rest := rfl

theorem place_bounds {entry : Nat × Chunk} (placed : entry ∈ place address chunks) :
    entry.2 ∈ chunks ∧ address ≤ entry.1 ∧ entry.1 + entry.2.size ≤ address + total chunks := by
  induction chunks generalizing address with
  | nil => simp at placed
  | cons chunk rest ih =>
    rcases mem_cons.mp placed with rfl | later
    · simp only [mem_cons, true_or, le_refl, total_cons, true_and]
      omega
    · obtain ⟨inside, low, high⟩ := ih later
      simp only [mem_cons, inside, or_true, total_cons, true_and]
      omega

theorem place_split {entry : Nat × Chunk} (placed : entry ∈ place address chunks) :
    ∃ front back, chunks = front ++ entry.2 :: back ∧ entry.1 = address + total front := by
  induction chunks generalizing address with
  | nil => simp at placed
  | cons chunk rest ih =>
    rcases mem_cons.mp placed with rfl | later
    · exact ⟨[], rest, rfl, by simp⟩
    · obtain ⟨front, back, split, start⟩ := ih later
      refine ⟨chunk :: front, back, by rw [split]; rfl, ?_⟩
      rw [start, total_cons, Nat.add_assoc]

theorem place_mem (address : Nat) (front back : List Chunk) (chunk : Chunk) :
    (address + total front, chunk) ∈ place address (front ++ chunk :: back) := by
  simp

@[simp] theorem marked_nil (flag : Bool) (a : Nat) : Marked flag [] a ↔ False := by
  simp [Marked]

@[simp] theorem marked_cons (flag : Bool) (entry : Nat × Chunk) (rest : List (Nat × Chunk))
    (a : Nat) :
    Marked flag (entry :: rest) a ↔ a = entry.1 ∧ entry.2.used = flag ∨ Marked flag rest a := by
  constructor
  · rintro ⟨chunk, inside, marked⟩
    rcases mem_cons.mp inside with rfl | later
    · exact Or.inl ⟨rfl, marked⟩
    · exact Or.inr ⟨chunk, later, marked⟩
  · rintro (⟨rfl, marked⟩ | ⟨chunk, later, marked⟩)
    · exact ⟨entry.2, mem_cons_self .., marked⟩
    · exact ⟨chunk, mem_cons_of_mem _ later, marked⟩

theorem marked_append (flag : Bool) (front back : List (Nat × Chunk)) (a : Nat) :
    Marked flag (front ++ back) a ↔ Marked flag front a ∨ Marked flag back a := by
  simp [Marked, or_and_right, exists_or]

theorem positive_append : Positive (front ++ back) ↔ Positive front ∧ Positive back := by
  simp [Positive, or_imp, forall_and]

theorem positive_cons : Positive (chunk :: back) ↔ 0 < chunk.size ∧ Positive back := by
  simp [Positive]

theorem place_distinct (positive : Positive chunks) :
    (place address chunks).Pairwise fun first second => first.1 ≠ second.1 := by
  induction chunks generalizing address with
  | nil => exact List.Pairwise.nil
  | cons chunk rest ih =>
    obtain ⟨own, restPositive⟩ := positive_cons.mp positive
    apply pairwise_cons.mpr
    refine ⟨?_, ih restPositive⟩
    intro later placed same
    have range := place_bounds placed
    omega

@[simp] theorem place_map_snd : (place address chunks).map Prod.snd = chunks := by
  induction chunks generalizing address with
  | nil => rfl
  | cons chunk rest ih => rw [place_cons, map_cons, ih]

end Lists

section Headers

variable {bit : Nat} {size preceding size' preceding' : Nat → Nat} {address before : Nat}
variable {chunks front back : List Chunk} {chunk : Chunk}

theorem tagged_append (front back : List Chunk) :
    Tagged bit size preceding address before (front ++ back) ↔
      Tagged bit size preceding address before front ∧
        Tagged bit size preceding (address + total front) (carry before front) back := by
  induction front generalizing address before with
  | nil => simp [Tagged]
  | cons chunk front ih => simp [Tagged, ih, and_assoc, Nat.add_assoc]

theorem tagged_at (tags : Tagged bit size preceding address before (front ++ chunk :: back)) :
    size (address + total front) = chunk.size ∧
      preceding (address + total front) = tag bit (carry before front) chunk.used := by
  obtain ⟨_, sizeField, precedingField, _⟩ := (tagged_append front (chunk :: back)).mp tags
  exact ⟨sizeField, precedingField⟩

theorem tagged_congr (positive : Positive chunks)
    (tags : Tagged bit size preceding address before chunks)
    (same : ∀ x, address ≤ x → x < address + total chunks →
      size' x = size x ∧ preceding' x = preceding x) :
    Tagged bit size' preceding' address before chunks := by
  induction chunks generalizing address before with
  | nil => trivial
  | cons chunk rest ih =>
    obtain ⟨chunkPositive, restPositive⟩ := positive_cons.mp positive
    obtain ⟨sizeField, precedingField, tail⟩ := tags
    obtain ⟨sameSize, samePreceding⟩ := same address (le_refl _) (by simp only [total_cons]; omega)
    refine ⟨sameSize.trans sizeField, samePreceding.trans precedingField, ih restPositive tail ?_⟩
    intro x low high
    exact same x (by omega) (by simp only [total_cons]; omega)

/-- Replacing consecutive chunks by others of the same total size. The headers outside the
edit are untouched, those inside describe the new chunks, and the chunk behind the edit is
told the size of the last new chunk. -/
theorem tagged_splice {middle middle' : List Chunk} {next : Chunk}
    (frontPositive : Positive front) (backPositive : Positive back)
    (old : Tagged bit size preceding address before (front ++ middle ++ next :: back))
    (sameTotal : total middle' = total middle) (nextPositive : 0 < next.size)
    (low : ∀ x, x < address + total front → size' x = size x ∧ preceding' x = preceding x)
    (high : ∀ x, address + total front + total middle < x →
      size' x = size x ∧ preceding' x = preceding x)
    (new : Tagged bit size' preceding' (address + total front) (carry before front) middle')
    (nextSize : size' (address + total front + total middle) = next.size)
    (nextPreceding : preceding' (address + total front + total middle) =
      tag bit (carry (carry before front) middle') next.used) :
    Tagged bit size' preceding' address before (front ++ middle' ++ next :: back) := by
  obtain ⟨oldFront, _, _, oldBack⟩ := (tagged_append (front ++ middle) (next :: back)).mp old
  obtain ⟨oldFront, _⟩ := (tagged_append front middle).mp oldFront
  rw [tagged_append, tagged_append]
  refine ⟨⟨tagged_congr frontPositive oldFront ?_, new⟩, ?_, ?_, ?_⟩
  · intro x _ inside
    exact low x inside
  · rw [total_append, sameTotal, ← Nat.add_assoc]
    exact nextSize
  · rw [total_append, sameTotal, ← Nat.add_assoc, carry_append]
    exact nextPreceding
  · rw [total_append, sameTotal]
    rw [total_append] at oldBack
    refine tagged_congr backPositive oldBack ?_
    intro x inside _
    exact high x (by omega)

/-- The address reached from `address` after some steps of adding the size field. -/
def walk (size : Nat → Nat) (address : Nat) : Nat → Nat
  | 0 => address
  | steps + 1 => walk size address steps + size (walk size address steps)

theorem walk_total (tags : Tagged bit size preceding address before chunks) (steps : Nat)
    (inside : steps ≤ chunks.length) :
    walk size address steps = address + total (chunks.take steps) := by
  induction steps with
  | zero => simp [walk]
  | succ steps ih =>
    have bound : steps < chunks.length := by omega
    have split : chunks = chunks.take steps ++ chunks[steps] :: chunks.drop (steps + 1) := by
      rw [← drop_eq_getElem_cons bound, take_append_drop]
    rw [split] at tags
    have sizeField := (tagged_at tags).1
    rw [walk, ih (by omega), sizeField, take_succ_eq_append_getElem bound]
    simp only [total_append, total_cons, total_nil, Nat.add_zero, Nat.add_assoc]

theorem walk_mono (size : Nat → Nat) (address : Nat) {first second : Nat}
    (ordered : first ≤ second) : walk size address first ≤ walk size address second := by
  induction ordered with
  | refl => exact Nat.le_refl _
  | step _ ih => exact Nat.le_trans ih (Nat.le_add_right _ _)

theorem walk_header (tags : Tagged bit size preceding address before chunks) {steps : Nat}
    (inside : steps < chunks.length) :
    size (walk size address steps) = chunks[steps].size ∧
      preceding (walk size address steps) =
        tag bit (carry before (chunks.take steps)) chunks[steps].used := by
  have split : chunks = chunks.take steps ++ chunks[steps] :: chunks.drop (steps + 1) := by
    rw [← drop_eq_getElem_cons inside, take_append_drop]
  rw [walk_total tags steps (Nat.le_of_lt inside)]
  rw [split] at tags
  exact tagged_at tags

theorem carry_take_succ (before : Nat) (chunks : List Chunk) {steps : Nat}
    (inside : steps < chunks.length) :
    carry before (chunks.take (steps + 1)) = chunks[steps].size := by
  rw [take_succ_eq_append_getElem inside, carry_append]
  rfl

theorem mem_place_iff (entry : Nat × Chunk) :
    entry ∈ place address chunks ↔
      ∃ (steps : Nat) (inside : steps < chunks.length),
        entry = (address + total (chunks.take steps), chunks[steps]) := by
  constructor
  · intro placed
    obtain ⟨front, back, split, start⟩ := place_split placed
    refine ⟨front.length, ?_, ?_⟩
    · rw [split]
      simp
    · simp [split, ← start]
  · rintro ⟨steps, inside, rfl⟩
    have split : chunks = chunks.take steps ++ chunks[steps] :: chunks.drop (steps + 1) := by
      rw [← drop_eq_getElem_cons inside, take_append_drop]
    have member := place_mem address (chunks.take steps) (chunks.drop (steps + 1)) chunks[steps]
    rwa [← split] at member

end Headers

end Chewie.Tags

import Mathlib.Data.List.Nodup

/-!
# Chains in a table of links

A table maps each cell to the following one. A chain begins at a cell that is stored elsewhere and
ends in a mark; `nil` is stored where there is no chain, and in the table for a cell that is free.
`Owns` says which cells a chain has, `Separate` that many chains do not share cells, and `Grown`
that one chain has taken free cells and no other link has changed.
-/

namespace Chewie.Chains

open Function List

variable {α ι : Type}

section Paths

variable {next next' : α → α} {first last : α}

/-- Following the table from `first` visits the cells in order, and then arrives at `last`. -/
def Path (next : α → α) : α → List α → α → Prop
  | first, [], last => first = last
  | first, cell :: rest, last => first = cell ∧ Path next (next cell) rest last

theorem path_append (front back : List α) :
    Path next first (front ++ back) last ↔
      ∃ middle, Path next first front middle ∧ Path next middle back last := by
  induction front generalizing first with
  | nil =>
    constructor
    · intro path
      exact ⟨first, rfl, path⟩
    · rintro ⟨middle, rfl, path⟩
      exact path
  | cons cell rest ih =>
    constructor
    · rintro ⟨start, path⟩
      obtain ⟨middle, before, behind⟩ := ih.mp path
      exact ⟨middle, ⟨start, before⟩, behind⟩
    · rintro ⟨middle, ⟨start, before⟩, behind⟩
      exact ⟨start, ih.mpr ⟨middle, before, behind⟩⟩

theorem path_congr {cells : List α} (path : Path next first cells last)
    (same : ∀ cell ∈ cells, next' cell = next cell) : Path next' first cells last := by
  induction cells generalizing first with
  | nil => exact path
  | cons cell rest ih =>
    refine ⟨path.1, ?_⟩
    rw [same cell mem_cons_self]
    exact ih path.2 fun other mem => same other (mem_cons_of_mem cell mem)

theorem path_next {cells : List α} (path : Path next first cells last) {index : Nat} {cell : α}
    (found : cells[index]? = some cell) : next cell = (cells[index + 1]?).getD last := by
  induction cells generalizing first index with
  | nil => cases found
  | cons head rest ih =>
    cases index with
    | succ index => exact ih path.2 found
    | zero =>
      cases found
      cases rest with
      | nil => exact path.2
      | cons second others => exact path.2.1

end Paths

section Ownership

variable {valid stop : α → Prop} {nil : α} {next next' : α → α} {first : α} {cells : List α}

/-- The chain that begins at `first` has these cells. -/
structure Owns (valid stop : α → Prop) (nil : α) (next : α → α) (first : α) (cells : List α) :
    Prop where
  linked : cells ≠ [] → ∃ last, stop last ∧ Path next first cells last
  empty : cells = [] → first = nil
  valid : ∀ cell ∈ cells, valid cell
  distinct : cells.Nodup

theorem owns_nil : Owns valid stop nil next nil [] where
  linked nonempty := absurd rfl nonempty
  empty _ := rfl
  valid _ mem := absurd mem not_mem_nil
  distinct := nodup_nil

theorem owns_single (inside : valid first) (mark : stop (next first)) :
    Owns valid stop nil next first [first] where
  linked _ := ⟨next first, mark, rfl, rfl⟩
  empty absent := by cases absent
  valid cell mem := by rw [mem_singleton.mp mem]; exact inside
  distinct := nodup_singleton first

section

variable (owns : Owns valid stop nil next first cells)

include owns

theorem Owns.congr (same : ∀ cell ∈ cells, next' cell = next cell) :
    Owns valid stop nil next' first cells where
  linked nonempty := by
    obtain ⟨last, mark, path⟩ := owns.linked nonempty
    exact ⟨last, mark, path_congr path same⟩
  empty := owns.empty
  valid := owns.valid
  distinct := owns.distinct

theorem Owns.head (nonempty : cells ≠ []) : cells[0]? = some first := by
  obtain ⟨last, _, path⟩ := owns.linked nonempty
  cases cells with
  | nil => exact absurd rfl nonempty
  | cons cell rest => exact congrArg some path.1.symm

theorem Owns.ne_nil (stored : first ≠ nil) : cells ≠ [] :=
  fun absent => stored (owns.empty absent)

theorem Owns.next_eq {index : Nat} {cell other : α} (found : cells[index]? = some cell)
    (behind : cells[index + 1]? = some other) : next cell = other := by
  obtain ⟨last, _, path⟩ := owns.linked (ne_nil_of_mem (mem_of_getElem? found))
  rw [path_next path found, behind, Option.getD_some]

theorem Owns.next_stop {index : Nat} {cell : α} (found : cells[index]? = some cell)
    (behind : cells[index + 1]? = none) : stop (next cell) := by
  obtain ⟨last, mark, path⟩ := owns.linked (ne_nil_of_mem (mem_of_getElem? found))
  rw [path_next path found, behind]
  exact mark

theorem Owns.next_mem {cell : α} (mem : cell ∈ cells) : next cell ∈ cells ∨ stop (next cell) := by
  obtain ⟨index, found⟩ := mem_iff_getElem?.mp mem
  cases behind : cells[index + 1]? with
  | none => exact .inr (owns.next_stop found behind)
  | some other =>
    rw [owns.next_eq found behind]
    exact .inl (mem_of_getElem? behind)

theorem Owns.not_mem_of_free (inside : ¬ valid nil) (unmarked : ¬ stop nil) {cell : α}
    (free : next cell = nil) : cell ∉ cells := by
  intro mem
  rcases owns.next_mem mem with later | mark
  · exact inside (owns.valid nil (free ▸ later))
  · exact unmarked (free ▸ mark)

end

/-- A cell that is added behind the last one. -/
theorem Owns.extend [DecidableEq α] {mark last fresh : α} {front : List α}
    (owns : Owns valid stop nil next first (front ++ [last])) (inside : valid fresh)
    (ending : stop mark) (new : fresh ∉ front ++ [last]) :
    Owns valid stop nil (update (update next fresh mark) last fresh) first
      (front ++ [last] ++ [fresh]) := by
  have apart : fresh ≠ last := fun same => new (by simp [same])
  have unique := owns.distinct
  have lastNew : last ∉ front := fun mem =>
    (disjoint_of_nodup_append unique) mem mem_cons_self
  obtain ⟨old, _, path⟩ := owns.linked (by simp)
  obtain ⟨middle, before, start, _⟩ := (path_append front [last]).mp path
  refine ⟨fun _ => ⟨mark, ending, ?_⟩, fun absent => ?_, fun cell mem => ?_, ?_⟩
  · have kept : Path (update (update next fresh mark) last fresh) first front
        middle := by
      refine path_congr before fun cell mem => ?_
      have notLast : cell ≠ last := fun same => lastNew (same ▸ mem)
      have notFresh : cell ≠ fresh := fun same => new (mem_append_left _ (same ▸ mem))
      rw [update_of_ne notLast, update_of_ne notFresh]
    rw [append_assoc, path_append]
    refine ⟨middle, kept, start, ?_, ?_⟩
    · rw [update_self]
    · change update (update next fresh mark) last fresh fresh = mark
      rw [update_of_ne apart, update_self]
  · simp at absent
  · rcases mem_append.mp mem with old | added
    · exact owns.valid cell old
    · rw [mem_singleton.mp added]
      exact inside
  · refine nodup_append.mpr ⟨unique, nodup_singleton fresh, ?_⟩
    intro cell mem other added same
    rw [mem_singleton.mp added] at same
    exact new (same ▸ mem)

end Ownership

section Growth

variable {nil : α} {next next' next'' : α → α} {cells cells' cells'' : List α}

/-- A chain has taken free cells behind its old ones, and no link outside it has changed. -/
structure Grown (nil : α) (next next' : α → α) (cells cells' : List α) : Prop where
  stays : cells <+: cells'
  fresh : ∀ cell ∈ cells', cell ∈ cells ∨ next cell = nil
  kept : ∀ cell, cell ∉ cells' → next' cell = next cell

theorem Grown.refl (nil : α) (next : α → α) (cells : List α) : Grown nil next next cells cells :=
  ⟨prefix_rfl, fun _ mem => .inl mem, fun _ _ => rfl⟩

theorem Grown.trans (one : Grown nil next next' cells cells')
    (two : Grown nil next' next'' cells' cells'') : Grown nil next next'' cells cells'' where
  stays := one.stays.trans two.stays
  fresh cell mem := by
    rcases two.fresh cell mem with old | free
    · exact one.fresh cell old
    · by_cases old : cell ∈ cells'
      · exact one.fresh cell old
      · exact .inr ((one.kept cell old).symm.trans free)
  kept cell outside := by
    rw [two.kept cell outside]
    exact one.kept cell fun mem => outside (two.stays.subset mem)

end Growth

section Families

variable {valid stop : α → Prop} {nil : α} {next next' : α → α}
variable {first first' : ι → α} {cells cells' : ι → List α}

/-- Every owner has a chain, and no cell is in two of them. -/
structure Separate (valid stop : α → Prop) (nil : α) (next : α → α) (first : ι → α)
    (cells : ι → List α) : Prop where
  owns : ∀ owner, Owns valid stop nil next (first owner) (cells owner)
  disjoint : ∀ one two, one ≠ two → ∀ cell ∈ cells one, cell ∉ cells two

section

variable (owner : ι) (separate : Separate valid stop nil next first cells)
variable (others : ∀ other, other ≠ owner → first' other = first other ∧ cells' other = cells other)

include owner separate others

theorem Separate.change (owns : Owns valid stop nil next' (first' owner) (cells' owner))
    (apart : ∀ other, other ≠ owner → ∀ cell ∈ cells other, cell ∉ cells' owner)
    (same : ∀ other, other ≠ owner → ∀ cell ∈ cells other, next' cell = next cell) :
    Separate valid stop nil next' first' cells' where
  owns other := by
    by_cases own : other = owner
    · rw [own]
      exact owns
    · rw [(others other own).1, (others other own).2]
      exact (separate.owns other).congr (same other own)
  disjoint one two differ cell mem := by
    by_cases own : one = owner
    · rw [own] at mem differ
      rw [(others two (Ne.symm differ)).2]
      exact fun shared => apart two (Ne.symm differ) cell shared mem
    rw [(others one own).2] at mem
    by_cases target : two = owner
    · rw [target]
      exact apart one own cell mem
    · rw [(others two target).2]
      exact separate.disjoint one two differ cell mem

theorem Separate.grow (inside : ¬ valid nil) (unmarked : ¬ stop nil)
    (grown : Grown nil next next' (cells owner) (cells' owner))
    (owns : Owns valid stop nil next' (first' owner) (cells' owner)) :
    Separate valid stop nil next' first' cells' := by
  have apart : ∀ other, other ≠ owner → ∀ cell ∈ cells other, cell ∉ cells' owner := by
    intro other differ cell mem shared
    rcases grown.fresh cell shared with old | free
    · exact separate.disjoint other owner differ cell mem old
    · exact (separate.owns other).not_mem_of_free inside unmarked free mem
  exact separate.change owner others owns apart fun other differ cell mem =>
    grown.kept cell (apart other differ cell mem)

theorem Separate.release (kept : ∀ cell, cell ∉ cells owner → next' cell = next cell)
    (gone : first' owner = nil ∧ cells' owner = []) :
    Separate valid stop nil next' first' cells' := by
  refine separate.change owner others ?_ (fun other _ cell _ => ?_) fun other differ cell mem => ?_
  · rw [gone.1, gone.2]
    exact owns_nil
  · rw [gone.2]
    exact not_mem_nil
  · exact kept cell (separate.disjoint other owner differ cell mem)

end

end Families

end Chewie.Chains

import Mathlib.Data.List.Chain
import Chewie.Mm.Heap.Shape

/-!
# Coalescing

A layout is tidy when no two consecutive chunks of a region are both free. Every critical section
keeps a tidy layout tidy, except the aligned cut of `mm_memalign`: it turns the front of the raw
chunk into a free chunk without looking at the chunk before it.
-/

namespace Chewie.Mm

open List Option

open Tags (Chunk total place Coalesced)

/-- No two consecutive chunks of a region are both free. -/
def Tidy (layout : List Region) : Prop := ∀ r ∈ layout, Coalesced r.chunks

/-- No two physically adjacent nodes of a region are both free. -/
def NoAdjacentFree (g : Geometry) (h : Heap) : Prop :=
  ∀ bounds ∈ h.regions, ∀ steps, h.node bounds (steps + 1) < bounds.heapend →
    ¬(h.isFree g (.chunk (h.node bounds steps)) = true ∧
      h.isFree g (.chunk (h.node bounds (steps + 1))) = true)

section Chains

variable {front middle middle' back : List Chunk}

theorem coalesced_free {size : Nat} (whole : Coalesced (front ++ [⟨size, false⟩] ++ back)) :
    (∀ chunk ∈ front.getLast?, chunk.used = true) ∧ ∀ chunk ∈ back.head?, chunk.used = true := by
  unfold Coalesced at whole
  rw [isChain_append, isChain_append] at whole
  obtain ⟨⟨_, _, first⟩, _, second⟩ := whole
  constructor
  · intro chunk last
    have either := first chunk last ⟨size, false⟩ (by simp)
    simpa using either
  · intro chunk next
    have either := second ⟨size, false⟩ (by simp) chunk next
    simpa using either

end Chains

section Layouts

variable {g : Geometry} {h : Heap} {s wide : Spot} {left right middle middle' : List Chunk}
variable {size want : Nat} {layout layout' : List Region} {nodes : List Node}

theorem tidy_fill : Tidy (s.fill middle) ↔
    Coalesced (s.before ++ middle ++ s.after) ∧ ∀ r ∈ s.earlier ++ s.later, Coalesced r.chunks := by
  simp only [Tidy, Spot.fill, mem_append, mem_cons, or_imp, forall_and, forall_eq]
  tauto

theorem tidy_exchange (tidy : Tidy (s.fill middle))
    (before : ∀ chunk ∈ s.before.getLast?, chunk.used = true)
    (behind : ∀ chunk ∈ s.after.head?, chunk.used = true) (own : Coalesced middle') :
    Tidy (s.fill middle') := by
  rw [tidy_fill] at tidy ⊢
  obtain ⟨whole, rest⟩ := tidy
  unfold Coalesced at *
  rw [isChain_append, isChain_append] at whole ⊢
  obtain ⟨⟨frontOk, _, _⟩, backOk, _⟩ := whole
  refine ⟨⟨⟨frontOk, own, ?_⟩, backOk, ?_⟩, rest⟩
  · intro left last right first
    exact Or.inl (before left last)
  · intro left last right first
    exact Or.inr (behind right first)

section

variable (wider : Widened g s wide left right) (neat : Tidy (s.fill [⟨size, true⟩]))

include wider neat

theorem Widened.used_before : ∀ chunk ∈ wide.before.getLast?, chunk.used = true := by
  have whole := (tidy_fill.mp neat).1
  have split := wider.before
  have edge := wider.leftEdge
  generalize flag : s.leadUsed = used at edge
  cases edge with
  | used =>
    rw [append_nil] at split
    intro chunk last
    rw [Spot.leadUsed, split, mem_def.mp last] at flag
    exact flag
  | free other =>
    rw [split, append_assoc (wide.before ++ _)] at whole
    exact (coalesced_free whole).1

theorem Widened.used_after : ∀ chunk ∈ wide.after.head?, chunk.used = true := by
  have whole := (tidy_fill.mp neat).1
  have split := wider.after
  have edge := wider.rightEdge
  generalize flag : (s.next g).used = used at edge
  cases edge with
  | used =>
    rw [nil_append] at split
    intro chunk first
    rw [Spot.next, split, headD_eq_head?_getD, mem_def.mp first] at flag
    exact flag
  | free other =>
    rw [split, ← append_assoc] at whole
    exact (coalesced_free whole).2

theorem Widened.tidy (own : Coalesced middle') : Tidy (wide.fill middle') := by
  have before := wider.used_before neat
  have behind := wider.used_after neat
  rw [wider.fill] at neat
  exact tidy_exchange neat before behind own

end

theorem coalesced_cut (g : Geometry) (want size : Nat) : Coalesced (cut g want size) := by
  unfold Coalesced cut
  split_ifs with room
  · simp
  · simp

theorem coalesced_gap {rest : List Chunk} (skip : Nat) (own : Coalesced rest)
    (first : ∀ chunk ∈ rest.head?, chunk.used = true) : Coalesced (gap skip ++ rest) := by
  unfold Coalesced at *
  rw [isChain_append]
  refine ⟨?_, own, ?_⟩
  · unfold gap
    split_ifs with empty
    · simp
    · simp
  · intro before _ chunk inside
    exact Or.inr (first chunk inside)

theorem Widened.coalesced_left {rest : List Chunk} (wider : Widened g s wide left right)
    (own : Coalesced rest) (first : ∀ chunk ∈ rest.head?, chunk.used = true) :
    Coalesced (left ++ rest) := by
  have edge := wider.leftEdge
  generalize s.leadUsed = used at edge
  unfold Coalesced at *
  rw [isChain_append]
  refine ⟨?_, own, fun _ _ chunk inside => Or.inr (first chunk inside)⟩
  cases edge with
  | used => simp
  | free other => simp

theorem cut_head (g : Geometry) (want size : Nat) :
    ∀ chunk ∈ (cut g want size).head?, chunk.used = true := by
  unfold cut
  split_ifs with room
  · simp
  · simp

theorem Reshaped.tidy {touched : Option Nat} (reshaped : Reshaped g touched layout layout')
    (tidy : Tidy layout) : Tidy layout' := by
  cases reshaped with
  | same => exact tidy
  | allocate s size want fits =>
    have whole := (tidy_fill.mp tidy).1
    obtain ⟨before, behind⟩ := coalesced_free whole
    exact tidy_exchange tidy before behind (coalesced_cut g want size)
  | release s wide left right size wider =>
    apply wider.tidy tidy
    exact List.IsChain.singleton _
  | resize s wide left right size want layout' result wider resized =>
    cases resized with
    | shrink smaller =>
      have view := wider.fill_shrunk [] (cut g want (size + total right))
      rw [append_nil] at view
      rw [view]
      apply wider.tidy tidy
      exact wider.coalesced_left (coalesced_cut g _ _) (cut_head g _ _)
    | keep same => exact tidy
    | grow larger takeprev takenext sum prevFits nextFits =>
      apply wider.tidy tidy
      apply coalesced_gap
      · unfold Coalesced gap
        split_ifs with empty
        · simp
        · simp
      · simp
    | move short => exact tidy

theorem Cutting.tidy {mem request skip : Nat}
    (cutting : Cutting g layout layout' mem request s wide left right size skip)
    (tidy : Tidy layout) (calm : left = [] ∨ skip = 0) : Tidy layout' := by
  rw [cutting.raw] at tidy
  have wider := cutting.wider
  have lead : ∀ rest : List Chunk, Coalesced rest → (∀ chunk ∈ rest.head?, chunk.used = true) →
      Coalesced (left ++ (gap skip ++ rest)) := by
    intro rest own first
    rcases calm with empty | zero
    · rw [empty]
      exact coalesced_gap skip own first
    · rw [zero]
      exact wider.coalesced_left own first
  cases cutting.shape with
  | shrink fits =>
    rw [wider.fill_shrunk]
    apply wider.tidy tidy
    exact lead _ (coalesced_cut g _ _) (cut_head g _ _)
  | whole =>
    have view : Spot.fill { s with before := s.before ++ gap skip } [⟨size - skip, true⟩] =
        wide.fill (left ++ (gap skip ++ ⟨size - skip, true⟩ :: right)) := by
      simp [Spot.fill, wider.before, wider.after, wider.earlier, wider.base, wider.later]
    rw [view]
    apply wider.tidy tidy
    apply lead
    · have edge := wider.rightEdge
      generalize (s.next g).used = used at edge
      unfold Coalesced
      cases edge with
      | used => simp
      | free other => simp
    · simp

/-- A tidy layout has no adjacent free nodes in memory. -/
theorem Inv.no_adjacent_free (inv : Inv g h layout nodes []) (tidy : Tidy layout) :
    NoAdjacentFree g h := by
  intro bounds listed steps inside both
  rw [inv.bounds] at listed
  obtain ⟨r, member, rfl⟩ := mem_map.mp listed
  have full : Coalesced (r.full g) := by
    have own := tidy r member
    unfold Coalesced at *
    rw [Region.full, ← singleton_append, isChain_append, isChain_append]
    refine ⟨by simp, ⟨own, by simp, ?_⟩, ?_⟩
    · intro left _ right guard
      simp only [List.head?_cons, mem_def, some.injEq] at guard
      exact Or.inr (by rw [← guard]; rfl)
    · intro left guard right _
      simp only [List.getLast?_singleton, mem_def, some.injEq] at guard
      exact Or.inl (by rw [← guard]; rfl)
  have bound : steps + 1 < (r.full g).length := by
    have length : (r.full g).length = r.chunks.length + 2 := by simp [Region.full]
    by_contra beyond
    have passed : h.node (r.bounds g) (r.chunks.length + 1) ≤ h.node (r.bounds g) (steps + 1) :=
      Tags.walk_mono _ _ (by omega)
    rw [inv.node_lands member] at passed
    omega
  have flags : ∀ index (here : index < (r.full g).length),
      h.isFree g (.chunk (h.node (r.bounds g) index)) = !(r.full g)[index].used := by
    intro index here
    rw [Heap.isFree, (inv.node_header member here).2,
      Geometry.allocated_tag (inv.carry_small member index)]
  have either := isChain_iff_getElem.mp full steps bound
  rw [flags steps (by omega), flags (steps + 1) bound] at both
  rcases either with used | used
  · simp [used] at both
  · simp [used] at both

end Layouts

end Chewie.Mm

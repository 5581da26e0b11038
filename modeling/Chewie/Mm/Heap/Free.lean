import Chewie.Mm.Heap.Malloc

/-!
# Release

`mm_free` clears the allocation bit, absorbs the free chunks on either side, and puts the
result on the free list. `mm_shrinkchunk` gives the tail of an allocated chunk back and
absorbs the free chunk behind it.
-/

namespace Chewie.Mm

open Mm.Geometry Tags Heap List Option Spot

open Tags (Chunk total carry place Marked)

/-- The free chunk next to a run, if there is one: what is absorbed when the neighbour has this
in-use flag. -/
inductive Edge : Bool → List Chunk → Prop where
  | used : Edge true []
  | free (size : Nat) : Edge false [⟨size, false⟩]

/-- The spot widened over its free neighbours. -/
structure Widened (g : Geometry) (s wide : Spot) (left right : List Chunk) : Prop where
  earlier : wide.earlier = s.earlier
  base : wide.base = s.base
  later : wide.later = s.later
  before : s.before = wide.before ++ left
  after : s.after = right ++ wide.after
  leftEdge : Edge s.leadUsed left
  rightEdge : Edge (s.next g).used right

namespace Widened

variable {g : Geometry} {s wide : Spot} {left right middle : List Chunk}

/-- Every spot can be widened over its free neighbours. -/
theorem of_spot (g : Geometry) (s : Spot) : ∃ wide left right, Widened g s wide left right := by
  have front : ∃ before left, s.before = before ++ left ∧ Edge s.leadUsed left := by
    rcases eq_nil_or_concat s.before with empty | ⟨others, last, split⟩
    · refine ⟨[], [], empty, ?_⟩
      rw [show s.leadUsed = true by simp [leadUsed, empty]]
      exact Edge.used
    · rw [show s.leadUsed = last.used by simp [leadUsed, split]]
      cases flag : last.used with
      | true => exact ⟨s.before, [], by simp, Edge.used⟩
      | false =>
        refine ⟨others, [⟨last.size, false⟩], ?_, Edge.free _⟩
        rw [split, concat_eq_append, ← flag]
  have back : ∃ after right, s.after = right ++ after ∧ Edge (s.next g).used right := by
    cases split : s.after with
    | nil =>
      rw [show (s.next g).used = true by simp [Spot.next, split, Region.guard]]
      exact ⟨[], [], rfl, Edge.used⟩
    | cons chunk rest =>
      rw [show (s.next g).used = chunk.used by simp [Spot.next, split]]
      cases flag : chunk.used with
      | true => exact ⟨chunk :: rest, [], rfl, Edge.used⟩
      | false =>
        refine ⟨rest, [⟨chunk.size, false⟩], ?_, Edge.free _⟩
        rw [← flag]
        rfl
  obtain ⟨before, left, beforeEq, leftEdge⟩ := front
  obtain ⟨after, right, afterEq, rightEdge⟩ := back
  exact ⟨⟨s.earlier, s.base, before, after, s.later⟩, left, right,
    ⟨rfl, rfl, rfl, beforeEq, afterEq, leftEdge, rightEdge⟩⟩

theorem fill (wider : Widened g s wide left right) (middle : List Chunk) :
    s.fill middle = wide.fill (left ++ middle ++ right) := by
  simp [Spot.fill, wider.earlier, wider.base, wider.later, wider.before, wider.after]

theorem start (wider : Widened g s wide left right) : s.start g = wide.start g + total left := by
  simp [Spot.start, wider.base, wider.before, Nat.add_assoc]

end Widened

namespace Inv

variable {g : Geometry} {h h' : Heap} {s : Spot} {nodes : List Node} {pending : List Nat}
variable {middle : List Chunk} {size first second : Nat}

theorem mark_free (inv : Inv g h (s.fill [⟨size, true⟩]) nodes []) :
    Inv g (h.setPreceding g (.chunk (s.start g))
        (g.clearAlloc (h.preceding (.chunk (s.start g)))))
      (s.fill [⟨size, false⟩]) nodes [s.start g] := by
  have one := inv.one
  have next := one.next
  have cleared : g.mmsize (g.clearAlloc (h.preceding (.chunk (s.start g)))) = s.lead g := by
    rw [one.preceding, clearAlloc_tag one.lead, mmsize_eq one.lead]
  apply inv.edit_one
  · exact ⟨rfl, rfl, rfl, rfl, fun _ => rfl⟩
  · simp
  · exact one.sizes.1
  · exact one.sizes.2
  · simp
  · simp
  · intro x
    rw [setPreceding_size]
    grind [one.own]
  · intro x
    simp only [setPreceding_chunk, cleared, tag_false, total_cons, total_nil, Nat.add_zero]
    grind

/-- Merging two pending free chunks. -/
theorem merge (inv : Inv g h (s.fill [⟨first, false⟩, ⟨second, false⟩]) nodes pending)
    (both : ∀ a, a ∈ pending ↔ a = s.start g ∨ a = s.start g + first) :
    Inv g ((h.setSize g (.chunk (s.start g)) (g.add (h.size (.chunk (s.start g)))
          (h.size (.chunk (s.start g + first))))).setPreceding g
        (.chunk (s.start g + first + second))
        (g.keepAlloc ((h.setSize g (.chunk (s.start g)) (g.add (h.size (.chunk (s.start g)))
          (h.size (.chunk (s.start g + first))))).size (.chunk (s.start g)))
          (h.preceding (.chunk (s.start g + first + second)))))
      (s.fill [⟨first + second, false⟩]) nodes [s.start g] := by
  have two := inv.two
  have field := two.preceding
  have bounds := two.bounds
  have sum : g.add (h.size (.chunk (s.start g))) (h.size (.chunk (s.start g + first))) =
      first + second := by
    rw [two.own, two.other, add_eq (by omega)]
  have smallSum : first + second < 2 ^ g.allocShift := by omega
  have stored : g.mmsize (first + second) = first + second := mmsize_eq smallSum
  have kept : g.keepAlloc (first + second) (h.preceding (.chunk (s.start g + first + second))) =
      Word.tag g.allocShift (first + second) (s.next g).used := by
    rw [two.next, keepAlloc_tag smallSum (by omega)]
  have fits := @Geometry.mmsize_tag g (first + second) (s.next g).used smallSum
  rw [sum, setSize_chunk]
  apply inv.edit_one
  · exact ⟨rfl, rfl, rfl, rfl, fun _ => by simp⟩
  · simp
  · exact Nat.le_trans two.large.1 (Nat.le_add_right _ _)
  · exact Nat.dvd_add two.unit.1 two.unit.2
  · intro a
    simp [both a]
  · simp
  · intro x
    simp [stored]
  · intro x
    simp only [setPreceding_chunk, setSize_preceding, tag_false, total_cons, total_nil,
      Nat.add_zero, ← Nat.add_assoc]
    have positive : 0 < first := Nat.lt_of_lt_of_le g.freeNode_pos two.large.1
    grind [tag_false]

end Inv

section Free

variable {g : Geometry} {h : Heap} {s : Spot} {nodes : List Node} {size : Nat}
variable {before rest left right : List Chunk}

/-- The chunk behind is absorbed if it is free. -/
theorem freeMergeNext_spec (inv : Inv g h (s.fill [⟨size, false⟩]) nodes [s.start g])
    (after : s.after = right ++ rest) (edge : Edge (s.next g).used right) :
    ∃ h' nodes', freeMergeNext g h (.chunk (s.start g)) =
        some (h', .chunk (s.start g + (size + total right))) ∧
      Inv g h' (fill { s with after := rest } [⟨size + total right, false⟩]) nodes'
        [s.start g] ∧ Frame h h' := by
  have one := inv.one
  have isFree := one.isFree
  have bounds := one.bounds
  have behind := one.behind
  generalize (s.next g).used = flag at edge isFree
  cases edge with
  | used =>
    refine ⟨h, nodes, ?_, ?_, ⟨rfl⟩⟩
    · simp [freeMergeNext, behind, isFree]
    · rw [nil_append] at after
      simpa [← after] using inv
  | free other =>
    let wide : Spot := { s with after := rest }
    have view : s.fill [⟨size, false⟩] = wide.fill [⟨size, false⟩, ⟨other, false⟩] := by
      simp [fill, wide, after]
    have starts : wide.start g = s.start g := rfl
    rw [view] at inv
    have two := inv.two
    have large := two.large
    have bounds := two.bounds
    obtain ⟨flink, blink, unlinked, off⟩ := inv.unlink two.placed.2 rfl (by simp [starts]; omega)
    have merged := off.merge (by simp [starts, or_comm])
    refine ⟨_, _, ?_, merged, ⟨rfl⟩⟩
    have beyond : h.after g (.chunk (s.start g + size)) (h.size (.chunk (s.start g + size))) =
        .chunk (s.start g + size + other) := by
      rw [← starts, two.other, after_chunk _ (by omega)]
    rw [starts] at unlinked
    simp only [freeMergeNext, behind, isFree, beyond, unlinked]
    simp [starts, Nat.add_assoc]

/-- The chunk in front is absorbed if it is free. -/
theorem freeMergePrev_spec (inv : Inv g h (s.fill [⟨size, false⟩]) nodes [s.start g])
    (front : s.before = before ++ left) (edge : Edge s.leadUsed left) :
    ∃ h' nodes', freeMergePrev g h (.chunk (s.start g)) (.chunk (s.start g + size)) =
        some (h', .chunk (start g { s with before := before })) ∧
      Inv g h' (fill { s with before := before } [⟨total left + size, false⟩]) nodes'
        [start g { s with before := before }] ∧ Frame h h' := by
  have isFree := inv.lead_isFree
  have bounds := inv.one.bounds
  have ahead : h.ahead g (.chunk (s.start g)) (h.preceding (.chunk (s.start g))) =
      .chunk (s.start g - s.lead g) := by
    rw [inv.one.preceding, tag_false, ahead_chunk _ inv.lead_header.1 (by omega)]
  generalize s.leadUsed = flag at edge isFree
  cases edge with
  | used =>
    rw [append_nil] at front
    have same : { s with before := before } = s := by rw [← front]
    refine ⟨h, nodes, ?_, ?_, ⟨rfl⟩⟩
    · simp [freeMergePrev, ahead, isFree, same]
    · simpa [same] using inv
  | free other =>
    let wide : Spot := { s with before := before }
    have view : s.fill [⟨size, false⟩] = wide.fill [⟨other, false⟩, ⟨size, false⟩] := by
      simp [fill, wide, front]
    have starts : s.start g = wide.start g + other := by
      simp [start, wide, front, Nat.add_assoc]
    have leads : s.lead g = other := by
      simp [lead, front]
    rw [view] at inv
    have large := inv.two.large
    obtain ⟨flink, blink, unlinked, off⟩ := inv.unlink inv.two.placed.1 rfl (by
      simp only [mem_cons, not_mem_nil, or_false]
      omega)
    have merged := off.merge (by simp [starts])
    refine ⟨_, _, ?_, merged, ⟨rfl⟩⟩
    have back : wide.start g + other - other = wide.start g := by omega
    rw [starts, leads, back] at ahead isFree
    rw [starts]
    simp only [freeMergePrev, ahead, isFree, unlinked]
    simp [wide]

/-- `mm_free` of an allocated chunk replaces it and its free neighbours by one free chunk. -/
theorem mmFree_spec {wide : Spot} (inv : Inv g h (s.fill [⟨size, true⟩]) nodes [])
    (wider : Widened g s wide left right) :
    ∃ h' nodes', mmFree g h (s.start g + g.allocNode) = some h' ∧
      Inv g h' (wide.fill [⟨total left + size + total right, false⟩]) nodes' [] ∧
      Frame h h' := by
  have bounds := inv.one.bounds
  have marked := inv.mark_free
  obtain ⟨h₁, nodes₁, mergedNext, inv₁, frame₁⟩ :=
    freeMergeNext_spec marked wider.after wider.rightEdge
  obtain ⟨h₂, nodes₂, mergedPrev, inv₂, frame₂⟩ :=
    freeMergePrev_spec inv₁ wider.before wider.leftEdge
  have same : mk s.earlier s.base wide.before wide.after s.later = wide := by
    rw [← wider.earlier, ← wider.base, ← wider.later]
  simp only [same] at mergedPrev inv₂
  obtain ⟨flink, blink, nodes₃, added, final⟩ := inv₂.addfreechunk inv₂.one.placed rfl (by simp)
  rw [Nat.add_assoc]
  refine ⟨_, nodes₃, ?_, final, ⟨frame₂.heapsize.trans frame₁.heapsize⟩⟩
  have back : g.sub (s.start g + g.allocNode) g.allocNode = s.start g := by
    rw [sub_eq (by omega) (by omega), Nat.add_sub_cancel]
  have starts : start g { s with after := wide.after } = s.start g := rfl
  rw [starts] at mergedPrev
  rw [mmFree, if_neg (by omega), back]
  simp [mergedNext, mergedPrev, added]

/-- `mm_shrinkchunk` gives the bytes behind `want` and the free chunk behind them back, unless
they are too few to hold a free node. -/
theorem mmShrinkchunk_spec {want : Nat} (inv : Inv g h (s.fill [⟨size, true⟩]) nodes [])
    (after : s.after = right ++ rest) (edge : Edge (s.next g).used right) (smaller : want ≤ size)
    (large : g.freeNode ≤ want) (unit : g.unit ∣ want) :
    ∃ h' nodes', mmShrinkchunk g h (.chunk (s.start g)) want = some h' ∧
      Inv g h' (fill { s with after := rest } (cut g want (size + total right))) nodes' [] ∧
      Frame h h' := by
  have one := inv.one
  have isFree := one.isFree
  have preceding := one.preceding
  have bounds := one.bounds
  have behind := one.behind
  have inner : ∀ h : Heap, h.after g (.chunk (s.start g)) want = .chunk (s.start g + want) := by
    intro h
    rw [after_chunk _ (by omega)]
  generalize flagEq : (s.next g).used = flag at edge isFree
  cases edge with
  | used =>
    rw [nil_append] at after
    have same : { s with after := rest } = s := by rw [← after]
    rw [same, total_nil, Nat.add_zero]
    by_cases room : g.freeNode ≤ size - want
    · have smallWant : want < 2 ^ g.allocShift := by omega
      have smallRest : size - want < 2 ^ g.allocShift := by omega
      have tail : g.sub size want = size - want := sub_eq smaller (by omega)
      rw [show cut g want size = [⟨want, true⟩, ⟨size - want, false⟩] from if_pos room,
        mmShrinkchunk, behind]
      simp only [isFree, Bool.not_true, Bool.false_eq_true, if_false, one.own, inner, tail]
      rw [add_eq (by omega), if_pos (by omega)]
      simp only [setSize_chunk, setPreceding_size, show s.start g + want ≠ s.start g by omega,
        if_false, if_true, mmsize_eq smallRest]
      refine inv.carve ⟨⟨rfl, rfl, rfl, rfl, fun _ => by simp⟩, ?_, ?_, ?_, ?_, ?_⟩ ?_
        ⟨rfl⟩
      · simp only [total_cons, total_nil]
        omega
      · exact ⟨large, room⟩
      · exact ⟨unit, Nat.dvd_sub one.sizes.2 unit⟩
      · intro x
        simp [mmsize_eq smallWant, mmsize_eq smallRest]
      · intro x
        simp only [setPreceding_chunk, setSize_preceding, mmsize_eq smallWant,
          mmsize_or smallRest, total_cons, total_nil, Nat.add_zero]
        grind [tag_false]
      · simp
    · refine ⟨h, nodes, ?_, ?_, ⟨rfl⟩⟩
      · rw [mmShrinkchunk, behind]
        simp only [isFree, Bool.not_true, Bool.false_eq_true, if_false, one.own]
        rw [add_eq (by omega), if_neg (by omega)]
      · rw [cut, if_neg room]
        exact inv
  | free other =>
    let wide : Spot := { s with after := rest }
    have view : s.fill [⟨size, true⟩] = wide.fill [⟨size, true⟩, ⟨other, false⟩] := by
      simp [fill, wide, after]
    have starts : wide.start g = s.start g := rfl
    have leads : wide.lead g = s.lead g := rfl
    rw [view] at inv
    have two := inv.two
    have parts := two.large
    have bounds := two.bounds
    obtain ⟨flink, blink, unlinked, off⟩ := inv.unlink two.placed.2 rfl (by simp)
    have smallWant : want < 2 ^ g.allocShift := by omega
    have smallRest : size + other - want < 2 ^ g.allocShift := by omega
    have tail : g.sub (g.add other size) want = size + other - want := by
      rw [add_eq (by omega), sub_eq (by omega) (by omega), Nat.add_comm]
    have beyond : h.after g (.chunk (s.start g + size)) other =
        .chunk (s.start g + size + other) := by
      rw [after_chunk _ (by omega)]
    have whole : cut g want (size + total [⟨other, false⟩]) =
        [⟨want, true⟩, ⟨size + other - want, false⟩] := by
      have room : g.freeNode ≤ size + other - want := by omega
      rw [total_cons, total_nil, Nat.add_zero, cut, if_pos room]
    have otherField := two.other
    have next := two.next
    rw [starts] at otherField next unlinked
    rw [whole, mmShrinkchunk, behind]
    simp only [isFree, Bool.not_false, if_true, otherField, beyond, unlinked, bind_eq_bind,
      bind_some, inner, one.own, tail, setSize_chunk, setPreceding_size, setSize_preceding,
      setPreceding_chunk, show s.start g + want ≠ s.start g by omega,
      show s.start g + size + other ≠ s.start g + want by omega, if_false, mmsize_eq smallRest,
      next]
    rw [keepAlloc_tag smallRest (by omega)]
    refine off.carve ⟨⟨rfl, rfl, rfl, rfl, fun _ => by simp⟩, ?_, ?_, ?_, ?_, ?_⟩ ?_ ⟨rfl⟩
    · simp only [total_cons, total_nil]
      omega
    · exact ⟨large, by dsimp only; omega⟩
    · exact ⟨unit, Nat.dvd_sub (Nat.dvd_add two.unit.1 two.unit.2) unit⟩
    · intro x
      simp [starts, mmsize_eq smallWant, mmsize_eq smallRest]
    · intro x
      simp only [starts, leads, setPreceding_chunk, setSize_preceding, mmsize_eq smallWant,
        mmsize_tag smallRest, total_cons, total_nil, Nat.add_zero, ← Nat.add_assoc]
      grind [tag_false]
    · simp [starts]

end Free

end Chewie.Mm

import Chewie.Mm.Heap.Free

/-!
# Resizing

`mm_realloc` shrinks an allocation in place, enlarges it into the free chunks on either side, or
falls back to a new allocation and a copy. When it enlarges, what it leaves of a neighbour goes
back on the free list. It does not check that this remainder can hold a free node, so the
specification of the enlarging path assumes it.
-/

namespace Chewie.Mm

open Mm.Geometry Tags Heap Option Spot

open Tags (Chunk total carry place Marked)

/-- What is left of a free neighbour: nothing, or one free chunk. -/
def gap (size : Nat) : List Chunk := if size = 0 then [] else [⟨size, false⟩]

@[simp] theorem total_gap (size : Nat) : total (gap size) = size := by
  unfold gap
  split_ifs with empty
  · simp [empty]
  · simp

theorem Edge.gap_eq {g : Geometry} {flag : Bool} {chunks : List Chunk} (edge : Edge flag chunks)
    (sizes : ∀ chunk ∈ chunks, g.freeNode ≤ chunk.size ∧ g.unit ∣ chunk.size) :
    chunks = gap (total chunks) := by
  cases edge with
  | used => simp [gap]
  | free size =>
    have nonzero : 0 < size := Nat.lt_of_lt_of_le g.freeNode_pos (sizes ⟨size, false⟩ (by simp)).1
    simp [gap, Nat.ne_of_gt nonzero]

theorem reallocTake_spec {prevsize nextsize needed : Nat} (positive : 0 < needed)
    (enough : needed ≤ prevsize + nextsize) :
    let take := reallocTake prevsize nextsize needed
    take.1 + take.2 = needed ∧ take.1 ≤ prevsize ∧ take.2 ≤ nextsize := by
  unfold reallocTake
  by_cases smaller : 0 < prevsize ∧ (prevsize ≤ nextsize ∨ nextsize < 1)
  · by_cases short : prevsize < needed
    · simp only [if_pos smaller, if_pos short, ne_eq, not_true_eq_false, and_false, if_false]
      omega
    · simp only [if_pos smaller, if_neg short, ne_eq, not_true_eq_false, and_false, if_false]
      omega
  have nonempty : 0 < nextsize ∧ needed ≠ 0 := by omega
  by_cases short : nextsize < needed
  · simp only [if_neg smaller, if_pos nonempty, if_pos short]
    omega
  · simp only [if_neg smaller, if_pos nonempty, if_neg short]
    omega

theorem reallocTake_dvd {unit prevsize nextsize needed : Nat} (prevUnit : unit ∣ prevsize)
    (nextUnit : unit ∣ nextsize) (neededUnit : unit ∣ needed) :
    unit ∣ (reallocTake prevsize nextsize needed).1 ∧
      unit ∣ (reallocTake prevsize nextsize needed).2 := by
  have lessPrev := Nat.dvd_sub neededUnit prevUnit
  have lessNext := Nat.dvd_sub neededUnit nextUnit
  have none : unit ∣ 0 := Nat.dvd_zero _
  unfold reallocTake
  by_cases smaller : 0 < prevsize ∧ (prevsize ≤ nextsize ∨ nextsize < 1)
  · by_cases short : prevsize < needed
    · simp only [if_pos smaller, if_pos short, ne_eq, not_true_eq_false, and_false, if_false]
      exact ⟨prevUnit, lessPrev⟩
    · simp only [if_pos smaller, if_neg short, ne_eq, not_true_eq_false, and_false, if_false]
      exact ⟨neededUnit, none⟩
  · simp only [if_neg smaller]
    split_ifs
    · exact ⟨lessNext, nextUnit⟩
    · exact ⟨none, neededUnit⟩
    · exact ⟨none, none⟩

/-- A remainder is usable when it is empty or can hold a free node. -/
def Usable (g : Geometry) (size : Nat) : Prop := size = 0 ∨ g.freeNode ≤ size

section Extend

variable {g : Geometry} {h : Heap} {s : Spot} {nodes : List Node} {size other take : Nat}
variable {before rest : List Chunk}

/-- The allocation takes part of the pending free chunk in front of it, and the rest of that chunk
goes back on the list. -/
theorem extendPrevHeaders_part
    (inv : Inv g h (s.fill [⟨other, false⟩, ⟨size, true⟩]) nodes [s.start g]) (fits : take < other)
    (unit : g.unit ∣ take) (room : g.freeNode ≤ other - take) :
    ∃ h' nodes', extendPrevHeaders g h (.chunk (s.start g))
        (.chunk (s.start g + (other - take))) (.chunk (s.start g + other + size)) size other take =
          some h' ∧
      Inv g h' (s.fill [⟨other - take, false⟩, ⟨size + take, true⟩]) nodes' [] ∧ Frame h h' := by
  have two := inv.two
  have preceding := two.preceding
  have large := two.large
  have bounds := two.bounds
  have smallPrev : other - take < 2 ^ g.allocShift := by omega
  have smallNew : size + take < 2 ^ g.allocShift := by omega
  have less : g.sub other take = other - take := sub_eq (by omega) (by omega)
  have sum : g.add size take = size + take := add_eq (by omega)
  have apart : s.start g ≠ s.start g + (other - take) := by omega
  have beyond : s.start g + other + size ≠ s.start g + (other - take) := by omega
  rw [extendPrevHeaders, if_pos fits]
  simp only [two.own, less, sum, setSize_chunk, setPreceding_size,
    setSize_preceding, setPreceding_chunk, apart, beyond, if_false, if_true,
    mmsize_eq smallPrev, mmsize_eq smallNew, two.next]
  rw [keepAlloc_tag smallNew (by omega)]
  refine inv.carve_front ⟨⟨rfl, rfl, rfl, rfl, fun _ => by simp⟩, ?_, ?_, ?_, ?_, ?_⟩ ?_
    ⟨rfl⟩
  · simp only [total_cons, total_nil]
    omega
  · exact ⟨room, Nat.le_trans two.large.2 (Nat.le_add_right _ _)⟩
  · exact ⟨Nat.dvd_sub two.unit.1 unit, Nat.dvd_add two.unit.2 unit⟩
  · intro x
    simp only [setPreceding_size, setSize_chunk, mmsize_eq smallPrev, mmsize_eq smallNew]
    grind
  · intro x
    simp only [setPreceding_chunk, setSize_preceding, mmsize_or smallPrev, mmsize_tag smallNew,
      total_cons, total_nil, Nat.add_zero, ← Nat.add_assoc]
    grind [tag_false]
  · simp

/-- The allocation takes all of the pending free chunk in front of it. -/
theorem extendPrevHeaders_all
    (inv : Inv g h (s.fill [⟨other, false⟩, ⟨size, true⟩]) nodes [s.start g]) :
    ∃ h', extendPrevHeaders g h (.chunk (s.start g)) (.chunk (s.start g))
        (.chunk (s.start g + other + size)) size other other = some h' ∧
      Inv g h' (s.fill [⟨size + other, true⟩]) nodes [] ∧ Frame h h' := by
  have two := inv.two
  have large := two.large
  have bounds := two.bounds
  have smallNew : size + other < 2 ^ g.allocShift := by omega
  have sum : g.add other size = size + other := by
    rw [add_eq (by omega), Nat.add_comm]
  have beyond : s.start g + other + size ≠ s.start g := by omega
  rw [extendPrevHeaders, if_neg (Nat.lt_irrefl _)]
  simp only [two.own, two.preceding, sum, setSize_chunk, setPreceding_size, setSize_preceding,
    setPreceding_chunk, beyond, if_false, if_true, mmsize_eq smallNew, two.next]
  rw [keepAlloc_tag smallNew (by omega)]
  refine ⟨_, rfl, ?_, ⟨rfl⟩⟩
  apply inv.edit_one
  · exact ⟨rfl, rfl, rfl, rfl, fun _ => by simp⟩
  · simp only [total_cons, total_nil]
    omega
  · exact Nat.le_trans two.large.2 (Nat.le_add_right _ _)
  · exact Nat.dvd_add two.unit.2 two.unit.1
  · simp
  · simp
  · intro x
    simp [mmsize_eq smallNew]
  · intro x
    simp only [setPreceding_chunk, setSize_preceding, mmsize_or_tag two.lead,
      mmsize_tag smallNew, total_cons, total_nil, Nat.add_zero, ← Nat.add_assoc]
    grind

/-- The allocation grows down into the free chunk in front of it. -/
theorem reallocExtendPrev_spec (inv : Inv g h (s.fill [⟨size, true⟩]) nodes [])
    (front : s.before = before ++ [⟨other, false⟩]) (fits : take ≤ other)
    (unit : g.unit ∣ take) (usable : Usable g (other - take)) :
    ∃ h' nodes', reallocExtendPrev g h (.chunk (s.start g))
        (.chunk (s.start g - s.lead g)) (.chunk (s.start g + size)) size other take =
          some (h', .chunk (s.start g - take)) ∧
      Inv g h' (fill { s with before := before ++ gap (other - take) } [⟨size + take, true⟩])
        nodes' [] ∧ Frame h h' := by
  let wide : Spot := { s with before := before }
  have view : s.fill [⟨size, true⟩] = wide.fill [⟨other, false⟩, ⟨size, true⟩] := by
    simp [fill, wide, front]
  have starts : s.start g = wide.start g + other := by
    simp [start, wide, front, Nat.add_assoc]
  have leads : s.lead g = other := by
    simp [lead, front]
  rw [view] at inv
  have large := inv.two.large
  have bounds := inv.two.bounds
  obtain ⟨flink, blink, unlinked, off⟩ := inv.unlink inv.two.placed.1 rfl (by simp)
  let h₀ : Heap := { h with flink := flink, blink := blink }
  have back : wide.start g + other - other = wide.start g := by omega
  have newStart : wide.start g + other - take = wide.start g + (other - take) := by omega
  have headers : ∃ h' nodes', extendPrevHeaders g h₀ (.chunk (wide.start g))
      (.chunk (wide.start g + (other - take))) (.chunk (wide.start g + other + size)) size other
        take = some h' ∧
      Inv g h' (fill { s with before := before ++ gap (other - take) } [⟨size + take, true⟩])
        nodes' [] ∧ Frame h₀ h' := by
    by_cases part : take < other
    · have room : g.freeNode ≤ other - take := usable.resolve_left (by omega)
      have remains : gap (other - take) = [⟨other - take, false⟩] := if_neg (by omega)
      have result : fill { s with before := before ++ gap (other - take) }
          [⟨size + take, true⟩] = wide.fill [⟨other - take, false⟩, ⟨size + take, true⟩] := by
        simp [fill, wide, remains]
      rw [result]
      exact extendPrevHeaders_part off part unit room
    · obtain rfl : take = other := by omega
      have result : fill { s with before := before ++ gap (take - take) }
          [⟨size + take, true⟩] = wide.fill [⟨size + take, true⟩] := by
        simp [fill, wide, gap]
      rw [result, Nat.sub_self]
      obtain ⟨h', written, edited, frame⟩ := extendPrevHeaders_all off
      exact ⟨h', _, written, edited, frame⟩
  obtain ⟨h', nodes', written, final, frame⟩ := headers
  rw [starts, leads, back, newStart]
  refine ⟨h', nodes', ?_, final, ⟨frame.heapsize⟩⟩
  rw [reallocExtendPrev, unlinked]
  simp only [bind_eq_bind, bind_some]
  rw [ahead_chunk _ (by omega) (by omega), newStart, written]
  rfl

/-- The allocation grows up into the free chunk behind it. -/
theorem reallocExtendNext_spec (inv : Inv g h (s.fill [⟨size, true⟩]) nodes [])
    (behind : s.after = ⟨other, false⟩ :: rest) (positive : 0 < take) (fits : take ≤ other)
    (unit : g.unit ∣ take) (usable : Usable g (other - take)) :
    ∃ h' nodes', reallocExtendNext g h (.chunk (s.start g)) (.chunk (s.start g + size)) size other
        take = some h' ∧
      Inv g h' (fill { s with after := gap (other - take) ++ rest } [⟨size + take, true⟩])
        nodes' [] ∧ Frame h h' := by
  let wide : Spot := { s with after := rest }
  have view : s.fill [⟨size, true⟩] = wide.fill [⟨size, true⟩, ⟨other, false⟩] := by
    simp [fill, wide, behind]
  have starts : wide.start g = s.start g := rfl
  have leads : wide.lead g = s.lead g := rfl
  rw [view] at inv
  have two := inv.two
  have preceding := two.preceding
  have next := two.next
  have bounds := two.bounds
  obtain ⟨flink, blink, unlinked, off⟩ := inv.unlink two.placed.2 rfl (by simp)
  rw [starts] at preceding next bounds unlinked
  have beyond : h.after g (.chunk (s.start g + size)) other =
      .chunk (s.start g + size + other) := by
    rw [after_chunk _ (by omega)]
  have smallNew : size + take < 2 ^ g.allocShift := by omega
  have sum : g.add size take = size + take := add_eq (by omega)
  have inner : ∀ h : Heap, h.after g (.chunk (s.start g)) (size + take) =
      .chunk (s.start g + (size + take)) := by
    intro h
    rw [after_chunk _ (by omega)]
  by_cases part : take < other
  · have room : g.freeNode ≤ other - take := usable.resolve_left (by omega)
    have smallRest : other - take < 2 ^ g.allocShift := by omega
    have remains : gap (other - take) = [⟨other - take, false⟩] := if_neg (by omega)
    have result : fill { s with after := gap (other - take) ++ rest } [⟨size + take, true⟩] =
        wide.fill [⟨size + take, true⟩, ⟨other - take, false⟩] := by
      simp [fill, wide, remains]
    have less : g.sub other take = other - take := sub_eq fits (by omega)
    have apart : s.start g ≠ s.start g + (size + take) := by omega
    have far : s.start g + size + other ≠ s.start g + (size + take) := by omega
    rw [result, reallocExtendNext, beyond, unlinked]
    simp only [bind_eq_bind, bind_some, if_pos part, sum, less, inner, setSize_chunk,
      setPreceding_size, setSize_preceding, setPreceding_chunk, apart, far, if_true, if_false,
      mmsize_eq smallNew, mmsize_eq smallRest, next]
    rw [keepAlloc_tag smallRest (by omega)]
    refine off.carve ⟨⟨rfl, rfl, rfl, rfl, fun _ => by simp⟩, ?_, ?_, ?_, ?_, ?_⟩ ?_ ⟨rfl⟩
    · simp only [total_cons, total_nil]
      omega
    · exact ⟨Nat.le_trans two.large.1 (Nat.le_add_right _ _), room⟩
    · exact ⟨Nat.dvd_add two.unit.1 unit, Nat.dvd_sub two.unit.2 unit⟩
    · intro x
      simp only [starts, setPreceding_size, setSize_chunk, mmsize_eq smallNew, mmsize_eq smallRest]
      grind
    · intro x
      simp only [starts, leads, setPreceding_chunk, setSize_preceding, mmsize_eq smallNew,
        mmsize_tag smallRest, total_cons, total_nil, Nat.add_zero, ← Nat.add_assoc]
      grind [tag_false]
    · simp [starts]
  · obtain rfl : take = other := by omega
    have result : fill { s with after := gap (take - take) ++ rest } [⟨size + take, true⟩] =
        wide.fill [⟨size + take, true⟩] := by
      simp [fill, wide, gap]
    rw [result, reallocExtendNext, beyond, unlinked]
    simp only [bind_eq_bind, bind_some, if_neg (Nat.lt_irrefl _), sum,
      setSize_chunk, setSize_preceding, if_true, mmsize_eq smallNew, next]
    rw [keepAlloc_tag smallNew (by omega)]
    refine ⟨_, nodes.erase (.chunk (s.start g + size)), rfl, ?_, ⟨rfl⟩⟩
    apply off.edit_one
    · exact ⟨rfl, rfl, rfl, rfl, fun _ => by simp⟩
    · simp
    · exact Nat.le_trans two.large.1 (Nat.le_add_right _ _)
    · exact Nat.dvd_add two.unit.1 two.unit.2
    · simp [starts]
    · simp
    · intro x
      simp [starts, mmsize_eq smallNew]
    · intro x
      simp only [starts, leads, setPreceding_chunk, setSize_preceding, mmsize_tag smallNew,
        total_cons, total_nil, Nat.add_zero, ← Nat.add_assoc]
      grind

end Extend

section Grow

variable {g : Geometry} {h : Heap} {s wide : Spot} {nodes : List Node} {size needed : Nat}
variable {left right : List Chunk}

theorem Widened.edges_positive (wider : Widened g s wide left right) {middle : List Chunk}
    {pending : List Nat} (inv : Inv g h (s.fill middle) nodes pending) :
    (∀ chunk ∈ left, g.freeNode ≤ chunk.size ∧ g.unit ∣ chunk.size) ∧
      ∀ chunk ∈ right, g.freeNode ≤ chunk.size ∧ g.unit ∣ chunk.size := by
  rw [wider.fill] at inv
  constructor
  · intro chunk inside
    exact inv.sizes chunk (by simp [inside])
  · intro chunk inside
    exact inv.sizes chunk (by simp [inside])

theorem Edge.unit {flag : Bool} {chunks : List Chunk} (edge : Edge flag chunks)
    (sizes : ∀ chunk ∈ chunks, g.freeNode ≤ chunk.size ∧ g.unit ∣ chunk.size) :
    g.unit ∣ total chunks := by
  cases edge with
  | used => exact Nat.dvd_zero _
  | free size =>
    have divides := (sizes ⟨size, false⟩ (by simp)).2
    simpa using divides

theorem Edge.single {flag : Bool} {chunks : List Chunk} (edge : Edge flag chunks)
    (positive : 0 < total chunks) : chunks = [⟨total chunks, false⟩] := by
  cases edge with
  | used => simp at positive
  | free size => simp

section

variable (inv : Inv g h (s.fill [⟨size, true⟩]) nodes [])

include inv

/-- The first half of growing: take what is needed from the chunk in front. -/
theorem reallocGrow_prev {take : Nat} (wider : Widened g s wide left right)
    (fits : take ≤ total left) (unit : g.unit ∣ take) (usable : Usable g (total left - take)) :
    ∃ h' nodes', (if take ≠ 0 then
          reallocExtendPrev g h (.chunk (s.start g)) (.chunk (s.start g - s.lead g))
            (.chunk (s.start g + size)) size (total left) take
        else some (h, .chunk (s.start g))) = some (h', .chunk (s.start g - take)) ∧
      Inv g h' (fill { s with before := wide.before ++ gap (total left - take) }
        [⟨size + take, true⟩]) nodes' [] ∧ Frame h h' := by
  by_cases none : take = 0
  · have whole := wider.leftEdge.gap_eq (wider.edges_positive inv).1
    have same : ({ s with before := wide.before ++ gap (total left - take) } : Spot) = s := by
      rw [none, Nat.sub_zero, ← whole, ← wider.before]
    rw [same]
    refine ⟨h, nodes, ?_, ?_, ⟨rfl⟩⟩
    · simp [none]
    · simpa [none] using inv
  · have single := wider.leftEdge.single (by omega)
    have front : s.before = wide.before ++ [⟨total left, false⟩] := by
      rw [← single]
      exact wider.before
    rw [if_pos none]
    exact reallocExtendPrev_spec inv front fits unit usable

theorem reallocGrow_next {take : Nat} {rest : List Chunk} (behind : s.after = right ++ rest)
    (edge : Edge (s.next g).used right)
    (sizes : ∀ chunk ∈ right, g.freeNode ≤ chunk.size ∧ g.unit ∣ chunk.size)
    (fits : take ≤ total right) (unit : g.unit ∣ take) (usable : Usable g (total right - take)) :
    ∃ h' nodes', (if take ≠ 0 then
          reallocExtendNext g h (.chunk (s.start g)) (.chunk (s.start g + size)) size
            (total right) take
        else some h) = some h' ∧
      Inv g h' (fill { s with after := gap (total right - take) ++ rest }
        [⟨size + take, true⟩]) nodes' [] ∧ Frame h h' := by
  by_cases none : take = 0
  · have whole := edge.gap_eq sizes
    have same : ({ s with after := gap (total right - take) ++ rest } : Spot) = s := by
      rw [none, Nat.sub_zero, ← whole, ← behind]
    rw [same]
    refine ⟨h, nodes, ?_, ?_, ⟨rfl⟩⟩
    · simp [none]
    · simpa [none] using inv
  · have single := edge.single (by omega)
    have after : s.after = ⟨total right, false⟩ :: rest := by
      rw [behind]
      nth_rewrite 1 [single]
      rfl
    rw [if_pos none]
    exact reallocExtendNext_spec inv after (Nat.pos_of_ne_zero none) fits unit usable

/-- Growing in place takes the needed bytes from the free neighbours and leaves their rest as
free chunks. -/
theorem reallocGrow_spec (wider : Widened g s wide left right) (positive : 0 < needed)
    (enough : needed ≤ total left + total right) (unit : g.unit ∣ needed)
    {takeprev takenext : Nat}
    (takes : reallocTake (total left) (total right) needed = (takeprev, takenext))
    (prevUsable : Usable g (total left - takeprev))
    (nextUsable : Usable g (total right - takenext)) :
    ∃ h' nodes', reallocGrow g h (.chunk (s.start g)) (.chunk (s.start g - s.lead g))
        (.chunk (s.start g + size)) size (total left) (total right) needed =
          some (h', wide.start g + (total left - takeprev) + g.allocNode) ∧
      Inv g h' (wide.fill (gap (total left - takeprev) ++ ⟨size + needed, true⟩ ::
        gap (total right - takenext))) nodes' [] ∧ Frame h h' := by
  have sizes := wider.edges_positive inv
  have starts := wider.start
  have space := inv.fits
  have spec := reallocTake_spec positive enough
  have units := reallocTake_dvd (wider.leftEdge.unit sizes.1) (wider.rightEdge.unit sizes.2) unit
  rw [takes] at spec units
  obtain ⟨sum, prevFits, nextFits⟩ := spec
  obtain ⟨prevUnit, nextUnit⟩ := units
  obtain ⟨h₁, nodes₁, grown, inv₁, frame₁⟩ :=
    @reallocGrow_prev g h s wide nodes size left right inv takeprev wider prevFits prevUnit
      prevUsable
  let s₁ : Spot := { s with before := wide.before ++ gap (total left - takeprev) }
  have starts₁ : s₁.start g = s.start g - takeprev := by
    rw [starts]
    simp only [s₁, start, wider.base, total_append, total_gap]
    omega
  have behind₁ : s.start g + size = s₁.start g + (size + takeprev) := by omega
  have own : h₁.size (.chunk (s₁.start g)) = size + takeprev := inv₁.one.own
  obtain ⟨h₂, nodes₂, extended, inv₂, frame₂⟩ :=
    @reallocGrow_next g h₁ s₁ nodes₁ (size + takeprev) right inv₁ takenext wide.after wider.after
      wider.rightEdge sizes.2 nextFits nextUnit nextUsable
  have total₂ : size + takeprev + takenext = size + needed := by omega
  have result : fill { s₁ with after := gap (total right - takenext) ++ wide.after }
      [⟨size + takeprev + takenext, true⟩] =
        wide.fill (gap (total left - takeprev) ++ ⟨size + needed, true⟩ ::
          gap (total right - takenext)) := by
    simp [fill, s₁, wider.earlier, wider.base, wider.later, total₂]
  rw [result] at inv₂
  refine ⟨h₂, nodes₂, ?_, inv₂, frame₁.trans frame₂⟩
  have address : wide.start g + (total left - takeprev) = s₁.start g := by omega
  rw [← starts₁] at grown
  rw [reallocGrow, takes]
  simp only [grown, bind_eq_bind, bind_some, own]
  rw [behind₁, extended]
  simp only [bind_some, addr_chunk, address]
  rw [add_eq (by omega)]

end

end Grow

section InPlace

variable {g : Geometry} {h : Heap} {s wide : Spot} {nodes : List Node} {size request : Nat}
variable {left right middle : List Chunk}

section

variable {pending : List Nat} (wider : Widened g s wide left right)
  (inv : Inv g h (s.fill middle) nodes pending)

include wider inv

theorem Widened.next_size :
    (if h.isFree g (.chunk (s.start g + total middle)) then
      h.size (.chunk (s.start g + total middle)) else 0) = total right := by
  have edge := wider.rightEdge
  have after := wider.after
  rw [inv.next_isFree, inv.next_header.1]
  generalize flagEq : (s.next g).used = flag at edge
  cases edge with
  | used => simp
  | free other => simp [next, after]

theorem Widened.prev_size :
    (if h.isFree g (.chunk (s.start g - s.lead g)) then
      h.size (.chunk (s.start g - s.lead g)) else 0) = total left := by
  have edge := wider.leftEdge
  have before := wider.before
  rw [inv.lead_isFree, inv.lead_header.2.1]
  generalize flagEq : s.leadUsed = flag at edge
  cases edge with
  | used => simp
  | free other => simp [lead, before]

end

/-- When `mm_realloc` enlarges in place, what it leaves of either neighbour can hold a free
node. The source does not check this. -/
def GrowthUsable (g : Geometry) (h : Heap) (oldmem request : Nat) : Prop :=
  let newsize := chunkSize g request
  let oldnode := Node.chunk (g.sub oldmem g.allocNode)
  let oldsize := h.size oldnode
  let next := h.after g oldnode oldsize
  let nextsize := if h.isFree g next then h.size next else 0
  let prev := h.ahead g oldnode (g.clearAlloc (h.preceding oldnode))
  let prevsize := if h.isFree g prev then h.size prev else 0
  let take := reallocTake prevsize nextsize (g.sub newsize oldsize)
  oldsize < newsize → newsize ≤ g.add (g.add nextsize prevsize) oldsize →
    Usable g (prevsize - take.1) ∧ Usable g (nextsize - take.2)

/-- The layouts `mm_realloc` can leave in its first critical section, and the address of the
resized chunk if there is one. -/
inductive Resized (g : Geometry) (s wide : Spot) (left right : List Chunk) (size want : Nat) :
    List Region → Option Nat → Prop where
  | shrink (smaller : want < size) :
    Resized g s wide left right size want
      (Spot.fill { s with after := wide.after } (cut g want (size + total right)))
      (some (s.start g))
  | keep (same : want = size) :
    Resized g s wide left right size want (s.fill [⟨size, true⟩]) (some (s.start g))
  | grow (larger : size < want) (takeprev takenext : Nat) (sum : takeprev + takenext = want - size)
      (prevFits : takeprev ≤ total left) (nextFits : takenext ≤ total right) :
    Resized g s wide left right size want
      (wide.fill (gap (total left - takeprev) ++ ⟨want, true⟩ :: gap (total right - takenext)))
      (some (wide.start g + (total left - takeprev)))
  | move (short : total left + size + total right < want) :
    Resized g s wide left right size want (s.fill [⟨size, true⟩]) none

/-- What `mm_realloc` reads about an allocated chunk and its neighbours. -/
structure Reads (g : Geometry) (h : Heap) (s : Spot) (left right : List Chunk) (size : Nat) :
    Prop where
  back : g.sub (s.start g + g.allocNode) g.allocNode = s.start g
  own : h.size (.chunk (s.start g)) = size
  behind : h.after g (.chunk (s.start g)) size = .chunk (s.start g + size)
  ahead : h.ahead g (.chunk (s.start g)) (g.clearAlloc (h.preceding (.chunk (s.start g)))) =
    .chunk (s.start g - s.lead g)
  nextSize : (if h.isFree g (.chunk (s.start g + size)) then
    h.size (.chunk (s.start g + size)) else 0) = total right
  prevSize : (if h.isFree g (.chunk (s.start g - s.lead g)) then
    h.size (.chunk (s.start g - s.lead g)) else 0) = total left
  available : g.add (g.add (total right) (total left)) size = total right + total left + size
  small : total left + size + total right < 2 ^ g.allocShift

theorem Widened.reads (wider : Widened g s wide left right)
    (inv : Inv g h (s.fill [⟨size, true⟩]) nodes []) : Reads g h s left right size := by
  have one := inv.one
  have bounds := one.bounds
  have leftTotal : total left ≤ total s.before := by
    rw [wider.before, total_append]
    omega
  have rightTotal : total right ≤ total s.after := by
    rw [wider.after, total_append]
    omega
  refine ⟨?_, one.own, ?_, ?_, wider.next_size inv, wider.prev_size inv, ?_, by omega⟩
  · rw [sub_eq (by omega) (by omega), Nat.add_sub_cancel]
  · rw [after_chunk _ (by omega)]
  · rw [one.preceding, clearAlloc_tag one.lead, ahead_chunk _ inv.lead_header.1 (by omega)]
  · have neighbours : g.add (total right) (total left) = total right + total left :=
      add_eq (by omega)
    rw [neighbours, add_eq (by omega)]

theorem Reads.growth (reads : Reads g h s left right size) :
    GrowthUsable g h (s.start g + g.allocNode) request ↔
      let take := reallocTake (total left) (total right) (chunkSize g request - size)
      size < chunkSize g request → chunkSize g request ≤ total right + total left + size →
        Usable g (total left - take.1) ∧ Usable g (total right - take.2) := by
  have small := reads.small
  have word := g.bit_lt_word
  dsimp only [GrowthUsable]
  rw [reads.back, reads.own, reads.behind, reads.ahead, reads.nextSize, reads.prevSize,
    reads.available]
  refine forall₂_congr fun larger room => ?_
  rw [sub_eq (by omega) (by omega)]

/-- The first critical section of `mm_realloc` on an allocated chunk. -/
theorem reallocInPlace_spec (inv : Inv g h (s.fill [⟨size, true⟩]) nodes [])
    (wider : Widened g s wide left right) (nonzero : chunkSize g request ≠ 0)
    (usable : GrowthUsable g h (s.start g + g.allocNode) request) :
    ∃ h' nodes' layout' result,
      reallocInPlace g h (s.start g + g.allocNode) request =
        some (h', result.map (· + g.allocNode)) ∧
      Resized g s wide left right size (chunkSize g request) layout' result ∧
      Inv g h' layout' nodes' [] ∧ Frame h h' := by
  have reads := wider.reads inv
  have small := reads.small
  have word := g.bit_lt_word
  have sizes : g.freeNode ≤ size ∧ g.unit ∣ size := inv.sizes ⟨size, true⟩ (by simp)
  have divides : g.minChunk ∣ chunkSize g request := g.alignUp_dvd _
  have large := freeNode_le_of_minChunk divides nonzero
  have unit := unit_of_minChunk divides
  have unfolded : reallocInPlace g h (s.start g + g.allocNode) request =
      if chunkSize g request ≤ size then
        (if chunkSize g request < size then
          mmShrinkchunk g h (.chunk (s.start g)) (chunkSize g request) else some h).bind
            fun h => some (h, some (s.start g + g.allocNode))
      else if chunkSize g request ≤ total right + total left + size then
        (reallocGrow g h (.chunk (s.start g)) (.chunk (s.start g - s.lead g)) (.chunk (s.start g + size))
          size (total left) (total right) (g.sub (chunkSize g request) size)).bind
            fun result => some (result.1, some result.2)
      else some (h, none) := by
    rw [reallocInPlace, reads.back, reads.own, reads.behind, reads.ahead]
    simp only [reads.nextSize, reads.prevSize, reads.available]
    rfl
  rw [unfolded]
  by_cases fits : chunkSize g request ≤ size
  · rw [if_pos fits]
    by_cases smaller : chunkSize g request < size
    · obtain ⟨h', nodes', shrunk, final, frame⟩ :=
        mmShrinkchunk_spec inv wider.after wider.rightEdge fits large unit
      refine ⟨h', nodes', _, some (s.start g), ?_, Resized.shrink smaller, final, frame⟩
      rw [if_pos smaller, shrunk]
      rfl
    · refine ⟨h, nodes, _, some (s.start g), ?_, Resized.keep (by omega), inv, ⟨rfl⟩⟩
      rw [if_neg smaller]
      rfl
  · rw [if_neg fits]
    by_cases room : chunkSize g request ≤ total right + total left + size
    · have needed : g.sub (chunkSize g request) size = chunkSize g request - size :=
        sub_eq (by omega) (by omega)
      obtain ⟨prevUsable, nextUsable⟩ := reads.growth.mp usable (by omega) room
      obtain ⟨sum, prevFits, nextFits⟩ := @reallocTake_spec (total left) (total right)
        (chunkSize g request - size) (by omega) (by omega)
      obtain ⟨h', nodes', grown, final, frame⟩ :=
        @reallocGrow_spec g h s wide nodes size (chunkSize g request - size) left right
          inv wider (by omega) (by omega) (Nat.dvd_sub unit sizes.2) _ _
          rfl prevUsable nextUsable
      have whole : size + (chunkSize g request - size) = chunkSize g request := by omega
      rw [whole] at final
      refine ⟨h', nodes', _, some _, ?_, Resized.grow (by omega) _ _ sum prevFits nextFits, final,
        frame⟩
      rw [if_pos room, needed, grown]
      rfl
    · refine ⟨h, nodes, _, none, ?_, Resized.move (by omega), inv, ⟨rfl⟩⟩
      rw [if_neg room]
      rfl

theorem usable_of_unit (coarse : g.freeNode ≤ g.unit) {remainder : Nat}
    (divides : g.unit ∣ remainder) : Usable g remainder := by
  by_cases empty : remainder = 0
  · exact Or.inl empty
  · exact Or.inr (Nat.le_trans coarse (Nat.le_of_dvd (Nat.pos_of_ne_zero empty) divides))

theorem growth_of_unit (coarse : g.freeNode ≤ g.unit)
    (inv : Inv g h (s.fill [⟨size, true⟩]) nodes []) :
    GrowthUsable g h (s.start g + g.allocNode) request := by
  obtain ⟨wide, left, right, wider⟩ := Widened.of_spot g s
  rw [(wider.reads inv).growth]
  intro _ _ _
  have edges := wider.edges_positive inv
  have leftUnit := wider.leftEdge.unit edges.1
  have rightUnit := wider.rightEdge.unit edges.2
  have sizes : g.unit ∣ size := (inv.sizes ⟨size, true⟩ (by simp)).2
  have want := unit_of_minChunk (g.alignUp_dvd (g.add request g.allocNode))
  obtain ⟨prevUnit, nextUnit⟩ := reallocTake_dvd leftUnit rightUnit (Nat.dvd_sub want sizes)
  exact ⟨usable_of_unit coarse (Nat.dvd_sub leftUnit prevUnit),
    usable_of_unit coarse (Nat.dvd_sub rightUnit nextUnit)⟩

end InPlace

end Chewie.Mm

import Chewie.Mm.Heap.Regions

/-!
# Who owns which chunk

The allocated chunks of a layout are what the clients of the heap own. Each function changes this
set in one way: an allocation adds the address it returns, a release removes the address it is
given, a resize replaces one by the other. The lemmas here compute the set for the layouts the
functions leave, so that whole runs can be followed without looking at chunks again.
-/

namespace Chewie.Mm

open Tags Spot

open Tags (Chunk total carry place Marked)

/-- The chunk at this address is allocated. -/
def Used (g : Geometry) (layout : List Region) (a : Nat) : Prop := Marked true (places g layout) a

section Facts

variable {g : Geometry} {h : Heap} {layout : List Region} {nodes : List Node}
variable {pending : List Nat} {s wide : Spot} {middle middle' left right : List Chunk}

theorem Inv.used_not_free (inv : Inv g h layout nodes pending) {a : Nat}
    (used : Used g layout a) : ¬Marked false (places g layout) a := by
  rintro ⟨other, otherPlaced, free⟩
  obtain ⟨chunk, placed, marked⟩ := used
  have first := (inv.place_header placed).2
  have second := (inv.place_header otherPlaced).2
  simp_all

theorem Inv.used_fill (inv : Inv g h (s.fill middle) nodes pending)
    (same : total middle' = total middle) (a : Nat) :
    Used g (s.fill middle') a ↔
      (Used g (s.fill middle) a ∧ ¬Marked true (place (s.start g) middle) a) ∨
        Marked true (place (s.start g) middle') a := by
  unfold Used
  rw [marked_places, marked_places, same]
  constructor
  · rintro (outside | inside)
    · refine Or.inl ⟨Or.inl outside, ?_⟩
      intro inside
      have range := Inv.marked_inside inv.sizes inside
      have apart := inv.marked_outside outside
      omega
    · exact Or.inr inside
  · rintro (⟨outside | inside, absent⟩ | new)
    · exact Or.inl outside
    · exact absurd inside absent
    · exact Or.inr new

theorem Used.spot {a : Nat} (used : Used g layout a) :
    ∃ s size, layout = fill s [⟨size, true⟩] ∧ a = s.start g := by
  obtain ⟨chunk, placed, marked⟩ := used
  obtain ⟨s, filled, address⟩ := of_place placed
  refine ⟨s, chunk.size, ?_, address⟩
  rw [filled, ← marked]

theorem used_at (s : Spot) (size : Nat) : Used g (s.fill [⟨size, true⟩]) (s.start g) := by
  exact ⟨⟨size, true⟩, @place_mem g s [] [] ⟨size, true⟩, rfl⟩

@[simp] theorem marked_cut (start want size a : Nat) :
    Marked true (place start (cut g want size)) a ↔ a = start := by
  unfold cut
  split_ifs
  · simp
  · simp

@[simp] theorem marked_gap (start size a : Nat) : Marked true (place start (gap size)) a ↔ False := by
  unfold gap
  split_ifs
  · simp
  · simp

theorem Edge.marked {flag : Bool} {chunks : List Chunk} (edge : Edge flag chunks)
    (start a : Nat) : Marked true (place start chunks) a ↔ False := by
  cases edge with
  | used => simp
  | free size => simp

theorem Widened.marked (wider : Widened g s wide left right) (size a : Nat) :
    Marked true (place (wide.start g) (left ++ [⟨size, true⟩] ++ right)) a ↔ a = s.start g := by
  rw [place_append, place_append, marked_append, marked_append,
    wider.leftEdge.marked, wider.rightEdge.marked, wider.start]
  simp

end Facts

section Changes

variable {g : Geometry} {h : Heap} {nodes : List Node} {s wide : Spot}
variable {left right : List Chunk} {size want a : Nat}

theorem not_used_free (inv : Inv g h (s.fill [⟨size, false⟩]) nodes []) :
    ¬Used g (s.fill [⟨size, false⟩]) (s.start g) := by
  intro used
  exact inv.used_not_free used ⟨⟨size, false⟩, inv.one.placed, rfl⟩

section

variable (inv : Inv g h (s.fill [⟨size, true⟩]) nodes [])

include inv

theorem used_shrink {rest : List Chunk} (after : s.after = right ++ rest)
    (edge : Edge (s.next g).used right) (fits : want ≤ size) (a : Nat) :
    Used g (fill { s with after := rest } (cut g want (size + total right))) a ↔
      Used g (s.fill [⟨size, true⟩]) a := by
  have view : s.fill [⟨size, true⟩] =
      fill { s with after := rest } ([⟨size, true⟩] ++ right) := by
    simp [fill, after]
  have own := used_at (g := g) s size
  rw [view] at inv own ⊢
  rw [inv.used_fill (by rw [total_cut (by omega)]; simp), marked_cut, place_append,
    marked_append, edge.marked]
  have starts : start g { s with after := rest } = s.start g := rfl
  simp only [place_cons, place_nil, marked_cons, marked_nil, starts, or_false, and_true]
  constructor
  · rintro (⟨used, _⟩ | rfl)
    · exact used
    · exact own
  · intro used
    by_cases here : a = s.start g
    · exact Or.inr here
    · exact Or.inl ⟨used, here⟩

theorem used_resize {layout' : List Region} {address : Nat} (wider : Widened g s wide left right)
    (resized : Resized g s wide left right size want layout' (some address)) (a : Nat) :
    Used g layout' a ↔ (Used g (s.fill [⟨size, true⟩]) a ∧ a ≠ s.start g) ∨ a = address := by
  have own := used_at (g := g) s size
  have absorb : ∀ used : Prop, (a = s.start g → used) →
      (used ↔ (used ∧ a ≠ s.start g) ∨ a = s.start g) := by
    intro used here
    by_cases same : a = s.start g
    · simp [same, here same]
    · simp [same]
  cases resized with
  | shrink smaller =>
    rw [used_shrink inv wider.after wider.rightEdge (Nat.le_of_lt smaller)]
    apply absorb
    rintro rfl
    exact own
  | keep same =>
    apply absorb
    rintro rfl
    exact own
  | grow larger takeprev takenext sum prevFits nextFits =>
    rw [wider.fill] at inv ⊢
    have covered : total (gap (total left - takeprev) ++
        ⟨want, true⟩ :: gap (total right - takenext)) =
          total (left ++ [⟨size, true⟩] ++ right) := by
      simp only [total_append, total_cons, total_gap, total_nil]
      omega
    rw [inv.used_fill covered, wider.marked, place_append, marked_append, marked_gap,
      place_cons, marked_cons, marked_gap, total_gap]
    simp

/-- The aligned cut replaces the address of the raw chunk by the aligned one. -/
theorem used_align {skip : Nat} {layout' : List Region} (wider : Widened g s wide left right)
    (fits : skip ≤ size) (aligned : AlignedCut g s wide right size want skip layout') (a : Nat) :
    Used g layout' a ↔
      (Used g (s.fill [⟨size, true⟩]) a ∧ a ≠ s.start g) ∨ a = s.start g + skip := by
  cases aligned with
  | shrink room =>
    have view : s.fill [⟨size, true⟩] =
        fill { s with after := wide.after } ([⟨size, true⟩] ++ right) := by
      simp [fill, wider.after]
    have result : fill { s with before := s.before ++ gap skip, after := wide.after }
        (cut g want (size - skip + total right)) =
          fill { s with after := wide.after }
            (gap skip ++ cut g want (size - skip + total right)) := by
      simp [fill]
    have starts : start g { s with after := wide.after } = s.start g := rfl
    have covered : total (gap skip ++ cut g want (size - skip + total right)) =
        total ([⟨size, true⟩] ++ right) := by
      rw [total_append, total_cut (by omega)]
      simp only [total_gap, total_append, total_cons, total_nil]
      omega
    rw [view] at inv ⊢
    rw [result, inv.used_fill covered, place_append, place_append, marked_append,
      marked_append, wider.rightEdge.marked, marked_gap, marked_cut, total_gap, starts]
    simp
  | whole =>
    have result : fill { s with before := s.before ++ gap skip } [⟨size - skip, true⟩] =
        s.fill (gap skip ++ [⟨size - skip, true⟩]) := by
      simp [fill]
    have covered : total (gap skip ++ [⟨size - skip, true⟩]) = total [⟨size, true⟩] := by
      simp only [total_append, total_gap, total_cons, total_nil]
      omega
    rw [result, inv.used_fill covered, place_append, marked_append, marked_gap, total_gap]
    simp

end

end Changes

end Chewie.Mm

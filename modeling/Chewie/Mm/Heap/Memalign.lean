import Chewie.Mm.Heap.Realloc

/-!
# Aligned allocation

`mm_memalign` allocates a raw chunk with room for two alignment points, gives the bytes in front
of the aligned address back as a free chunk of their own, and shrinks what is left to the
request. The leading free chunk is not merged with a free chunk in front of it.
-/

namespace Chewie.Mm

open Mm.Geometry Tags Heap Option Spot

open Tags (Chunk total carry place Marked)

section Lead

variable {g : Geometry} {h : Heap} {s : Spot} {nodes : List Node} {size skip : Nat}

/-- The headers of the leading cut: `skip` bytes become a free chunk on the list. -/
theorem memalignLead_headers (inv : Inv g h (s.fill [⟨size, true⟩]) nodes [])
    (large : g.freeNode ≤ skip) (unit : g.unit ∣ skip) (room : g.freeNode ≤ size - skip) :
    ∃ h' nodes', mmAddfreechunk g (((((h.setSize g (.chunk (s.start g + skip))
          (size - skip)).setPreceding g (.chunk (s.start g + skip))
          (skip ||| g.allocBit)).setSize g (.chunk (s.start g)) skip).setPreceding g
          (.chunk (s.start g)) (s.lead g)).setPreceding g (.chunk (s.start g + size))
          (Word.tag g.allocShift (size - skip) (s.next g).used)) (.chunk (s.start g)) = some h' ∧
      Inv g h' (s.fill [⟨skip, false⟩, ⟨size - skip, true⟩]) nodes' [] ∧ Frame h h' := by
  have one := inv.one
  have bounds := one.bounds
  have smallSkip : skip < 2 ^ g.allocShift := by omega
  have smallRest : size - skip < 2 ^ g.allocShift := by omega
  refine inv.carve_front ⟨⟨rfl, rfl, rfl, rfl, fun _ => by simp⟩, ?_, ?_, ?_, ?_, ?_⟩ ?_
    ⟨rfl⟩
  · simp only [total_cons, total_nil]
    omega
  · exact ⟨large, room⟩
  · exact ⟨unit, Nat.dvd_sub one.sizes.2 unit⟩
  · intro x
    simp [mmsize_eq smallSkip, mmsize_eq smallRest]
  · intro x
    simp only [setPreceding_chunk, setSize_preceding, mmsize_or smallSkip, mmsize_tag smallRest,
      mmsize_eq one.lead, total_cons, total_nil, Nat.add_zero]
    grind [tag_false]
  · simp

/-- The leading cut of `mm_memalign`, given the first aligned address behind the chunk's start
and whether it leaves enough bytes in front. -/
theorem memalignLead_spec {alignment aligned : Nat} (inv : Inv g h (s.fill [⟨size, true⟩]) nodes [])
    (first : s.start g + g.allocNode ≤ aligned)
    (chosen : skip = aligned - (s.start g + g.allocNode) +
      if aligned - (s.start g + g.allocNode) < g.freeNode then alignment else 0)
    (large : g.freeNode ≤ skip) (unit : g.unit ∣ skip) (room : g.freeNode ≤ size - skip) :
    ∃ h' nodes', memalignLead g h (.chunk (s.start g)) alignment aligned =
        some (h', .chunk (s.start g + skip), s.start g + skip + g.allocNode,
          size - skip - g.allocNode) ∧
      Inv g h' (s.fill [⟨skip, false⟩, ⟨size - skip, true⟩]) nodes' [] ∧ Frame h h' := by
  obtain ⟨h', nodes', added, final, frame⟩ := memalignLead_headers inv large unit room
  refine ⟨h', nodes', ?_, final, frame⟩
  have one := inv.one
  have bounds := one.bounds
  have smallRest : size - skip < 2 ^ g.allocShift := by omega
  have behind := one.behind
  have alignedFits : aligned < 2 ^ g.wordBits := by
    split_ifs at chosen <;> omega
  have lead : g.sub (g.sub aligned g.allocNode) (s.start g) =
      aligned - (s.start g + g.allocNode) := by
    have header : g.sub aligned g.allocNode = aligned - g.allocNode := sub_eq (by omega) alignedFits
    rw [sub_eq (by omega) (by omega)]
    omega
  have point : memalignPoint g (s.start g) alignment aligned =
      s.start g + skip + g.allocNode := by
    rw [memalignPoint, lead]
    split_ifs at chosen ⊢ with short
    · rw [add_eq (by omega)]
      omega
    · omega
  have newnode : g.sub (s.start g + skip + g.allocNode) g.allocNode = s.start g + skip := by
    rw [sub_eq (by omega) (by omega)]
    omega
  have precedingsize : g.sub (s.start g + skip) (s.start g) = skip := by
    rw [sub_eq (by omega) (by omega)]
    omega
  have newsize : g.sub (s.start g + size) (s.start g + skip) = size - skip := by
    rw [sub_eq (by omega) (by omega)]
    omega
  have apart : s.start g ≠ s.start g + skip := by omega
  have beyond : s.start g + size ≠ s.start g := by omega
  have beyondSkip : s.start g + size ≠ s.start g + skip := by omega
  have allocsize : g.sub (size - skip) g.allocNode = size - skip - g.allocNode :=
    sub_eq (by omega) (by omega)
  rw [memalignLead, behind]
  simp only [addr_chunk, point, newnode, precedingsize, newsize, setSize_chunk, setPreceding_size,
    setSize_preceding, setPreceding_chunk, apart, apart.symm, beyond, beyondSkip, if_true, if_false,
    mmsize_eq smallRest, one.preceding, one.next, allocsize, clearAlloc_tag one.lead]
  rw [keepAlloc_tag smallRest (by omega), added]
  rfl

end Lead

section Cut

variable {g : Geometry} {h : Heap} {s wide : Spot} {nodes : List Node}
variable {left right : List Chunk} {size want : Nat}

/-- The layouts `mm_memalign` can leave in its second critical section, when the aligned chunk
starts `skip` bytes into the raw one. -/
inductive AlignedCut (g : Geometry) (s wide : Spot) (right : List Chunk) (size want skip : Nat) :
    List Region → Prop where
  | shrink (fits : want ≤ size - skip) :
    AlignedCut g s wide right size want skip
      (Spot.fill { s with before := s.before ++ gap skip, after := wide.after }
        (cut g want (size - skip + total right)))
  | whole :
    AlignedCut g s wide right size want skip
      (Spot.fill { s with before := s.before ++ gap skip } [⟨size - skip, true⟩])

theorem total_unit {chunks : List Chunk} (units : ∀ chunk ∈ chunks, g.unit ∣ chunk.size) :
    g.unit ∣ total chunks := by
  induction chunks with
  | nil => exact Nat.dvd_zero _
  | cons chunk rest ih =>
    apply Nat.dvd_add
    · exact units chunk (by simp)
    · exact ih fun other inside => units other (by simp [inside])

theorem Inv.payload_unit {middle : List Chunk} {pending : List Nat}
    (inv : Inv g h (s.fill middle) nodes pending) : g.unit ∣ s.start g + g.allocNode := by
  have shape := inv.region_shape
  have base : g.unit ∣ s.base := unit_of_minChunk shape.aligned
  have front : g.unit ∣ total s.before :=
    total_unit fun chunk inside => (shape.sizes chunk (by simp [inside])).2
  have split : s.start g + g.allocNode = s.base + g.unit + total s.before := by
    unfold start Geometry.unit
    omega
  rw [split]
  exact Nat.dvd_add (Nat.dvd_add base (Nat.dvd_refl _)) front

theorem Geometry.unit_le (g : Geometry) : 2 * g.allocNode ≤ g.minChunk :=
  Nat.le_of_dvd g.minChunk_pos g.unit_dvd

theorem chunkSize_bounds {request : Nat}
    (fits : request + g.allocNode + g.granMask < 2 ^ g.wordBits) :
    request + g.allocNode ≤ chunkSize g request ∧
      chunkSize g request < request + g.allocNode + g.minChunk := by
  rw [chunkSize, add_eq (by omega)]
  exact alignUp_bounds fits

theorem aligned_bounds {exponent raw : Nat} (inside : exponent ≤ g.wordBits)
    (small : 2 ^ exponent < 2 ^ g.wordBits) (fits : raw + 2 ^ exponent ≤ 2 ^ g.wordBits) :
    ∃ aligned, Word.andNot g.wordBits (g.add raw (g.sub (2 ^ exponent) 1))
        (g.sub (2 ^ exponent) 1) = aligned ∧
      2 ^ exponent ∣ aligned ∧ raw ≤ aligned ∧ aligned < raw + 2 ^ exponent := by
  have positive := Nat.two_pow_pos exponent
  have mask : g.sub (2 ^ exponent) 1 = 2 ^ exponent - 1 := sub_eq positive small
  have sum : g.add raw (2 ^ exponent - 1) = raw + (2 ^ exponent - 1) := add_eq (by omega)
  have rounded := Word.andNot_low exponent inside
    (show raw + (2 ^ exponent - 1) < 2 ^ g.wordBits by omega)
  have split := Nat.div_add_mod (raw + (2 ^ exponent - 1)) (2 ^ exponent)
  refine ⟨_, rfl, ?_, ?_, ?_⟩
  · rw [mask, sum, rounded]
    exact Nat.dvd_mul_left _ _
  · rw [mask, sum, rounded, Nat.mul_comm]
    omega
  · rw [mask, sum, rounded, Nat.mul_comm]
    omega

theorem memalignTail_spec {allocsize skip : Nat} (wider : Widened g s wide left right)
    (inv : Inv g h (fill { s with before := s.before ++ gap skip } [⟨size - skip, true⟩]) nodes
      []) (smaller : want < allocsize → want ≤ size - skip) (large : g.freeNode ≤ want)
    (unit : g.unit ∣ want) :
    ∃ h' nodes' layout', (if want < allocsize then
        mmShrinkchunk g h (.chunk (s.start g + skip)) want else some h) = some h' ∧
      AlignedCut g s wide right size want skip layout' ∧ Inv g h' layout' nodes' [] ∧
      Frame h h' := by
  have starts : s.start g + skip =
      start g { s with before := s.before ++ gap skip } := by
    simp [start, Nat.add_assoc]
  rw [starts]
  by_cases worth : want < allocsize
  · obtain ⟨h', nodes', shrunk, final, frame⟩ :=
      mmShrinkchunk_spec inv wider.after wider.rightEdge (smaller worth) large unit
    refine ⟨h', nodes', _, ?_, AlignedCut.shrink (smaller worth), final, frame⟩
    rw [if_pos worth, shrunk]
  · refine ⟨h, nodes, _, ?_, AlignedCut.whole, inv, ⟨rfl⟩⟩
    rw [if_neg worth]

/-- The second critical section of `mm_memalign`, on a raw chunk with room for the rounded
request and two alignment points. -/
theorem memalignCut_spec {exponent request : Nat} (inv : Inv g h (s.fill [⟨size, true⟩]) nodes [])
    (wider : Widened g s wide left right) (coarse : g.minChunk < 2 ^ exponent)
    (room : request + 2 * 2 ^ exponent + g.allocNode ≤ size) :
    ∃ h' nodes' layout' skip,
      memalignCut g h (2 ^ exponent) request (request + 2 * 2 ^ exponent)
        (s.start g + g.allocNode) = some (h', s.start g + skip + g.allocNode) ∧
      2 ^ exponent ∣ s.start g + skip + g.allocNode ∧
      AlignedCut g s wide right size (chunkSize g request) skip layout' ∧
      Usable g skip ∧ request + g.allocNode ≤ size - skip ∧ Inv g h' layout' nodes' [] ∧
      Frame h h' := by
  have bounds := inv.one.bounds
  have least : g.freeNode ≤ g.minChunk := g.freeNode_le
  have payloadUnit := inv.payload_unit
  have twice : 2 * g.minChunk ≤ 2 ^ exponent := by
    have steps : g.minShift + 1 ≤ exponent := (Nat.pow_lt_pow_iff_right (by decide)).mp coarse
    have powers := Nat.pow_le_pow_right (show 0 < 2 by decide) steps
    unfold Geometry.minChunk
    omega
  have alignUnit : g.unit ∣ 2 ^ exponent := by
    apply unit_of_minChunk
    exact Nat.pow_dvd_pow 2 (Nat.le_of_lt ((Nat.pow_lt_pow_iff_right (by decide)).mp coarse))
  have inside : exponent ≤ g.wordBits := by
    apply Nat.le_of_lt
    exact (Nat.pow_lt_pow_iff_right (show 1 < 2 by decide)).mp (by omega)
  have mask : g.granMask < g.minChunk := by
    unfold Geometry.granMask
    omega
  obtain ⟨wantLow, wantHigh⟩ := @chunkSize_bounds g request (by omega)
  have divides : g.minChunk ∣ chunkSize g request := g.alignUp_dvd _
  have wantLarge := freeNode_le_of_minChunk divides (by omega)
  have wantUnit := unit_of_minChunk divides
  have back : g.sub (s.start g + g.allocNode) g.allocNode = s.start g := by
    rw [sub_eq (by omega) (by omega), Nat.add_sub_cancel]
  obtain ⟨aligned, alignedEq, alignedDvd, alignedLow, alignedHigh⟩ :=
    @aligned_bounds g exponent (s.start g + g.allocNode) inside (by omega) (by omega)
  by_cases already : aligned = s.start g + g.allocNode
  · have whole : Inv g h (fill { s with before := s.before ++ gap 0 } [⟨size - 0, true⟩]) nodes
        [] := by
      simpa [gap] using inv
    obtain ⟨h', nodes', layout', tail, shape, final, frame⟩ :=
      memalignTail_spec wider whole (show chunkSize g request < request + 2 * 2 ^ exponent →
        chunkSize g request ≤ size - 0 by omega) wantLarge wantUnit
    rw [Nat.add_zero] at tail
    refine ⟨h', nodes', layout', 0, ?_, ?_, shape, Or.inl rfl, by omega, final, frame⟩
    · rw [memalignCut]
      simp only [alignedEq, back, already, ne_eq, not_true_eq_false, if_false,
        bind_eq_bind, bind_some, Nat.add_zero]
      rw [show g.alignUp (g.add request g.allocNode) = chunkSize g request from rfl, tail]
      rfl
    · rw [Nat.add_zero, ← already]
      exact alignedDvd
  · generalize chosen : aligned - (s.start g + g.allocNode) +
      (if aligned - (s.start g + g.allocNode) < g.freeNode then 2 ^ exponent else 0) = skip
    have firstUnit : g.unit ∣ aligned - (s.start g + g.allocNode) :=
      Nat.dvd_sub (Nat.dvd_trans alignUnit alignedDvd) payloadUnit
    have facts : g.freeNode ≤ skip ∧ g.unit ∣ skip ∧ request + g.allocNode ≤ size - skip ∧
        g.freeNode ≤ size - skip ∧ 2 ^ exponent ∣ s.start g + skip + g.allocNode := by
      split_ifs at chosen with short
      · have point : s.start g + skip + g.allocNode = aligned + 2 ^ exponent := by omega
        refine ⟨by omega, ?_, by omega, by omega, ?_⟩
        · rw [← chosen]
          exact Nat.dvd_add firstUnit alignUnit
        · rw [point]
          exact Nat.dvd_add alignedDvd (Nat.dvd_refl _)
      · have point : s.start g + skip + g.allocNode = aligned := by omega
        refine ⟨by omega, ?_, by omega, by omega, ?_⟩
        · rw [← chosen]
          exact firstUnit
        · rw [point]
          exact alignedDvd
    obtain ⟨skipLarge, skipUnit, payload, restLarge, pointDvd⟩ := facts
    obtain ⟨h₁, nodes₁, led, inv₁, frame₁⟩ :=
      memalignLead_spec inv alignedLow chosen.symm skipLarge skipUnit restLarge
    have skipped : gap skip = [⟨skip, false⟩] := by
      exact if_neg (by omega)
    have view : s.fill [⟨skip, false⟩, ⟨size - skip, true⟩] =
        fill { s with before := s.before ++ gap skip } [⟨size - skip, true⟩] := by
      simp [fill, skipped]
    rw [view] at inv₁
    obtain ⟨h', nodes', layout', tail, shape, final, frame⟩ :=
      memalignTail_spec wider inv₁ (show chunkSize g request < size - skip - g.allocNode →
        chunkSize g request ≤ size - skip by omega) wantLarge wantUnit
    refine ⟨h', nodes', layout', skip, ?_, pointDvd, shape, Or.inr skipLarge, payload, final,
      frame₁.trans frame⟩
    rw [memalignCut]
    simp only [alignedEq, back, ne_eq, already, not_false_eq_true, if_true, led,
      bind_eq_bind, bind_some]
    rw [show g.alignUp (g.add request g.allocNode) = chunkSize g request from rfl, tail]
    rfl

end Cut

end Chewie.Mm

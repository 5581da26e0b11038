import Chewie.Mm.Heap.Memalign

/-!
# Regions

`mm_initialize` links the bucket headers, `mm_addregion` turns a block of memory into a region
with one free chunk between two guards, and `mm_extend` stretches the last guard of a region over
an adjacent block and frees it. The callers of these functions promise that the blocks are
disjoint and large enough; the promises are the structures `RegionOk` and `ExtendOk`.
-/

namespace Chewie.Mm

open Mm.Geometry Tags Heap List Region Word Spot

open Tags (Chunk total carry place Tagged Marked)

section Initial

variable (g : Geometry) (h : Heap)

/-- The nodes of an empty free list. -/
def bucketHeads : List Node := (List.range g.nnodes).map Node.head

theorem initNodelist_linked (count start : Nat) (bound : start + count = g.nnodes) :
    Links.Seg (initNodelist g h).flink (initNodelist g h).blink
      (if start = 0 then none else some (.head (start - 1)))
      ((range' start count).map Node.head) none := by
  induction count generalizing start with
  | zero => exact True.intro
  | succ count ih =>
    have tail := ih (start + 1) (by omega)
    refine ⟨?_, ?_, tail⟩
    · cases start with
      | zero => rfl
      | succ index =>
        have inside : index + 1 < g.nnodes := by omega
        simp [initNodelist, inside]
    · cases count with
      | zero =>
        have last : ¬start + 1 < g.nnodes := by omega
        simp [initNodelist, last]
      | succ count =>
        have inside : start + 1 < g.nnodes := by omega
        simp [initNodelist, inside, range'_succ]

theorem initNodelist_list :
    FreeList g (initNodelist g h).size (initNodelist g h).flink (initNodelist g h).blink
      (bucketHeads g) := by
  refine ⟨?_, ?_, ?_, ?_, ?_, ?_⟩
  · have linked := initNodelist_linked g h g.nnodes 0 (by omega)
    rw [← range_eq_range'] at linked
    exact linked
  · unfold bucketHeads
    rw [Nodup, pairwise_map]
    apply Pairwise.imp _ nodup_range
    intro left right differ same
    injection same with equal
    exact differ equal
  · intro index
    simp [bucketHeads]
  · intro index _
    rfl
  · intro address inside
    simp [bucketHeads] at inside
  · unfold bucketHeads
    rw [pairwise_map]
    apply Pairwise.imp _ pairwise_lt_range
    intro left right ordered
    exact Or.inl ordered

theorem initNodelist_inv : Inv g (initNodelist g h) [] (bucketHeads g) [] := by
  refine ⟨rfl, ?_, ?_, ?_, initNodelist_list g h, ?_, ?_⟩
  · intro r inside
    cases inside
  · intro r inside
    cases inside
  · exact Pairwise.nil
  · intro a
    simp [bucketHeads, places]
  · intro size inside
    cases inside

end Initial

/-- What the callers of `mm_initialize` and `mm_addregion` promise about a block: it does not wrap
around the address space, it can hold two guards and a free chunk, its size stays below the
allocation bit, and it is apart from the regions the heap already has. -/
@[mk_iff]
structure RegionOk (g : Geometry) (regions : List Bounds) (heapstart heapsize : Nat) : Prop where
  endFits : heapstart + heapsize < 2 ^ g.wordBits
  room : g.alignUp heapstart + g.unit + g.freeNode ≤ g.alignDown (heapstart + heapsize)
  small : g.alignDown (heapstart + heapsize) - g.alignUp heapstart < 2 ^ g.allocShift
  apart : ∀ bounds ∈ regions, bounds.heapend + g.allocNode ≤ g.alignUp heapstart ∨
    g.alignDown (heapstart + heapsize) ≤ bounds.heapstart

section Addregion

variable {g : Geometry} {h h' : Heap} {layout : List Region} {nodes : List Node}
variable {heapstart heapsize : Nat}

theorem Geometry.alignDown_eq {value : Nat} (fits : value < 2 ^ g.wordBits) :
    g.alignDown value = value / g.minChunk * g.minChunk := by
  exact andNot_low g.minShift g.minShift_le fits

theorem Inv.listed_region {pending : List Nat} (inv : Inv g h layout nodes pending) {a : Nat}
    (inside : .chunk a ∈ nodes) : ∃ r ∈ layout, r.base ≤ a ∧ a < r.limit g := by
  obtain ⟨⟨chunk, placed, _⟩, _⟩ := (inv.listed a).mp inside
  obtain ⟨r, member, own⟩ := mem_flatMap.mp placed
  have range := place_bounds own
  have header := g.allocNode_pos
  refine ⟨r, member, ?_⟩
  simp only [first, limit] at range ⊢
  omega

/-- Adding a region with one pending free chunk. -/
theorem Inv.add_region {r : Region} {size : Nat} (inv : Inv g h layout nodes [])
    (shape : r.Shape g) (single : r.chunks = [⟨size, false⟩])
    (regions : h'.regions = h.regions ++ [r.bounds g]) (flink : h'.flink = h.flink)
    (blink : h'.blink = h.blink) (inserted : h'.inserted = h.inserted)
    (heads : ∀ index, h'.size (.head index) = h.size (.head index))
    (apart : ∀ other ∈ layout, other.limit g ≤ r.base ∨ r.limit g ≤ other.base)
    (outside : ∀ x, x < r.base ∨ r.limit g ≤ x → h'.size (.chunk x) = h.size (.chunk x) ∧
      h'.preceding (.chunk x) = h.preceding (.chunk x))
    (tagged : Tagged g.allocShift (fun a => h'.size (.chunk a))
      (fun a => h'.preceding (.chunk a)) r.base 0 (r.full g)) :
    Inv g h' (layout ++ [r]) nodes [r.first g] := by
  have header := g.allocNode_pos
  refine ⟨?_, ?_, ?_, ?_, ?_, ?_, ?_⟩
  · rw [regions, inv.bounds, map_append]
    rfl
  · intro other inside
    rcases mem_append.mp inside with old | new
    · apply inv.tagged_frame old
      intro x low high
      apply outside x
      have separate := apart other old
      omega
    · obtain rfl : other = r := by simpa using new
      exact tagged
  · intro other inside
    rcases mem_append.mp inside with old | new
    · exact inv.shape other old
    · obtain rfl : other = r := by simpa using new
      exact shape
  · rw [map_append, pairwise_append]
    refine ⟨inv.apart, by simp, ?_⟩
    intro left leftIn right rightIn
    obtain ⟨other, old, rfl⟩ := mem_map.mp leftIn
    obtain rfl : right = r.span g := by simpa using rightIn
    exact apart other old
  · rw [flink, blink]
    apply inv.list.congr_size
    intro node inside
    cases node with
    | head index => exact heads index
    | chunk a =>
      obtain ⟨other, old, low, high⟩ := inv.listed_region inside
      have separate := apart other old
      exact (outside a (by omega)).1
  · intro a
    have joined : places g (layout ++ [r]) = places g layout ++ [(r.first g, ⟨size, false⟩)] := by
      simp [places, single]
    rw [joined, marked_append]
    constructor
    · intro inside
      obtain ⟨other, old, low, high⟩ := inv.listed_region inside
      have separate := apart other old
      refine ⟨Or.inl ((inv.listed a).mp inside).1, ?_⟩
      simp only [mem_cons, not_mem_nil, or_false, first]
      unfold limit at *
      omega
    · rintro ⟨old | new, notPending⟩
      · exact (inv.listed a).mpr ⟨old, by simp⟩
      · simp only [marked_cons, marked_nil, or_false] at new
        simp only [mem_cons, not_mem_nil, or_false] at notPending
        exact absurd new.1 notPending
  · rw [inserted]
    exact inv.logged

/-- The region `mm_addregion` makes out of a block. -/
def addedRegion (g : Geometry) (heapstart heapsize : Nat) : Region :=
  ⟨g.alignUp heapstart,
    [⟨g.alignDown (heapstart + heapsize) - g.alignUp heapstart - 2 * g.allocNode, false⟩]⟩

theorem addedRegion_limit (ok : RegionOk g h.regions heapstart heapsize) :
    (addedRegion g heapstart heapsize).limit g = g.alignDown (heapstart + heapsize) := by
  have room := ok.room
  simp only [limit, addedRegion, total_cons, total_nil, unit] at *
  omega

theorem addedRegion_shape (ok : RegionOk g h.regions heapstart heapsize) :
    (addedRegion g heapstart heapsize).Shape g := by
  have room := ok.room
  have small := ok.small
  have base : g.minChunk ∣ g.alignUp heapstart := g.alignUp_dvd _
  have finish : g.minChunk ∣ g.alignDown (heapstart + heapsize) := by
    rw [alignDown_eq ok.endFits]
    exact Nat.dvd_mul_left _ _
  refine ⟨base, ?_, ?_, ?_⟩
  · intro chunk inside
    obtain rfl := mem_singleton.mp inside
    simp only [unit] at room ⊢
    refine ⟨by omega, ?_⟩
    apply Nat.dvd_sub
    · exact unit_of_minChunk (Nat.dvd_sub finish base)
    · exact Nat.dvd_refl _
  · simp only [addedRegion, total_cons, total_nil, unit] at room small ⊢
    omega
  · rw [addedRegion_limit ok, alignDown_eq ok.endFits]
    have rounded := Nat.div_mul_le_self (heapstart + heapsize) g.minChunk
    have fits := ok.endFits
    omega

/-- `mm_addregion` adds a region with one free chunk to a well formed heap. -/
theorem mmAddregion_spec (inv : Inv g h layout nodes [])
    (ok : RegionOk g h.regions heapstart heapsize) :
    ∃ h' nodes', mmAddregion g h heapstart heapsize = some h' ∧
      Inv g h' (layout ++ [addedRegion g heapstart heapsize]) nodes' [] ∧
      h'.heapsize = g.add h.heapsize
        (g.alignDown (heapstart + heapsize) - g.alignUp heapstart) := by
  let r := addedRegion g heapstart heapsize
  have shape : r.Shape g := addedRegion_shape ok
  have limit : r.limit g = g.alignDown (heapstart + heapsize) := addedRegion_limit ok
  have room := ok.room
  have small := ok.small
  have header := g.allocNode_pos
  have least := g.freeNode_pos
  have fits := shape.fits
  have coarse := g.unit_le
  have granule := g.minChunk_lt
  unfold unit at room
  generalize baseEq : g.alignUp heapstart = base at *
  generalize finishEq : g.alignDown (heapstart + heapsize) = finish at *
  have rBase : r.base = base := baseEq
  let size := finish - base - 2 * g.allocNode
  have rChunks : r.chunks = [⟨size, false⟩] := by
    simp only [r, addedRegion, baseEq, finishEq, size]
  have smallSize : size < 2 ^ g.allocShift := by omega
  have smallHeader : g.allocNode < 2 ^ g.allocShift := by omega
  let h₁ : Heap := { ((((((({ h with heapsize := g.add h.heapsize (finish - base) } :
      Heap).setSize g (.chunk base) g.allocNode).setPreceding g (.chunk base)
      g.allocBit).setSize g (.chunk (base + g.allocNode)) size).setPreceding g
      (.chunk (base + g.allocNode)) g.allocNode).setSize g (.chunk (finish - g.allocNode))
      g.allocNode).setPreceding g (.chunk (finish - g.allocNode)) (size ||| g.allocBit)) with
      regions := h.regions ++ [⟨base, finish - g.allocNode⟩] }
  have guardBit : g.mmsize g.allocBit = tag g.allocShift 0 true := by
    have flagged := @mmsize_or g 0 (Nat.two_pow_pos _)
    simpa using flagged
  have added : Inv g h₁ (layout ++ [r]) nodes [r.first g] := by
    apply inv.add_region shape rChunks
    · simp only [h₁, bounds, heapend, rBase, rChunks, total_cons, total_nil, Nat.add_zero]
      rw [show finish - g.allocNode = base + g.allocNode + size by omega]
    · rfl
    · rfl
    · rfl
    · intro index
      simp [h₁]
    · intro other inside
      have separate := ok.apart (other.bounds g) (by rw [inv.bounds]; exact mem_map_of_mem inside)
      rw [limit, rBase]
      simpa [Region.bounds, Region.heapend, Region.limit, baseEq, finishEq] using separate
    · intro x outside
      simp only [h₁, setPreceding_size, setSize_chunk, setSize_preceding, setPreceding_chunk]
      have first : x ≠ base := by omega
      have second : x ≠ base + g.allocNode := by omega
      have third : x ≠ finish - g.allocNode := by omega
      simp [first, second, third]
    · have lastEq : finish - g.allocNode = base + g.allocNode + size := by omega
      have nodeNe : base + g.allocNode ≠ base := by omega
      have lastNe : base + g.allocNode + size ≠ base := by omega
      have lastNode : base + g.allocNode + size ≠ base + g.allocNode := by omega
      simp only [Region.full, Region.guard, rChunks, rBase, cons_append, nil_append, Tagged, h₁,
        lastEq, setPreceding_size, setSize_chunk, setSize_preceding, setPreceding_chunk, nodeNe,
        lastNe, lastNode, nodeNe.symm, lastNe.symm, lastNode.symm, if_true, if_false,
        mmsize_eq smallSize, mmsize_eq smallHeader, guardBit, mmsize_or smallSize, tag_false,
        and_self]
  have placed : (r.first g, ⟨size, false⟩) ∈ places g (layout ++ [r]) := by
    simp [places, rChunks]
  obtain ⟨flink, blink, nodes', inserted, final⟩ := added.addfreechunk placed rfl (by simp)
  have heapsizeEq : g.sub finish base = finish - base := sub_eq (by omega) (by omega)
  have nodeAddr : g.add base g.allocNode = base + g.allocNode := add_eq (by omega)
  have nodeSize : g.sub (finish - base) (2 * g.allocNode) = size := sub_eq (by omega) (by omega)
  have lastAddr : g.sub finish g.allocNode = finish - g.allocNode := sub_eq (by omega) (by omega)
  have nodeNe : base + g.allocNode ≠ finish - g.allocNode := by omega
  have endAddr : g.add heapstart heapsize = heapstart + heapsize := add_eq ok.endFits
  refine ⟨_, nodes', ?_, final, rfl⟩
  rw [mmAddregion, baseEq, endAddr, finishEq]
  simp only [heapsizeEq, nodeAddr, nodeSize, lastAddr, setSize_chunk,
    setPreceding_size, nodeNe, if_true, if_false, mmsize_eq smallSize]
  rw [first, rBase] at inserted
  exact inserted

end Addregion

/-- What the callers of `mm_extend` promise, most of it asserted in the source: the block follows
the last guard of the region, is made of granules, keeps the region below the allocation bit and
inside the address space, and is apart from the other regions. -/
@[mk_iff]
structure ExtendOk (g : Geometry) (regions : List Bounds) (mem size region : Nat)
    (bounds : Bounds) : Prop where
  present : regions[region]? = some bounds
  adjacent : mem = bounds.heapend + g.allocNode
  granule : g.minChunk ∣ size
  positive : 0 < size
  small : mem + size - bounds.heapstart < 2 ^ g.allocShift
  fits : mem + size < 2 ^ g.wordBits
  apart : ∀ other ∈ regions, other ≠ bounds →
    other.heapend + g.allocNode ≤ bounds.heapstart ∨ mem + size ≤ other.heapstart

section Extend

variable {g : Geometry} {h : Heap} {s : Spot} {nodes : List Node} {mem size region : Nat}
variable {bounds : Bounds}

theorem ExtendOk.spot {layout : List Region} (ok : ExtendOk g h.regions mem size region bounds)
    (inv : Inv g h layout nodes []) :
    ∃ s : Spot, layout = s.fill [] ∧ s.after = [] ∧ s.earlier.length = region ∧
      bounds = ⟨s.base, s.start g⟩ := by
  have present := ok.present
  rw [inv.bounds, getElem?_map] at present
  obtain ⟨r, found, boundsEq⟩ := Option.map_eq_some_iff.mp present
  obtain ⟨inside, atIndex⟩ := List.getElem?_eq_some_iff.mp found
  refine ⟨⟨layout.take region, r.base, r.chunks, [], layout.drop (region + 1)⟩, ?_, rfl, ?_, ?_⟩
  · have split := take_append_drop region layout
    rw [drop_eq_getElem_cons inside, atIndex] at split
    simp [fill, split]
  · simp only [length_take]
    omega
  · rw [← boundsEq]
    rfl

/-- The headers after the last guard is stretched over the block. -/
theorem extend_tagged {h' : Heap} (inv : Inv g h (s.fill []) nodes []) (last : s.after = [])
    (sizes : ∀ x, h'.size (.chunk x) =
      if x = s.start g + size then g.allocNode
      else if x = s.start g then size
      else h.size (.chunk x)) (precedings : ∀ x, h'.preceding (.chunk x) =
      if x = s.start g + size then tag g.allocShift size true
      else h.preceding (.chunk x)) (positive : 0 < size) :
    Tagged g.allocShift (fun a => h'.size (.chunk a)) (fun a => h'.preceding (.chunk a)) s.base 0
      (full g ⟨s.base, s.before ++ [⟨size, true⟩]⟩) := by
  have tags := inv.tagged_spot
  have next := inv.next_header.2
  have header := g.allocNode_pos
  rw [append_nil, tagged_append] at tags
  have front : Tags.Positive (guard g :: s.before) :=
    positive_cons.mpr ⟨header, fun chunk inside => inv.positive chunk (by simp [inside])⟩
  have guardUsed : (s.next g).used = true := by simp [Spot.next, last, Region.guard]
  have split : Region.full g ⟨s.base, s.before ++ [⟨size, true⟩]⟩ =
      (Region.guard g :: s.before) ++ [⟨size, true⟩, Region.guard g] := by
    simp [full]
  rw [split, tagged_append, Inv.start_eq]
  constructor
  · apply tagged_congr front tags.1
    intro x _ high
    rw [Inv.start_eq] at high
    rw [sizes, precedings, if_neg (by omega), if_neg (by omega), if_neg (by omega)]
    exact ⟨rfl, rfl⟩
  · simp only [total_nil, Nat.add_zero, carry_nil, guardUsed] at next
    have apart : s.start g ≠ s.start g + size := by omega
    simp only [Tagged, Region.guard, sizes, precedings, apart, if_true, if_false, next,
      true_and, and_true]
    rfl

/-- The first half of `mm_extend` turns the last guard into an allocated chunk over the block. -/
theorem extendTail_spec (inv : Inv g h (s.fill []) nodes []) (last : s.after = [])
    (ok : ExtendOk g h.regions mem size s.earlier.length ⟨s.base, s.start g⟩) :
    ∃ h', extendTail g h mem size s.earlier.length = some h' ∧
      Inv g h' (s.fill [⟨size, true⟩]) nodes [] ∧ Frame h h' := by
  have header := g.allocNode_pos
  have shape := inv.region_shape
  have space := inv.fits
  have small := ok.small
  have adjacent := ok.adjacent
  have endFits := ok.fits
  have positive := ok.positive
  have large : g.freeNode ≤ size := freeNode_le_of_minChunk ok.granule (by omega)
  simp only at small adjacent
  have startEq : s.start g = s.base + g.allocNode + total s.before := rfl
  have smallSize : size < 2 ^ g.allocShift := by omega
  have smallHeader : g.allocNode < 2 ^ g.allocShift := by omega
  have blockend : g.sub (g.add mem size) g.allocNode = s.start g + size := by
    rw [add_eq endFits, sub_eq (by omega) (by omega)]
    omega
  let h₁ : Heap := { (((h.setSize g (.chunk (s.start g)) size).setSize g
    (.chunk (s.start g + size)) g.allocNode).setPreceding g (.chunk (s.start g + size))
    (size ||| g.allocBit)) with
      regions := h.regions.set s.earlier.length ⟨s.base, s.start g + size⟩ }
  have sizes : ∀ x, h₁.size (.chunk x) = if x = s.start g + size then g.allocNode
      else if x = s.start g then size else h.size (.chunk x) := by
    intro x
    simp [h₁, mmsize_eq smallSize, mmsize_eq smallHeader]
  have precedings : ∀ x, h₁.preceding (.chunk x) = if x = s.start g + size then
      tag g.allocShift size true else h.preceding (.chunk x) := by
    intro x
    simp [h₁, mmsize_or smallSize]
  have tableEq : h.regions = (s.fill []).map (bounds g) := inv.bounds
  have elsewhere : ∀ r ∈ s.earlier ++ s.later,
      r.limit g ≤ s.base ∨ s.start g + size + g.allocNode ≤ r.base := by
    intro r inside
    have member : r.bounds g ∈ h.regions := by
      rw [tableEq]
      exact mem_map_of_mem (Inv.region_mem inside)
    have old := inv.region_apart inside
    have differs : r.bounds g ≠ ⟨s.base, s.start g⟩ := by
      intro same
      have ends : r.heapend g = s.start g := congrArg Bounds.heapend same
      simp only [limit, heapend, last, total_nil] at old ends
      omega
    have separate := ok.apart _ member differs
    simp only [bounds, heapend] at separate
    omega
  refine ⟨h₁, ?_, ⟨?_, ?_, ?_, ?_, ?_, ?_, inv.logged⟩, ⟨rfl⟩⟩
  · rw [extendTail, ok.present]
    simp only [Option.bind_eq_bind, Option.bind_some, blockend]
    have apart : s.start g ≠ s.start g + size := by omega
    simp only [setSize_chunk, apart, if_true, if_false, mmsize_eq smallSize]
    rfl
  · simp only [h₁]
    rw [tableEq]
    simp [fill, bounds, heapend, startEq, last, Nat.add_assoc]
  · refine forall_fill ?_ ?_
    · intro r away
      have separate := elsewhere r away
      apply inv.tagged_frame (Inv.region_mem away)
      intro x low high
      rw [sizes, precedings, if_neg (by omega), if_neg (by omega), if_neg (by omega)]
      exact ⟨rfl, rfl⟩
    · have stretched := extend_tagged inv last sizes precedings positive
      simpa [last] using stretched
  · refine forall_fill (fun r away => inv.shape r (Inv.region_mem away)) ?_
    refine ⟨shape.aligned, ?_, ?_, ?_⟩
    · intro chunk among
      simp only [last, append_nil, mem_append, mem_cons, not_mem_nil, or_false] at among
      rcases among with old | rfl
      · exact shape.sizes chunk (by simp [old])
      · exact ⟨large, unit_of_minChunk ok.granule⟩
    · simp only [last, total_append, total_cons, total_nil, unit]
      omega
    · simp only [limit, last, total_append, total_cons, total_nil]
      omega
  · have old := inv.apart
    simp only [fill, map_append, map_cons, pairwise_append,
      pairwise_cons, mem_cons, mem_map] at old ⊢
    refine ⟨old.1, ⟨?_, old.2.1.2⟩, ?_⟩
    · rintro span ⟨r, late, rfl⟩
      have separate := elsewhere r (by simp [late])
      simp only [Apart, Region.span, Region.limit, last, total_append, total_cons,
        total_nil] at separate ⊢
      omega
    · rintro span ⟨r, early, rfl⟩ other (rfl | late)
      · have separate := elsewhere r (by simp [early])
        simp only [Apart, Region.span, Region.limit, last, total_append, total_cons,
          total_nil] at separate ⊢
        omega
      · exact old.2.2 _ ⟨r, early, rfl⟩ _ (Or.inr late)
  · apply inv.list.congr_size
    intro node inside
    cases node with
    | head index => simp [h₁]
    | chunk a =>
      obtain ⟨⟨chunk, placed, free⟩, _⟩ := (inv.listed a).mp inside
      have differs : a ≠ s.start g ∧ a ≠ s.start g + size := by
        rcases (mem_places _).mp placed with outside | own
        · have away : ∀ r ∈ s.earlier ++ s.later, (a, chunk) ∈ place (r.first g) r.chunks →
              a ≠ s.start g ∧ a ≠ s.start g + size := by
            intro r member own
            have separate := elsewhere r member
            have range := place_bounds own
            simp only [limit, first] at separate range
            omega
          simp only [outer, last, place_nil, append_nil, mem_append] at outside
          rcases outside with (early | front) | late
          · obtain ⟨r, member, own⟩ := mem_flatMap.mp early
            exact away r (by simp [member]) own
          · have range := place_bounds front
            have positive := inv.positive chunk (by simp [range.1])
            simp only at range
            omega
          · obtain ⟨r, member, own⟩ := mem_flatMap.mp late
            exact away r (by simp [member]) own
        · simp at own
      rw [sizes, if_neg differs.2, if_neg differs.1]
  · intro a
    rw [inv.listed a, marked_places, marked_places]
    simp [outer, last]

end Extend

end Chewie.Mm

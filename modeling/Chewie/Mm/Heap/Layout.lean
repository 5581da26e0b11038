import Chewie.Lib.Tags
import Chewie.Mm.Heap.FreeList

/-!
# The layout of a heap

A heap is a list of regions, each cut into chunks between two guard headers. `Inv` relates
a heap state to a layout and to the nodes of its free list. While a function runs, some free
chunks are off the list; their addresses are the pending ones, and a heap between two calls
has none. The functions of the source are sequences of three kinds of edits, each with one
rule: taking a chunk off the list (`Inv.unlink`), putting one on it (`Inv.addfreechunk`), and
rewriting the headers of some consecutive chunks (`Inv.splice`).
-/

namespace Chewie.Mm

open Tags Word List Mm.Geometry

open Tags (Chunk total carry place Tagged Positive Marked)

/-- Chunk sizes are multiples of two headers. -/
def Geometry.unit (g : Geometry) : Nat := 2 * g.allocNode

section Words

variable {g : Geometry} {left right magnitude other : Nat} {flag : Bool}

theorem Geometry.add_eq (fits : left + right < 2 ^ g.wordBits) : g.add left right = left + right :=
  add_of_lt fits

theorem Geometry.sub_eq (ordered : right ≤ left) (fits : left < 2 ^ g.wordBits) :
    g.sub left right = left - right :=
  sub_of_le ordered fits

theorem Geometry.mmsize_eq (small : magnitude < 2 ^ g.allocShift) :
    g.mmsize magnitude = magnitude := by
  apply wrap_of_lt
  omega

theorem Geometry.mmsize_tag (small : magnitude < 2 ^ g.allocShift) :
    g.mmsize (tag g.allocShift magnitude flag) = tag g.allocShift magnitude flag :=
  wrap_of_lt (tag_lt small)

theorem tag_false (bit magnitude : Nat) : tag bit magnitude false = magnitude := by
  simp [tag]

section

variable (small : magnitude < 2 ^ g.allocShift)

include small

theorem Geometry.allocated_tag : g.allocated (tag g.allocShift magnitude flag) = flag := by
  rw [allocated, allocBit, tag_and small]
  cases flag with
  | false => simp
  | true => simp

theorem Geometry.clearAlloc_tag : g.clearAlloc (tag g.allocShift magnitude flag) = magnitude :=
  tag_andNot small

theorem Geometry.keepAlloc_tag (otherSmall : other < 2 ^ g.allocShift) :
    g.keepAlloc magnitude (tag g.allocShift other flag) = tag g.allocShift magnitude flag := by
  rw [keepAlloc, allocBit, or_tag_and small otherSmall, mmsize_tag small]

theorem Geometry.mmsize_or_tag :
    g.mmsize (tag g.allocShift magnitude flag ||| g.allocBit) =
      tag g.allocShift magnitude true := by
  rw [allocBit, tag_or small, mmsize_tag small]

theorem Geometry.mmsize_or :
    g.mmsize (magnitude ||| g.allocBit) = tag g.allocShift magnitude true := by
  have flagged := @mmsize_or_tag g magnitude false small
  exact flagged

end

theorem Geometry.bit_lt_word (g : Geometry) : 2 * 2 ^ g.allocShift ≤ 2 ^ g.wordBits := by
  have wider := Nat.pow_le_pow_right (show 0 < 2 by decide) (Nat.succ_le_of_lt g.allocShift_lt)
  omega

theorem Geometry.freeNode_pos (g : Geometry) : 0 < g.freeNode := by
  have positive := g.allocNode_pos
  unfold freeNode
  omega

end Words

/-- One region: the address of its first guard and the chunks between the guards. -/
structure Region where
  base : Nat
  chunks : List Chunk
deriving DecidableEq

namespace Region

variable (g : Geometry) (r : Region)

/-- A guard: a header that is always marked allocated. -/
def guard : Chunk := ⟨g.allocNode, true⟩

/-- The chunks of a region with both guards. -/
def full : List Chunk := guard g :: (r.chunks ++ [guard g])

/-- The address of the first chunk behind the guard. -/
def first : Nat := r.base + g.allocNode

/-- `mm_heapend`, the address of the last guard. -/
def heapend : Nat := r.base + g.allocNode + total r.chunks

/-- The first address behind the region. -/
def limit : Nat := r.base + g.allocNode + total r.chunks + g.allocNode

/-- The two guard addresses. -/
def bounds : Bounds := ⟨r.base, r.heapend g⟩

/-- The addresses the region occupies. -/
def span : Nat × Nat := (r.base, r.limit g)

/-- What is true of the chunks of every region. -/
structure Shape : Prop where
  aligned : g.minChunk ∣ r.base
  sizes : ∀ chunk ∈ r.chunks, g.freeNode ≤ chunk.size ∧ g.unit ∣ chunk.size
  small : total r.chunks + g.unit < 2 ^ g.allocShift
  fits : r.limit g < 2 ^ g.wordBits

end Region

open Region

/-- The chunks of all regions with their addresses, guards left out. -/
def places (g : Geometry) (layout : List Region) : List (Nat × Chunk) :=
  layout.flatMap fun r => place (r.first g) r.chunks

/-- Two occupied ranges do not overlap. -/
def Apart (left right : Nat × Nat) : Prop := left.2 ≤ right.1 ∨ right.2 ≤ left.1

/-- The heap has this layout, its free list visits these nodes, and the free chunks at the
pending addresses are not on the list. -/
structure Inv (g : Geometry) (h : Heap) (layout : List Region) (nodes : List Node)
    (pending : List Nat) : Prop where
  bounds : h.regions = layout.map (Region.bounds g)
  tagged : ∀ r ∈ layout, Tagged g.allocShift (fun a => h.size (.chunk a))
    (fun a => h.preceding (.chunk a)) r.base 0 (r.full g)
  shape : ∀ r ∈ layout, r.Shape g
  apart : (layout.map (Region.span g)).Pairwise Apart
  list : FreeList g h.size h.flink h.blink nodes
  /-- The chunks on the free list are the free chunks that are not pending. -/
  listed : ∀ a, .chunk a ∈ nodes ↔ Marked false (places g layout) a ∧ a ∉ pending
  logged : ∀ size ∈ h.inserted, g.freeNode ≤ size

/-- A heap between two calls. -/
def WellFormed (g : Geometry) (h : Heap) : Prop := ∃ layout nodes, Inv g h layout nodes []

/-- A place in a layout: a run of chunks in one region is replaced, the rest stays. -/
structure Spot where
  earlier : List Region
  base : Nat
  before : List Chunk
  after : List Chunk
  later : List Region

open Spot

namespace Spot

variable (g : Geometry) (s : Spot)

/-- The layout with the given run of chunks. -/
def fill (middle : List Chunk) : List Region :=
  s.earlier ++ ⟨s.base, s.before ++ middle ++ s.after⟩ :: s.later

/-- Address of the first chunk of the run. -/
def start : Nat := s.base + g.allocNode + total s.before

/-- Size of the chunk or guard in front of the run. -/
def lead : Nat := carry g.allocNode s.before

/-- In-use flag of the chunk or guard in front of the run. -/
def leadUsed : Bool := (s.before.getLast?.map Chunk.used).getD true

/-- The chunk or guard behind the run. -/
def next : Chunk := s.after.headD (Region.guard g)

/-- The chunks outside the run, when the run covers `length` bytes. -/
def outer (length : Nat) : List (Nat × Chunk) :=
  places g s.earlier ++ place (s.base + g.allocNode) s.before ++
    place (s.start g + length) s.after ++ places g s.later

variable {g s} {middle middle' : List Chunk}

theorem mem_places (entry : Nat × Chunk) :
    entry ∈ places g (s.fill middle) ↔
      entry ∈ s.outer g (total middle) ∨ entry ∈ place (s.start g) middle := by
  simp only [places, fill, outer, start, first, flatMap_append, flatMap_cons,
    place_append, total_append, mem_append, Nat.add_assoc]
  tauto

theorem marked_places (flag : Bool) (a : Nat) :
    Marked flag (places g (s.fill middle)) a ↔
      Marked flag (s.outer g (total middle)) a ∨ Marked flag (place (s.start g) middle) a := by
  simp only [Marked, mem_places, or_and_right, exists_or]

theorem bounds_fill (same : total middle' = total middle) :
    (s.fill middle').map (bounds g) = (s.fill middle).map (bounds g) := by
  simp [fill, bounds, heapend, same]

theorem span_fill (same : total middle' = total middle) :
    (s.fill middle').map (Region.span g) = (s.fill middle).map (Region.span g) := by
  simp [fill, Region.span, Region.limit, same]

theorem lead_le : s.lead g ≤ g.allocNode + total s.before := carry_le _ _

theorem forall_fill {p : Region → Prop} (others : ∀ r ∈ s.earlier ++ s.later, p r)
    (own : p ⟨s.base, s.before ++ middle ++ s.after⟩) : ∀ r ∈ s.fill middle, p r := by
  intro r inside
  simp only [fill, mem_append, mem_cons] at inside
  rcases inside with early | rfl | late
  · exact others r (by simp [early])
  · exact own
  · exact others r (by simp [late])

theorem of_place {layout : List Region} {a : Nat} {chunk : Chunk}
    (placed : (a, chunk) ∈ places g layout) :
    ∃ s : Spot, layout = s.fill [chunk] ∧ a = s.start g := by
  obtain ⟨r, inside, own⟩ := mem_flatMap.mp placed
  obtain ⟨earlier, later, split⟩ := append_of_mem inside
  obtain ⟨front, back, chunks, address⟩ := place_split own
  refine ⟨⟨earlier, r.base, front, back, later⟩, ?_, ?_⟩
  · rw [split, fill]
    simp [← chunks]
  · simpa [start, Region.first] using address

end Spot

namespace Inv

variable {g : Geometry} {h h' : Heap} {layout : List Region} {nodes : List Node}
variable {pending pending' : List Nat} {s : Spot} {middle middle' : List Chunk}

section

variable (inv : Inv g h (s.fill middle) nodes pending)

include inv

theorem region_shape : Shape g ⟨s.base, s.before ++ middle ++ s.after⟩ :=
  inv.shape _ (by simp [fill])

theorem sizes : ∀ chunk ∈ middle, g.freeNode ≤ chunk.size ∧ g.unit ∣ chunk.size := by
  intro chunk inside
  exact inv.region_shape.sizes chunk (by simp [inside])

theorem positive : Positive (s.before ++ middle ++ s.after) := by
  intro chunk inside
  have large := (inv.region_shape.sizes chunk inside).1
  have least := g.freeNode_pos
  omega

theorem small :
    total s.before + total middle + total s.after + 2 * g.allocNode < 2 ^ g.allocShift := by
  have bound := inv.region_shape.small
  simp only [unit, total_append] at bound
  exact bound

theorem fits : s.start g + total middle + total s.after + g.allocNode < 2 ^ g.wordBits := by
  have bound := inv.region_shape.fits
  simp only [limit, total_append] at bound
  unfold start
  omega

theorem lead_small : s.lead g < 2 ^ g.allocShift := by
  have lead := @lead_le g s
  have small := inv.small
  omega

theorem tagged_spot :
    Tagged g.allocShift (fun a => h.size (.chunk a)) (fun a => h.preceding (.chunk a)) s.base 0
      ((guard g :: s.before) ++ middle ++ (s.after ++ [guard g])) := by
  have tags := inv.tagged ⟨s.base, s.before ++ middle ++ s.after⟩ (by simp [fill])
  simpa [full] using tags

end

theorem start_eq (g : Geometry) (s : Spot) :
    s.base + total (Region.guard g :: s.before) = s.start g := by
  simp [start, Region.guard, Nat.add_assoc]

theorem next_cons (g : Geometry) (s : Spot) :
    ∃ rest, s.after ++ [guard g] = s.next g :: rest ∧ rest = (s.after ++ [guard g]).tail := by
  unfold Spot.next
  cases s.after with
  | nil => exact ⟨[], rfl, rfl⟩
  | cons chunk rest => exact ⟨rest ++ [guard g], rfl, rfl⟩

theorem header {front back : List Chunk} {chunk : Chunk}
    (inv : Inv g h (s.fill (front ++ chunk :: back)) nodes pending) :
    h.size (.chunk (s.start g + total front)) = chunk.size ∧
      h.preceding (.chunk (s.start g + total front)) =
        tag g.allocShift (carry (s.lead g) front) chunk.used := by
  have tags := inv.tagged_spot
  rw [show (guard g :: s.before) ++ (front ++ chunk :: back) ++
      (s.after ++ [guard g]) = ((guard g :: s.before) ++ front) ++
        chunk :: (back ++ (s.after ++ [guard g])) by simp] at tags
  have fields := tagged_at tags
  rw [total_append, ← Nat.add_assoc, start_eq, carry_append] at fields
  exact fields

section

variable (inv : Inv g h (s.fill middle) nodes pending)

include inv

theorem next_header :
    h.size (.chunk (s.start g + total middle)) = (s.next g).size ∧
      h.preceding (.chunk (s.start g + total middle)) =
        tag g.allocShift (carry (s.lead g) middle) (s.next g).used := by
  have tags := inv.tagged_spot
  obtain ⟨rest, split, _⟩ := next_cons g s
  rw [split] at tags
  have fields := tagged_at tags
  rw [total_append, ← Nat.add_assoc, start_eq, carry_append] at fields
  exact fields

/-- The header of the chunk or guard in front of the run. -/
theorem lead_header :
    s.lead g ≤ s.start g ∧ h.size (.chunk (s.start g - s.lead g)) = s.lead g ∧
      ∃ magnitude, magnitude < 2 ^ g.allocShift ∧
        h.preceding (.chunk (s.start g - s.lead g)) = tag g.allocShift magnitude s.leadUsed := by
  have tags := inv.tagged_spot
  have bound := inv.small
  rcases eq_nil_or_concat s.before with empty | ⟨others, last, split⟩
  · have fields := tags
    refine ⟨?_, ?_, 0, Nat.two_pow_pos _, ?_⟩
    · simp only [lead, start, empty, carry_nil, total_nil]
      omega
    · simpa [lead, start, empty, Region.guard] using fields.1
    · simpa [lead, start, leadUsed, empty, Region.guard] using fields.2.1
  · rw [split, concat_eq_append] at tags bound
    rw [show Region.guard g :: (others ++ [last]) ++ middle ++ (s.after ++ [Region.guard g]) =
      (guard g :: others) ++ last :: (middle ++ (s.after ++ [guard g])) by
        simp] at tags
    have fields := tagged_at tags
    simp only [total_cons, Region.guard, carry_cons, ← Nat.add_assoc] at fields
    have startEq : s.start g = s.base + g.allocNode + total others + last.size := by
      simp [start, split, Nat.add_assoc]
    have leadEq : s.lead g = last.size := by
      simp [lead, split]
    have usedEq : s.leadUsed = last.used := by
      simp [leadUsed, split]
    have back : s.start g - s.lead g = s.base + g.allocNode + total others := by omega
    rw [back, leadEq, usedEq]
    refine ⟨by omega, fields.1, carry g.allocNode others, ?_, fields.2⟩
    have least := @lead_le g ⟨s.earlier, s.base, others, s.after, s.later⟩
    simp only [lead] at least
    simp only [total_append, total_cons, total_nil] at bound
    omega

theorem region_apart {r : Region} (inside : r ∈ s.earlier ++ s.later) :
    r.limit g ≤ s.base ∨ s.start g + total middle + total s.after + g.allocNode ≤ r.base := by
  have apart := inv.apart
  simp only [fill, map_append, map_cons, pairwise_append, pairwise_cons, mem_cons, mem_map] at apart
  have separate : Apart (r.span g) (span g ⟨s.base, s.before ++ middle ++ s.after⟩) ∨
      Apart (span g ⟨s.base, s.before ++ middle ++ s.after⟩) (r.span g) := by
    rcases mem_append.mp inside with early | late
    · exact Or.inl (apart.2.2 _ ⟨r, early, rfl⟩ _ (Or.inl rfl))
    · exact Or.inr (apart.2.1.1 _ ⟨r, late, rfl⟩)
  simp only [Apart, Region.span, Region.limit, total_append] at separate
  unfold start Region.limit
  omega

end

theorem region_mem {r : Region} (inside : r ∈ s.earlier ++ s.later) : r ∈ s.fill middle := by
  rcases mem_append.mp inside with early | late
  · simp [fill, early]
  · simp [fill, late]

section

variable (inv : Inv g h (s.fill middle) nodes pending)

include inv

theorem next_isFree : h.isFree g (.chunk (s.start g + total middle)) = !(s.next g).used := by
  have carried := carry_le (s.lead g) middle
  have lead := @lead_le g s
  have small := inv.small
  rw [Heap.isFree, inv.next_header.2, allocated_tag (by omega)]

theorem lead_isFree : h.isFree g (.chunk (s.start g - s.lead g)) = !s.leadUsed := by
  obtain ⟨_, _, magnitude, small, field⟩ := inv.lead_header
  rw [Heap.isFree, field, allocated_tag small]

theorem outer_outside {entry : Nat × Chunk} (outside : entry ∈ s.outer g (total middle)) :
    entry.1 + entry.2.size ≤ s.start g ∨ s.start g + total middle ≤ entry.1 := by
  have elsewhere : ∀ r ∈ s.earlier ++ s.later, ∀ entry ∈ place (r.first g) r.chunks,
      entry.1 + entry.2.size ≤ s.start g ∨ s.start g + total middle ≤ entry.1 := by
    intro r inside entry placed
    have own := place_bounds placed
    have separate := inv.region_apart inside
    simp only [limit, first, start] at separate own ⊢
    omega
  simp only [outer, mem_append] at outside
  rcases outside with ((early | inBefore) | inAfter) | late
  · obtain ⟨r, inside, placed⟩ := mem_flatMap.mp early
    exact elsewhere r (by simp [inside]) entry placed
  · exact Or.inl (place_bounds inBefore).2.2
  · exact Or.inr (place_bounds inAfter).2.1
  · obtain ⟨r, inside, placed⟩ := mem_flatMap.mp late
    exact elsewhere r (by simp [inside]) entry placed

end

theorem place_fits (inv : Inv g h layout nodes pending) {entry : Nat × Chunk}
    (placed : entry ∈ places g layout) : entry.1 < 2 ^ g.wordBits ∧ g.freeNode ≤ entry.2.size := by
  obtain ⟨r, inside, own⟩ := mem_flatMap.mp placed
  have shape := inv.shape r inside
  have range := place_bounds own
  have fits := shape.fits
  have size := (shape.sizes _ range.1).1
  simp only [limit, first] at fits range
  constructor <;> omega

theorem place_header (inv : Inv g h layout nodes pending) {entry : Nat × Chunk}
    (placed : entry ∈ places g layout) :
    h.size (.chunk entry.1) = entry.2.size ∧
      g.allocated (h.preceding (.chunk entry.1)) = entry.2.used := by
  obtain ⟨s, rfl, start⟩ := of_place placed
  have fields := @Inv.header g h nodes pending s [] [] entry.2 inv
  have lead := @lead_le g s
  have bound := inv.small
  simp only [total_nil, Nat.add_zero, carry_nil, ← start] at fields
  refine ⟨fields.1, ?_⟩
  have smallLead : s.lead g < 2 ^ g.allocShift := by omega
  rw [fields.2, allocated_tag smallLead]

end Inv

end Chewie.Mm

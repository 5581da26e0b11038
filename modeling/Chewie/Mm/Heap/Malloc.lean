import Chewie.Mm.Heap.Edit

/-!
# Allocation

`mm_malloc` finds the smallest free chunk that is large enough, cuts the request off its
front, and puts the remainder back on the free list. The specification says which layout it
leaves: the found chunk is replaced by `cut`, and every other chunk stays.
-/

namespace Chewie.Mm

open Mm.Geometry Tags Heap List Option Word Spot

open Tags (Chunk total carry place)

section Rounding

variable {g : Geometry} {value : Nat}

theorem Geometry.minChunk_lt (g : Geometry) : g.minChunk < 2 ^ g.allocShift :=
  Nat.pow_lt_pow_right (by decide) g.minShift_lt

theorem Geometry.minChunk_pos (g : Geometry) : 0 < g.minChunk := Nat.two_pow_pos _

theorem Geometry.minShift_le (g : Geometry) : g.minShift ≤ g.wordBits :=
  Nat.le_trans (Nat.le_of_lt g.minShift_lt) (Nat.le_of_lt g.allocShift_lt)

theorem Geometry.alignUp_eq (g : Geometry) (value : Nat) :
    g.alignUp value = g.add value g.granMask / g.minChunk * g.minChunk := by
  exact andNot_low g.minShift g.minShift_le (add_lt _ _ _)

theorem Geometry.alignUp_dvd (g : Geometry) (value : Nat) : g.minChunk ∣ g.alignUp value := by
  rw [alignUp_eq]
  exact Nat.dvd_mul_left _ _

theorem Geometry.unit_of_minChunk (divides : g.minChunk ∣ value) : g.unit ∣ value :=
  Nat.dvd_trans g.unit_dvd divides

theorem Geometry.freeNode_le_of_minChunk (divides : g.minChunk ∣ value) (nonzero : value ≠ 0) :
    g.freeNode ≤ value :=
  Nat.le_trans g.freeNode_le (Nat.le_of_dvd (Nat.pos_of_ne_zero nonzero) divides)

theorem Geometry.alignUp_bounds (fits : value + g.granMask < 2 ^ g.wordBits) :
    value ≤ g.alignUp value ∧ g.alignUp value < value + g.minChunk := by
  have positive := g.minChunk_pos
  have split := Nat.div_add_mod (value + g.granMask) g.minChunk
  have small := Nat.mod_lt (value + g.granMask) positive
  rw [alignUp_eq, add_eq fits, Nat.mul_comm]
  unfold Geometry.granMask at *
  omega

end Rounding

theorem Spot.place_mem {g : Geometry} {s : Spot} {front back : List Chunk} {chunk : Chunk} :
    (s.start g + total front, chunk) ∈ places g (s.fill (front ++ chunk :: back)) :=
  (mem_places _).mpr (Or.inr (Tags.place_mem _ _ _ _))

/-- A run of one chunk: its headers, its place and the room around it. -/
structure One (g : Geometry) (h : Heap) (s : Spot) (size : Nat) (flag : Bool) : Prop where
  own : h.size (.chunk (s.start g)) = size
  preceding : h.preceding (.chunk (s.start g)) = Word.tag g.allocShift (s.lead g) flag
  next : h.preceding (.chunk (s.start g + size)) = Word.tag g.allocShift size (s.next g).used
  isFree : h.isFree g (.chunk (s.start g + size)) = !(s.next g).used
  placed : (s.start g, ⟨size, flag⟩) ∈ places g (s.fill [⟨size, flag⟩])
  sizes : g.freeNode ≤ size ∧ g.unit ∣ size
  lead : s.lead g < 2 ^ g.allocShift
  bounds : total s.before + size + total s.after + 2 * g.allocNode < 2 ^ g.allocShift ∧
    s.start g + size + total s.after + g.allocNode < 2 ^ g.wordBits ∧
    2 * 2 ^ g.allocShift ≤ 2 ^ g.wordBits ∧ 0 < g.allocNode ∧ g.allocNode ≤ g.freeNode

theorem One.behind {g : Geometry} {h : Heap} {s : Spot} {size : Nat} {flag : Bool}
    (one : One g h s size flag) :
    h.after g (.chunk (s.start g)) (h.size (.chunk (s.start g))) = .chunk (s.start g + size) := by
  have bounds := one.bounds
  rw [one.own, after_chunk _ (by omega)]

structure Two (g : Geometry) (h : Heap) (s : Spot) (front back : Nat) (used used' : Bool) :
    Prop where
  own : h.size (.chunk (s.start g)) = front
  preceding : h.preceding (.chunk (s.start g)) = Word.tag g.allocShift (s.lead g) used
  other : h.size (.chunk (s.start g + front)) = back
  next : h.preceding (.chunk (s.start g + front + back)) =
    Word.tag g.allocShift back (s.next g).used
  placed : (s.start g, ⟨front, used⟩) ∈ places g (s.fill [⟨front, used⟩, ⟨back, used'⟩]) ∧
    (s.start g + front, ⟨back, used'⟩) ∈ places g (s.fill [⟨front, used⟩, ⟨back, used'⟩])
  large : g.freeNode ≤ front ∧ g.freeNode ≤ back
  unit : g.unit ∣ front ∧ g.unit ∣ back
  lead : s.lead g < 2 ^ g.allocShift
  bounds : total s.before + (front + back) + total s.after + 2 * g.allocNode < 2 ^ g.allocShift ∧
    s.start g + (front + back) + total s.after + g.allocNode < 2 ^ g.wordBits ∧
    2 * 2 ^ g.allocShift ≤ 2 ^ g.wordBits ∧ 0 < g.allocNode ∧ g.allocNode ≤ g.freeNode

section Runs

variable {g : Geometry} {h : Heap} {s : Spot} {nodes : List Node} {pending : List Nat}

theorem Inv.one {size : Nat} {flag : Bool}
    (inv : Inv g h (s.fill [⟨size, flag⟩]) nodes pending) : One g h s size flag := by
  have field := @Inv.header g h nodes _ s [] [] ⟨size, flag⟩ inv
  have next := inv.next_header.2
  have isFree := inv.next_isFree
  have placed := @place_mem g s [] [] ⟨size, flag⟩
  have small := inv.small
  have fits := inv.fits
  exact ⟨field.1, field.2, next, isFree, placed, inv.sizes ⟨size, flag⟩ (by simp), inv.lead_small,
    small, fits, g.bit_lt_word, g.allocNode_pos, Nat.le_add_right _ _⟩

theorem Inv.two {front back : Nat} {used used' : Bool}
    (inv : Inv g h (s.fill [⟨front, used⟩, ⟨back, used'⟩]) nodes pending) :
    Two g h s front back used used' := by
  have field := @Inv.header g h nodes _ s [] [⟨back, used'⟩] ⟨front, used⟩ inv
  have other := (@Inv.header g h nodes _ s [⟨front, used⟩] [] ⟨back, used'⟩ inv).1
  have next := inv.next_header.2
  have placed := @place_mem g s [] [⟨back, used'⟩] ⟨front, used⟩
  have behind := @place_mem g s [⟨front, used⟩] [] ⟨back, used'⟩
  have sizes : g.freeNode ≤ front ∧ g.unit ∣ front := inv.sizes ⟨front, used⟩ (by simp)
  have rest : g.freeNode ≤ back ∧ g.unit ∣ back := inv.sizes ⟨back, used'⟩ (by simp)
  have small := inv.small
  have fits := inv.fits
  simp only [total_nil, Nat.add_zero, total_cons, carry_nil, carry_cons] at *
  rw [← Nat.add_assoc] at next
  exact ⟨field.1, field.2, other, next, ⟨placed, behind⟩, ⟨sizes.1, rest.1⟩, ⟨sizes.2, rest.2⟩,
    inv.lead_small, small, fits, g.bit_lt_word, g.allocNode_pos, Nat.le_add_right _ _⟩

end Runs

/-- The search of `mm_malloc` finds the smallest chunk on the free list that is large enough. -/
theorem FreeList.search {g : Geometry} {size : Node → Nat} {flink blink : Node → Option Node}
    {nodes : List Node} {want : Nat} (list : FreeList g size flink blink nodes)
    (positive : 0 < want) :
    ∃ passed found,
      Links.seek flink (fun node => !decide (size node < want)) g.fuel
        (.head (g.mmSize2ndx want)) (flink (.head (g.mmSize2ndx want))) = some (passed, found) ∧
      (found = none ∧ (∀ a, .chunk a ∈ nodes → size (.chunk a) < want) ∨
        ∃ a, found = some (.chunk a) ∧ .chunk a ∈ nodes ∧ want ≤ size (.chunk a) ∧
          ∀ b, .chunk b ∈ nodes → want ≤ size (.chunk b) → size (.chunk a) ≤ size (.chunk b)) := by
  have headIn : Node.head (g.mmSize2ndx want) ∈ nodes := (list.heads _).mpr (g.mmSize2ndx_lt _)
  obtain ⟨front, back, split⟩ := append_of_mem headIn
  have linked := list.linked
  have short := list.length_lt
  have sorted := list.sorted
  rw [split, Links.seg_append] at linked
  rw [split, length_append, length_cons] at short
  rw [split, pairwise_append, pairwise_cons] at sorted
  obtain ⟨passed, rest, ahead, skipped, stopped, found⟩ := Links.seek_seg
    (fun node => !decide (size node < want)) back g.fuel (.head (g.mmSize2ndx want)) (by omega)
    linked.2.2.2
  have next : flink (.head (g.mmSize2ndx want)) = back.head? := by simpa using linked.2.2.1
  have frontSmall : ∀ a, .chunk a ∈ front → size (.chunk a) < want := by
    intro a inside
    have order := sorted.2.2 _ inside _ (mem_cons_self ..)
    by_contra large
    have bucket := g.mmSize2ndx_mono (Nat.le_of_not_lt large)
    rcases order with lower | ⟨_, empty⟩
    · simp only [Node.bucket_chunk, Node.bucket_head] at lower
      omega
    · rw [list.headSize _ headIn] at empty
      omega
  have passedSmall : ∀ node ∈ passed, size node < want := by
    intro node inside
    simpa using skipped node inside
  rw [next]
  cases rest with
  | nil =>
    refine ⟨_, _, found, Or.inl ⟨rfl, ?_⟩⟩
    intro a inside
    rw [split, ahead] at inside
    simp only [append_nil, mem_append, mem_cons, reduceCtorEq, false_or] at inside
    rcases inside with early | late
    · exact frontSmall a early
    · exact passedSmall _ late
  | cons node rest =>
    have large : want ≤ size node := by simpa using stopped node rfl
    cases node with
    | head index =>
      have empty := list.headSize index (by rw [split, ahead]; simp)
      omega
    | chunk a =>
      refine ⟨_, _, found, Or.inr ⟨a, rfl, by rw [split, ahead]; simp, large, ?_⟩⟩
      intro b inside fitting
      rw [split, ahead] at inside
      simp only [mem_append, mem_cons, reduceCtorEq, false_or, Node.chunk.injEq] at inside
      rcases inside with early | late | rfl | behind
      · have small := frontSmall b early
        omega
      · have small := passedSmall _ late
        omega
      · exact Nat.le_refl _
      · have order := sorted.2.1.2
        rw [ahead, pairwise_append, pairwise_cons] at order
        rcases order.2.1.1 _ behind with lower | ⟨_, ordered⟩
        · simp only [Node.bucket_chunk] at lower
          by_contra larger
          have bucket := g.mmSize2ndx_mono (Nat.le_of_lt (Nat.lt_of_not_le larger))
          omega
        · exact ordered

/-- What is left of a free chunk after `want` bytes are allocated from its front. -/
def cut (g : Geometry) (want size : Nat) : List Chunk :=
  if g.freeNode ≤ size - want then [⟨want, true⟩, ⟨size - want, false⟩] else [⟨size, true⟩]

theorem total_cut {g : Geometry} {want size : Nat} (fits : want ≤ size) :
    total (cut g want size) = size := by
  unfold cut
  split_ifs with room
  · simp only [total_cons, total_nil]
    omega
  · simp

section Take

variable {g : Geometry} {h : Heap} {s : Spot} {nodes : List Node} {want size : Nat}

theorem Inv.mark_used (inv : Inv g h (s.fill [⟨size, false⟩]) nodes [s.start g]) :
    Inv g (h.setPreceding g (.chunk (s.start g))
        (h.preceding (.chunk (s.start g)) ||| g.allocBit)) (s.fill [⟨size, true⟩]) nodes [] := by
  have one := inv.one
  have next := one.next
  have flagged : g.mmsize (h.preceding (.chunk (s.start g)) ||| g.allocBit) =
      tag g.allocShift (s.lead g) true := by
    rw [one.preceding, mmsize_or_tag one.lead]
  apply inv.edit_one
  · exact ⟨rfl, rfl, rfl, rfl, fun _ => rfl⟩
  · simp
  · exact one.sizes.1
  · exact one.sizes.2
  · simp
  · simp
  · intro x
    rw [setPreceding_size]
    grind [one.own]
  · intro x
    simp only [setPreceding_chunk, flagged, total_cons, total_nil, Nat.add_zero]
    grind

/-- The headers `mm_malloc` writes for the two parts of a chunk. -/
theorem mallocSplit_spec (inv : Inv g h (s.fill [⟨size, false⟩]) nodes [s.start g])
    (fits : want ≤ size) (large : g.freeNode ≤ want) (unit : g.unit ∣ want)
    (room : g.freeNode ≤ size - want) :
    ∃ h' nodes', mallocSplit g h (.chunk (s.start g)) want (size - want) = some h' ∧
      Inv g h' (s.fill [⟨want, false⟩, ⟨size - want, false⟩]) nodes' [s.start g] ∧
      Frame h h' := by
  have one := inv.one
  have field := one.preceding
  have bounds := one.bounds
  have smallWant : want < 2 ^ g.allocShift := by omega
  have smallRest : size - want < 2 ^ g.allocShift := by omega
  rw [mallocSplit, one.own, after_chunk _ (by omega), after_chunk _ (by omega)]
  simp only [setSize_preceding, setPreceding_chunk,
    show s.start g + size ≠ s.start g + want by omega, if_false, one.next]
  rw [keepAlloc_tag (by omega) (by omega)]
  refine inv.carve ⟨⟨rfl, rfl, rfl, rfl, fun _ => by simp⟩, ?_, ?_, ?_, ?_, ?_⟩ ?_ ⟨rfl⟩
  · simp only [total_cons, total_nil]
    omega
  · exact ⟨large, room⟩
  · exact ⟨unit, Nat.dvd_sub one.sizes.2 unit⟩
  · intro x
    simp [mmsize_eq smallWant, mmsize_eq smallRest]
  · intro x
    simp only [setPreceding_chunk, setSize_preceding, mmsize_eq smallWant, mmsize_tag smallRest,
      total_cons, total_nil, Nat.add_zero]
    grind [tag_false]
  · simp

/-- The chunk `mm_malloc` found is replaced by what is left of it. -/
theorem mallocTake_spec (inv : Inv g h (s.fill [⟨size, false⟩]) nodes []) (fits : want ≤ size)
    (large : g.freeNode ≤ want) (unit : g.unit ∣ want) :
    ∃ h' nodes', mallocTake g h (.chunk (s.start g)) want =
        some (h', s.start g + g.allocNode) ∧
      Inv g h' (s.fill (cut g want size)) nodes' [] ∧ Frame h h' := by
  have one := inv.one
  have bounds := one.bounds
  obtain ⟨flink, blink, unlinked, off⟩ := inv.unlink one.placed rfl (by simp)
  have remaining : g.sub (h.size (.chunk (s.start g))) want = size - want := by
    rw [one.own, sub_eq fits (by omega)]
  by_cases room : g.freeNode ≤ size - want
  · obtain ⟨h₂, nodes₂, splitted, mid, frame⟩ := mallocSplit_spec off fits large unit room
    let s' : Spot := ⟨s.earlier, s.base, s.before, ⟨size - want, false⟩ :: s.after, s.later⟩
    have view : ∀ flag, s.fill [⟨want, flag⟩, ⟨size - want, false⟩] = s'.fill [⟨want, flag⟩] := by
      intro flag
      simp [fill, s']
    rw [view] at mid
    have marked := mid.mark_used
    rw [← view] at marked
    refine ⟨h₂.setPreceding g (.chunk (s.start g))
      (h₂.preceding (.chunk (s.start g)) ||| g.allocBit), nodes₂, ?_, ?_,
      ⟨frame.heapsize⟩⟩
    · rw [mallocTake, unlinked]
      simp only [bind_eq_bind, bind_some, remaining, if_pos room, splitted, addr_chunk]
      rw [add_eq (by omega)]
    · rw [cut, if_pos room]
      exact marked
  · have whole : cut g want size = [⟨size, true⟩] := if_neg room
    have marked := off.mark_used
    rw [← whole] at marked
    refine ⟨_, _, ?_, marked, ⟨rfl⟩⟩
    rw [mallocTake, unlinked]
    simp only [bind_eq_bind, bind_some, remaining, if_neg room, addr_chunk]
    rw [add_eq (by omega)]

end Take

/-- The size of the chunk `mm_malloc` looks for. -/
def chunkSize (g : Geometry) (request : Nat) : Nat := g.alignUp (g.add request g.allocNode)

/-- A smallest free chunk that is large enough is cut. -/
structure Allocates (g : Geometry) (want : Nat) (s : Spot) (size : Nat) (layout : List Region) :
    Prop where
  found : layout = s.fill [⟨size, false⟩]
  fits : want ≤ size
  smallest : ∀ a chunk, (a, chunk) ∈ places g layout → chunk.used = false → want ≤ chunk.size →
    size ≤ chunk.size

section Malloc

variable {g : Geometry} {h : Heap} {layout : List Region} {nodes : List Node}

theorem Inv.listed_place (inv : Inv g h layout nodes []) {a : Nat} (inside : .chunk a ∈ nodes) :
    (a, ⟨h.size (.chunk a), false⟩) ∈ places g layout := by
  obtain ⟨⟨chunk, placed, free⟩, _⟩ := (inv.listed a).mp inside
  have size := (inv.place_header placed).1
  rw [size, ← free]
  exact placed

theorem Inv.place_listed (inv : Inv g h layout nodes []) {a : Nat} {chunk : Chunk}
    (placed : (a, chunk) ∈ places g layout) (free : chunk.used = false) :
    .chunk a ∈ nodes ∧ h.size (.chunk a) = chunk.size :=
  ⟨(inv.listed a).mpr ⟨⟨chunk, placed, free⟩, by simp⟩, (inv.place_header placed).1⟩

/-- `mm_malloc` fails when no free chunk is large enough, and otherwise cuts a smallest one that
is. The only assumption is that rounding does not wrap the request to zero. -/
theorem mmMalloc_spec (inv : Inv g h layout nodes []) {request : Nat} (positive : 0 < request)
    (nonzero : chunkSize g request ≠ 0) :
    (mmMalloc g h request = some (h, 0) ∧ ∀ a chunk, (a, chunk) ∈ places g layout →
        chunk.used = false → chunk.size < chunkSize g request) ∨
      ∃ s size h' nodes', Allocates g (chunkSize g request) s size layout ∧
        mmMalloc g h request = some (h', s.start g + g.allocNode) ∧
        Inv g h' (s.fill (cut g (chunkSize g request) size)) nodes' [] ∧ Frame h h' := by
  have divides := g.alignUp_dvd (g.add request g.allocNode)
  obtain ⟨passed, found, search, outcome⟩ := inv.list.search (Nat.pos_of_ne_zero nonzero)
  have unfolded : mmMalloc g h request = found.elim (some (h, 0))
      (fun node => mallocTake g h node (chunkSize g request)) := by
    rw [mmMalloc, if_neg (by omega)]
    simp only [mmSize2ndx_start]
    change (Links.seek h.flink (fun node => !decide (h.size node < chunkSize g request)) g.fuel
      (.head (g.mmSize2ndx (chunkSize g request)))
      (h.flink (.head (g.mmSize2ndx (chunkSize g request))))).bind _ = _
    rw [search]
    cases found <;> rfl
  rw [unfolded]
  rcases outcome with ⟨rfl, none⟩ | ⟨a, rfl, inside, large, smallest⟩
  · refine Or.inl ⟨rfl, ?_⟩
    intro a chunk placed free
    have listed := inv.place_listed placed free
    rw [← listed.2]
    exact none a listed.1
  · obtain ⟨s, filled, rfl⟩ := of_place (inv.listed_place inside)
    have allocates : Allocates g (chunkSize g request) s (h.size (.chunk (s.start g))) layout := by
      refine ⟨filled, large, ?_⟩
      intro b chunk placed free fits
      have listed := inv.place_listed placed free
      rw [← listed.2] at fits ⊢
      exact smallest b listed.1 fits
    rw [filled] at inv
    obtain ⟨h', nodes', taken, final, frame⟩ := mallocTake_spec inv large
      (freeNode_le_of_minChunk divides nonzero) (unit_of_minChunk divides)
    exact Or.inr ⟨s, _, h', nodes', allocates, taken, final, frame⟩

end Malloc

end Chewie.Mm

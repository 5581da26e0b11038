import Chewie.Mm.Heap.Layout

/-!
# The three edits

Everything `mm_heap` does to a heap is a sequence of unlinking a chunk, inserting a chunk, and
rewriting the headers of consecutive chunks. Each edit has one rule about `Inv`; the functions
of the source are then proved by chaining the rules along the layout they build.
-/

namespace Chewie.Mm

open Tags List Word Heap Region Spot

open Tags (Chunk total carry place Tagged Positive Marked)

section Fields

variable (g : Geometry) (h : Heap) (value : Nat)

@[simp] theorem Heap.setSize_chunk (a x : Nat) :
    (h.setSize g (.chunk a) value).size (.chunk x) =
      if x = a then g.mmsize value else h.size (.chunk x) := by
  simp [setSize, Function.update_apply]

@[simp] theorem Heap.setSize_head (a index : Nat) :
    (h.setSize g (.chunk a) value).size (.head index) = h.size (.head index) := by
  simp [setSize]

@[simp] theorem Heap.setSize_preceding (node : Node) :
    (h.setSize g node value).preceding = h.preceding := rfl

@[simp] theorem Heap.setPreceding_chunk (a x : Nat) :
    (h.setPreceding g (.chunk a) value).preceding (.chunk x) =
      if x = a then g.mmsize value else h.preceding (.chunk x) := by
  simp [setPreceding, Function.update_apply]

@[simp] theorem Heap.setPreceding_size (node : Node) :
    (h.setPreceding g node value).size = h.size := rfl

@[simp] theorem Heap.addr_chunk (address : Nat) : h.addr g (.chunk address) = address := rfl

theorem Heap.after_chunk {g : Geometry} {address offset : Nat}
    (fits : address + offset < 2 ^ g.wordBits) :
    h.after g (.chunk address) offset = .chunk (address + offset) := by
  rw [after, addr_chunk, Geometry.add_eq fits]

theorem Heap.ahead_chunk {g : Geometry} {address offset : Nat} (ordered : offset ≤ address)
    (fits : address < 2 ^ g.wordBits) :
    h.ahead g (.chunk address) offset = .chunk (address - offset) := by
  rw [ahead, addr_chunk, Geometry.sub_eq ordered fits]

end Fields

/-- The fields a header edit does not touch. -/
structure Untouched (h h' : Heap) : Prop where
  regions : h'.regions = h.regions
  flink : h'.flink = h.flink
  blink : h'.blink = h.blink
  inserted : h'.inserted = h.inserted
  heads : ∀ index, h'.size (.head index) = h.size (.head index)

/-- The headers of a run are rewritten to describe other chunks of the same total size, and
nothing else about the heap changes. -/
structure Edited (g : Geometry) (s : Spot) (middle middle' : List Chunk) (h h' : Heap) : Prop where
  rest : Untouched h h'
  same : total middle' = total middle
  outside : ∀ x, x < s.start g ∨ s.start g + total middle < x →
    h'.size (.chunk x) = h.size (.chunk x) ∧ h'.preceding (.chunk x) = h.preceding (.chunk x)
  inside : Tagged g.allocShift (fun a => h'.size (.chunk a)) (fun a => h'.preceding (.chunk a))
    (s.start g) (s.lead g) middle'
  nextSize : h'.size (.chunk (s.start g + total middle)) = (s.next g).size
  nextPreceding : h'.preceding (.chunk (s.start g + total middle)) =
    Word.tag g.allocShift (carry (s.lead g) middle') (s.next g).used

/-- The headers of a run are rewritten to describe two chunks. -/
structure Cut (g : Geometry) (s : Spot) (middle : List Chunk) (first second : Chunk)
    (h h' : Heap) : Prop where
  rest : Untouched h h'
  same : first.size + second.size = total middle
  large : g.freeNode ≤ first.size ∧ g.freeNode ≤ second.size
  unit : g.unit ∣ first.size ∧ g.unit ∣ second.size
  sizes : ∀ x, h'.size (.chunk x) = if x = s.start g then first.size else if x = s.start g +
    first.size then second.size else h.size (.chunk x)
  precedings : ∀ x, h'.preceding (.chunk x) = if x = s.start g then Word.tag g.allocShift (s.lead
    g) first.used else if x = s.start g + first.size then Word.tag g.allocShift first.size
    second.used else if x = s.start g + total middle then Word.tag g.allocShift second.size
    (s.next g).used else h.preceding (.chunk x)

/-- The size of the heap does not change. -/
structure Frame (h h' : Heap) : Prop where
  heapsize : h'.heapsize = h.heapsize

theorem Frame.trans {h h' h'' : Heap} (left : Frame h h') (right : Frame h' h'') : Frame h h'' :=
  ⟨right.heapsize.trans left.heapsize⟩

namespace Inv

variable {g : Geometry} {h h' : Heap} {layout : List Region} {nodes : List Node}
variable {pending pending' : List Nat} {s : Spot} {middle middle' : List Chunk}

theorem tagged_frame {r : Region} (inv : Inv g h layout nodes pending) (member : r ∈ layout)
    (same : ∀ x, r.base ≤ x → x < r.limit g → h'.size (.chunk x) = h.size (.chunk x) ∧
      h'.preceding (.chunk x) = h.preceding (.chunk x)) :
    Tagged g.allocShift (fun a => h'.size (.chunk a)) (fun a => h'.preceding (.chunk a)) r.base 0
      (r.full g) := by
  have header := g.allocNode_pos
  have least := g.freeNode_pos
  have positive : Positive (r.full g) := by
    intro chunk among
    simp only [full, mem_cons, mem_append, not_mem_nil, or_false] at among
    rcases among with rfl | own | rfl
    · exact header
    · exact Nat.lt_of_lt_of_le least ((inv.shape r member).sizes chunk own).1
    · exact header
  apply tagged_congr positive (inv.tagged r member)
  intro x low high
  apply same x low
  simp only [Region.full, total_cons, total_append, total_nil, Region.guard] at high
  unfold Region.limit
  omega

/-- The headers of the edited region. -/
theorem splice_tagged (inv : Inv g h (s.fill middle) nodes pending)
    (edit : Edited g s middle middle' h h') :
    Tagged g.allocShift (fun a => h'.size (.chunk a)) (fun a => h'.preceding (.chunk a)) s.base 0
      (full g ⟨s.base, s.before ++ middle' ++ s.after⟩) := by
  have tags := inv.tagged_spot
  obtain ⟨rest, split, tail⟩ := next_cons g s
  rw [split] at tags
  have header := g.allocNode_pos
  have positive := inv.positive
  have frontPositive : Positive (guard g :: s.before) :=
    positive_cons.mpr ⟨header, fun chunk inside => positive chunk (by simp [inside])⟩
  have behindPositive : Positive (s.next g :: rest) := by
    rw [← split, positive_append]
    exact ⟨fun chunk inside => positive chunk (by simp [inside]),
      positive_cons.mpr ⟨header, by simp [Positive]⟩⟩
  obtain ⟨nextPositive, restPositive⟩ := positive_cons.mp behindPositive
  have new : Tagged g.allocShift (fun a => h'.size (.chunk a)) (fun a => h'.preceding (.chunk a))
      s.base 0 ((guard g :: s.before) ++ middle' ++ s.next g :: rest) := by
    apply tagged_splice frontPositive restPositive tags edit.same nextPositive
    · rw [start_eq]
      exact fun x low => edit.outside x (Or.inl low)
    · rw [start_eq]
      exact fun x high => edit.outside x (Or.inr high)
    · rw [start_eq]
      exact edit.inside
    · rw [start_eq]
      exact edit.nextSize
    · rw [start_eq]
      exact edit.nextPreceding
  rw [← split] at new
  simpa [full] using new

theorem splice_shape (inv : Inv g h (s.fill middle) nodes pending)
    (same : total middle' = total middle)
    (sizes : ∀ chunk ∈ middle', g.freeNode ≤ chunk.size ∧ g.unit ∣ chunk.size) :
    Shape g ⟨s.base, s.before ++ middle' ++ s.after⟩ := by
  have old := inv.region_shape
  refine ⟨old.aligned, ?_, ?_, ?_⟩
  · intro chunk inside
    simp only [mem_append] at inside
    rcases inside with (inBefore | inMiddle) | inAfter
    · exact old.sizes chunk (by simp [inBefore])
    · exact sizes chunk inMiddle
    · exact old.sizes chunk (by simp [inAfter])
  · have bound := old.small
    simp only [total_append, same] at bound ⊢
    exact bound
  · have bound := old.fits
    simp only [limit, total_append, same] at bound ⊢
    exact bound

theorem marked_inside {flag : Bool} {a : Nat} {run : List Chunk}
    (sizes : ∀ chunk ∈ run, g.freeNode ≤ chunk.size ∧ g.unit ∣ chunk.size)
    (marked : Marked flag (place (s.start g) run) a) :
    s.start g ≤ a ∧ a < s.start g + total run := by
  obtain ⟨chunk, inside, _⟩ := marked
  have range := place_bounds inside
  have size := (sizes chunk range.1).1
  have least := g.freeNode_pos
  simp only at range
  omega

section

variable (inv : Inv g h (s.fill middle) nodes pending)

include inv

theorem marked_outside {flag : Bool} {a : Nat} (marked : Marked flag (s.outer g (total middle)) a) :
    a < s.start g ∨ s.start g + total middle ≤ a := by
  obtain ⟨chunk, outside, _⟩ := marked
  have apart := inv.outer_outside outside
  have size := (inv.place_fits ((mem_places _).mpr (Or.inl outside))).2
  have least := g.freeNode_pos
  omega

theorem listed_outside (old : ∀ a, a ∈ pending ↔ Marked false (place (s.start g) middle) a)
    (a : Nat) : .chunk a ∈ nodes ↔ Marked false (s.outer g (total middle)) a := by
  rw [inv.listed a, old a, marked_places]
  constructor
  · rintro ⟨outside | inside, notPending⟩
    · exact outside
    · exact absurd inside notPending
  · intro outside
    refine ⟨Or.inl outside, ?_⟩
    intro inside
    have range := marked_inside inv.sizes inside
    have apart := inv.marked_outside outside
    omega

/-- Rewriting the headers of a run whose free chunks are all pending. The free chunks of the new
run are pending afterwards. -/
theorem splice (edit : Edited g s middle middle' h h')
    (sizes : ∀ chunk ∈ middle', g.freeNode ≤ chunk.size ∧ g.unit ∣ chunk.size)
    (old : ∀ a, a ∈ pending ↔ Marked false (place (s.start g) middle) a)
    (new : ∀ a, a ∈ pending' ↔ Marked false (place (s.start g) middle') a) :
    Inv g h' (s.fill middle') nodes pending' := by
  have members := inv.listed_outside old
  refine ⟨?_, ?_, ?_, ?_, ?_, ?_, ?_⟩
  · rw [edit.rest.regions, inv.bounds, bounds_fill edit.same]
  · refine forall_fill ?_ (inv.splice_tagged edit)
    intro r elsewhere
    have apart := inv.region_apart elsewhere
    apply inv.tagged_frame (region_mem elsewhere)
    intro x low high
    apply edit.outside x
    have header := g.allocNode_pos
    unfold start at *
    omega
  · exact forall_fill (fun r elsewhere => inv.shape r (region_mem elsewhere))
      (inv.splice_shape edit.same sizes)
  · rw [span_fill edit.same]
    exact inv.apart
  · rw [edit.rest.flink, edit.rest.blink]
    apply inv.list.congr_size
    intro node inside
    cases node with
    | head index => exact edit.rest.heads index
    | chunk a =>
      have apart := inv.marked_outside ((members a).mp inside)
      by_cases next : a = s.start g + total middle
      · rw [next, edit.nextSize, inv.next_header.1]
      · exact (edit.outside a (by omega)).1
  · intro a
    rw [members a, new a, marked_places, edit.same]
    constructor
    · intro outside
      refine ⟨Or.inl outside, ?_⟩
      intro inside
      have range := marked_inside sizes inside
      have apart := inv.marked_outside outside
      rw [edit.same] at range
      omega
    · rintro ⟨outside | inside, notPending⟩
      · exact outside
      · exact absurd inside notPending
  · rw [edit.rest.inserted]
    exact inv.logged

theorem edit_one {chunk : Chunk} (rest : Untouched h h') (same : chunk.size = total middle)
    (large : g.freeNode ≤ chunk.size) (unit : g.unit ∣ chunk.size)
    (old : ∀ a, a ∈ pending ↔ Marked false (place (s.start g) middle) a)
    (new : ∀ a, a ∈ pending' ↔ Marked false (place (s.start g) [chunk]) a)
    (sizes : ∀ x, h'.size (.chunk x) = if x = s.start g then chunk.size else h.size (.chunk x))
    (precedings : ∀ x, h'.preceding (.chunk x) = if x = s.start g then tag g.allocShift (s.lead
      g) chunk.used else if x = s.start g + total middle then tag g.allocShift chunk.size
      (s.next g).used else h.preceding (.chunk x)) : Inv g h' (s.fill [chunk]) nodes pending' := by
  have least := g.freeNode_pos
  have behind : s.start g + total middle ≠ s.start g := by omega
  have edited : Edited g s middle [chunk] h h' := by
    refine ⟨rest, by simpa using same, ?_, ?_, ?_, ?_⟩
    · intro x outside
      rw [sizes, precedings, if_neg (by omega), if_neg (by omega), if_neg (by omega)]
      exact ⟨rfl, rfl⟩
    · simp [Tagged, sizes, precedings]
    · rw [sizes, if_neg behind, inv.next_header.1]
    · rw [precedings, if_neg behind]
      simp
  apply inv.splice edited _ old new
  intro other inside
  obtain rfl : other = chunk := by simpa using inside
  exact ⟨large, unit⟩

/-- The whole run becomes two chunks. -/
theorem edit_two {first second : Chunk} (cut : Cut g s middle first second h h')
    (old : ∀ a, a ∈ pending ↔ Marked false (place (s.start g) middle) a)
    (new : ∀ a, a ∈ pending' ↔ Marked false (place (s.start g) [first, second]) a) :
    Inv g h' (s.fill [first, second]) nodes pending' := by
  obtain ⟨rest, same, large, unit, sizes, precedings⟩ := cut
  have least := g.freeNode_pos
  have behind : s.start g + total middle ≠ s.start g := by omega
  have behindSecond : s.start g + total middle ≠ s.start g + first.size := by omega
  have nonzero : first.size ≠ 0 := by omega
  have edited : Edited g s middle [first, second] h h' := by
    refine ⟨rest, by simpa using same, ?_, ?_, ?_, ?_⟩
    · intro x outside
      rw [sizes, precedings, if_neg (by omega), if_neg (by omega), if_neg (by omega),
        if_neg (by omega), if_neg (by omega)]
      exact ⟨rfl, rfl⟩
    · simp [Tagged, sizes, precedings, nonzero]
    · rw [sizes, if_neg behind, if_neg behindSecond, inv.next_header.1]
    · rw [precedings, if_neg behind, if_neg behindSecond]
      simp
  apply inv.splice edited _ old new
  intro chunk inside
  simp only [mem_cons, not_mem_nil, or_false] at inside
  rcases inside with rfl | rfl
  · exact ⟨large.1, unit.1⟩
  · exact ⟨large.2, unit.2⟩

end

theorem unlink (inv : Inv g h layout nodes pending) {a : Nat} {chunk : Chunk}
    (placed : (a, chunk) ∈ places g layout) (free : chunk.used = false) (fresh : a ∉ pending) :
    ∃ flink blink, h.unlink (.chunk a) = some { h with flink := flink, blink := blink } ∧
      Inv g { h with flink := flink, blink := blink } layout (nodes.erase (.chunk a))
        (a :: pending) := by
  have inside : .chunk a ∈ nodes := (inv.listed a).mpr ⟨⟨chunk, placed, free⟩, fresh⟩
  obtain ⟨flink, blink, result, list⟩ := unlink_spec inv.list inside
  refine ⟨flink, blink, result, inv.bounds, inv.tagged, inv.shape, inv.apart, list, ?_, inv.logged⟩
  intro x
  rw [inv.list.distinct.mem_erase_iff, inv.listed x, mem_cons, not_or, ne_eq, Node.chunk.injEq]
  tauto

theorem addfreechunk (inv : Inv g h layout nodes (a :: pending)) {chunk : Chunk}
    (placed : (a, chunk) ∈ places g layout) (free : chunk.used = false) (once : a ∉ pending) :
    ∃ flink blink nodes', mmAddfreechunk g h (.chunk a) =
        some { h with
          flink := flink
          blink := blink
          inserted := chunk.size :: h.inserted } ∧
      Inv g { h with flink := flink, blink := blink, inserted := chunk.size :: h.inserted }
        layout nodes' pending := by
  have absent : .chunk a ∉ nodes := fun inside => ((inv.listed a).mp inside).2 (by simp)
  have size := (inv.place_header placed).1
  have fits := inv.place_fits placed
  have least := g.freeNode_pos
  simp only at size fits
  obtain ⟨flink, blink, nodes', result, list, members⟩ :=
    mmAddfreechunk_spec inv.list absent (by omega) fits.1
  rw [size] at result
  refine ⟨flink, blink, nodes', result, inv.bounds, inv.tagged, inv.shape, inv.apart, list, ?_, ?_⟩
  · intro x
    rw [members, inv.listed x, mem_cons, not_or, Node.chunk.injEq]
    constructor
    · rintro (rfl | ⟨found, _, notPending⟩)
      · exact ⟨⟨chunk, placed, free⟩, once⟩
      · exact ⟨found, notPending⟩
    · rintro ⟨found, notPending⟩
      by_cases same : x = a
      · exact Or.inl same
      · exact Or.inr ⟨found, same, notPending⟩
  · intro logged inside
    rcases mem_cons.mp inside with rfl | earlier
    · exact fits.2
    · exact inv.logged logged earlier

/-- The run becomes a chunk and a free remainder, and the remainder is put on the list. The
headers are written to `h'` first. -/
theorem carve {h₀ : Heap} {want other : Nat} {flag : Bool}
    (inv : Inv g h (s.fill middle) nodes pending)
    (cut : Cut g s middle ⟨want, flag⟩ ⟨other, false⟩ h h')
    (old : ∀ a, a ∈ pending ↔ Marked false (place (s.start g) middle) a) (frame : Frame h₀ h') :
    ∃ h'' nodes', mmAddfreechunk g h' (.chunk (s.start g + want)) = some h'' ∧
      Inv g h'' (s.fill [⟨want, flag⟩, ⟨other, false⟩]) nodes'
        (if flag then [] else [s.start g]) ∧ Frame h₀ h'' := by
  have least := g.freeNode_pos
  have large : g.freeNode ≤ want := cut.large.1
  have edited : Inv g h' (s.fill [⟨want, flag⟩, ⟨other, false⟩]) nodes
      ((s.start g + want) :: if flag then [] else [s.start g]) := by
    refine inv.edit_two cut old fun a => ?_
    cases flag with
    | true => simp
    | false => simp [or_comm]
  have placed : (s.start g + want, ⟨other, false⟩) ∈
      places g (s.fill [⟨want, flag⟩, ⟨other, false⟩]) := by
    rw [mem_places]
    simp
  obtain ⟨flink, blink, nodes', added, final⟩ := edited.addfreechunk placed rfl (by
    cases flag with
    | true => simp
    | false =>
      simp only [Bool.false_eq_true, if_false, mem_cons, not_mem_nil, or_false]
      omega)
  exact ⟨_, nodes', added, final, ⟨frame.heapsize⟩⟩

/-- The run becomes a free remainder and a chunk behind it. -/
theorem carve_front {h₀ : Heap} {want other : Nat} (inv : Inv g h (s.fill middle) nodes pending)
    (cut : Cut g s middle ⟨other, false⟩ ⟨want, true⟩ h h')
    (old : ∀ a, a ∈ pending ↔ Marked false (place (s.start g) middle) a) (frame : Frame h₀ h') :
    ∃ h'' nodes', mmAddfreechunk g h' (.chunk (s.start g)) = some h'' ∧
      Inv g h'' (s.fill [⟨other, false⟩, ⟨want, true⟩]) nodes' [] ∧ Frame h₀ h'' := by
  have edited : Inv g h' (s.fill [⟨other, false⟩, ⟨want, true⟩]) nodes [s.start g] :=
    inv.edit_two cut old (by simp)
  have placed : (s.start g, ⟨other, false⟩) ∈
      places g (s.fill [⟨other, false⟩, ⟨want, true⟩]) := by
    rw [mem_places]
    simp
  obtain ⟨flink, blink, nodes', added, final⟩ := edited.addfreechunk placed rfl (by simp)
  exact ⟨_, nodes', added, final, ⟨frame.heapsize⟩⟩

end Inv

end Chewie.Mm

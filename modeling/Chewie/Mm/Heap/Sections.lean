import Chewie.Mm.Heap.Ownership

/-!
# Critical sections and their owners

A task enters the heap through critical sections: `mm_malloc`, `mm_free`, the first part of
`mm_realloc` and the second part of `mm_memalign` are one each. `Owned` adds to the heap invariant
that the clients' pointers are exactly the allocated chunks. Every section keeps it, never gets
stuck, and changes the layout in one of the ways `Reshaped` lists.
-/

namespace Chewie.Mm

open Tags List Option Spot

open Tags (Chunk total carry place Marked)

/-- The pointers held by clients are the allocated chunks, each held once. -/
structure Owned (g : Geometry) (h : Heap) (live : List Nat) (layout : List Region)
    (nodes : List Node) : Prop where
  inv : Inv g h layout nodes []
  owned : ∀ a, a ∈ live ↔ ∃ b, Used g layout b ∧ a = b + g.allocNode
  distinct : live.Nodup

/-- The pointers held after an allocation returned `mem`. -/
def gain (mem : Nat) (live : List Nat) : List Nat := if mem = 0 then live else mem :: live

/-- The pointer is behind the header of an allocated chunk of at least `least` bytes. -/
def Serves (g : Geometry) (layout : List Region) (mem least : Nat) : Prop :=
  ∃ a size, (a, ⟨size, true⟩) ∈ places g layout ∧ mem = a + g.allocNode ∧ least ≤ size

/-- A request whose rounded chunk size does not wrap. -/
def RequestOk (g : Geometry) (request : Nat) : Prop :=
  request + g.allocNode + g.granMask < 2 ^ g.wordBits

/-- The layouts a critical section other than the aligned cut can leave, and the pointer to the
chunk it released or resized. -/
inductive Reshaped (g : Geometry) : Option Nat → List Region → List Region → Prop where
  | same (touched : Option Nat) (layout : List Region) : Reshaped g touched layout layout
  | allocate (s : Spot) (size want : Nat) (fits : want ≤ size) :
    Reshaped g none (s.fill [⟨size, false⟩]) (s.fill (cut g want size))
  | release (s wide : Spot) (left right : List Chunk) (size : Nat)
      (wider : Widened g s wide left right) :
    Reshaped g (some (s.start g + g.allocNode)) (s.fill [⟨size, true⟩])
      (wide.fill [⟨total left + size + total right, false⟩])
  | resize (s wide : Spot) (left right : List Chunk) (size want : Nat) (layout' : List Region)
      (result : Option Nat) (wider : Widened g s wide left right)
      (resized : Resized g s wide left right size want layout' result) :
    Reshaped g (some (s.start g + g.allocNode)) (s.fill [⟨size, true⟩]) layout'

open Reshaped

section Request

variable {g : Geometry} {request : Nat}

theorem RequestOk.bounds (ok : RequestOk g request) :
    request + g.allocNode ≤ chunkSize g request ∧
      chunkSize g request < request + g.allocNode + g.minChunk :=
  chunkSize_bounds ok

theorem RequestOk.nonzero (ok : RequestOk g request) : chunkSize g request ≠ 0 := by
  have low := ok.bounds.1
  have header := g.allocNode_pos
  omega

theorem memalignAllocsize_eq {alignment size : Nat} (ok : RequestOk g (size + 2 * alignment)) :
    memalignAllocsize g alignment size = size + 2 * alignment := by
  have fits : size + 2 * alignment + g.allocNode + g.granMask < 2 ^ g.wordBits := ok
  have double : Word.wrap g.wordBits (2 * alignment) = 2 * alignment := Word.wrap_of_lt (by omega)
  rw [memalignAllocsize, double, Geometry.add_eq (by omega)]

end Request

section Served

variable {g : Geometry} {least want size : Nat}

theorem serves_at (s : Spot) (front back : List Chunk) (large : least ≤ size) :
    Serves g (s.fill (front ++ ⟨size, true⟩ :: back)) (s.start g + total front + g.allocNode)
      least :=
  ⟨_, size, place_mem, rfl, large⟩

theorem serves_cut (s : Spot) (fits : want ≤ size) :
    Serves g (s.fill (cut g want size)) (s.start g + g.allocNode) want := by
  unfold cut
  split_ifs with room
  · exact serves_at s [] [⟨size - want, false⟩] (Nat.le_refl want)
  · exact serves_at s [] [] fits

theorem Resized.serves {s wide : Spot} {left right : List Chunk} {address : Nat}
    {layout' : List Region}
    (resized : Resized g s wide left right size want layout' (some address)) :
    Serves g layout' (address + g.allocNode) want := by
  cases resized with
  | shrink smaller => exact serves_cut { s with after := wide.after } (by omega)
  | keep same => exact serves_at s [] [] (by omega)
  | grow larger takeprev takenext sum prevFits nextFits =>
    have own := @serves_at g want want wide (gap (total left - takeprev))
      (gap (total right - takenext)) (Nat.le_refl want)
    rw [total_gap] at own
    exact own

theorem Serves.mono {layout : List Region} {mem fewer : Nat} (serves : Serves g layout mem least)
    (less : fewer ≤ least) : Serves g layout mem fewer := by
  obtain ⟨a, size, placed, address, large⟩ := serves
  exact ⟨a, size, placed, address, Nat.le_trans less large⟩

theorem AlignedCut.serves {s wide : Spot} {right : List Chunk} {skip : Nat} {layout' : List Region}
    (shape : AlignedCut g s wide right size want skip layout') (enough : least ≤ want)
    (room : least ≤ size - skip) : Serves g layout' (s.start g + skip + g.allocNode) least := by
  have starts : s.start g + skip =
      start g { s with before := s.before ++ gap skip, after := wide.after } := by
    simp [start, Nat.add_assoc]
  rw [starts]
  cases shape with
  | shrink fits =>
    have fits' : want ≤ size - skip + total right := by omega
    exact (serves_cut _ fits').mono enough
  | whole => exact serves_at { s with before := s.before ++ gap skip } [] [] room

end Served

section Held

variable {live : List Nat} {used : Nat → Prop} {header : Nat}
  (held : ∀ a, a ∈ live ↔ ∃ b, used b ∧ a = b + header) (distinct : live.Nodup)

include held distinct

theorem held_cons {new : Nat} (fresh : ¬used new) : ((new + header) :: live).Nodup ∧
    ∀ a, a ∈ (new + header) :: live ↔ ∃ b, (used b ∨ b = new) ∧ a = b + header := by
  constructor
  · rw [nodup_cons, held]
    refine ⟨?_, distinct⟩
    rintro ⟨b, taken, same⟩
    obtain rfl : new = b := by omega
    exact fresh taken
  · intro a
    simp only [mem_cons, held, or_and_right, exists_or, exists_eq_left]
    exact or_comm

theorem held_erase (old : Nat) : (live.erase (old + header)).Nodup ∧
    ∀ a, a ∈ live.erase (old + header) ↔ ∃ b, (used b ∧ b ≠ old) ∧ a = b + header := by
  refine ⟨distinct.erase _, fun a => ?_⟩
  rw [distinct.mem_erase_iff, held]
  constructor
  · rintro ⟨differs, b, taken, rfl⟩
    exact ⟨b, ⟨taken, fun same => differs (by rw [same])⟩, rfl⟩
  · rintro ⟨b, ⟨taken, differs⟩, rfl⟩
    exact ⟨by omega, b, taken, rfl⟩

end Held

section Sections

variable {g : Geometry} {h : Heap} {live : List Nat} {layout : List Region} {nodes : List Node}

section

variable (owned : Owned g h live layout nodes)

include owned

theorem Owned.spot {mem : Nat} (held : mem ∈ live) :
    ∃ s size, layout = fill s [⟨size, true⟩] ∧ mem = s.start g + g.allocNode := by
  obtain ⟨b, used, address⟩ := (owned.owned mem).mp held
  obtain ⟨s, size, filled, rfl⟩ := used.spot
  exact ⟨s, size, filled, address⟩

theorem Owned.not_null {mem : Nat} (held : mem ∈ live) : mem ≠ 0 := by
  obtain ⟨b, _, rfl⟩ := (owned.owned mem).mp held
  have header := g.allocNode_pos
  omega

section

variable {nodes' : List Node} {h' : Heap} {layout' : List Region} (inv : Inv g h' layout' nodes' [])

include inv

theorem Owned.add {new : Nat} (used : ∀ a, Used g layout' a ↔ Used g layout a ∨ a = new)
    (fresh : ¬Used g layout new) : Owned g h' ((new + g.allocNode) :: live) layout' nodes' := by
  obtain ⟨distinct, held⟩ := held_cons owned.owned owned.distinct fresh
  exact ⟨inv, by simpa only [used] using held, distinct⟩

theorem Owned.replace {old new : Nat}
    (used : ∀ a, Used g layout' a ↔ (Used g layout a ∧ a ≠ old) ∨ a = new)
    (fresh : Used g layout new → new = old) :
    Owned g h' ((new + g.allocNode) :: live.erase (old + g.allocNode)) layout' nodes' := by
  obtain ⟨distinct, held⟩ := held_erase owned.owned owned.distinct old
  obtain ⟨distinct, held⟩ := held_cons held distinct fun both => both.2 (fresh both.1)
  exact ⟨inv, by simpa only [used] using held, distinct⟩

theorem Owned.remove {old : Nat} (used : ∀ a, Used g layout' a ↔ Used g layout a ∧ a ≠ old) :
    Owned g h' (live.erase (old + g.allocNode)) layout' nodes' := by
  obtain ⟨distinct, held⟩ := held_erase owned.owned owned.distinct old
  exact ⟨inv, by simpa only [used] using held, distinct⟩

end

theorem mmMalloc_owned {request : Nat} (nonzero : request = 0 ∨ chunkSize g request ≠ 0) :
    ∃ h' mem layout' nodes', mmMalloc g h request = some (h', mem) ∧
      Owned g h' (gain mem live) layout' nodes' ∧ Reshaped g none layout layout' ∧ Frame h h' ∧
      (mem ≠ 0 → Serves g layout' mem (chunkSize g request)) := by
  have inv := owned.inv
  have header := g.allocNode_pos
  by_cases empty : request = 0
  · refine ⟨h, 0, layout, nodes, ?_, owned, same none layout, ⟨rfl⟩, by simp⟩
    rw [mmMalloc, if_pos (by omega)]
  have rounds : chunkSize g request ≠ 0 := by
    rcases nonzero with zero | rounds
    · exact absurd zero empty
    · exact rounds
  rcases mmMalloc_spec inv (Nat.pos_of_ne_zero empty) rounds with
    ⟨failed, _⟩ | ⟨s, size, h', nodes', allocates, result, final, frame⟩
  · exact ⟨h, 0, layout, nodes, failed, owned, same none layout, ⟨rfl⟩, by simp⟩
  · obtain ⟨rfl, fits, _⟩ := allocates
    have notNull : s.start g + g.allocNode ≠ 0 := by omega
    refine ⟨h', _, _, nodes', result, ?_, allocate s size _ fits, frame, ?_⟩
    · rw [gain, if_neg notNull]
      refine owned.add final (fun a => ?_) (not_used_free inv)
      rw [inv.used_fill (by rw [total_cut fits]; simp)]
      simp
    · exact fun _ => serves_cut s fits

theorem mmFree_owned {mem : Nat} (held : mem ∈ live) :
    ∃ h' layout' nodes', mmFree g h mem = some h' ∧ Owned g h' (live.erase mem) layout' nodes' ∧
      Reshaped g (some mem) layout layout' ∧ Frame h h' := by
  obtain ⟨s, size, rfl, rfl⟩ := owned.spot held
  obtain ⟨wide, left, right, wider⟩ := Widened.of_spot g s
  obtain ⟨h', nodes', freed, final, frame⟩ := mmFree_spec owned.inv wider
  refine ⟨h', _, nodes', freed, owned.remove final (fun a => ?_),
    release s wide left right size wider, frame⟩
  have inv := owned.inv
  rw [wider.fill] at inv ⊢
  rw [inv.used_fill (by simp [Nat.add_assoc]), wider.marked]
  simp

end

theorem Resized.fresh {s wide : Spot} {left right : List Chunk} {size want address : Nat}
    {layout' : List Region} (inv : Inv g h (s.fill [⟨size, true⟩]) nodes [])
    (wider : Widened g s wide left right)
    (resized : Resized g s wide left right size want layout' (some address))
    (used : Used g (s.fill [⟨size, true⟩]) address) : address = s.start g := by
  cases resized with
  | shrink smaller => rfl
  | keep same => rfl
  | grow larger takeprev takenext sum prevFits nextFits =>
    rw [wider.fill] at inv used
    rcases (marked_places _ _).mp used with outside | inside
    · have apart := inv.marked_outside outside
      have sizes := (inv.sizes ⟨size, true⟩ (by simp)).1
      simp only [total_append, total_cons, total_nil] at apart sizes
      omega
    · exact (wider.marked size _).mp inside

theorem reallocInPlace_owned (owned : Owned g h live layout nodes) {mem request : Nat}
    (held : mem ∈ live) (nonzero : chunkSize g request ≠ 0)
    (usable : GrowthUsable g h mem request) :
    ∃ h' result layout' nodes', reallocInPlace g h mem request = some (h', result) ∧
      Owned g h' (match result with
        | some new => new :: live.erase mem
        | none => live) layout' nodes' ∧ Reshaped g (some mem) layout layout' ∧ Frame h h' ∧
      ∀ new ∈ result, Serves g layout' new (chunkSize g request) := by
  obtain ⟨s, size, rfl, rfl⟩ := owned.spot held
  obtain ⟨wide, left, right, wider⟩ := Widened.of_spot g s
  obtain ⟨h', nodes', layout', result, performed, resized, final, frame⟩ :=
    reallocInPlace_spec owned.inv wider nonzero usable
  have reshaped : Reshaped g (some (s.start g + g.allocNode)) (s.fill [⟨size, true⟩]) layout' :=
    resize s wide left right size _ layout' result wider resized
  cases result with
  | some address =>
    refine ⟨h', _, layout', nodes', performed, ?_, reshaped, frame, ?_⟩
    · exact owned.replace final (used_resize owned.inv wider resized)
        (resized.fresh owned.inv wider)
    · simpa using resized.serves
  | none =>
    refine ⟨h', none, layout', nodes', performed, ?_, reshaped, frame, by simp⟩
    cases resized with
    | move short => exact ⟨final, owned.owned, owned.distinct⟩

/-- What the aligned cut did to the layout: `mem` was the payload of the raw chunk and the aligned
one starts `skip` bytes behind it. -/
structure Cutting (g : Geometry) (layout layout' : List Region) (mem request : Nat) (s wide : Spot)
    (left right : List Chunk) (size skip : Nat) : Prop where
  raw : layout = s.fill [⟨size, true⟩]
  payload : mem = s.start g + g.allocNode
  wider : Widened g s wide left right
  fits : request + g.allocNode ≤ size - skip
  shape : AlignedCut g s wide right size (chunkSize g request) skip layout'

/-- The second section of `mm_memalign` on a held pointer with room for two alignment points. -/
theorem memalignCut_owned (owned : Owned g h live layout nodes) {mem exponent request : Nat}
    (held : mem ∈ live) (coarse : g.minChunk < 2 ^ exponent)
    (serves : Serves g layout mem (request + 2 * 2 ^ exponent + g.allocNode)) :
    ∃ h' skip layout' nodes' s wide left right size,
      memalignCut g h (2 ^ exponent) request (request + 2 * 2 ^ exponent) mem =
        some (h', mem + skip) ∧
      Owned g h' ((mem + skip) :: live.erase mem) layout' nodes' ∧ Frame h h' ∧
      2 ^ exponent ∣ mem + skip ∧
      Cutting g layout layout' mem request s wide left right size skip ∧
      Serves g layout' (mem + skip) (request + g.allocNode) := by
  have header := g.allocNode_pos
  obtain ⟨s, size, rfl, rfl⟩ := owned.spot held
  obtain ⟨wide, left, right, wider⟩ := Widened.of_spot g s
  have inv := owned.inv
  have bounds := inv.one.bounds
  have room : request + 2 * 2 ^ exponent + g.allocNode ≤ size := by
    obtain ⟨a, rawsize, placed, address, large⟩ := serves
    have same : a = s.start g := by omega
    have other := (inv.place_header placed).1
    rw [same, inv.one.own] at other
    exact other ▸ large
  obtain ⟨h', nodes', layout', skip, performed, divides, shape, usable, payload, final, frame⟩ :=
    memalignCut_spec inv wider coarse room
  have moved : s.start g + g.allocNode + skip = s.start g + skip + g.allocNode := by omega
  have inside : skip < size := by omega
  rw [← moved] at performed divides
  refine ⟨h', skip, layout', nodes', s, wide, left, right, size, performed, ?_, frame, divides,
    ⟨rfl, rfl, wider, payload, shape⟩, ?_⟩
  · rw [moved]
    apply owned.replace final (used_align inv wider (Nat.le_of_lt inside) shape)
    intro used
    rcases (marked_places _ _).mp used with outside | own
    · have apart := inv.marked_outside outside
      simp only [total_cons, total_nil] at apart
      omega
    · simpa using own
  · rw [moved]
    have mask : g.granMask < g.minChunk := by
      have positive := g.minChunk_pos
      unfold Geometry.granMask
      omega
    exact shape.serves (@chunkSize_bounds g request (by omega)).1 payload

end Sections

/-- The bytes of all regions, guards included. -/
def bytes (g : Geometry) (layout : List Region) : Nat :=
  (layout.map fun r => total r.chunks + 2 * g.allocNode).sum

section Bytes

variable {g : Geometry} {s : Spot} {layout layout' : List Region}

theorem Widened.fill_shrunk {wide : Spot} {left right : List Chunk}
    (wider : Widened g s wide left right) (front middle : List Chunk) :
    Spot.fill { s with before := s.before ++ front, after := wide.after } middle =
      wide.fill (left ++ (front ++ middle)) := by
  simp [Spot.fill, wider.before, wider.earlier, wider.base, wider.later]

/-- A run of chunks is exchanged for another of the same size, and no allocated chunk but the
touched one was in it. -/
def Exchanged (g : Geometry) (touched : Option Nat) (layout layout' : List Region) : Prop :=
  layout' = layout ∨ ∃ s middle middle', layout = Spot.fill s middle ∧ layout' = s.fill middle' ∧
    total middle' = total middle ∧
    ∀ a, Marked true (place (s.start g) middle) a → touched = some (a + g.allocNode)

theorem Reshaped.exchanged {touched : Option Nat} (reshaped : Reshaped g touched layout layout') :
    Exchanged g touched layout layout' := by
  cases reshaped with
  | same => exact Or.inl rfl
  | allocate s size want fits =>
    exact Or.inr ⟨s, _, _, rfl, rfl, by simp [total_cut fits], by simp⟩
  | release s wide left right size wider =>
    refine Or.inr ⟨wide, _, _, wider.fill _, rfl, by simp [Nat.add_assoc], fun a marked => ?_⟩
    rw [(wider.marked size a).mp marked]
  | resize s wide left right size want layout' result wider resized =>
    have only : ∀ a, Marked true (place (wide.start g) (left ++ [⟨size, true⟩] ++ right)) a →
        some (s.start g + g.allocNode) = some (a + g.allocNode) := by
      intro a marked
      rw [(wider.marked size a).mp marked]
    cases resized with
    | shrink smaller =>
      have view := wider.fill_shrunk [] (cut g want (size + total right))
      rw [append_nil] at view
      refine Or.inr ⟨wide, _, _, wider.fill _, view, ?_, only⟩
      simp [total_cut (show want ≤ size + total right by omega)]
    | grow larger takeprev takenext sum prevFits nextFits =>
      refine Or.inr ⟨wide, _, _, wider.fill _, rfl, ?_, only⟩
      simp only [total_append, total_cons, total_gap, total_nil]
      omega
    | keep | move => exact Or.inl rfl

theorem Cutting.exchanged {mem request size skip : Nat} {wide : Spot} {left right : List Chunk}
    (cutting : Cutting g layout layout' mem request s wide left right size skip) :
    Exchanged g (some mem) layout layout' := by
  have header := g.allocNode_pos
  have fits := cutting.fits
  have wider := cutting.wider
  rw [cutting.raw, cutting.payload]
  cases cutting.shape with
  | shrink room =>
    refine Or.inr ⟨wide, _, _, wider.fill _, wider.fill_shrunk _ _, ?_, fun a marked => ?_⟩
    · simp only [total_append, total_gap, total_cons, total_nil]
      rw [total_cut (by omega)]
      omega
    · rw [(wider.marked size a).mp marked]
  | whole =>
    refine Or.inr ⟨s, _, gap skip ++ [⟨size - skip, true⟩], rfl, by simp [fill], ?_, ?_⟩
    · simp only [total_append, total_gap, total_cons, total_nil]
      omega
    · simp

theorem Exchanged.bytes {touched : Option Nat} (exchanged : Exchanged g touched layout layout') :
    bytes g layout' = bytes g layout := by
  obtain rfl | ⟨s, middle, middle', rfl, rfl, same, _⟩ := exchanged
  · rfl
  · simp [Mm.bytes, fill, same]

theorem Exchanged.keeps {touched : Option Nat} {entry : Nat × Chunk}
    (exchanged : Exchanged g touched layout layout') (placed : entry ∈ places g layout)
    (used : entry.2.used = true) (other : touched ≠ some (entry.1 + g.allocNode)) :
    entry ∈ places g layout' := by
  obtain rfl | ⟨s, middle, middle', rfl, rfl, same, only⟩ := exchanged
  · exact placed
  · rw [mem_places] at placed ⊢
    rw [same]
    exact Or.inl (placed.resolve_right fun inside => other (only _ ⟨entry.2, inside, used⟩))

theorem Serves.keeps {mem least : Nat} (serves : Serves g layout mem least)
    (kept : ∀ entry ∈ places g layout, entry.2.used = true → mem = entry.1 + g.allocNode →
      entry ∈ places g layout') : Serves g layout' mem least := by
  obtain ⟨a, size, placed, address, large⟩ := serves
  exact ⟨a, size, kept _ placed rfl address, address, large⟩

end Bytes

section Calls

variable {g : Geometry} {h : Heap} {live : List Nat} {layout : List Region} {nodes : List Node}

/-- `mm_memalign` hands out an aligned chunk of its own. -/
theorem mmMemalign_owned (owned : Owned g h live layout nodes) {exponent request : Nat}
    (coarse : g.minChunk < 2 ^ exponent) (rounds : request + g.granMask < 2 ^ g.wordBits)
    (ok : RequestOk g (g.alignUp request + 2 * 2 ^ exponent)) :
    ∃ h' mem layout' nodes', mmMemalign g h (2 ^ exponent) request = some (h', mem) ∧
      Owned g h' (gain mem live) layout' nodes' ∧ Frame h h' ∧
      bytes g layout' = bytes g layout ∧
      (mem ≠ 0 → 2 ^ exponent ∣ mem ∧ Serves g layout' mem (request + g.allocNode)) := by
  have bounds := Geometry.alignUp_bounds rounds
  have allocsize := memalignAllocsize_eq ok
  obtain ⟨h₁, raw, layout₁, nodes₁, allocated, owned₁, reshaped, frame₁, found⟩ :=
    mmMalloc_owned owned (Or.inr ok.nonzero)
  have unfolded : mmMemalign g h (2 ^ exponent) request =
      if raw = 0 then some (h₁, 0)
      else memalignCut g h₁ (2 ^ exponent) (g.alignUp request)
        (g.alignUp request + 2 * 2 ^ exponent) raw := by
    rw [mmMemalign, if_neg (by omega)]
    simp [allocsize, allocated]
  rw [unfolded]
  by_cases failed : raw = 0
  · refine ⟨h₁, 0, layout₁, nodes₁, by rw [if_pos failed], ?_, frame₁, reshaped.exchanged.bytes, by simp⟩
    rw [failed] at owned₁
    exact owned₁
  rw [gain, if_neg failed] at owned₁
  obtain ⟨h₂, skip, layout₂, nodes₂, _, _, _, _, _, performed, owned₂, frame₂, divides, cutting,
      serves⟩ :=
    memalignCut_owned owned₁ (mem_cons_self ..) coarse ((found failed).mono ok.bounds.1)
  rw [erase_cons_head] at owned₂
  refine ⟨h₂, raw + skip, layout₂, nodes₂, ?_, ?_, frame₁.trans frame₂,
    cutting.exchanged.bytes.trans reshaped.exchanged.bytes, ?_⟩
  · rw [if_neg failed]
    exact performed
  · rw [gain, if_neg (by omega)]
    exact owned₂
  · intro _
    exact ⟨divides, serves.mono (by omega)⟩

/-- `mm_realloc` of NULL or of a held pointer. -/
theorem mmRealloc_owned (owned : Owned g h live layout nodes) {mem request : Nat}
    (held : mem = 0 ∨ mem ∈ live) (ok : RequestOk g request)
    (usable : mem ∈ live → GrowthUsable g h mem request) :
    ∃ h' new layout' nodes', mmRealloc g h mem request = some (h', new) ∧
      Owned g h' (if request < 1 then live.erase mem
        else if new = 0 then live else new :: live.erase mem) layout' nodes' ∧ Frame h h' ∧
      bytes g layout' = bytes g layout ∧
      (new ≠ 0 → Serves g layout' new (chunkSize g request)) := by
  by_cases null : mem = 0
  · have absent : mem ∉ live := fun inside => owned.not_null inside null
    obtain ⟨h', new, layout', nodes', allocated, owned', reshaped, frame, serves⟩ :=
      mmMalloc_owned owned (Or.inr ok.nonzero)
    refine ⟨h', new, layout', nodes', ?_, ?_, frame, reshaped.exchanged.bytes, serves⟩
    · rw [mmRealloc, if_pos null]
      exact allocated
    · rw [erase_of_not_mem absent]
      by_cases empty : request < 1
      · have none : new = 0 := by
          rw [mmMalloc, if_pos empty] at allocated
          simp only [Option.some.injEq, Prod.mk.injEq] at allocated
          exact allocated.2.symm
        rw [if_pos empty]
        rw [gain, if_pos none] at owned'
        exact owned'
      · rw [if_neg empty]
        exact owned'
  · have inside : mem ∈ live := by
      rcases held with zero | inside
      · exact absurd zero null
      · exact inside
    by_cases empty : request < 1
    · obtain ⟨h', layout', nodes', freed, owned', reshaped, frame⟩ := mmFree_owned owned inside
      refine ⟨h', 0, layout', nodes', ?_, ?_, frame, reshaped.exchanged.bytes, by simp⟩
      · rw [mmRealloc, if_neg null, if_pos empty, freed]
        rfl
      · rw [if_pos empty]
        exact owned'
    obtain ⟨h₁, result, layout₁, nodes₁, performed, owned₁, reshaped₁, frame₁, serves₁⟩ :=
      reallocInPlace_owned owned inside ok.nonzero (usable inside)
    simp only [if_neg empty]
    cases result with
    | some new =>
      have notNull : new ≠ 0 := owned₁.not_null (mem_cons_self ..)
      refine ⟨h₁, new, layout₁, nodes₁, ?_, ?_, frame₁, reshaped₁.exchanged.bytes,
        fun _ => serves₁ new rfl⟩
      · rw [mmRealloc, if_neg null, if_neg empty, performed]
        rfl
      · rw [if_neg notNull]
        exact owned₁
    | none =>
      obtain ⟨h₂, new, layout₂, nodes₂, allocated, owned₂, reshaped₂, frame₂, serves₂⟩ :=
        mmMalloc_owned owned₁ (Or.inr ok.nonzero)
      by_cases failed : new = 0
      · refine ⟨h₂, 0, layout₂, nodes₂, ?_, ?_, frame₁.trans frame₂,
          reshaped₂.exchanged.bytes.trans reshaped₁.exchanged.bytes, by simp⟩
        · rw [mmRealloc, if_neg null, if_neg empty, performed]
          simp [allocated, if_pos failed]
        · rw [gain, if_pos failed] at owned₂
          simpa using owned₂
      rw [gain, if_neg failed] at owned₂
      have differs : new ≠ mem := by
        rintro rfl
        exact (nodup_cons.mp owned₂.distinct).1 inside
      obtain ⟨h₃, layout₃, nodes₃, freed, owned₃, reshaped₃, frame₃⟩ :=
        mmFree_owned owned₂ (mem_cons_of_mem _ inside)
      have order : (new :: live).erase mem = new :: live.erase mem :=
        erase_cons_tail (by simpa using differs)
      rw [order] at owned₃
      refine ⟨h₃, new, layout₃, nodes₃, ?_, ?_,
        frame₁.trans (frame₂.trans frame₃),
        reshaped₃.exchanged.bytes.trans (reshaped₂.exchanged.bytes.trans reshaped₁.exchanged.bytes), ?_⟩
      · rw [mmRealloc, if_neg null, if_neg empty, performed]
        simp only [bind_eq_bind, bind_some, allocated, if_neg failed, freed]
      · rw [if_neg failed]
        exact owned₃
      · intro _
        apply (serves₂ failed).keeps
        intro entry placed used address
        apply reshaped₃.exchanged.keeps placed used
        intro touched
        exact differs (address.trans (Option.some.inj touched).symm)

end Calls

end Chewie.Mm
